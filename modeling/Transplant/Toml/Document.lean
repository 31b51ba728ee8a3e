import Transplant.Toml.Literal

/-! A configuration text line by line. A line holds a key and its value, the header of a table, or
nothing; the tables are filled when all lines have been read. -/
namespace Transplant.Toml

open Reader

def comment : Reader Unit := char '#' *> discard (takeWhile isPlain)

def blanks : Reader Unit := discard (takeWhile isBlank)

/-- Blanks, comments and line breaks. -/
def gap : Reader Unit :=
  discard (many (discard (satisfy isBlank) <|> (optional comment *> newline)))

def isBare (c : Char) : Bool := c.isAlphanum || c == '-' || c == '_'

def bareKey : Reader Text := return (← satisfy isBare) :: (← takeWhile isBare)

def simpleKey : Reader String :=
  return String.ofList (← bareKey <|> Literal.basicString <|> Literal.literalString)

/-- How deep values may stand inside each other, and how many parts a key may have. -/
def maxDepth : Nat := 79

def keyPath : Reader (List String) := do
  let keys ← separated (char '.') (blanks *> simpleKey <* blanks)
  if keys.length ≤ maxDepth then return keys else failure

/-- A key with its value, up to the value's last character. -/
def pair (value : Reader Value) : Reader (List String × Value) := do
  let path ← keyPath
  char '='
  blanks
  return (path,← value)

/-- Values in brackets over any number of lines, with or without a comma behind the last one. -/
def array (value : Reader Value) : Reader Value := do
  char '['
  let items ← optional (separated (char ',') (gap *> value <* gap) <* optional (char ','))
  gap
  char ']'
  return .array (items.getD [])

/-- Pairs in braces on one line. -/
def inlineTable (value : Reader Value) : Reader Value := do
  char '\x7b'
  let pairs ← optional (separated (char ',') (pair value <* blanks))
  blanks
  char '\x7d'
  match Entries.ofPairs (pairs.getD []) with
  | some entries => return .table .inline entries
  | none => failure

/-- A value in which at most `depth` others contain each other. -/
def value : Nat → Reader Value
  | 0 => scalar
  | depth + 1 => scalar <|> array (value depth) <|> inlineTable (value depth)

inductive Statement where
  | entry (path : List String) (value : Value)
  | table (path : List String)
  | element (path : List String)
deriving Repr

def statement : Reader Statement :=
  (.element <$> (word ['[','['] *> keyPath <* word [']',']'])) <|>
    (.table <$> (char '[' *> keyPath <* char ']')) <|>
    (fun (path,value) => .entry path value) <$> pair (value maxDepth)

def line : Reader (Option Statement) :=
  blanks *> optional statement <* blanks <* optional comment

/-- The statements of a text, which may begin with a byte order mark. -/
def statements : Reader (List Statement) := do
  discard (optional (char '\ufeff'))
  let lines ← many (line <* newline)
  let last ← line
  return (lines ++ [last]).filterMap id

structure Document where
  root : Entries
  /-- The path of the last header. -/
  current : List String
deriving Repr

namespace Document

/-- The table inside which a path ends, and its last key. -/
def atLast (path : List String) (change : String → Entries → Option Entries) (root : Entries) :
    Option Entries :=
  path.getLast?.bind fun key => root.within (change key) path.dropLast

def add (document : Document) : Statement → Option Document
  | .entry path value =>
    (document.root.within (Entries.assign value true path) document.current).map
      fun root => { document with root }
  | .table path => (atLast path Entries.openTable document.root).map fun root => ⟨root,path⟩
  | .element path => (atLast path Entries.openElement document.root).map fun root => ⟨root,path⟩

end Document

/-- The root table of a configuration text, if it is well formed and defines nothing twice. -/
def parse (text : Text) : Option Entries := do
  let statements ← statements.whole text
  let document ← statements.foldlM Document.add ⟨[],[]⟩
  return document.root

end Transplant.Toml
