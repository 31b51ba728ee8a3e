import Transplant.Java.Token
import Transplant.Java.Type

/-! Reading from a token sequence. A cursor knows how many tokens it has passed and which follow.
Reading gives places as boundaries between tokens, counted from the start of the text: boundary
`2 * k + 1` is the start of token `k`, boundary `2 * k + 2` its end. So all that is read depends on
kinds and spellings alone, and the layout of the source enters when boundaries are looked up. -/
namespace Transplant.Java

open Token (Kind)

structure Cursor where
  passed : Nat
  rest : List Token
deriving DecidableEq, Repr

namespace Cursor

def atEnd (cursor : Cursor) : Bool := cursor.rest.isEmpty

/-- Where the next token starts; behind the last token, the end of the text. -/
def nextStart (cursor : Cursor) : Nat := 2 * cursor.passed + 1

/-- Where the token before ends; before the first token, the start of the text. -/
def lastStop (cursor : Cursor) : Nat := 2 * cursor.passed

def nextSpan (cursor : Cursor) : Span := ⟨cursor.nextStart,cursor.nextStart + 1⟩

def next? (cursor : Cursor) : Option Token := cursor.rest.head?

def sees (cursor : Cursor) (kind : Kind) : Bool :=
  match cursor.rest with
  | token :: _ => token.kind == kind
  | [] => false

def seesAny (cursor : Cursor) (kinds : List Kind) : Bool := kinds.any cursor.sees

def seesWord (cursor : Cursor) (word : String) : Bool :=
  match cursor.rest with
  | token :: _ => token.isWord word
  | [] => false

def skip (cursor : Cursor) (count : Nat) : Cursor :=
  ⟨cursor.passed + (cursor.rest.take count).length,cursor.rest.drop count⟩

/-- Takes a token of the given kind. Another one stays, and the missing one counts as empty behind
the token before. -/
def expect (kind : Kind) (cursor : Cursor) : Ident × Cursor :=
  match cursor.rest with
  | token :: _ =>
    if token.kind = kind then (⟨token.text,cursor.nextSpan⟩,cursor.skip 1)
    else (⟨"",.empty cursor.lastStop⟩,cursor)
  | [] => (⟨"",.empty cursor.lastStop⟩,cursor)

end Cursor

/-- How many tokens follow up to and with the one that closes `depth` open brackets. -/
def nestedLength (opening closing : Kind) : Nat → List Token → Nat
  | 0,_ => 0
  | _,[] => 0
  | depth + 1,token :: rest =>
    let depth :=
      if token.kind = opening then depth + 2 else if token.kind = closing then depth else depth + 1
    nestedLength opening closing depth rest + 1

/-- How many tokens come before the first one, outside of brackets, of a kind in `stops`. Inside
of brackets only their own kind is counted. -/
def outsideLength (stops : List Kind) (brackets : List (Kind × Kind)) :
    Option (Kind × Kind × Nat) → List Token → Nat
  | _,[] => 0
  | none,token :: rest =>
    if stops.contains token.kind then 0
    else
      let inside := (brackets.find? (·.1 == token.kind)).map fun pair => (pair.1,pair.2,0)
      outsideLength stops brackets inside rest + 1
  | some (opening,closing,depth),token :: rest =>
    let inside :=
      if token.kind = opening then some (opening,closing,depth + 1)
      else if token.kind = closing then
        if depth = 0 then none else some (opening,closing,depth - 1)
      else some (opening,closing,depth)
    outsideLength stops brackets inside rest + 1

abbrev Parser := StateM Cursor

namespace Parser

def sees (kind : Kind) : Parser Bool := return (← get).sees kind

def seesWord (word : String) : Parser Bool := return (← get).seesWord word

def nextStart : Parser Nat := return (← get).nextStart

def lastStop : Parser Nat := return (← get).lastStop

def skip (count : Nat) : Parser Unit := modify (·.skip count)

def expect (kind : Kind) : Parser Ident := modifyGet (Cursor.expect kind)

def eat (kind : Kind) : Parser Bool := do
  if ← sees kind then
    skip 1
    return true
  else return false

def eatWord (word : String) : Parser Bool := do
  if ← seesWord word then
    skip 1
    return true
  else return false

/-- The span from a boundary to the end of the token before. -/
def spanFrom (start : Nat) : Parser Span := return .upTo start (← lastStop)

def skipWhile (keep : Kind → Bool) : Parser Unit := modify fun cursor =>
  cursor.skip (cursor.rest.takeWhile fun token => keep token.kind).length

/-- Passes from an opening bracket to the one that closes it. -/
def skipNested (opening closing : Kind) : Parser Unit := do
  if ← eat opening then
    modify fun cursor => cursor.skip (nestedLength opening closing 1 cursor.rest)

def skipOutside (stops : List Kind) (brackets : List (Kind × Kind)) : Parser Unit :=
  modify fun cursor => cursor.skip (outsideLength stops brackets none cursor.rest)

def parens : Kind × Kind := (.parenOpen,.parenClose)

def braces : Kind × Kind := (.braceOpen,.braceClose)

def brackets : Kind × Kind := (.bracketOpen,.bracketClose)

/-- Passes to the end of a statement or of the block around it. -/
def skipStatement : Parser Unit := skipOutside [.semicolon,.braceClose] [parens,braces]

/-- Gives a reader more turns than there are tokens left. -/
def bounded {α : Type} (read : Nat → Parser α) : Parser α := do
  read ((← get).rest.length + 1)

def iterate {α : Type} (step : α → Parser (Option α)) : Nat → α → Parser α
  | 0,a => pure a
  | turns + 1,a => do
    match ← step a with
    | some next => iterate step turns next
    | none => pure a

/-- Repeats a step until it answers `none`. -/
def repeated {α : Type} (step : α → Parser (Option α)) (a : α) : Parser α :=
  bounded fun turns => iterate step turns a

def collect {α : Type} (item : Parser (Option α)) : Nat → Parser (List α)
  | 0 => pure []
  | turns + 1 => do
    match ← item with
    | some a => return a :: (← collect item turns)
    | none => pure []

/-- The items up to the first `none`. -/
def many {α : Type} (item : Parser (Option α)) : Parser (List α) := bounded (collect item)

def separate {α : Type} (stops : List Kind) (item : Parser α) : Nat → Parser (List α)
  | 0 => pure []
  | turns + 1 => do
    let cursor ← get
    if cursor.atEnd || cursor.seesAny stops then pure []
    else
      let a ← item
      if ← eat .comma then return a :: (← separate stops item turns)
      else return [a]

/-- Items with commas between them, up to a token of a kind in `stops` or to where a comma is
missing. -/
def separated {α : Type} (stops : List Kind) (item : Parser α) : Parser (List α) :=
  bounded (separate stops item)

def gather {α : Type} (stops : List Kind) (item : Parser (Option α)) : Nat → Parser (List α)
  | 0 => pure []
  | turns + 1 => do
    let before ← get
    if before.atEnd || before.seesAny stops then pure []
    else
      let a ← item
      if (← get).passed = before.passed then skip 1
      return a.toList ++ (← gather stops item turns)

/-- All items up to a token of a kind in `stops`. Where nothing could be read, a token is passed
over. -/
def gathered {α : Type} (stops : List Kind) (item : Parser (Option α)) : Parser (List α) :=
  bounded (gather stops item)

end Parser
end Transplant.Java
