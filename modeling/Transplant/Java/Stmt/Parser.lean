import Transplant.Java.Expr.Parser
import Transplant.Java.Stmt

/-! Reading statements. The reader of one level calls the reader of the level below for the
statements inside a statement, always after a token has been passed. A construct that is not
understood is passed over as a whole and leaves an unsupported statement. -/
namespace Transplant.Java

open Token (Kind)

namespace StmtLevel

open Java.Parser

/-- Words that begin no type where a statement is expected. -/
def statementWords : List String :=
  ["return","throw","if","else","while","for","do","try","catch","finally","switch","case","break",
    "continue","synchronized","assert","this","super","new","true","false","null","instanceof"]

def localTypeWords : List String := ["class","interface","enum","record"]

/-- Ends a statement with its semicolon. Without one, all up to the statement's end is passed over
and the statement is unsupported. -/
def terminated (start : Nat) (make : Span → Stmt) : Parser Stmt := do
  if ← eat .semicolon then return make (← spanFrom start)
  else
    skipStatement
    discard (eat .semicolon)
    return .unsupported (← spanFrom start)

/-- Whether a variable name stands here, by what follows the name and its dimensions. -/
def seesDeclarator (cursor : Cursor) : Bool :=
  cursor.sees .ident && ((dimensions (cursor.skip 1)).2).seesAny [.assign,.semicolon,.comma]

def declarators : Nat → Parser (List Declarator)
  | 0 => pure []
  | turns + 1 => do
    let name ← expect .ident
    discard dimensions
    let initializer ←
      if ← eat .assign then do pure (some (← Parser.initializer)) else pure none
    let declarator := ⟨name,initializer,← spanFrom name.span.start⟩
    if ← eat .comma then return declarator :: (← declarators turns)
    else return [declarator]

/-- A declaration of local variables, if one begins here; nothing is passed otherwise. -/
def localVariables : Parser (Option Stmt) := do
  let before ← get
  skipVariableModifiers
  let first := (← get).next?
  if first.any (statementWords.contains ·.text) then
    set before
    return none
  else
    match ← typeRef with
    | none =>
      set before
      return none
    | some type =>
      if seesDeclarator (← get) then
        let list ← bounded declarators
        return some (← terminated before.nextStart (.declare type list))
      else
        set before
        return none

variable (inner : Parser (Option Stmt))

def block : Parser Block := do
  let brace ← expect .braceOpen
  let statements ← gathered [.braceClose] inner
  discard (expect .braceClose)
  return ⟨statements,← spanFrom brace.span.start⟩

/-- The statement a condition or loop applies to; an empty one where none can be read. -/
def substatement : Parser Stmt := do
  let before ← get
  match ← inner with
  | some stmt =>
    if (← get).passed = before.passed then return .empty (.empty (← lastStop)) else return stmt
  | none => return .empty (.empty (← lastStop))

def parenCondition : Parser Expr := do
  discard (expect .parenOpen)
  let condition ← Parser.expr
  discard (expect .parenClose)
  return condition

def ifElse (start : Nat) : Parser Stmt := do
  let condition ← parenCondition
  let yes ← substatement inner
  let no ← if ← eatWord "else" then do pure (some (← substatement inner)) else pure none
  return .ifElse condition yes no (← spanFrom start)

def whileLoop (start : Nat) : Parser Stmt := do
  let condition ← parenCondition
  let body ← substatement inner
  return .whileLoop condition body (← spanFrom start)

/-- The variable of a loop over elements, with the colon behind it; nothing is passed otherwise. -/
def element : Parser (Option Param) := do
  let before ← get
  skipVariableModifiers
  match ← typeRef, (← get).rest with
  | some type,name :: colon :: _ =>
    if name.kind = .ident && colon.kind = .colon then
      let name ← expect .ident
      skip 1
      return some ⟨type,name,.upTo type.span.start name.span.stop⟩
    else
      set before
      return none
  | _,_ =>
    set before
    return none

def loopInit : Parser (List Stmt) := do
  match ← localVariables with
  | some stmt => return [stmt]
  | none =>
    let values ← separated [.semicolon,.parenClose] Parser.expr
    discard (expect .semicolon)
    return values.map fun value => .expr value value.span

def forLoop (start : Nat) : Parser Stmt := do
  discard (expect .parenOpen)
  match ← element with
  | some element =>
    let iterable ← Parser.expr
    discard (expect .parenClose)
    let body ← substatement inner
    return .forEach element iterable body (← spanFrom start)
  | none =>
    let init ← loopInit
    let condition ← if ← sees .semicolon then pure none else do pure (some (← Parser.expr))
    discard (expect .semicolon)
    let update ← separated [.parenClose] Parser.expr
    discard (expect .parenClose)
    let body ← substatement inner
    return .forLoop init condition update body (← spanFrom start)

/-- One more alternative of the types that a clause catches. -/
def caughtType (type : TypeRef) : Parser (Option TypeRef) := do
  if ← eat .pipe then
    match ← typeRef with
    | some other =>
      return some ⟨type.text ++ " | " ++ other.text,.upTo type.span.start other.span.stop⟩
    | none => return some type
  else return none

def catchClause : Parser (Option Catch) := do
  let start ← nextStart
  if ← eatWord "catch" then
    discard (expect .parenOpen)
    skipVariableModifiers
    let type ← repeated caughtType (← typeRefOrEmpty)
    let name ← expect .ident
    discard (expect .parenClose)
    let body ← block inner
    return some ⟨⟨type,name,.upTo type.span.start name.span.stop⟩,body,.upTo start body.span.stop⟩
  else return none

/-- The resources in front of the block are passed over. -/
def tryCatch (start : Nat) : Parser Stmt := do
  skipNested .parenOpen .parenClose
  let body ← block inner
  let catches ← many (catchClause inner)
  let cleanup ← if ← eatWord "finally" then do pure (some (← block inner)) else pure none
  return .tryCatch body catches cleanup (← spanFrom start)

/-- Passes over a statement of a kind that is not understood, if one begins here. -/
def passUnsupported : Parser Bool := do
  if (← eatWord "switch") then
    skipNested .parenOpen .parenClose
    skipNested .braceOpen .braceClose
    return true
  else if (← eatWord "synchronized") then
    skipNested .parenOpen .parenClose
    skipNested .braceOpen .braceClose
    return true
  else if ← eatWord "do" then
    discard (substatement inner)
    if ← eatWord "while" then skipNested .parenOpen .parenClose
    discard (expect .semicolon)
    return true
  else
    let cursor ← get
    let ahead := cursor.skip 1
    if localTypeWords.any cursor.seesWord && ahead.sees .ident then
      skipWhile (· != .braceOpen)
      skipNested .braceOpen .braceClose
      return true
    else if cursor.seesWord "assert" then
      skipStatement
      discard (expect .semicolon)
      return true
    else if cursor.sees .ident && ahead.sees .colon && !(ahead.skip 1).sees .colon then
      skip 2
      discard (substatement inner)
      return true
    else return false

/-- Ends a jump, with or without a label. -/
def jump (start : Nat) (make : Span → Stmt) : Parser Stmt := do
  discard (eat .ident)
  discard (expect .semicolon)
  return make (← spanFrom start)

def stmt : Parser (Option Stmt) := do
  let cursor ← get
  let start := cursor.nextStart
  if cursor.atEnd then return none
  else if ← eat .semicolon then return some (.empty cursor.nextSpan)
  else if ← sees .braceOpen then return some (.block (← block inner))
  else if ← eatWord "return" then
    let value ← if ← sees .semicolon then pure none else do pure (some (← Parser.expr))
    return some (← terminated start (.returns value))
  else if ← eatWord "throw" then
    let value ← Parser.expr
    return some (← terminated start (.throws value))
  else if ← eatWord "if" then return some (← ifElse inner start)
  else if ← eatWord "while" then return some (← whileLoop inner start)
  else if ← eatWord "for" then return some (← forLoop inner start)
  else if ← eatWord "try" then return some (← tryCatch inner start)
  else if ← eatWord "break" then return some (← jump start .breaks)
  else if ← eatWord "continue" then return some (← jump start .continues)
  else if ← passUnsupported inner then return some (.unsupported (← spanFrom start))
  else
    match ← localVariables with
    | some stmt => return some stmt
    | none =>
      let value ← Parser.expr
      return some (← terminated start fun span => .expr value (.upTo value.span.start span.stop))

def reader : Nat → Parser (Option Stmt)
  | 0 => pure none
  | depth + 1 => stmt fun cursor => reader depth cursor

end StmtLevel

namespace Parser

def stmt : Parser (Option Stmt) := bounded StmtLevel.reader

def block : Parser Block := StmtLevel.block stmt

end Parser
end Transplant.Java
