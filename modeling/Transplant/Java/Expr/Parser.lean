import Transplant.Java.Expr
import Transplant.Java.Type.Parser

/-! Reading expressions by precedence. The readers of one level call the readers of the level
below wherever an expression stands inside another one, and always after a token has been passed.
So as many levels as there are tokens reach every expression. -/
namespace Transplant.Java

open Token (Kind)

/-- The readers that expressions inside expressions are read with. -/
structure ExprReaders where
  expr : Parser Expr
  conditional : Parser Expr
  binary : Nat → Parser Expr
  unary : Parser Expr
  initializer : Parser Expr

namespace ExprLevel

open Java.Parser

/-- Kinds that end the construct around a missing expression and are left to it. -/
def closers : List Kind :=
  [.parenClose,.braceClose,.bracketClose,.semicolon,.comma,.colon]

def primitiveTypes : List String :=
  ["byte","short","char","int","long","float","double","boolean"]

/-- Whether a dotted name in parentheses is the type of a cast, by the token that follows. A sign
follows a cast only when the name is a primitive type. -/
def castFollows (inner : Expr) (next : Option Token) : Bool :=
  match next with
  | none => false
  | some token =>
    inner.isDotted && match token.kind with
      | .ident => token.text != "instanceof"
      | .number | .string | .char | .parenOpen | .bang => true
      | .plus | .minus =>
        match inner with
        | .name name _ => primitiveTypes.contains name
        | _ => false
      | _ => false

/-- What could not be read, up to a token of kind `close`, as one missing expression. -/
def unread (close : Kind) : Parser Expr := do
  let start ← nextStart
  skipOutside [close,.semicolon] [parens,braces,brackets]
  return .missing (← spanFrom start)

variable (inner : ExprReaders)

def argList : Parser (List Expr) := do
  discard (expect .parenOpen)
  let args ← separated [.parenClose] inner.expr
  let cursor ← get
  let args ←
    if cursor.atEnd || cursor.sees .parenClose then pure args
    else do pure (args ++ [← unread .parenClose])
  discard (expect .parenClose)
  return args

def arrayInit : Parser Expr := do
  let brace ← expect .braceOpen
  let elements ← separated [.braceClose] inner.initializer
  let elements ←
    if ← sees .braceClose then pure elements
    else do pure (elements ++ [← unread .braceClose])
  discard (expect .braceClose)
  return .arrayInit elements (← spanFrom brace.span.start)

/-- The lengths between brackets of an array creation; empty brackets give none. -/
def arrayDims : Parser (List (Option Expr)) :=
  many do
    if ← eat .bracketOpen then
      let length ← if ← sees .bracketClose then pure none else do pure (some (← inner.expr))
      discard (expect .bracketClose)
      return some length
    else return none

/-- What follows `new`. The body of an anonymous class is passed over. -/
def creation (outer : Option Expr) (start : Nat) : Parser Expr := do
  skipNested .less .greater
  let type ← typeRefOrEmpty
  if ← sees .parenOpen then
    let args ← argList inner
    let bodyStart ← nextStart
    if ← sees .braceOpen then
      skipNested .braceOpen .braceClose
      let body ← spanFrom bodyStart
      return .create outer type args [] none (some body) (← spanFrom start)
    else return .create outer type args [] none none (← spanFrom start)
  else
    let dims ← arrayDims inner
    let initializer ← if ← sees .braceOpen then do pure (some (← arrayInit inner)) else pure none
    return .create outer type [] (dims.filterMap id) initializer none (← spanFrom start)

/-- An expression in parentheses. A cast is not understood and is missing with its operand. -/
def parenthesized (start : Nat) : Parser Expr := do
  let content ← inner.expr
  discard (expect .parenClose)
  let cursor ← get
  if castFollows content cursor.next? then
    let operand ← inner.unary
    return .missing (.upTo start operand.span.stop)
  else return .paren content (← spanFrom start)

def wordExpr (word : String) (span : Span) : Expr :=
  if word = "this" then .this span
  else if word = "super" then .super span
  else if word = "true" || word = "false" then .literal .bool word span
  else if word = "null" then .literal .null word span
  else .name word span

def primary : Parser Expr := do
  let cursor ← get
  match cursor.next? with
  | none => return .missing (.empty cursor.nextStart)
  | some token =>
    if closers.contains token.kind then return .missing (.empty cursor.nextStart)
    else
      skip 1
      match token.kind with
      | .ident =>
        if token.text = "new" then creation inner none cursor.nextStart
        else return wordExpr token.text cursor.nextSpan
      | .number => return .literal .number token.text cursor.nextSpan
      | .string => return .literal .string token.text cursor.nextSpan
      | .char => return .literal .char token.text cursor.nextSpan
      | .parenOpen => parenthesized inner cursor.nextStart
      | _ => return .missing cursor.nextSpan

/-- Only names, accesses, `this` and `super` are called. -/
def isCallee : Expr → Bool
  | .name _ _ => true
  | .field _ _ _ => true
  | .this _ => true
  | .super _ => true
  | _ => false

/-- One more step of access, call, indexing or counting behind an expression. -/
def postfixStep (expr : Expr) : Parser (Option Expr) := do
  let start := expr.span.start
  if ← eat .dot then
    if ← eatWord "new" then return some (← creation inner (some expr) start)
    else
      skipNested .less .greater
      let name ← expect .ident
      return some (.field expr name (← spanFrom start))
  else if isCallee expr && (← sees .parenOpen) then
    let args ← argList inner
    return some (.call expr args (← spanFrom start))
  else if ← eat .bracketOpen then
    let position ← inner.expr
    discard (expect .bracketClose)
    return some (.index expr position (← spanFrom start))
  else if ← eat .increment then return some (.unary .increment false expr (← spanFrom start))
  else if ← eat .decrement then return some (.unary .decrement false expr (← spanFrom start))
  else return none

def postfixed : Parser Expr := do
  repeated (postfixStep inner) (← primary inner)

def leadingOp : Kind → Option UnaryOp
  | .bang => some .not
  | .minus => some .neg
  | .plus => some .plus
  | .increment => some .increment
  | .decrement => some .decrement
  | _ => none

def unary : Parser Expr := do
  let cursor ← get
  match cursor.next?.bind (leadingOp ·.kind) with
  | some op =>
    skip 1
    let operand ← inner.unary
    return .unary op true operand (.upTo cursor.nextStart operand.span.stop)
  | none => postfixed inner

/-- The operators between two operands, with their precedence. -/
def binaryOp : Kind → Option (BinaryOp × Nat)
  | .pipePipe => some (.or,1)
  | .ampAmp => some (.and,2)
  | .pipe => some (.bitOr,3)
  | .caret => some (.bitXor,4)
  | .amp => some (.bitAnd,5)
  | .equal => some (.equal,6)
  | .notEqual => some (.notEqual,6)
  | .less => some (.less,7)
  | .lessEqual => some (.lessEqual,7)
  | .greater => some (.greater,7)
  | .greaterEqual => some (.greaterEqual,7)
  | .plus => some (.add,9)
  | .minus => some (.sub,9)
  | .star => some (.mul,10)
  | .slash => some (.div,10)
  | .percent => some (.rem,10)
  | _ => none

/-- The precedence of a type test, which relational operators share. -/
def instanceOfPrecedence : Nat := 7

/-- One more operator behind a left operand, if it binds at least as tightly as `least`. A name
bound by a type test is passed over. -/
def binaryStep (least : Nat) (left : Expr) : Parser (Option Expr) := do
  let start := left.span.start
  let cursor ← get
  if cursor.seesWord "instanceof" && least ≤ instanceOfPrecedence then
    skip 1
    skipVariableModifiers
    let type ← typeRefOrEmpty
    let after ← get
    if after.sees .ident && !after.seesWord "instanceof" then skip 1
    return some (.instanceOf left type (← spanFrom start))
  else match cursor.next?.bind (binaryOp ·.kind) with
    | some (op,precedence) =>
      if precedence < least then return none
      else
        skip 1
        let right ← inner.binary (precedence + 1)
        return some (.binary op left right (.upTo start right.span.stop))
    | none => return none

def binary (least : Nat) : Parser Expr := do
  repeated (binaryStep inner least) (← unary inner)

def conditional : Parser Expr := do
  let condition ← binary inner 1
  if ← eat .question then
    let yes ← inner.expr
    discard (expect .colon)
    let no ← inner.conditional
    return .conditional condition yes no (.upTo condition.span.start no.span.stop)
  else return condition

def assignOp : Kind → Option AssignOp
  | .assign => some .assign
  | .plusAssign => some .add
  | .minusAssign => some .sub
  | .starAssign => some .mul
  | .slashAssign => some .div
  | .percentAssign => some .rem
  | _ => none

def expr : Parser Expr := do
  let left ← conditional inner
  let cursor ← get
  match cursor.next?.bind (assignOp ·.kind) with
  | some op =>
    skip 1
    let right ← inner.expr
    return .assign op left right (.upTo left.span.start right.span.stop)
  | none => return left

/-- A value that may also be an array in braces. -/
def initializer : Parser Expr := do
  if ← sees .braceOpen then arrayInit inner else expr inner

def next : ExprReaders :=
  ⟨expr inner,conditional inner,binary inner,unary inner,initializer inner⟩

/-- Reads nothing. -/
def ground : ExprReaders :=
  let missing : Parser Expr := return .missing (.empty (← nextStart))
  ⟨missing,missing,fun _ => missing,missing,missing⟩

def readers : Nat → ExprReaders
  | 0 => ground
  | depth + 1 =>
    next ⟨fun cursor => (readers depth).expr cursor,fun cursor => (readers depth).conditional cursor,
      fun least cursor => (readers depth).binary least cursor,
      fun cursor => (readers depth).unary cursor,fun cursor => (readers depth).initializer cursor⟩

theorem readers_succ (depth : Nat) : readers (depth + 1) = next (readers depth) := rfl

end ExprLevel

namespace Parser

def expr : Parser Expr := bounded fun turns => (ExprLevel.readers turns).expr

def initializer : Parser Expr := bounded fun turns => (ExprLevel.readers turns).initializer

end Parser
end Transplant.Java
