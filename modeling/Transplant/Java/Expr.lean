import Transplant.Java.Type

/-! Expressions of Java source. Whatever cannot be read as an expression is `missing`, which keeps
the span it covers. -/
namespace Transplant.Java

inductive LiteralKind where
  | number
  | string
  | char
  | bool
  | null
deriving DecidableEq, Repr

inductive UnaryOp where
  | not
  | neg
  | plus
  | increment
  | decrement
deriving DecidableEq, Repr

inductive BinaryOp where
  | or
  | and
  | bitOr
  | bitXor
  | bitAnd
  | equal
  | notEqual
  | less
  | lessEqual
  | greater
  | greaterEqual
  | add
  | sub
  | mul
  | div
  | rem
deriving DecidableEq, Repr

/-- Plain assignment, and assignment that also reads its left side. -/
inductive AssignOp where
  | assign
  | add
  | sub
  | mul
  | div
  | rem
deriving DecidableEq, Repr

inductive Expr where
  | name (name : String) (span : Span)
  | literal (kind : LiteralKind) (value : String) (span : Span)
  | this (span : Span)
  | super (span : Span)
  | missing (span : Span)
  | call (callee : Expr) (args : List Expr) (span : Span)
  | create (outer : Option Expr) (type : TypeRef) (args dims : List Expr)
      (initializer : Option Expr) (body : Option Span) (span : Span)
  | field (receiver : Expr) (name : Ident) (span : Span)
  | index (array position : Expr) (span : Span)
  | unary (op : UnaryOp) (leading : Bool) (operand : Expr) (span : Span)
  | binary (op : BinaryOp) (left right : Expr) (span : Span)
  | instanceOf (operand : Expr) (type : TypeRef) (span : Span)
  | assign (op : AssignOp) (left right : Expr) (span : Span)
  | conditional (condition yes no : Expr) (span : Span)
  | paren (inner : Expr) (span : Span)
  | arrayInit (elements : List Expr) (span : Span)
deriving Repr

namespace Expr

def span : Expr → Span
  | .name _ span => span
  | .literal _ _ span => span
  | .this span => span
  | .super span => span
  | .missing span => span
  | .call _ _ span => span
  | .create _ _ _ _ _ _ span => span
  | .field _ _ span => span
  | .index _ _ span => span
  | .unary _ _ _ span => span
  | .binary _ _ _ span => span
  | .instanceOf _ _ span => span
  | .assign _ _ _ span => span
  | .conditional _ _ _ span => span
  | .paren _ span => span
  | .arrayInit _ span => span

mutual

def mapSpans (f : Span → Span) : Expr → Expr
  | .name text span => .name text (f span)
  | .literal kind value span => .literal kind value (f span)
  | .this span => .this (f span)
  | .super span => .super (f span)
  | .missing span => .missing (f span)
  | .call callee args span => .call (mapSpans f callee) (mapSpansAll f args) (f span)
  | .create outer type args dims initializer body span =>
    .create (mapSpansOption f outer) (type.mapSpans f) (mapSpansAll f args) (mapSpansAll f dims)
      (mapSpansOption f initializer) (body.map f) (f span)
  | .field receiver member span => .field (mapSpans f receiver) (member.mapSpans f) (f span)
  | .index array position span => .index (mapSpans f array) (mapSpans f position) (f span)
  | .unary op leading operand span => .unary op leading (mapSpans f operand) (f span)
  | .binary op left right span => .binary op (mapSpans f left) (mapSpans f right) (f span)
  | .instanceOf operand type span => .instanceOf (mapSpans f operand) (type.mapSpans f) (f span)
  | .assign op left right span => .assign op (mapSpans f left) (mapSpans f right) (f span)
  | .conditional condition yes no span =>
    .conditional (mapSpans f condition) (mapSpans f yes) (mapSpans f no) (f span)
  | .paren inner span => .paren (mapSpans f inner) (f span)
  | .arrayInit elements span => .arrayInit (mapSpansAll f elements) (f span)

def mapSpansAll (f : Span → Span) : List Expr → List Expr
  | [] => []
  | expr :: rest => mapSpans f expr :: mapSpansAll f rest

def mapSpansOption (f : Span → Span) : Option Expr → Option Expr
  | none => none
  | some expr => some (mapSpans f expr)

end

/-- Names, and field accesses that start at a name: what can also be read as a type. -/
def isDotted : Expr → Bool
  | .name _ _ => true
  | .field receiver _ _ => receiver.isDotted
  | _ => false

end Expr
end Transplant.Java
