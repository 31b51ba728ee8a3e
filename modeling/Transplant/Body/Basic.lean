import Transplant.Java.Expr

/-! Method bodies as tables. Statements, expressions and local variables are numbered in the order
in which they are completed, so the parts of a node have smaller numbers than the node, and every
name says what it stands for. -/
namespace Transplant

open Java (Ident TypeRef LiteralKind UnaryOp BinaryOp AssignOp)

abbrev ExprId := Nat

abbrev StmtId := Nat

abbrev LocalId := Nat

structure FieldRef where
  name : String
  declaringType : String
  isStatic : Bool
deriving DecidableEq, Repr

structure MethodRef where
  name : String
  declaringType : String
  isStatic : Bool
deriving DecidableEq, Repr

structure ConstructorRef where
  typeName : String
  isInner : Bool
deriving DecidableEq, Repr

inductive Resolution where
  | param (index : Nat)
  | localVar (id : LocalId)
  | field (target : FieldRef)
  | type (qualifiedName : String)
  | unresolved
deriving DecidableEq, Repr

inductive ExprNode where
  | name (name : String) (resolution : Resolution) (span : Span)
  | literal (kind : LiteralKind) (value : String) (span : Span)
  | this (span : Span)
  | super (span : Span)
  | missing (span : Span)
  | call (receiver : Option ExprId) (name : Ident) (args : List ExprId)
      (target : Option MethodRef) (span : Span)
  | create (outer : Option ExprId) (type : TypeRef) (args dims : List ExprId)
      (initializer : Option ExprId) (body : Option Span) (target : Option ConstructorRef)
      (span : Span)
  | field (receiver : ExprId) (name : Ident) (span : Span)
  | index (array position : ExprId) (span : Span)
  | unary (op : UnaryOp) (leading : Bool) (operand : ExprId) (span : Span)
  | binary (op : BinaryOp) (left right : ExprId) (span : Span)
  | instanceOf (operand : ExprId) (type : String) (span : Span)
  | assign (op : AssignOp) (left right : ExprId) (span : Span)
  | conditional (condition yes no : ExprId) (span : Span)
  | paren (inner : ExprId) (span : Span)
  | arrayInit (elements : List ExprId) (span : Span)
deriving DecidableEq, Repr

def ExprNode.span : ExprNode → Span
  | .name _ _ span => span
  | .literal _ _ span => span
  | .this span => span
  | .super span => span
  | .missing span => span
  | .call _ _ _ _ span => span
  | .create _ _ _ _ _ _ _ span => span
  | .field _ _ span => span
  | .index _ _ span => span
  | .unary _ _ _ span => span
  | .binary _ _ _ span => span
  | .instanceOf _ _ span => span
  | .assign _ _ _ span => span
  | .conditional _ _ _ span => span
  | .paren _ span => span
  | .arrayInit _ span => span

/-- A declared variable with the value it starts with. -/
structure LocalInit where
  target : LocalId
  value : Option ExprId
deriving DecidableEq, Repr

structure CatchNode where
  target : LocalId
  body : StmtId
  span : Span
deriving DecidableEq, Repr

inductive StmtNode where
  | block (statements : List StmtId) (span : Span)
  | declare (declarators : List LocalInit) (span : Span)
  | expr (value : ExprId) (span : Span)
  | returns (value : Option ExprId) (span : Span)
  | throws (value : ExprId) (span : Span)
  | ifElse (condition : ExprId) (yes : StmtId) (no : Option StmtId) (span : Span)
  | whileLoop (condition : ExprId) (body : StmtId) (span : Span)
  | forLoop (init : List StmtId) (condition : Option ExprId) (update : List ExprId)
      (body : StmtId) (span : Span)
  | forEach (element : LocalId) (iterable : ExprId) (body : StmtId) (span : Span)
  | tryCatch (body : StmtId) (catches : List CatchNode) (cleanup : Option StmtId) (span : Span)
  | breaks (span : Span)
  | continues (span : Span)
  | empty (span : Span)
  | unsupported (span : Span)
deriving DecidableEq, Repr

def StmtNode.span : StmtNode → Span
  | .block _ span => span
  | .declare _ span => span
  | .expr _ span => span
  | .returns _ span => span
  | .throws _ span => span
  | .ifElse _ _ _ span => span
  | .whileLoop _ _ span => span
  | .forLoop _ _ _ _ span => span
  | .forEach _ _ _ span => span
  | .tryCatch _ _ _ span => span
  | .breaks span => span
  | .continues span => span
  | .empty span => span
  | .unsupported span => span

structure Local where
  type : TypeRef
  name : Ident
  span : Span
deriving DecidableEq, Repr

structure Body where
  root : StmtId
  stmts : Array StmtNode
  exprs : Array ExprNode
  locals : Array Local
deriving DecidableEq, Repr

namespace Body

def ofSpan (span : Span) : Body := ⟨0,#[.block [] span],#[],#[]⟩

/-- The statements at the top of the body. -/
def statements (body : Body) : List StmtId :=
  match body.stmts[body.root]? with
  | some (.block statements _) => statements
  | _ => []

def span (body : Body) : Span :=
  match body.stmts[body.root]? with
  | some root => root.span
  | none => .empty 0

end Body
end Transplant
