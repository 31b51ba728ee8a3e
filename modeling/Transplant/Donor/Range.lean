import Transplant.Body.Basic

/-! Which parts of a body are moved to a call. -/
namespace Transplant

/-- Whether the call is a statement of its own or a part of an expression. -/
inductive CallMode where
  | statement
  | expression
deriving DecidableEq, Repr, Inhabited

namespace Body

def stmtSpan? (body : Body) (id : StmtId) : Option Span := (body.stmts[id]?).map (·.span)

/-- From the start of the first to the end of the last of some statements. None of them gives no
span; `none` stands for bounds in the wrong order. -/
def statementSpans (body : Body) (ids : List StmtId) : Option (List Span) :=
  match ids.head?.bind body.stmtSpan?,ids.getLast?.bind body.stmtSpan? with
  | some first,some last => (Span.ofBounds? first.start last.stop).map fun span => [span]
  | _,_ => some []

/-- Whether the body ends with a `return`, and the value it gives. -/
def lastReturn? (body : Body) : Option (Option ExprId) :=
  match body.statements.getLast?.bind (body.stmts[·]?) with
  | some (.returns value _) => some value
  | _ => none

def exprSpans (body : Body) (value : Option ExprId) : List Span :=
  (value.bind (body.exprs[·]?)).toList.map (·.span)

/-- The spans that take the place of a call: all statements, less a last `return` where its value
is not wanted, or with that value as a span of its own where the call is part of an expression. -/
def selectSpans (body : Body) (hasValue : Bool) (mode : CallMode) : Option (List Span) :=
  let all := body.statements
  match body.lastReturn?,hasValue,mode with
  | some _,false,_ => body.statementSpans all.dropLast
  | some value,true,.expression =>
    (body.statementSpans all.dropLast).map (· ++ body.exprSpans value)
  | _,_,_ => body.statementSpans all

end Body
end Transplant
