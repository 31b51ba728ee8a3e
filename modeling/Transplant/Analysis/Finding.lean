import Transplant.Access
import Transplant.Body.Basic
import Transplant.Item.Basic

/-! What a method body mentions, found in one pass from its first statement to its last. A node
names its parts in the order in which they stand in the source; the findings of a part come between
those that its node makes before and after it. -/
namespace Transplant

/-- A place where a parameter is named. -/
structure ParamUse where
  expr : ExprId
  span : Span
  access : Access
deriving DecidableEq, Repr

inductive ReceiverKind where
  | methodCall (isStatic : Bool)
  | innerCreation
  | field (isStatic : Bool)
  | this
deriving DecidableEq, Repr

def ReceiverKind.isStatic : ReceiverKind → Bool
  | methodCall isStatic => isStatic
  | field isStatic => isStatic
  | innerCreation => false
  | this => false

/-- A place that relies on the instance or the class in which the method stands. -/
structure ImplicitReceiver where
  expr : ExprId
  kind : ReceiverKind
  declaringType : String
  span : Span
deriving DecidableEq, Repr

inductive Finding where
  | param (index : Nat) (mention : ParamUse)
  | localVar (id : LocalId) (span : Span)
  | receiver (found : ImplicitReceiver)
  | superMention (span : Span)
  | recursion (span : Span)
  | interruption (span : Span)
  | unsupported (span : Span)
  | unread (span : Span)
deriving DecidableEq, Repr

/-- The expressions directly inside an expression that is itself accessed as `access`. Parentheses
pass the access on, assignment and counting write to their target. -/
def ExprNode.parts (access : Access) : ExprNode → List (ExprId × Access)
  | .name _ _ _ => []
  | .literal _ _ _ => []
  | .this _ => []
  | .super _ => []
  | .missing _ => []
  | .call receiver _ args _ _ => (receiver.toList ++ args).map (·,.read)
  | .create outer _ args dims initializer _ _ _ =>
    (outer.toList ++ args ++ dims ++ initializer.toList).map (·,.read)
  | .field receiver _ _ => [(receiver,.read)]
  | .index array position _ => [(array,.read),(position,.read)]
  | .unary op _ operand _ =>
    [(operand,if op = .increment || op = .decrement then .readWrite else .read)]
  | .binary _ left right _ => [(left,.read),(right,.read)]
  | .instanceOf operand _ _ => [(operand,.read)]
  | .assign op left right _ => [(left,if op = .assign then .write else .readWrite),(right,.read)]
  | .conditional condition yes no _ => [(condition,.read),(yes,.read),(no,.read)]
  | .paren inner _ => [(inner,access)]
  | .arrayInit elements _ => elements.map (·,.read)

inductive StmtPart where
  | expr (id : ExprId)
  | stmt (id : StmtId)
deriving DecidableEq, Repr

/-- The expressions and statements directly inside a statement. -/
def StmtNode.parts : StmtNode → List StmtPart
  | .block statements _ => statements.map .stmt
  | .declare declarators _ => (declarators.filterMap (·.value)).map .expr
  | .expr value _ => [.expr value]
  | .returns value _ => value.toList.map .expr
  | .throws value _ => [.expr value]
  | .ifElse condition yes no _ => .expr condition :: .stmt yes :: no.toList.map .stmt
  | .whileLoop condition body _ => [.expr condition,.stmt body]
  | .forLoop init condition update body _ =>
    init.map .stmt ++ condition.toList.map .expr ++ update.map .expr ++ [.stmt body]
  | .forEach _ iterable body _ => [.expr iterable,.stmt body]
  | .tryCatch body catches cleanup _ =>
    .stmt body :: catches.map (fun clause => .stmt clause.body) ++ cleanup.toList.map .stmt
  | .breaks _ => []
  | .continues _ => []
  | .empty _ => []
  | .unsupported _ => []

namespace Method

variable {β : Type} (method : Method β) (body : Body)

/-- A name stands for a receiver when it is a field of the method's own class. -/
def nameFindings (id : ExprId) (access : Access) (span : Span) : Resolution → List Finding
  | .param index => [.param index ⟨id,span,access⟩]
  | .localVar target => [.localVar target span]
  | .field target =>
    if target.declaringType = method.declaringType then
      [.receiver ⟨id,.field target.isStatic,target.declaringType,span⟩]
    else []
  | .type _ => []
  | .unresolved => []

def isCalledBy (name : String) (args : List ExprId) : Bool :=
  name == method.name.text && args.length == method.params.length

/-- A call without receiver goes to the method's own class, unless its target is known to be
elsewhere; one without a known target is taken for a call of an inherited instance method. -/
def bareCallFindings (id : ExprId) (name : String) (args : List ExprId)
    (target : Option MethodRef) (span : Span) : List Finding :=
  if name = "super" then [.superMention span]
  else if name = "this" then []
  else
    let declaringType := (target.map (·.declaringType)).getD method.declaringType
    if declaringType = method.declaringType then
      let isStatic := (target.map (·.isStatic)).getD false
      let found := .receiver ⟨id,.methodCall isStatic,method.declaringType,span⟩
      if method.isCalledBy name args then [.recursion span,found] else [found]
    else []

def isThis (id : ExprId) : Bool :=
  match body.exprs[id]? with
  | some (.this _) => true
  | _ => false

/-- What an expression shows before its parts are looked at. -/
def findingsBefore (id : ExprId) (access : Access) : ExprNode → List Finding
  | .name _ resolution span => method.nameFindings id access span resolution
  | .this span => [.receiver ⟨id,.this,method.declaringType,span⟩]
  | .super span => [.superMention span]
  | .missing span => [.unread span]
  | .call none name args target span => method.bareCallFindings id name.text args target span
  | .call (some receiver) name args _ span =>
    if isThis body receiver && method.isCalledBy name.text args then [.recursion span] else []
  | .create none _ _ _ _ _ target span =>
    if target.any (·.isInner) then [.receiver ⟨id,.innerCreation,method.declaringType,span⟩] else []
  | _ => []

/-- The body of an anonymous class is not read. -/
def findingsAfter : ExprNode → List Finding
  | .create _ _ _ _ _ (some inside) _ _ => [.unread inside]
  | _ => []

def exprFindings (access : Access) (id : ExprId) : List Finding :=
  match body.exprs[id]? with
  | none => []
  | some node =>
    method.findingsBefore body id access node ++
      (node.parts access).flatMap (fun part =>
        if part.1 < id then exprFindings part.2 part.1 else []) ++
      findingsAfter node
termination_by id

/-- A statement that leaves the body is an interruption, unless it ends the body. -/
def leavingFindings (isLast : Bool) : StmtNode → List Finding
  | .returns _ span => if isLast then [] else [.interruption span]
  | .throws _ span => if isLast then [] else [.interruption span]
  | .unsupported span => [.unsupported span]
  | _ => []

def stmtFindings (isLast : Bool) (id : StmtId) : List Finding :=
  match body.stmts[id]? with
  | none => []
  | some node =>
    leavingFindings isLast node ++ node.parts.flatMap fun part =>
      match part with
      | .expr value => method.exprFindings body .read value
      | .stmt inner => if inner < id then stmtFindings false inner else []
termination_by id

/-- The statements at the top of a body; the last of them may leave it. -/
def topFindings : List StmtId → List Finding
  | [] => []
  | [last] => method.stmtFindings body true last
  | id :: rest => method.stmtFindings body false id ++ topFindings rest

end Method

def Method.findings (method : Method Body) : List Finding :=
  match method.body with
  | some body => method.topFindings body body.statements
  | none => []

end Transplant
