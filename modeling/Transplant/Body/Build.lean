import Transplant.Item.Scope
import Transplant.Java.Stmt

/-! From the syntax of a method body to its tables. A declaration is in force from its end to the
end of the block, loop or catch clause around it. -/
namespace Transplant

open Java (Ident TypeRef Param Expr Stmt Block Catch Declarator)

/-- The tables so far and the variables in force. -/
structure Draft where
  stmts : Array StmtNode
  exprs : Array ExprNode
  locals : Array Local
  visible : Locals

abbrev Drafting := StateM Draft

namespace Drafting

def addStmt (node : StmtNode) : Drafting StmtId :=
  modifyGet fun draft => (draft.stmts.size,{ draft with stmts := draft.stmts.push node })

def addExpr (node : ExprNode) : Drafting ExprId :=
  modifyGet fun draft => (draft.exprs.size,{ draft with exprs := draft.exprs.push node })

def declare (type : TypeRef) (name : Ident) (span : Span) : Drafting LocalId :=
  modifyGet fun draft =>
    (draft.locals.size,{ draft with
      locals := draft.locals.push ⟨type,name,span⟩
      visible := (name.text,draft.locals.size) :: draft.visible })

def declareParam (param : Param) : Drafting LocalId := declare param.type param.name param.span

/-- Forgets afterwards what was declared inside. -/
def inside {α : Type} (act : Drafting α) : Drafting α := do
  let visible := (← get).visible
  let a ← act
  modify fun draft => { draft with visible := visible }
  return a

variable {β : Type} (scope : Scope β)

mutual

def expr : Expr → Drafting ExprId
  | .name name span => do addExpr (.name name (scope.resolve (← get).visible name) span)
  | .literal kind value span => addExpr (.literal kind value span)
  | .this span => addExpr (.this span)
  | .super span => addExpr (.super span)
  | .missing span => addExpr (.missing span)
  | .call (.name name place) args span => do
    addExpr (.call none ⟨name,place⟩ (← exprs args) (scope.method? name) span)
  | .call (.field (.this place) name _) args span => do
    let receiver ← addExpr (.this place)
    addExpr (.call (some receiver) name (← exprs args) (scope.method? name.text) span)
  | .call (.field receiver name _) args span => do
    let receiver ← expr receiver
    addExpr (.call (some receiver) name (← exprs args) none span)
  | .call (.this place) args span => do
    addExpr (.call none ⟨"this",place⟩ (← exprs args) none span)
  | .call (.super place) args span => do
    addExpr (.call none ⟨"super",place⟩ (← exprs args) none span)
  | .call callee args span => do
    let receiver ← expr callee
    addExpr (.call (some receiver) ⟨"",.empty callee.span.stop⟩ (← exprs args) none span)
  | .create outer type args dims initializer body span => do
    let outer ← exprOption outer
    let args ← exprs args
    let dims ← exprs dims
    let initializer ← exprOption initializer
    addExpr (.create outer type args dims initializer body (scope.constructor? type.text) span)
  | .field receiver name span => do addExpr (.field (← expr receiver) name span)
  | .index array position span => do
    let array ← expr array
    addExpr (.index array (← expr position) span)
  | .unary op leading operand span => do addExpr (.unary op leading (← expr operand) span)
  | .binary op left right span => do
    let left ← expr left
    addExpr (.binary op left (← expr right) span)
  | .instanceOf operand type span => do addExpr (.instanceOf (← expr operand) type.text span)
  | .assign op left right span => do
    let left ← expr left
    addExpr (.assign op left (← expr right) span)
  | .conditional condition yes no span => do
    let condition ← expr condition
    let yes ← expr yes
    addExpr (.conditional condition yes (← expr no) span)
  | .paren inner span => do addExpr (.paren (← expr inner) span)
  | .arrayInit elements span => do addExpr (.arrayInit (← exprs elements) span)

def exprs : List Expr → Drafting (List ExprId)
  | [] => pure []
  | first :: rest => do
    let first ← expr first
    return first :: (← exprs rest)

def exprOption : Option Expr → Drafting (Option ExprId)
  | none => pure none
  | some value => return some (← expr value)

end

/-- The variables of one declaration. Each is in force in the values of those after it. -/
def declarators (type : TypeRef) : List Declarator → Drafting (List LocalInit)
  | [] => pure []
  | first :: rest => do
    let value ← exprOption scope first.initializer
    let target ← declare type first.name first.span
    return ⟨target,value⟩ :: (← declarators type rest)

mutual

def stmt : Stmt → Drafting StmtId
  | .declare type list span => do addStmt (.declare (← declarators scope type list) span)
  | .expr value span => do addStmt (.expr (← expr scope value) span)
  | .returns value span => do addStmt (.returns (← exprOption scope value) span)
  | .throws value span => do addStmt (.throws (← expr scope value) span)
  | .ifElse condition yes no span => do
    let condition ← expr scope condition
    let yes ← stmt yes
    addStmt (.ifElse condition yes (← stmtOption no) span)
  | .whileLoop condition body span => do
    let condition ← expr scope condition
    addStmt (.whileLoop condition (← stmt body) span)
  | .forLoop init condition update body span => do
    let node ← inside do
      let init ← stmts init
      let condition ← exprOption scope condition
      let update ← exprs scope update
      return StmtNode.forLoop init condition update (← stmt body) span
    addStmt node
  | .forEach element iterable body span => do
    let iterable ← expr scope iterable
    let node ← inside do
      let target ← declareParam element
      return StmtNode.forEach target iterable (← stmt body) span
    addStmt node
  | .tryCatch body catches cleanup span => do
    let body ← block body
    let catches ← catchNodes catches
    addStmt (.tryCatch body catches (← blockOption cleanup) span)
  | .block body => block body
  | .breaks span => addStmt (.breaks span)
  | .continues span => addStmt (.continues span)
  | .empty span => addStmt (.empty span)
  | .unsupported span => addStmt (.unsupported span)

def stmts : List Stmt → Drafting (List StmtId)
  | [] => pure []
  | first :: rest => do
    let first ← stmt first
    return first :: (← stmts rest)

def stmtOption : Option Stmt → Drafting (Option StmtId)
  | none => pure none
  | some value => return some (← stmt value)

def block : Block → Drafting StmtId
  | ⟨list,span⟩ => do
    let statements ← inside (stmts list)
    addStmt (.block statements span)

def blockOption : Option Block → Drafting (Option StmtId)
  | none => pure none
  | some value => return some (← block value)

def catchNode : Catch → Drafting CatchNode
  | ⟨param,body,span⟩ => inside do
    let target ← declareParam param
    return ⟨target,← block body,span⟩

def catchNodes : List Catch → Drafting (List CatchNode)
  | [] => pure []
  | first :: rest => do
    let first ← catchNode first
    return first :: (← catchNodes rest)

end

end Drafting

def Body.ofBlock {β : Type} (scope : Scope β) (block : Block) : Body :=
  let (root,draft) := Drafting.block scope block ⟨#[],#[],#[],[]⟩
  ⟨root,draft.stmts,draft.exprs,draft.locals⟩

end Transplant
