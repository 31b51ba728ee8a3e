import Transplant.Proofs.Body.Nested
import Transplant.Proofs.Item.Classes

/-! From the tables of a body back to its syntax. Nothing is lost but the place of a type behind
`instanceof`; the callee of a call is put together again from its receiver and its name. -/
namespace Transplant

open Java (Ident TypeRef Param Expr Declarator Stmt Block Catch)

namespace Java

mutual

/-- The expression as the tables keep it. -/
def Expr.stored : Expr → Expr
  | .name text span => .name text span
  | .literal kind value span => .literal kind value span
  | .this span => .this span
  | .super span => .super span
  | .missing span => .missing span
  | .call callee args span => .call callee.stored (Expr.storedAll args) span
  | .create outer type args dims initializer body span =>
    .create (Expr.storedOption outer) type (Expr.storedAll args) (Expr.storedAll dims)
      (Expr.storedOption initializer) body span
  | .field receiver member span => .field receiver.stored member span
  | .index array position span => .index array.stored position.stored span
  | .unary op leading operand span => .unary op leading operand.stored span
  | .binary op left right span => .binary op left.stored right.stored span
  | .instanceOf operand type span => .instanceOf operand.stored ⟨type.text,.empty 0⟩ span
  | .assign op left right span => .assign op left.stored right.stored span
  | .conditional condition yes no span => .conditional condition.stored yes.stored no.stored span
  | .paren inner span => .paren inner.stored span
  | .arrayInit elements span => .arrayInit (Expr.storedAll elements) span

def Expr.storedAll : List Expr → List Expr
  | [] => []
  | first :: rest => first.stored :: Expr.storedAll rest

def Expr.storedOption : Option Expr → Option Expr
  | none => none
  | some value => some value.stored

end

theorem Expr.stored_span (e : Expr) : e.stored.span = e.span := by
  cases e <;> rfl

def Declarator.stored (declarator : Declarator) : Declarator :=
  ⟨declarator.name,Expr.storedOption declarator.initializer,declarator.span⟩

mutual

def Stmt.stored : Stmt → Stmt
  | .declare type list span => .declare type (list.map Declarator.stored) span
  | .expr value span => .expr value.stored span
  | .returns value span => .returns (Expr.storedOption value) span
  | .throws value span => .throws value.stored span
  | .ifElse condition yes no span => .ifElse condition.stored yes.stored (Stmt.storedOption no) span
  | .whileLoop condition body span => .whileLoop condition.stored body.stored span
  | .forLoop init condition update body span =>
    .forLoop (Stmt.storedAll init) (Expr.storedOption condition) (Expr.storedAll update) body.stored span
  | .forEach element iterable body span => .forEach element iterable.stored body.stored span
  | .tryCatch body catches cleanup span =>
    .tryCatch body.stored (Catch.storedAll catches) (Block.storedOption cleanup) span
  | .block body => .block body.stored
  | .breaks span => .breaks span
  | .continues span => .continues span
  | .empty span => .empty span
  | .unsupported span => .unsupported span

def Stmt.storedAll : List Stmt → List Stmt
  | [] => []
  | first :: rest => first.stored :: Stmt.storedAll rest

def Stmt.storedOption : Option Stmt → Option Stmt
  | none => none
  | some stmt => some stmt.stored

def Block.stored : Block → Block
  | ⟨statements,span⟩ => ⟨Stmt.storedAll statements,span⟩

def Block.storedOption : Option Block → Option Block
  | none => none
  | some block => some block.stored

def Catch.stored : Catch → Catch
  | ⟨param,body,span⟩ => ⟨param,body.stored,span⟩

def Catch.storedAll : List Catch → List Catch
  | [] => []
  | first :: rest => first.stored :: Catch.storedAll rest

end

/-- The callee of a call, from its receiver and its name. -/
def Expr.calleeOf (receiver : Option Expr) (name : Ident) : Expr :=
  match receiver with
  | none =>
    if name.text = "this" then .this name.span
    else if name.text = "super" then .super name.span
    else .name name.text name.span
  | some receiver =>
    if name = ⟨"",.empty receiver.span.stop⟩ then receiver
    else .field receiver name ⟨receiver.span.start,name.span.stop⟩

theorem Expr.calleeOf_name {text : String} {place : Span} (linked : Linked (· < ·) (.name text place)) :
    calleeOf none ⟨text,place⟩ = .name text place := by
  simp only [calleeOf,if_neg linked.1,if_neg linked.2]

/-- A member begins behind its receiver, so that its name is not taken for a missing one. -/
theorem Expr.calleeOf_field {receiver : Expr} {member : Ident} {place : Span}
    (linked : Linked (· < ·) (.field receiver member place)) :
    calleeOf (some receiver.stored) member = .field receiver.stored member place := by
  obtain ⟨_,placed,behind⟩ := linked
  have apart : member ≠ ⟨"",.empty receiver.span.stop⟩ := by
    rintro rfl
    exact Nat.lt_irrefl _ behind
  rw [calleeOf,stored_span,if_neg apart,placed]

theorem Expr.calleeOf_other (callee : Expr) :
    calleeOf (some callee.stored) ⟨"",.empty callee.span.stop⟩ = callee.stored := by
  rw [calleeOf,stored_span,if_pos rfl]

def Stmt.block? : Stmt → Option Block
  | .block body => some body
  | _ => none

end Java

/-- The expression of a node, from those of its parts. -/
def ExprNode.read (part : ExprId → Option Expr) : ExprNode → Option Expr
  | .name text _ span => some (.name text span)
  | .literal kind value span => some (.literal kind value span)
  | .this span => some (.this span)
  | .super span => some (.super span)
  | .missing span => some (.missing span)
  | .call receiver callee args _ span => do
    return .call (Expr.calleeOf (← receiver.mapM part) callee) (← args.mapM part) span
  | .create outer type args dims initializer body _ span => do
    return .create (← outer.mapM part) type (← args.mapM part) (← dims.mapM part) (← initializer.mapM part) body span
  | .field receiver member span => do return .field (← part receiver) member span
  | .index array position span => do return .index (← part array) (← part position) span
  | .unary op leading operand span => do return .unary op leading (← part operand) span
  | .binary op left right span => do return .binary op (← part left) (← part right) span
  | .instanceOf operand type span => do return .instanceOf (← part operand) ⟨type,.empty 0⟩ span
  | .assign op left right span => do return .assign op (← part left) (← part right) span
  | .conditional condition yes no span => do
    return .conditional (← part condition) (← part yes) (← part no) span
  | .paren inner span => do return .paren (← part inner) span
  | .arrayInit elements span => do return .arrayInit (← elements.mapM part) span

namespace Body

variable (body : Body)

def readExpr (id : ExprId) : Option Expr :=
  (body.exprs[id]?).bind fun node => node.read fun part => if part < id then readExpr part else none
termination_by id

def readParam (id : LocalId) : Option Param := (body.locals[id]?).map fun known => ⟨known.type,known.name,known.span⟩

/-- A declared variable with the type of its declaration. -/
def readDeclared (declared : LocalInit) : Option (TypeRef × Declarator) := do
  let param ← body.readParam declared.target
  return (param.type,⟨param.name,← declared.value.mapM body.readExpr,param.span⟩)

def readCatch (part : StmtId → Option Stmt) (clause : CatchNode) : Option Catch := do
  return ⟨← body.readParam clause.target,← (part clause.body).bind Stmt.block?,clause.span⟩

end Body

/-- The statement of a node, from those of its parts and the other tables. -/
def StmtNode.read (body : Body) (part : StmtId → Option Stmt) : StmtNode → Option Stmt
  | .block statements span => do return .block ⟨← statements.mapM part,span⟩
  | .declare list span => do
    let declared ← list.mapM body.readDeclared
    return .declare (← declared.head?).1 (declared.map (·.2)) span
  | .expr value span => do return .expr (← body.readExpr value) span
  | .returns value span => do return .returns (← value.mapM body.readExpr) span
  | .throws value span => do return .throws (← body.readExpr value) span
  | .ifElse condition yes no span => do
    return .ifElse (← body.readExpr condition) (← part yes) (← no.mapM part) span
  | .whileLoop condition inner span => do return .whileLoop (← body.readExpr condition) (← part inner) span
  | .forLoop init condition update inner span => do
    return .forLoop (← init.mapM part) (← condition.mapM body.readExpr) (← update.mapM body.readExpr)
      (← part inner) span
  | .forEach element iterable inner span => do
    return .forEach (← body.readParam element) (← body.readExpr iterable) (← part inner) span
  | .tryCatch inner catches cleanup span => do
    return .tryCatch (← (part inner).bind Stmt.block?) (← catches.mapM (body.readCatch part))
      (← cleanup.mapM fun id => (part id).bind Stmt.block?) span
  | .breaks span => some (.breaks span)
  | .continues span => some (.continues span)
  | .empty span => some (.empty span)
  | .unsupported span => some (.unsupported span)

namespace Body

variable (body : Body)

def readStmt (id : StmtId) : Option Stmt :=
  (body.stmts[id]?).bind fun node => node.read body fun part => if part < id then readStmt part else none
termination_by id

def readBlock (id : StmtId) : Option Block := (body.readStmt id).bind Stmt.block?

theorem read_tryCatch (inner : StmtId) (catches : List CatchNode) (cleanup : Option StmtId) (span : Span) :
    (StmtNode.tryCatch inner catches cleanup span).read body body.readStmt = (do
      return .tryCatch (← body.readBlock inner) (← catches.mapM (body.readCatch body.readStmt))
        (← cleanup.mapM body.readBlock) span) := rfl

theorem readCatch_eq (clause : CatchNode) : body.readCatch body.readStmt clause = (do
    return ⟨← body.readParam clause.target,← body.readBlock clause.body,clause.span⟩) := rfl

end Body

section

variable {α κ : Type} {f g : α → Option κ}

theorem mapM_list_congr {list : List α} (same : ∀ a ∈ list, f a = g a) : list.mapM f = list.mapM g := by
  induction list with
  | nil => rfl
  | cons first rest ih =>
    obtain ⟨head,tail⟩ := List.forall_mem_cons.mp same
    rw [List.mapM_cons,List.mapM_cons,head,ih tail]

theorem mapM_option_congr {value : Option α} (same : ∀ a ∈ value.toList, f a = g a) :
    value.mapM f = value.mapM g := by
  cases value with
  | none => rfl
  | some a => simp [same a (by simp)]

end

/-- The expression of a node depends on those of its parts alone. -/
theorem ExprNode.read_congr {f g : ExprId → Option Expr} (node : ExprNode)
    (same : ∀ part ∈ node.children, f part = g part) : node.read f = node.read g := by
  simp only [children] at same
  cases node with
  | name | literal | this | super | missing => rfl
  | call receiver callee args target span =>
    simp only [parts,Drafting.map_read,List.forall_mem_append] at same
    simp only [read,mapM_option_congr same.1,mapM_list_congr same.2]
  | create outer type args dims initializer body target span =>
    simp only [parts,Drafting.map_read,List.forall_mem_append] at same
    obtain ⟨⟨⟨first,second⟩,third⟩,fourth⟩ := same
    simp only [read,mapM_option_congr first,mapM_list_congr second,mapM_list_congr third,mapM_option_congr fourth]
  | arrayInit elements span =>
    simp only [parts,Drafting.map_read] at same
    simp only [read,mapM_list_congr same]
  | _ =>
    simp only [parts,List.map_cons,List.map_nil,List.forall_mem_cons] at same
    simp only [read,same]

theorem StmtNode.read_congr {body : Body} {f g : StmtId → Option Stmt} (node : StmtNode)
    (same : ∀ inner, .stmt inner ∈ node.parts → f inner = g inner) : node.read body f = node.read body g := by
  have among (ids : List StmtId) (inside : ∀ id ∈ ids, .stmt id ∈ node.parts) : ids.mapM f = ids.mapM g :=
    mapM_list_congr fun id member => same id (inside id member)
  cases node with
  | block statements span =>
    have all := among statements fun id member => by simp [parts,member]
    simp only [read,all]
  | ifElse condition yes no span =>
    have other : no.mapM f = no.mapM g := mapM_option_congr fun id member => same id (by simp_all [parts])
    simp only [read,same yes (by simp [parts]),other]
  | whileLoop condition inner span => simp only [read,same inner (by simp [parts])]
  | forLoop init condition update inner span =>
    have all := among init fun id member => by simp [parts,member]
    simp only [read,all,same inner (by simp [parts])]
  | forEach element iterable inner span => simp only [read,same inner (by simp [parts])]
  | tryCatch inner catches cleanup span =>
    have caught : catches.mapM (body.readCatch f) = catches.mapM (body.readCatch g) := by
      refine mapM_list_congr fun clause member => ?_
      have inside : .stmt clause.body ∈ catches.map fun clause => StmtPart.stmt clause.body :=
        List.mem_map_of_mem (f := fun clause => StmtPart.stmt clause.body) member
      rw [Body.readCatch,Body.readCatch,same clause.body (List.mem_append_left _ (List.mem_cons_of_mem _ inside))]
    have last : cleanup.mapM (fun id => (f id).bind Stmt.block?) = cleanup.mapM fun id => (g id).bind Stmt.block? :=
      mapM_option_congr fun id member => by rw [same id (by simp_all [parts])]
    simp only [read,same inner (by simp [parts]),caught,last]
  | _ => rfl

namespace Body

variable {body : Body} (nested : body.Nested)

include nested

theorem readExpr_eq {id : ExprId} {node : ExprNode} (found : body.exprs[id]? = some node) :
    body.readExpr id = node.read body.readExpr := by
  rw [readExpr,found,Option.bind_some]
  exact node.read_congr fun part member => if_pos (nested.exprs id node found part member)

theorem readStmt_eq {id : StmtId} {node : StmtNode} (found : body.stmts[id]? = some node) :
    body.readStmt id = node.read body body.readStmt := by
  rw [readStmt,found,Option.bind_some]
  exact node.read_congr fun inner member => if_pos (nested.stmts id node found inner member)

end Body

namespace Drafting

variable {β : Type} {body : Body} {draft : Draft}

/-- Every entry of the draft is in the tables of the body, and so are the variables. -/
structure Shows (body : Body) (draft : Draft) : Prop extends Holds body draft where
  locals : ∀ (id : LocalId) known, draft.locals[id]? = some known → body.locals[id]? = some known

namespace Shows

theorem addExpr {node : ExprNode} (shows : Shows body (addExpr node draft).2) (nested : body.Nested) :
    Shows body draft ∧ body.readExpr (Drafting.addExpr node draft).1 = node.read body.readExpr :=
  ⟨⟨shows.toHolds.of_extends (addExpr_extends node draft),shows.locals⟩,
    Body.readExpr_eq nested (shows.exprs _ _ (addExpr_found node draft))⟩

theorem addStmt {node : StmtNode} (shows : Shows body (addStmt node draft).2) (nested : body.Nested) :
    Shows body draft ∧ body.readStmt (Drafting.addStmt node draft).1 = node.read body body.readStmt :=
  ⟨⟨shows.toHolds.of_extends (addStmt_extends node draft),shows.locals⟩,
    Body.readStmt_eq nested (shows.stmts _ _ (addStmt_found node draft))⟩

theorem declare {type : TypeRef} {name : Ident} {span : Span} (shows : Shows body (declare type name span draft).2) :
    Shows body draft ∧ body.readParam draft.locals.size = some ⟨type,name,span⟩ := by
  refine ⟨⟨⟨shows.exprs,shows.stmts⟩,fun id known found => shows.locals id known (getElem?_push_of_some _ found)⟩,?_⟩
  have found := shows.locals draft.locals.size ⟨type,name,span⟩ (by
    change (draft.locals.push ⟨type,name,span⟩)[draft.locals.size]? = _
    simp)
  rw [Body.readParam,found,Option.map_some]

theorem outside {visible : Locals} (shows : Shows body { draft with visible := visible }) : Shows body draft :=
  ⟨⟨shows.exprs,shows.stmts⟩,shows.locals⟩

end Shows

/-- In a body that has the tables, what the action gives is read back as it was meant. -/
def Recovers {α κ : Type} (body : Body) (act : Drafting α) (read : α → Option κ) (meant : κ) : Prop :=
  ∀ before, Shows body (act before).2 → Shows body before ∧ read (act before).1 = some meant

theorem recovers_nothing {α κ : Type} (a : α) {read : α → Option κ} {meant : κ} (given : read a = some meant) :
    Recovers body (pure a) read meant := fun _ shows => ⟨shows,given⟩

/-- A block is entered as a statement of its own. -/
theorem readStmt_of_readBlock {id : StmtId} {b : Block} (read : body.readBlock id = some b) :
    body.readStmt id = some (.block b) := by
  obtain ⟨s,found,same⟩ := Option.bind_eq_some_iff.mp read
  cases s with
  | block inner =>
    cases same
    exact found
  | _ => cases same

section

variable {α κ : Type} {act : Drafting α} {read : α → Option κ} {meant : κ}

theorem recovers_cons {acts : Drafting (List α)} {others : List κ} (one : Recovers body act read meant)
    (rest : Recovers body acts (·.mapM read) others) :
    Recovers body (do
      let first ← act
      return first :: (← acts)) (·.mapM read) (meant :: others) := by
  intro before shows
  obtain ⟨shows,tail⟩ := rest _ shows
  obtain ⟨shows,head⟩ := one _ shows
  refine ⟨shows,?_⟩
  change ((act before).1 :: (acts (act before).2).1).mapM read = _
  rw [List.mapM_cons,head,show (acts (act before).2).1.mapM read = some others from tail]
  rfl

theorem recovers_some (inner : Recovers body act read meant) :
    Recovers body (do return some (← act)) (·.mapM read) (some meant) := by
  intro before shows
  obtain ⟨shows,given⟩ := inner _ shows
  refine ⟨shows,?_⟩
  change (some (act before).1).mapM read = _
  rw [Option.mapM_some,given]
  rfl

end

variable {scope : Scope β} {receiver : Expr} {args : List Expr} (nested : body.Nested)

include nested

theorem recovers_leaf {node : ExprNode} {e : Expr} (read : ∀ part, node.read part = some e) :
    Recovers body (addExpr node) body.readExpr e := by
  intro before shows
  obtain ⟨shows,entered⟩ := shows.addExpr nested
  exact ⟨shows,entered.trans (read _)⟩

section

variable {α γ κ μ : Type} {act : Drafting α} {read : α → Option κ} {meant : κ} {other : Drafting γ}
  {readOther : γ → Option μ} {meantOther : μ} {e : Expr}

/-- A node is read back from what is read back for it. -/
theorem recovers_one {node : α → ExprNode} (inner : Recovers body act read meant)
    (joined : ∀ a, read a = some meant → (node a).read body.readExpr = some e) :
    Recovers body (do addExpr (node (← act))) body.readExpr e := by
  intro before shows
  obtain ⟨shows,entered⟩ := Shows.addExpr shows nested
  obtain ⟨shows,given⟩ := inner _ shows
  exact ⟨shows,entered.trans (joined _ given)⟩

theorem recovers_two {node : α → γ → ExprNode} (one : Recovers body act read meant)
    (another : Recovers body other readOther meantOther) (joined : ∀ a c, read a = some meant →
      readOther c = some meantOther → (node a c).read body.readExpr = some e) :
    Recovers body (do
      let a ← act
      addExpr (node a (← other))) body.readExpr e := by
  intro before shows
  obtain ⟨shows,entered⟩ := Shows.addExpr shows nested
  obtain ⟨shows,second⟩ := another _ shows
  obtain ⟨shows,first⟩ := one _ shows
  exact ⟨shows,entered.trans (joined _ _ first second)⟩

theorem recovers_stmt {node : α → StmtNode} {s : Stmt} (inner : Recovers body act read meant)
    (joined : ∀ a, read a = some meant → (node a).read body body.readStmt = some s) :
    Recovers body (do addStmt (node (← act))) body.readStmt s := by
  intro before shows
  obtain ⟨shows,entered⟩ := Shows.addStmt shows nested
  obtain ⟨shows,given⟩ := inner _ shows
  exact ⟨shows,entered.trans (joined _ given)⟩

end

theorem recovers_bareCall (listed : Recovers body (exprs scope args) (·.mapM body.readExpr) (Expr.storedAll args))
    {callee : Expr} (name : Ident) (target : Option MethodRef) (span : Span)
    (named : Expr.calleeOf none name = callee) :
    Recovers body (do addExpr (.call none name (← exprs scope args) target span)) body.readExpr
      (.call callee (Expr.storedAll args) span) :=
  recovers_one nested listed fun ids given => by simp [ExprNode.read,given,named]

theorem recovers_callOn (inner : Recovers body (expr scope receiver) body.readExpr receiver.stored)
    (listed : Recovers body (exprs scope args) (·.mapM body.readExpr) (Expr.storedAll args)) {callee : Expr}
    (name : Ident) (target : Option MethodRef) (span : Span)
    (named : Expr.calleeOf (some receiver.stored) name = callee) :
    Recovers body (do
      let receiver ← expr scope receiver
      addExpr (.call (some receiver) name (← exprs scope args) target span)) body.readExpr
      (.call callee (Expr.storedAll args) span) :=
  recovers_two nested inner listed fun id ids first all => by simp [ExprNode.read,first,all,named]

variable (scope) in
theorem expr_all_recovers : (∀ e : Expr, e.Linked (· < ·) → Recovers body (expr scope e) body.readExpr e.stored) ∧
    (∀ value, Expr.LinkedOption (· < ·) value →
      Recovers body (exprOption scope value) (·.mapM body.readExpr) (Expr.storedOption value)) ∧
    ∀ list, Expr.LinkedAll (· < ·) list →
      Recovers body (exprs scope list) (·.mapM body.readExpr) (Expr.storedAll list) := by
  apply expr_induction
  case name => exact fun text span _ before => recovers_leaf nested (fun _ => rfl) before
  case literal => exact fun kind value span _ => recovers_leaf nested fun _ => rfl
  case this => exact fun span _ => recovers_leaf nested fun _ => rfl
  case super => exact fun span _ => recovers_leaf nested fun _ => rfl
  case missing => exact fun span _ => recovers_leaf nested fun _ => rfl
  case nameCall =>
    intro text place args span listed linked
    exact recovers_bareCall nested (listed linked.2) ⟨text,place⟩ _ span (Expr.calleeOf_name linked.1)
  case thisFieldCall =>
    intro place name access args span listed linked
    have receiver : Recovers body (expr scope (.this place)) body.readExpr (Expr.stored (.this place)) :=
      recovers_leaf nested fun _ => rfl
    exact recovers_callOn nested receiver (listed linked.2) name _ span (Expr.calleeOf_field linked.1)
  case fieldCall =>
    intro receiver name access args span other inner listed linked
    rw [expr_call_field scope args span other]
    exact recovers_callOn nested (inner linked.1.1) (listed linked.2) name none span (Expr.calleeOf_field linked.1)
  case thisCall =>
    exact fun place args span listed linked => recovers_bareCall nested (listed linked.2) ⟨"this",place⟩ none span rfl
  case superCall =>
    exact fun place args span listed linked => recovers_bareCall nested (listed linked.2) ⟨"super",place⟩ none span rfl
  case call =>
    intro callee args span unnamed inner listed linked
    rw [expr_call scope args span unnamed]
    exact recovers_callOn nested (inner linked.1) (listed linked.2) ⟨"",.empty callee.span.stop⟩ none span
      (Expr.calleeOf_other callee)
  case create =>
    intro outer type args dims initializer created span first second third fourth linked before shows
    obtain ⟨shows,entered⟩ := Shows.addExpr shows nested
    obtain ⟨shows,values⟩ := fourth linked.2.2.2 _ shows
    obtain ⟨shows,lengths⟩ := third linked.2.2.1 _ shows
    obtain ⟨shows,given⟩ := second linked.2.1 _ shows
    obtain ⟨shows,around⟩ := first linked.1 _ shows
    exact ⟨shows,entered.trans (by simp [ExprNode.read,Expr.stored,values,lengths,given,around])⟩
  case field =>
    intro receiver name span inner linked
    exact recovers_one nested (inner linked.1) fun id first => by simp [ExprNode.read,Expr.stored,first]
  case index =>
    intro array position span one other linked
    exact recovers_two nested (one linked.1) (other linked.2) fun id part first second => by
      simp [ExprNode.read,Expr.stored,first,second]
  case unary =>
    intro op leading operand span inner linked
    exact recovers_one nested (inner linked) fun id first => by simp [ExprNode.read,Expr.stored,first]
  case binary =>
    intro op left right span one other linked
    exact recovers_two nested (one linked.1) (other linked.2) fun id part first second => by
      simp [ExprNode.read,Expr.stored,first,second]
  case instanceOf =>
    intro operand type span inner linked
    exact recovers_one nested (inner linked) fun id first => by simp [ExprNode.read,Expr.stored,first]
  case assign =>
    intro op left right span one other linked
    exact recovers_two nested (one linked.1) (other linked.2) fun id part first second => by
      simp [ExprNode.read,Expr.stored,first,second]
  case conditional =>
    intro condition yes no span one other another linked before shows
    obtain ⟨shows,entered⟩ := Shows.addExpr shows nested
    obtain ⟨shows,third⟩ := another linked.2.2 _ shows
    obtain ⟨shows,second⟩ := other linked.2.1 _ shows
    obtain ⟨shows,first⟩ := one linked.1 _ shows
    exact ⟨shows,entered.trans (by simp [ExprNode.read,Expr.stored,first,second,third])⟩
  case paren =>
    intro inside span inner linked
    exact recovers_one nested (inner linked) fun id first => by simp [ExprNode.read,Expr.stored,first]
  case arrayInit =>
    intro elements span listed linked
    exact recovers_one nested (listed linked) fun ids all => by simp [ExprNode.read,Expr.stored,all]
  case nil => exact fun _ => recovers_nothing [] rfl
  case cons =>
    intro first rest one others linked
    exact recovers_cons (one linked.1) (others linked.2)
  case none => exact fun _ => recovers_nothing none rfl
  case some => exact fun value inner linked => recovers_some (inner linked)

/-- The variables of a declaration are read back, each with its type. -/
theorem declarators_recover (type : TypeRef) (list : List Declarator)
    (linked : ∀ declarator ∈ list, Expr.LinkedOption (· < ·) declarator.initializer) :
    Recovers body (declarators scope type list) (·.mapM body.readDeclared)
      (list.map fun declarator => (type,declarator.stored)) := by
  induction list with
  | nil => exact recovers_nothing [] rfl
  | cons first rest ih =>
    obtain ⟨head,tail⟩ := List.forall_mem_cons.mp linked
    have one : Recovers body (do
        let value ← exprOption scope first.initializer
        return ⟨← declare type first.name first.span,value⟩) body.readDeclared (type,first.stored) := by
      intro before shows
      obtain ⟨shows,declared⟩ := Shows.declare shows
      obtain ⟨shows,value⟩ := (expr_all_recovers scope nested).2.1 first.initializer head _ shows
      refine ⟨shows,?_⟩
      change body.readDeclared ⟨_,(exprOption scope first.initializer before).1⟩ = _
      simp [Body.readDeclared,declared,value,Declarator.stored]
    exact recovers_cons one (ih tail)

theorem recovers_simple {node : StmtNode} {s : Stmt} (read : ∀ part, node.read body part = some s) :
    Recovers body (addStmt node) body.readStmt s := by
  intro before shows
  obtain ⟨shows,entered⟩ := shows.addStmt nested
  exact ⟨shows,entered.trans (read _)⟩

variable (scope) in
theorem stmt_all_recovers : (∀ s : Stmt, s.Linked (· < ·) → Recovers body (stmt scope s) body.readStmt s.stored) ∧
    (∀ value, Block.LinkedOption (· < ·) value →
      Recovers body (blockOption scope value) (·.mapM body.readBlock) (Block.storedOption value)) ∧
    (∀ b : Block, b.Linked (· < ·) → Recovers body (block scope b) body.readBlock b.stored) ∧
    (∀ list, Stmt.LinkedAll (· < ·) list →
      Recovers body (stmts scope list) (·.mapM body.readStmt) (Stmt.storedAll list)) ∧
    (∀ list, Catch.LinkedAll (· < ·) list →
      Recovers body (catchNodes scope list) (·.mapM (body.readCatch body.readStmt)) (Catch.storedAll list)) ∧
    (∀ clause : Catch, clause.Linked (· < ·) →
      Recovers body (catchNode scope clause) (body.readCatch body.readStmt) clause.stored) ∧
    ∀ value, Stmt.LinkedOption (· < ·) value →
      Recovers body (stmtOption scope value) (·.mapM body.readStmt) (Stmt.storedOption value) := by
  obtain ⟨values,options,lists⟩ := expr_all_recovers scope nested
  apply Stmt.induction_all
  case declare =>
    intro type list span linked before shows
    obtain ⟨shows,entered⟩ := Shows.addStmt shows nested
    obtain ⟨shows,declared⟩ := declarators_recover nested type list linked.2 _ shows
    refine ⟨shows,entered.trans ?_⟩
    simp only [StmtNode.read,declared]
    obtain ⟨first,rest,rfl⟩ := List.exists_cons_of_ne_nil linked.1
    simp [Stmt.stored]
  case expr =>
    intro value span linked
    exact recovers_stmt nested (values value linked) fun id given => by simp [StmtNode.read,Stmt.stored,given]
  case returns =>
    intro value span linked
    exact recovers_stmt nested (options value linked) fun id given => by simp [StmtNode.read,Stmt.stored,given]
  case throws =>
    intro value span linked
    exact recovers_stmt nested (values value linked) fun id given => by simp [StmtNode.read,Stmt.stored,given]
  case ifElse =>
    intro condition yes no span first second linked before shows
    obtain ⟨shows,entered⟩ := Shows.addStmt shows nested
    obtain ⟨shows,other⟩ := second linked.2.2 _ shows
    obtain ⟨shows,taken⟩ := first linked.2.1 _ shows
    obtain ⟨shows,asked⟩ := values condition linked.1 _ shows
    exact ⟨shows,entered.trans (by simp [StmtNode.read,Stmt.stored,asked,taken,other])⟩
  case whileLoop =>
    intro condition repeated span inner linked before shows
    obtain ⟨shows,entered⟩ := Shows.addStmt shows nested
    obtain ⟨shows,done⟩ := inner linked.2 _ shows
    obtain ⟨shows,asked⟩ := values condition linked.1 _ shows
    exact ⟨shows,entered.trans (by simp [StmtNode.read,Stmt.stored,asked,done])⟩
  case forLoop =>
    intro init condition update repeated span first inner linked before shows
    obtain ⟨shows,entered⟩ := Shows.addStmt shows nested
    obtain ⟨shows,done⟩ := inner linked.2.2.2 _ shows.outside
    obtain ⟨shows,stepped⟩ := lists update linked.2.2.1 _ shows
    obtain ⟨shows,asked⟩ := options condition linked.2.1 _ shows
    obtain ⟨shows,begins⟩ := first linked.1 _ shows
    exact ⟨shows,entered.trans (by simp [StmtNode.read,Stmt.stored,begins,asked,stepped,done])⟩
  case forEach =>
    intro element iterable repeated span inner linked before shows
    obtain ⟨shows,entered⟩ := Shows.addStmt shows nested
    obtain ⟨shows,done⟩ := inner linked.2 _ shows.outside
    obtain ⟨shows,declared⟩ := Shows.declare shows
    obtain ⟨shows,asked⟩ := values iterable linked.1 _ shows
    exact ⟨shows,entered.trans (by simp [StmtNode.read,Stmt.stored,declared,asked,done])⟩
  case tryCatch =>
    intro tried catches cleanup span first second third linked before shows
    obtain ⟨shows,entered⟩ := Shows.addStmt shows nested
    obtain ⟨shows,last⟩ := third linked.2.2 _ shows
    obtain ⟨shows,caught⟩ := second linked.2.1 _ shows
    obtain ⟨shows,given⟩ := first linked.1 _ shows
    exact ⟨shows,entered.trans (by simp [Body.read_tryCatch,Stmt.stored,given,caught,last])⟩
  case block =>
    intro b inner linked before shows
    obtain ⟨shows,given⟩ := inner linked _ shows
    exact ⟨shows,readStmt_of_readBlock given⟩
  case breaks => exact fun span _ => recovers_simple nested fun _ => rfl
  case continues => exact fun span _ => recovers_simple nested fun _ => rfl
  case empty => exact fun span _ => recovers_simple nested fun _ => rfl
  case unsupported => exact fun span _ => recovers_simple nested fun _ => rfl
  case statements =>
    intro list span inner linked before shows
    obtain ⟨shows,entered⟩ := Shows.addStmt shows nested
    obtain ⟨shows,all⟩ := inner linked _ shows.outside
    refine ⟨shows,(congrArg (·.bind Stmt.block?) entered).trans ?_⟩
    simp [StmtNode.read,Block.stored,Stmt.block?,all]
  case clause =>
    intro param inside span inner linked before shows
    obtain ⟨shows,given⟩ := inner linked _ shows.outside
    obtain ⟨shows,declared⟩ := Shows.declare shows
    have named : body.readParam (catchNode scope ⟨param,inside,span⟩ before).1.target = some param := declared
    have read : body.readBlock (catchNode scope ⟨param,inside,span⟩ before).1.body = some inside.stored := given
    refine ⟨shows,?_⟩
    rw [Body.readCatch_eq,named,read]
    rfl
  case noStmt => exact fun _ => recovers_nothing none rfl
  case someStmt => exact fun value inner linked => recovers_some (inner linked)
  case nil => exact fun _ => recovers_nothing [] rfl
  case cons => exact fun first rest one others linked => recovers_cons (one linked.1) (others linked.2)
  case noClause => exact fun _ => recovers_nothing [] rfl
  case clauses => exact fun first rest one others linked => recovers_cons (one linked.1) (others linked.2)
  case noBlock => exact fun _ => recovers_nothing none rfl
  case someBlock => exact fun value inner linked => recovers_some (inner linked)

end Drafting

theorem Body.ofBlock_readBlock {β : Type} (scope : Scope β) (block : Block) (linked : block.Linked (· < ·)) :
    (ofBlock scope block).readBlock (ofBlock scope block).root = some block.stored := by
  have shows : Drafting.Shows (ofBlock scope block) (Drafting.block scope block ⟨#[],#[],#[],[]⟩).2 :=
    ⟨⟨fun _ _ found => found,fun _ _ found => found⟩,fun _ _ found => found⟩
  exact ((Drafting.stmt_all_recovers scope (ofBlock_nested scope block)).2.2.1 block linked _ shows).2

/-- Nothing of the body of a method is lost in its tables but the places of types behind `instanceof`,
and the tables are one tree. -/
theorem ItemTree.body_readBack (text : Text) (source : Method Block) (block : Block)
    (member : source ∈ (outline (Java.parse text)).methods) (given : source.body = some block) :
    source.resolved (.outline (Java.parse text)) ∈ (ofText text).methods ∧
      ∃ body, (source.resolved (.outline (Java.parse text))).body = some body ∧
        body.readBlock body.root = some block.stored ∧ body.Nested := by
  refine ⟨?_,Body.ofBlock ⟨.outline (Java.parse text),source.owner,source.params⟩ block,?_,?_,?_⟩
  · rw [ofText,ofUnit_methods]
    exact List.mem_map_of_mem member
  · simp only [Method.resolved,Method.mapBody,given,Option.map_some]
  · exact Body.ofBlock_readBlock _ block (body_linked text source block member given)
  · exact Body.ofBlock_nested _ block

/-- A loop over what a call gives, with calls on a receiver and without one inside. -/
theorem ItemTree.body_readBack_loop : ∃ source ∈ (outline (Java.parse
    "class A { void m(R r) { for (S s : r.all()) if (s instanceof T) use(r.of(s)); } }".toList)).methods,
    ∃ block ∈ source.body.toList, block.statements.length = 1 ∧
      ∃ body, (source.resolved (outline (Java.parse
        "class A { void m(R r) { for (S s : r.all()) if (s instanceof T) use(r.of(s)); } }".toList))).body = some body ∧
        body.readBlock body.root = some block.stored ∧ body.Nested := by
  have evaluated : ∃ source ∈ (outline (Java.parse
      "class A { void m(R r) { for (S s : r.all()) if (s instanceof T) use(r.of(s)); } }".toList)).methods,
      ∃ block ∈ source.body.toList, block.statements.length = 1 := by
    decide +kernel
  obtain ⟨source,member,block,given,single⟩ := evaluated
  exact ⟨source,member,block,given,single,(body_readBack _ source block member (Option.mem_toList.mp given)).2⟩

end Transplant
