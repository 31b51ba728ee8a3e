import Transplant.Proofs.Body.Entries

/-! The tables of a body are one tree. The parts of a node have smaller numbers than the node, each
entry but the body itself is a part of one node, and each variable is introduced by one statement. -/
namespace Transplant

open Java (Ident TypeRef Expr Declarator Stmt Block Catch)

/-- The expressions directly inside an expression. -/
def ExprNode.children (node : ExprNode) : List ExprId := (node.parts .read).map (·.1)

/-- The variables that are declared by a statement itself. -/
def StmtNode.introduced : StmtNode → List LocalId
  | .declare declarators _ => declarators.map (·.target)
  | .forEach element _ _ _ => [element]
  | .tryCatch _ catches _ _ => catches.map (·.target)
  | _ => []

/-- The parts of all nodes. -/
def heldParts (exprs : Array ExprNode) (stmts : Array StmtNode) : List StmtPart :=
  exprs.toList.flatMap (fun node => node.children.map .expr) ++ stmts.toList.flatMap StmtNode.parts

structure Body.Nested (body : Body) : Prop where
  root : body.root + 1 = body.stmts.size
  exprs : ∀ (id : ExprId) node, body.exprs[id]? = some node → ∀ part ∈ node.children, part < id
  stmts : ∀ (id : StmtId) node, body.stmts[id]? = some node → ∀ inner, .stmt inner ∈ node.parts → inner < id
  held : (heldParts body.exprs body.stmts).Perm body.parts
  introduced : (body.stmts.toList.flatMap StmtNode.introduced).Perm (List.range body.locals.size)

/-- Each entry is a part of one node or still waits for it, and each variable is introduced or still
waits for its statement. -/
structure Draft.Laid (draft : Draft) (waiting : List StmtPart) (targets : List LocalId) : Prop where
  exprs : ∀ (id : ExprId) node, draft.exprs[id]? = some node → ∀ part ∈ node.children, part < id
  stmts : ∀ (id : StmtId) node, draft.stmts[id]? = some node → ∀ inner, .stmt inner ∈ node.parts → inner < id
  held : (heldParts draft.exprs draft.stmts ++ waiting).Perm draft.parts
  introduced : (draft.stmts.toList.flatMap StmtNode.introduced ++ targets).Perm (List.range draft.locals.size)

theorem getElem?_push_cases {α : Type} {table : Array α} {new node : α} {id : Nat}
    (found : (table.push new)[id]? = some node) : table[id]? = some node ∨ (id = table.size ∧ node = new) := by
  rw [Array.getElem?_push] at found
  split at found
  · exact .inr ⟨‹_›,(Option.some.inj found).symm⟩
  · exact .inl found

/-- What waited for an entry is its part from now on. -/
theorem perm_entered {α : Type} (held waiting parts : List α) (entry : α) :
    (held ++ parts ++ (waiting ++ [entry])).Perm (entry :: (held ++ (waiting ++ parts))) := by
  rw [← List.append_assoc,List.append_assoc held]
  exact (List.perm_append_singleton _ _).trans (.cons _ (List.perm_append_comm.append_left _))

theorem heldParts_addExpr (node : ExprNode) (exprs : Array ExprNode) (stmts : Array StmtNode) :
    (heldParts (exprs.push node) stmts).Perm (heldParts exprs stmts ++ node.children.map .expr) := by
  simp only [heldParts,Array.toList_push,List.flatMap_append,List.flatMap_singleton,List.append_assoc]
  exact List.perm_append_comm.append_left _

theorem heldParts_addStmt (node : StmtNode) (exprs : Array ExprNode) (stmts : Array StmtNode) :
    heldParts exprs (stmts.push node) = heldParts exprs stmts ++ node.parts := by
  simp [heldParts]

namespace Draft.Laid

open Drafting

variable {draft : Draft} {waiting all : List StmtPart} {targets introduced : List LocalId}

theorem start : Laid ⟨#[],#[],#[],[]⟩ [] [] := ⟨nofun,nofun,.refl _,.refl _⟩

/-- An entry that waits is in the tables. -/
theorem known (laid : draft.Laid waiting targets) {part : StmtPart} (member : part ∈ waiting) :
    part ∈ draft.parts := laid.held.subset (List.mem_append_right _ member)

theorem outside (laid : draft.Laid waiting targets) (visible : Locals) :
    Laid { draft with visible := visible } waiting targets :=
  ⟨laid.exprs,laid.stmts,laid.held,laid.introduced⟩

theorem addExpr (laid : draft.Laid all targets) (node : ExprNode)
    (same : all = waiting ++ node.children.map .expr) :
    (addExpr node draft).2.Laid (waiting ++ [.expr (addExpr node draft).1]) targets where
  exprs := by
    subst same
    intro id other found part member
    rcases getElem?_push_cases found with found | ⟨rfl,rfl⟩
    · exact laid.exprs id other found part member
    · refine expr_mem_parts.mp (laid.known (List.mem_append_right _ ?_))
      exact List.mem_map_of_mem member
  stmts := laid.stmts
  held := by
    subst same
    refine ((heldParts_addExpr node draft.exprs draft.stmts).append_right _).trans ?_
    exact (perm_entered _ _ _ _).trans ((laid.held.cons _).trans (addExpr_parts node))
  introduced := laid.introduced

theorem addStmt (laid : draft.Laid all introduced) (node : StmtNode) (same : all = waiting ++ node.parts)
    (declared : introduced = targets ++ node.introduced) :
    (addStmt node draft).2.Laid (waiting ++ [.stmt (addStmt node draft).1]) targets where
  exprs := laid.exprs
  stmts := by
    subst same
    intro id other found inner member
    rcases getElem?_push_cases found with found | ⟨rfl,rfl⟩
    · exact laid.stmts id other found inner member
    · exact stmt_mem_parts.mp (laid.known (List.mem_append_right _ member))
  held := by
    subst same
    refine (List.Perm.of_eq ?_).trans ((perm_entered _ _ _ _).trans ((laid.held.cons _).trans (addStmt_parts node)))
    rw [← heldParts_addStmt]
    rfl
  introduced := by
    subst declared
    change ((draft.stmts.push node).toList.flatMap StmtNode.introduced ++ targets).Perm _
    simp only [Array.toList_push,List.flatMap_append,List.flatMap_singleton,List.append_assoc]
    exact (List.perm_append_comm.append_left _).trans laid.introduced

theorem declare (type : TypeRef) (name : Ident) (span : Span) (laid : draft.Laid waiting targets) :
    (declare type name span draft).2.Laid waiting (targets ++ [(declare type name span draft).1]) where
  exprs := laid.exprs
  stmts := laid.stmts
  held := laid.held
  introduced := by
    change (draft.stmts.toList.flatMap StmtNode.introduced ++ (targets ++ [draft.locals.size])).Perm
      (List.range (draft.locals.push ⟨type,name,span⟩).size)
    rw [Array.size_push,List.range_succ,← List.append_assoc]
    exact laid.introduced.append_right _

end Draft.Laid

namespace Drafting

variable {β : Type}

/-- What the action adds to the tables waits in its result. -/
def Lays {α : Type} (act : Drafting α) (parts : α → List StmtPart) : Prop :=
  ∀ before waiting targets, Draft.Laid before waiting targets →
    (act before).2.Laid (waiting ++ parts (act before).1) targets

variable {scope : Scope β} {receiver : Expr} {args : List Expr}

theorem lays_nothing {α : Type} (a : α) {parts : α → List StmtPart} (nothing : parts a = []) :
    Lays (pure a) parts := by
  intro before waiting targets laid
  change before.Laid (waiting ++ parts a) targets
  rwa [nothing,List.append_nil]

theorem lays_leaf (node : ExprNode) (alone : node.children = []) : Lays (addExpr node) fun id => [.expr id] :=
  fun _ _ _ laid => laid.addExpr node (by simp [alone])

theorem lays_bareCall (listed : Lays (exprs scope args) (·.map .expr)) (callee : Ident)
    (target : Option MethodRef) (span : Span) :
    Lays (do addExpr (.call none callee (← exprs scope args) target span)) fun id => [.expr id] :=
  fun _ _ _ laid => (listed _ _ _ laid).addExpr (.call none callee _ target span)
    (by simp [ExprNode.children,ExprNode.parts])

theorem lays_callOn (inner : Lays (expr scope receiver) fun id => [.expr id])
    (listed : Lays (exprs scope args) (·.map .expr)) (callee : Ident) (target : Option MethodRef) (span : Span) :
    Lays (do
      let receiver ← expr scope receiver
      addExpr (.call (some receiver) callee (← exprs scope args) target span)) fun id => [.expr id] :=
  fun _ _ _ laid => (listed _ _ _ (inner _ _ _ laid)).addExpr (.call (some _) callee _ target span)
    (by simp [ExprNode.children,ExprNode.parts])

variable (scope) in
theorem expr_all_lays : (∀ e, Lays (expr scope e) fun id => [.expr id]) ∧
    (∀ value, Lays (exprOption scope value) (·.toList.map .expr)) ∧
    ∀ list, Lays (exprs scope list) (·.map .expr) := by
  apply expr_induction
  case name => exact fun text span before => lays_leaf (.name text _ span) rfl before
  case literal => exact fun kind value span => lays_leaf (.literal kind value span) rfl
  case this => exact fun span => lays_leaf (.this span) rfl
  case super => exact fun span => lays_leaf (.super span) rfl
  case missing => exact fun span => lays_leaf (.missing span) rfl
  case nameCall =>
    exact fun text place args span listed => lays_bareCall listed ⟨text,place⟩ (scope.method? text) span
  case thisFieldCall =>
    intro place name access args span listed
    have receiver : Lays (expr scope (.this place)) fun id => [.expr id] := lays_leaf (.this place) rfl
    exact lays_callOn receiver listed name (scope.method? name.text) span
  case fieldCall =>
    intro receiver name access args span other inner listed
    rw [expr_call_field scope args span other]
    exact lays_callOn inner listed name none span
  case thisCall => exact fun place args span listed => lays_bareCall listed ⟨"this",place⟩ none span
  case superCall => exact fun place args span listed => lays_bareCall listed ⟨"super",place⟩ none span
  case call =>
    intro callee args span unnamed inner listed
    rw [expr_call scope args span unnamed]
    exact lays_callOn inner listed ⟨"",.empty callee.span.stop⟩ none span
  case create =>
    intro outer type args dims initializer body span first second third fourth before waiting targets laid
    have parts := fourth _ _ _ (third _ _ _ (second _ _ _ (first _ _ _ laid)))
    refine parts.addExpr (.create _ type _ _ _ body (scope.constructor? type.text) span) ?_
    simp [ExprNode.children,ExprNode.parts,Function.comp_def]
  case field =>
    intro receiver name span inner before waiting targets laid
    exact (inner _ _ _ laid).addExpr (.field _ name span) rfl
  case index =>
    intro array position span first second before waiting targets laid
    exact (second _ _ _ (first _ _ _ laid)).addExpr (.index _ _ span) (List.append_assoc _ _ _)
  case unary =>
    intro op leading operand span inner before waiting targets laid
    exact (inner _ _ _ laid).addExpr (.unary op leading _ span) rfl
  case binary =>
    intro op left right span first second before waiting targets laid
    exact (second _ _ _ (first _ _ _ laid)).addExpr (.binary op _ _ span) (List.append_assoc _ _ _)
  case instanceOf =>
    intro operand type span inner before waiting targets laid
    exact (inner _ _ _ laid).addExpr (.instanceOf _ type.text span) rfl
  case assign =>
    intro op left right span first second before waiting targets laid
    exact (second _ _ _ (first _ _ _ laid)).addExpr (.assign op _ _ span) (List.append_assoc _ _ _)
  case conditional =>
    intro condition yes no span first second third before waiting targets laid
    refine (third _ _ _ (second _ _ _ (first _ _ _ laid))).addExpr (.conditional _ _ _ span) ?_
    simp [ExprNode.children,ExprNode.parts]
  case paren =>
    intro inside span inner before waiting targets laid
    exact (inner _ _ _ laid).addExpr (.paren _ span) rfl
  case arrayInit =>
    intro elements span listed before waiting targets laid
    refine (listed _ _ _ laid).addExpr (.arrayInit _ span) ?_
    simp [ExprNode.children,ExprNode.parts]
  case nil => exact lays_nothing [] rfl
  case cons =>
    intro first rest one others before waiting targets laid
    have parts := others _ _ _ (one _ _ _ laid)
    rwa [List.append_assoc] at parts
  case none => exact lays_nothing none rfl
  case some => exact fun value inner => inner

theorem filterMap_value_cons (target : LocalId) (value : Option ExprId) (rest : List LocalInit) :
    (⟨target,value⟩ :: rest : List LocalInit).filterMap (·.value) = value.toList ++ rest.filterMap (·.value) := by
  cases value <;> rfl

/-- The variables of a declaration wait for it, and so do the values they start with. -/
theorem declarators_lay (type : TypeRef) (list : List Declarator) {before : Draft} {waiting : List StmtPart}
    {targets : List LocalId} (laid : before.Laid waiting targets) :
    (declarators scope type list before).2.Laid
      (waiting ++ ((declarators scope type list before).1.filterMap (·.value)).map .expr)
      (targets ++ (declarators scope type list before).1.map (·.target)) := by
  induction list generalizing before waiting targets with
  | nil =>
    change before.Laid (waiting ++ []) (targets ++ [])
    rwa [List.append_nil,List.append_nil]
  | cons first rest ih =>
    have value := (expr_all_lays scope).2.1 first.initializer _ _ _ laid
    have all := ih (value.declare type first.name first.span)
    rw [List.append_assoc,List.append_assoc,← List.map_append] at all
    rw [← filterMap_value_cons] at all
    exact all

/-- A clause waits with its variable and its block. -/
def CatchLays (scope : Scope β) (clause : Catch) : Prop :=
  ∀ before waiting targets, Draft.Laid before waiting targets →
    (catchNode scope clause before).2.Laid (waiting ++ [.stmt (catchNode scope clause before).1.body])
      (targets ++ [(catchNode scope clause before).1.target])

def CatchesLay (scope : Scope β) (list : List Catch) : Prop :=
  ∀ before waiting targets, Draft.Laid before waiting targets →
    (catchNodes scope list before).2.Laid
      (waiting ++ (catchNodes scope list before).1.map fun clause => .stmt clause.body)
      (targets ++ (catchNodes scope list before).1.map (·.target))

theorem lays_simple (node : StmtNode) (alone : node.parts = []) (silent : node.introduced = []) :
    Lays (addStmt node) fun id => [.stmt id] :=
  fun _ _ _ laid => laid.addStmt node (by simp [alone]) (by simp [silent])

variable (scope) in
theorem stmt_all_lays : (∀ s, Lays (stmt scope s) fun id => [.stmt id]) ∧
    (∀ value, Lays (blockOption scope value) (·.toList.map .stmt)) ∧
    (∀ b, Lays (block scope b) fun id => [.stmt id]) ∧ (∀ list, Lays (stmts scope list) (·.map .stmt)) ∧
    (∀ list, CatchesLay scope list) ∧ (∀ clause, CatchLays scope clause) ∧
    ∀ value, Lays (stmtOption scope value) (·.toList.map .stmt) := by
  obtain ⟨values,options,lists⟩ := expr_all_lays scope
  apply Stmt.induction_all
  case declare =>
    intro type list span before waiting targets laid
    exact (declarators_lay type list laid).addStmt (.declare _ span) rfl rfl
  case expr =>
    intro value span before waiting targets laid
    exact (values value _ _ _ laid).addStmt (.expr _ span) rfl (List.append_nil _).symm
  case returns =>
    intro value span before waiting targets laid
    exact (options value _ _ _ laid).addStmt (.returns _ span) rfl (List.append_nil _).symm
  case throws =>
    intro value span before waiting targets laid
    exact (values value _ _ _ laid).addStmt (.throws _ span) rfl (List.append_nil _).symm
  case ifElse =>
    intro condition yes no span first second before waiting targets laid
    have parts := second _ _ _ (first _ _ _ (values condition _ _ _ laid))
    exact parts.addStmt (.ifElse _ _ _ span) (by simp [StmtNode.parts]) (List.append_nil _).symm
  case whileLoop =>
    intro condition body span inner before waiting targets laid
    have parts := inner _ _ _ (values condition _ _ _ laid)
    exact parts.addStmt (.whileLoop _ _ span) (List.append_assoc _ _ _) (List.append_nil _).symm
  case forLoop =>
    intro init condition update body span first inner before waiting targets laid
    have parts := inner _ _ _ (lists update _ _ _ (options condition _ _ _ (first _ _ _ laid)))
    refine (parts.outside before.visible).addStmt (.forLoop _ _ _ _ span) ?_ (List.append_nil _).symm
    simp [StmtNode.parts]
  case forEach =>
    intro element iterable body span inner before waiting targets laid
    have value := values iterable _ _ _ laid
    have parts := inner _ _ _ (value.declare element.type element.name element.span)
    refine (parts.outside (expr scope iterable before).2.visible).addStmt (.forEach _ _ _ span) ?_ rfl
    exact List.append_assoc _ _ _
  case tryCatch =>
    intro body catches cleanup span first second third before waiting targets laid
    have parts := third _ _ _ (second _ _ _ (first _ _ _ laid))
    exact parts.addStmt (.tryCatch _ _ _ span) (by simp [StmtNode.parts]) rfl
  case block => exact fun body inner => inner
  case breaks => exact fun span => lays_simple (.breaks span) rfl rfl
  case continues => exact fun span => lays_simple (.continues span) rfl rfl
  case empty => exact fun span => lays_simple (.empty span) rfl rfl
  case unsupported => exact fun span => lays_simple (.unsupported span) rfl rfl
  case statements =>
    intro list span inner before waiting targets laid
    exact ((inner _ _ _ laid).outside before.visible).addStmt (.block _ span) rfl (List.append_nil _).symm
  case clause =>
    intro param body span inner before waiting targets laid
    exact (inner _ _ _ (laid.declare param.type param.name param.span)).outside before.visible
  case noStmt => exact lays_nothing none rfl
  case someStmt => exact fun value inner => inner
  case nil => exact lays_nothing [] rfl
  case cons =>
    intro first rest one others before waiting targets laid
    have parts := others _ _ _ (one _ _ _ laid)
    rwa [List.append_assoc] at parts
  case noClause =>
    intro before waiting targets laid
    change before.Laid (waiting ++ []) (targets ++ [])
    rwa [List.append_nil,List.append_nil]
  case clauses =>
    intro first rest one others before waiting targets laid
    have parts := others _ _ _ (one _ _ _ laid)
    rwa [List.append_assoc,List.append_assoc] at parts
  case noBlock => exact lays_nothing none rfl
  case someBlock => exact fun value inner => inner

end Drafting

/-- The body itself is the only entry that no other holds. -/
theorem Body.ofBlock_nested {β : Type} (scope : Scope β) (block : Block) : (ofBlock scope block).Nested := by
  have laid := (Drafting.stmt_all_lays scope).2.2.1 block _ _ _ Draft.Laid.start
  have root : (ofBlock scope block).root + 1 = (ofBlock scope block).stmts.size := by
    rw [ofBlock_eq,Array.size_push]
  have whole : (Drafting.block scope block ⟨#[],#[],#[],[]⟩).2.parts.Perm
      ((ofBlock scope block).parts ++ [.stmt (ofBlock scope block).root]) := by
    change ((List.range (ofBlock scope block).stmts.size).map StmtPart.stmt ++
      (List.range (ofBlock scope block).exprs.size).map StmtPart.expr).Perm _
    rw [← root,List.range_succ,List.map_append,parts,List.append_assoc,List.append_assoc]
    exact List.perm_append_comm.append_left _
  refine ⟨root,laid.exprs,laid.stmts,?_,?_⟩
  · exact (List.perm_append_right_iff _).mp (laid.held.trans whole)
  · have introduced := laid.introduced
    rwa [List.append_nil] at introduced

end Transplant
