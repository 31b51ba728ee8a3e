import Transplant.Proofs.Body.Table

/-! What the names, calls and creations in the tables of a body are resolved to is what the scope of
the body gives for them. -/
namespace Transplant

open Java (Ident TypeRef Expr Declarator Stmt Block Catch)

/-- The node is resolved in the scope. Calls of constructors have no target. -/
def ExprNode.Resolved {β : Type} (scope : Scope β) : ExprNode → Prop
  | .name text resolution _ => ∃ visible, resolution = scope.resolve visible text
  | .call none callee _ target _ =>
    callee.text ≠ "this" → callee.text ≠ "super" → target = scope.method? callee.text
  | .create _ type _ _ _ _ target _ => target = scope.constructor? type.text
  | _ => True

/-- A call on what is `this` in the tables of the body is resolved in the scope. -/
def ExprNode.Aimed {β : Type} (scope : Scope β) (body : Body) : ExprNode → Prop
  | .call (some receiver) callee _ target _ => Method.isThis body receiver = true → target = scope.method? callee.text
  | _ => True

namespace Drafting

variable {α β : Type}

/-- A body that has the tables behind the action has those before it; and if all expressions have the
property before the action, they have it behind it. -/
def Keeps (body : Body) (holds : ExprNode → Prop) (act : Drafting α) : Prop :=
  ∀ draft : Draft, Holds body (act draft).2 →
    Holds body draft ∧ ((∀ node ∈ draft.exprs, holds node) → ∀ node ∈ (act draft).2.exprs, holds node)

namespace Keeps

variable {γ : Type} {body : Body} {holds : ExprNode → Prop} {act : Drafting α}

theorem pure (a : α) : Keeps body holds (pure a) := fun _ held => ⟨held,id⟩

theorem bind {next : α → Drafting γ} (first : Keeps body holds act) (rest : ∀ a, Keeps body holds (next a)) :
    Keeps body holds (act >>= next) := by
  intro draft held
  obtain ⟨held,later⟩ := rest _ _ held
  obtain ⟨held,sooner⟩ := first draft held
  exact ⟨held,fun given => later (sooner given)⟩

theorem addExpr {node : ExprNode} (new : holds node) : Keeps body holds (addExpr node) := by
  refine fun draft held => ⟨held.of_extends (addExpr_extends node draft),fun given other member => ?_⟩
  rcases Array.mem_push.mp member with old | rfl
  · exact given other old
  · exact new

theorem addStmt (node : StmtNode) : Keeps body holds (addStmt node) :=
  fun draft held => ⟨held.of_extends (addStmt_extends node draft),id⟩

theorem declare (type : TypeRef) (name : Ident) (span : Span) : Keeps body holds (declare type name span) :=
  fun _ held => ⟨⟨held.exprs,held.stmts⟩,id⟩

theorem inside (within : Keeps body holds act) : Keeps body holds (inside act) := by
  intro draft held
  obtain ⟨held,given⟩ := within draft ⟨held.exprs,held.stmts⟩
  exact ⟨held,given⟩

end Keeps

variable (scope : Scope β) (body : Body)

/-- The expressions of the tables are resolved in the scope. -/
abbrev Resolves (act : Drafting α) : Prop := Keeps body (fun node => node.Resolved scope ∧ node.Aimed scope body) act

/-- Only `this` is entered as `this`. -/
theorem expr_isThis (e : Expr) (draft : Draft) : ∃ node,
    (expr scope e draft).2.exprs[(expr scope e draft).1]? = some node ∧ node.isThis = e.isThis := by
  have last : ∃ node middle, expr scope e draft = addExpr node middle ∧ node.isThis = e.isThis := by
    cases e with
    | call callee args span =>
      cases callee with
      | field receiver name place => cases receiver <;> exact ⟨_,_,rfl,rfl⟩
      | _ => exact ⟨_,_,rfl,rfl⟩
    | _ => exact ⟨_,_,rfl,rfl⟩
  obtain ⟨node,middle,same,this⟩ := last
  exact ⟨node,same ▸ addExpr_found node middle,this⟩

/-- A call on anything but `this` has no target. -/
theorem keeps_callOn {receiver : Expr} {args : List Expr} (inner : Resolves scope body (expr scope receiver))
    (listed : Resolves scope body (exprs scope args)) (other : receiver.isThis = false) (name : Ident) (span : Span) :
    Resolves scope body (do
      let receiver ← expr scope receiver
      addExpr (.call (some receiver) name (← exprs scope args) none span)) := by
  intro draft held
  have behind : Holds body (exprs scope args (expr scope receiver draft).2).2 := held.of_extends (addExpr_extends _ _)
  obtain ⟨held,later⟩ := listed _ behind
  obtain ⟨node,found,same⟩ := expr_isThis scope receiver draft
  have apart : Method.isThis body (expr scope receiver draft).1 = false := by
    rw [Method.isThis_eq (held.exprs _ _ found),same,other]
  obtain ⟨held,sooner⟩ := inner draft held
  refine ⟨held,fun given node member => ?_⟩
  rcases Array.mem_push.mp member with old | rfl
  · exact later (sooner given) node old
  · exact ⟨trivial,fun this => absurd (apart.symm.trans this) (by decide)⟩

theorem expr_resolves : (∀ e, Resolves scope body (expr scope e)) ∧
    (∀ value, Resolves scope body (exprOption scope value)) ∧
    ∀ list, Resolves scope body (exprs scope list) := by
  apply expr_induction
  case name => exact fun text span draft => Keeps.addExpr ⟨⟨draft.visible,rfl⟩,trivial⟩ draft
  case literal => exact fun kind value span => .addExpr ⟨trivial,trivial⟩
  case this | super | missing => exact fun span => .addExpr ⟨trivial,trivial⟩
  case nameCall => exact fun text place args span listed => listed.bind fun _ => .addExpr ⟨fun _ _ => rfl,trivial⟩
  case thisFieldCall =>
    exact fun place name access args span listed =>
      (Keeps.addExpr ⟨trivial,trivial⟩).bind fun _ => listed.bind fun _ => .addExpr ⟨trivial,fun _ => rfl⟩
  case fieldCall =>
    intro receiver name access args span other inner listed
    rw [expr_call_field scope args span other]
    exact keeps_callOn scope body inner listed other name span
  case thisCall =>
    exact fun place args span listed => listed.bind fun _ => .addExpr ⟨fun other _ => (other rfl).elim,trivial⟩
  case superCall =>
    exact fun place args span listed => listed.bind fun _ => .addExpr ⟨fun _ other => (other rfl).elim,trivial⟩
  case call =>
    intro callee args span unnamed inner listed
    rw [expr_call scope args span unnamed]
    exact keeps_callOn scope body inner listed (Expr.isThis_of_unnamed unnamed) ⟨"",.empty callee.span.stop⟩ span
  case create =>
    exact fun outer type args dims initializer body span first second third fourth =>
      first.bind fun _ => second.bind fun _ => third.bind fun _ => fourth.bind fun _ => .addExpr ⟨rfl,trivial⟩
  case field => exact fun receiver name span inner => inner.bind fun _ => .addExpr ⟨trivial,trivial⟩
  case index => exact fun array position span one other => one.bind fun _ => other.bind fun _ => .addExpr ⟨trivial,trivial⟩
  case unary => exact fun op leading operand span inner => inner.bind fun _ => .addExpr ⟨trivial,trivial⟩
  case binary => exact fun op left right span one other => one.bind fun _ => other.bind fun _ => .addExpr ⟨trivial,trivial⟩
  case instanceOf => exact fun operand type span inner => inner.bind fun _ => .addExpr ⟨trivial,trivial⟩
  case assign => exact fun op left right span one other => one.bind fun _ => other.bind fun _ => .addExpr ⟨trivial,trivial⟩
  case conditional =>
    exact fun condition yes no span one other last =>
      one.bind fun _ => other.bind fun _ => last.bind fun _ => .addExpr ⟨trivial,trivial⟩
  case paren => exact fun inside span inner => inner.bind fun _ => .addExpr ⟨trivial,trivial⟩
  case arrayInit => exact fun elements span listed => listed.bind fun _ => .addExpr ⟨trivial,trivial⟩
  case nil => exact .pure []
  case cons => exact fun first rest one others => one.bind fun _ => others.bind fun _ => .pure _
  case none => exact .pure none
  case some => exact fun value inner => inner.bind fun _ => .pure _

theorem declarators_resolve (type : TypeRef) (list : List Declarator) :
    Resolves scope body (declarators scope type list) := by
  induction list with
  | nil => exact .pure []
  | cons first rest ih =>
    exact ((expr_resolves scope body).2.1 first.initializer).bind fun _ =>
      (Keeps.declare type first.name first.span).bind fun _ => ih.bind fun _ => .pure _

theorem stmt_resolves : (∀ s, Resolves scope body (stmt scope s)) ∧
    (∀ value, Resolves scope body (blockOption scope value)) ∧
    (∀ b, Resolves scope body (block scope b)) ∧
    (∀ list, Resolves scope body (stmts scope list)) ∧
    (∀ list, Resolves scope body (catchNodes scope list)) ∧
    (∀ clause, Resolves scope body (catchNode scope clause)) ∧
    ∀ value, Resolves scope body (stmtOption scope value) := by
  obtain ⟨values,options,lists⟩ := expr_resolves scope body
  apply Stmt.induction_all
  case declare => exact fun type list span => (declarators_resolve scope body type list).bind fun _ => .addStmt _
  case expr | throws => exact fun value span => (values value).bind fun _ => .addStmt _
  case returns => exact fun value span => (options value).bind fun _ => .addStmt _
  case ifElse =>
    exact fun condition yes no span first second =>
      (values condition).bind fun _ => first.bind fun _ => second.bind fun _ => .addStmt _
  case whileLoop =>
    exact fun condition body span inner => (values condition).bind fun _ => inner.bind fun _ => .addStmt _
  case forLoop =>
    intro init condition update body span first inner
    have loop := first.bind fun starts => (options condition).bind fun asked => (lists update).bind fun steps =>
      inner.bind fun body => .pure (StmtNode.forLoop starts asked steps body span)
    exact loop.inside.bind fun _ => .addStmt _
  case forEach =>
    intro element iterable body span inner
    refine (values iterable).bind fun value => ?_
    have loop := (Keeps.declare element.type element.name element.span).bind fun target =>
      inner.bind fun body => .pure (StmtNode.forEach target value body span)
    exact loop.inside.bind fun _ => .addStmt _
  case tryCatch =>
    exact fun body catches cleanup span first second third =>
      first.bind fun _ => second.bind fun _ => third.bind fun _ => .addStmt _
  case block => exact fun body inner => inner
  case breaks | continues | empty | unsupported => exact fun span => .addStmt _
  case statements => exact fun list span inner => inner.inside.bind fun _ => .addStmt _
  case clause =>
    intro param body span inner
    have clause := (Keeps.declare param.type param.name param.span).bind fun target =>
      inner.bind fun body => .pure (CatchNode.mk target body span)
    exact clause.inside
  case noStmt | noBlock => exact .pure none
  case someStmt | someBlock => exact fun value inner => inner.bind fun _ => .pure _
  case nil | noClause => exact .pure []
  case cons | clauses => exact fun first rest one others => one.bind fun _ => others.bind fun _ => .pure _

end Drafting

theorem Body.ofBlock_resolves {β : Type} (scope : Scope β) (block : Block) :
    ∀ node ∈ (ofBlock scope block).exprs, node.Resolved scope ∧ node.Aimed scope (ofBlock scope block) := by
  have kept := (Drafting.stmt_resolves scope (ofBlock scope block)).2.2.1 block
  exact (kept ⟨#[],#[],#[],[]⟩ ⟨fun _ _ found => found,fun _ _ found => found⟩).2 (by simp)

theorem Body.ofBlock_resolved {β : Type} (scope : Scope β) (block : Block) :
    ∀ node ∈ (ofBlock scope block).exprs, node.Resolved scope :=
  fun node member => (ofBlock_resolves scope block node member).1

end Transplant
