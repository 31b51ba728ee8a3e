import Transplant.Proofs.Body.Move
import Transplant.Proofs.Java.Spans

/-! The table of a body whose spans are moved: the same table with its spans moved. Nothing that is
drafted depends on where a name or a node stands. -/
namespace Transplant

open Java (Ident TypeRef Param Expr Stmt Block Catch Declarator)

def ExprNode.move (g : Nat → Nat) : ExprNode → ExprNode
  | .name text resolution span => .name text resolution (span.map g)
  | .literal kind value span => .literal kind value (span.map g)
  | .this span => .this (span.map g)
  | .super span => .super (span.map g)
  | .missing span => .missing (span.map g)
  | .call receiver callee args target span =>
    .call receiver (callee.mapSpans (Span.map g)) args target (span.map g)
  | .create outer type args dims initializer body target span =>
    .create outer (type.mapSpans (Span.map g)) args dims initializer (body.map (Span.map g)) target
      (span.map g)
  | .field receiver member span => .field receiver (member.mapSpans (Span.map g)) (span.map g)
  | .index array position span => .index array position (span.map g)
  | .unary op leading operand span => .unary op leading operand (span.map g)
  | .binary op left right span => .binary op left right (span.map g)
  | .instanceOf operand type span => .instanceOf operand type (span.map g)
  | .assign op left right span => .assign op left right (span.map g)
  | .conditional condition yes no span => .conditional condition yes no (span.map g)
  | .paren inner span => .paren inner (span.map g)
  | .arrayInit elements span => .arrayInit elements (span.map g)

def CatchNode.move (g : Nat → Nat) (clause : CatchNode) : CatchNode :=
  { clause with span := clause.span.map g }

def StmtNode.move (g : Nat → Nat) : StmtNode → StmtNode
  | .block statements span => .block statements (span.map g)
  | .declare declarators span => .declare declarators (span.map g)
  | .expr value span => .expr value (span.map g)
  | .returns value span => .returns value (span.map g)
  | .throws value span => .throws value (span.map g)
  | .ifElse condition yes no span => .ifElse condition yes no (span.map g)
  | .whileLoop condition body span => .whileLoop condition body (span.map g)
  | .forLoop init condition update body span => .forLoop init condition update body (span.map g)
  | .forEach element iterable body span => .forEach element iterable body (span.map g)
  | .tryCatch body catches cleanup span =>
    .tryCatch body (catches.map (CatchNode.move g)) cleanup (span.map g)
  | .breaks span => .breaks (span.map g)
  | .continues span => .continues (span.map g)
  | .empty span => .empty (span.map g)
  | .unsupported span => .unsupported (span.map g)

def Body.move (g : Nat → Nat) (body : Body) : Body :=
  ⟨body.root,body.stmts.map (StmtNode.move g),body.exprs.map (ExprNode.move g),
    body.locals.map (Local.move g)⟩

def Draft.move (g : Nat → Nat) (draft : Draft) : Draft :=
  ⟨draft.stmts.map (StmtNode.move g),draft.exprs.map (ExprNode.move g),
    draft.locals.map (Local.move g),draft.visible⟩

/-- Names stand for the same in both scopes. -/
structure Scope.Agrees {β γ : Type} (scope : Scope β) (other : Scope γ) : Prop where
  resolve : other.resolve = scope.resolve
  method? : other.method? = scope.method?
  constructor? : other.constructor? = scope.constructor?

theorem Java.Expr.isThis_mapSpans (e : Expr) (f : Span → Span) : (e.mapSpans f).isThis = e.isThis := by
  cases e <;> rfl

theorem Java.Expr.isNamed_mapSpans (e : Expr) (f : Span → Span) : (e.mapSpans f).isNamed = e.isNamed := by
  cases e <;> rfl

namespace Drafting

variable {α β γ : Type} {g : Nat → Nat}

/-- On a moved draft the second action gives the moved draft of the first. -/
def Moves (g : Nat → Nat) (onResult : α → β) (act : Drafting α) (moved : Drafting β) : Prop :=
  ∀ draft, moved (draft.move g) = (onResult (act draft).1,(act draft).2.move g)

namespace Moves

variable {δ ε : Type} {onResult : α → β} {onNext : δ → ε} {act : Drafting α} {moved : Drafting β}

theorem pure (a : α) : Moves g onResult (pure a) (pure (onResult a)) := fun _ => rfl

theorem bind {next : α → Drafting δ} {movedNext : β → Drafting ε} (first : Moves g onResult act moved)
    (rest : ∀ a, Moves g onNext (next a) (movedNext (onResult a))) :
    Moves g onNext (act >>= next) (moved >>= movedNext) := by
  intro draft
  change movedNext (moved (draft.move g)).1 (moved (draft.move g)).2 = _
  rw [first draft]
  exact rest _ _

theorem addExpr (node : ExprNode) : Moves g id (addExpr node) (addExpr (node.move g)) := by
  intro draft
  change ((draft.move g).exprs.size,_) =
    (draft.exprs.size,Draft.move g { draft with exprs := draft.exprs.push node })
  simp [Draft.move]

theorem addStmt (node : StmtNode) : Moves g id (addStmt node) (addStmt (node.move g)) := by
  intro draft
  change ((draft.move g).stmts.size,_) =
    (draft.stmts.size,Draft.move g { draft with stmts := draft.stmts.push node })
  simp [Draft.move]

theorem declare (type : TypeRef) (name : Ident) (span : Span) :
    Moves g id (declare type name span)
      (declare (type.mapSpans (Span.map g)) (name.mapSpans (Span.map g)) (span.map g)) := by
  intro draft
  change ((draft.move g).locals.size,_) = (draft.locals.size,Draft.move g { draft with
    locals := draft.locals.push ⟨type,name,span⟩
    visible := (name.text,draft.locals.size) :: draft.visible })
  simp [Draft.move,Local.move,Ident.mapSpans]

theorem inside (within : Moves g onResult act moved) :
    Moves g onResult (inside act) (inside moved) := by
  intro draft
  change ((moved (draft.move g)).1,{ (moved (draft.move g)).2 with visible := draft.visible }) = _
  rw [within draft]
  rfl

theorem insideStmt {act moved : Drafting StmtNode} (within : Moves g (StmtNode.move g) act moved) :
    Moves g id (do Drafting.addStmt (← Drafting.inside act))
      (do Drafting.addStmt (← Drafting.inside moved)) :=
  within.inside.bind fun node => addStmt node

/-- A name is looked up among the variables in force, which are not moved. -/
theorem name (scope : Scope β) (text : String) (span : Span) :
    Moves g id
      (do Drafting.addExpr (.name text (scope.resolve (← get).visible text) span))
      (do Drafting.addExpr (.name text (scope.resolve (← get).visible text) (span.map g))) :=
  fun draft => addExpr (.name text (scope.resolve draft.visible text) span) draft

end Moves

variable (scope : Scope β) (other : Scope γ) (agrees : scope.Agrees other)

include agrees

theorem expr_moves :
    (∀ e, Moves g id (expr scope e) (expr other (e.mapSpans (Span.map g)))) ∧
    (∀ value, Moves g id (exprOption scope value) (exprOption other (Expr.mapSpansOption (Span.map g) value))) ∧
    ∀ list, Moves g id (exprs scope list) (exprs other (Expr.mapSpansAll (Span.map g) list)) := by
  apply expr_induction
  all_goals intros
  all_goals simp only [Expr.mapSpans,Expr.mapSpansAll,Expr.mapSpansOption,expr,exprs,exprOption,
    agrees.resolve,agrees.method?,agrees.constructor?]
  case name name span => exact .name scope name span
  case literal | this | super | missing => exact .addExpr _
  case nameCall args _ args => exact args.bind fun _ => .addExpr _
  case thisFieldCall args _ args => exact (Moves.addExpr _).bind fun _ => args.bind fun _ => .addExpr _
  -- What is called is still no `this` and no name when its spans are moved.
  case fieldCall receiver name _ args span notThis inner listed =>
    rw [expr_call_field scope _ _ notThis,expr_call_field other _ _ ((receiver.isThis_mapSpans _).trans notThis)]
    exact inner.bind fun _ => listed.bind fun _ => .addExpr _
  case thisCall | superCall => rename_i args; exact args.bind fun _ => .addExpr _
  case call callee args span unnamed inner listed =>
    rw [expr_call scope _ _ unnamed,expr_call other _ _ ((callee.isNamed_mapSpans _).trans unnamed),Expr.mapSpans_span]
    exact inner.bind fun _ => listed.bind fun _ => .addExpr _
  case create outer args dims initializer =>
    exact outer.bind fun _ => args.bind fun _ => dims.bind fun _ => initializer.bind fun _ => .addExpr _
  case field | unary | instanceOf | paren | arrayInit => rename_i inner; exact inner.bind fun _ => .addExpr _
  case index | binary | assign =>
    rename_i left right
    exact left.bind fun _ => right.bind fun _ => .addExpr _
  case conditional condition yes no => exact condition.bind fun _ => yes.bind fun _ => no.bind fun _ => .addExpr _
  case nil => exact .pure []
  case cons first rest => exact first.bind fun _ => rest.bind fun _ => .pure _
  case none => exact .pure none
  case some value => exact value.bind fun _ => .pure _

theorem declarators_move (type : TypeRef) (list : List Declarator) :
    Moves g id (declarators scope type list)
      (declarators other (type.mapSpans (Span.map g)) (list.map (Declarator.mapSpans (Span.map g)))) := by
  induction list with
  | nil => exact .pure []
  | cons first rest ih =>
    have value := (expr_moves (g := g) scope other agrees).2.1 first.initializer
    rw [Expr.mapSpansOption_eq] at value
    exact value.bind fun _ => (Moves.declare type first.name first.span).bind fun _ => ih.bind fun _ => .pure _

theorem stmt_moves :
    (∀ s, Moves g id (stmt scope s) (stmt other (s.mapSpans (Span.map g)))) ∧
    (∀ value, Moves g id (blockOption scope value)
      (blockOption other (Block.mapSpansOption (Span.map g) value))) ∧
    (∀ b, Moves g id (block scope b) (block other (b.mapSpans (Span.map g)))) ∧
    (∀ list, Moves g id (stmts scope list) (stmts other (Stmt.mapSpansAll (Span.map g) list))) ∧
    (∀ list, Moves g (List.map (CatchNode.move g)) (catchNodes scope list)
      (catchNodes other (Catch.mapSpansAll (Span.map g) list))) ∧
    (∀ clause, Moves g (CatchNode.move g) (catchNode scope clause)
      (catchNode other (clause.mapSpans (Span.map g)))) ∧
    ∀ value, Moves g id (stmtOption scope value)
      (stmtOption other (Stmt.mapSpansOption (Span.map g) value)) := by
  have value (e : Expr) := (expr_moves (g := g) scope other agrees).1 e
  have option (e : Option Expr) := (expr_moves (g := g) scope other agrees).2.1 e
  have all (list : List Expr) := (expr_moves (g := g) scope other agrees).2.2 list
  simp only [Expr.mapSpansOption_eq,Expr.mapSpansAll_eq_map] at option all
  apply Stmt.induction_all
  all_goals intros
  all_goals simp only [Stmt.mapSpans,Stmt.mapSpansAll,Stmt.mapSpansOption,Block.mapSpans,
    Block.mapSpansOption,Catch.mapSpans,Catch.mapSpansAll,stmt,stmts,stmtOption,block,blockOption,catchNode,
    catchNodes]
  case declare type list _ => exact (declarators_move scope other agrees type list).bind fun _ => .addStmt _
  case expr e _ | throws e _ => exact (value e).bind fun _ => .addStmt _
  case returns e _ => exact (option e).bind fun _ => .addStmt _
  case ifElse condition _ _ _ yes no =>
    exact (value condition).bind fun _ => yes.bind fun _ => no.bind fun _ => .addStmt _
  case whileLoop condition _ _ body => exact (value condition).bind fun _ => body.bind fun _ => .addStmt _
  case forLoop condition update _ _ init body =>
    exact .insideStmt (init.bind fun _ => (option condition).bind fun _ => (all update).bind fun _ =>
      body.bind fun _ => .pure _)
  case forEach element iterable _ _ body =>
    exact (value iterable).bind fun _ =>
      .insideStmt ((Moves.declare element.type element.name element.span).bind fun _ =>
        body.bind fun _ => .pure _)
  case tryCatch body catches cleanup =>
    exact body.bind fun _ => catches.bind fun _ => cleanup.bind fun _ => .addStmt _
  case block body => exact body
  case breaks | continues | empty | unsupported => exact .addStmt _
  case statements list => exact list.inside.bind fun _ => .addStmt _
  case clause param _ _ body =>
    exact .inside ((Moves.declare param.type param.name param.span).bind fun _ =>
      body.bind fun _ => .pure _)
  case noStmt | noBlock => exact .pure none
  case someStmt | someBlock => rename_i inner; exact inner.bind fun _ => .pure _
  case nil => exact .pure []
  case cons first rest => exact first.bind fun _ => rest.bind fun _ => .pure _
  case noClause => exact Moves.pure []
  case clauses first rest => exact first.bind fun _ => rest.bind fun _ => .pure _

end Drafting

/-- The table of a moved body, its names looked up among the same declarations. -/
theorem Body.ofBlock_move {β γ : Type} (g : Nat → Nat) (scope : Scope β) (other : Scope γ)
    (agrees : scope.Agrees other) (block : Block) :
    ofBlock other (block.mapSpans (Span.map g)) = (ofBlock scope block).move g := by
  have drafted := (Drafting.stmt_moves (g := g) scope other agrees).2.2.1 block ⟨#[],#[],#[],[]⟩
  have empty : Draft.move g ⟨#[],#[],#[],[]⟩ = ⟨#[],#[],#[],[]⟩ := by simp [Draft.move]
  rw [empty] at drafted
  rw [ofBlock,drafted]
  rfl

end Transplant
