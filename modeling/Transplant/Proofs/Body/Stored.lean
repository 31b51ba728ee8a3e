import Transplant.Proofs.Body.Table
import Transplant.Proofs.Java.Spans

/-! What the tables of a body store: spans of its syntax, but for the missing name of a call, which
is put behind what is called; and each block with the statements it has in the source. -/
namespace Transplant

open Java (Ident TypeRef Param Expr Declarator Stmt Block Catch)

def Local.spans (declared : Local) : List Span := [declared.span,declared.type.span,declared.name.span]

def ExprNode.spans : ExprNode → List Span
  | .call _ callee _ _ span => [span,callee.span]
  | .create _ type _ _ _ body _ span => span :: type.span :: body.toList
  | .field _ member span => [span,member.span]
  | node => [node.span]

def StmtNode.spans : StmtNode → List Span
  | .tryCatch _ catches _ span => span :: catches.map (·.span)
  | node => [node.span]

def StmtNode.isBlock : StmtNode → Bool
  | .block _ _ => true
  | _ => false

def Body.spans (body : Body) : List Span :=
  body.stmts.toList.flatMap StmtNode.spans ++ body.exprs.toList.flatMap ExprNode.spans ++
    body.locals.toList.flatMap Local.spans

namespace Drafting

/-- The numbers stand for statements with these spans. -/
def Numbered (stmts : Array StmtNode) (ids : List StmtId) (parts : List Span) : Prop :=
  List.Forall₂ (fun id part => ∃ node, stmts[id]? = some node ∧ node.span = part) ids parts

/-- All spans of a draft are of one sort, and so are its blocks with the spans of their statements. -/
structure Stored (p : Span → Prop) (q : Span → List Span → Prop) (draft : Draft) : Prop where
  stmts : ∀ node ∈ draft.stmts.toList, ∀ span ∈ node.spans, p span
  exprs : ∀ node ∈ draft.exprs.toList, ∀ span ∈ node.spans, p span
  locals : ∀ declared ∈ draft.locals.toList, ∀ span ∈ declared.spans, p span
  blocks : ∀ ids span, .block ids span ∈ draft.stmts.toList →
    ∃ parts, Numbered draft.stmts ids parts ∧ q span parts

variable {p : Span → Prop} {q : Span → List Span → Prop} {draft before after : Draft}

theorem Stored.empty (visible : Locals) : Stored p q ⟨#[],#[],#[],visible⟩ := ⟨nofun,nofun,nofun,nofun⟩

theorem Stored.outside (stored : Stored p q draft) (visible : Locals) :
    Stored p q { draft with visible := visible } :=
  ⟨stored.stmts,stored.exprs,stored.locals,stored.blocks⟩

theorem Stored.addExpr (stored : Stored p q draft) {node : ExprNode} (given : ∀ span ∈ node.spans, p span) :
    Stored p q (addExpr node draft).2 := by
  refine ⟨stored.stmts,?_,stored.locals,stored.blocks⟩
  change ∀ other ∈ (draft.exprs.push node).toList, _
  rw [Array.toList_push]
  exact List.forall_mem_append.mpr ⟨stored.exprs,List.forall_mem_singleton.mpr given⟩

theorem Stored.declare (stored : Stored p q draft) {type : TypeRef} {name : Ident} {span : Span}
    (given : ∀ place ∈ Local.spans ⟨type,name,span⟩, p place) :
    Stored p q (declare type name span draft).2 := by
  refine ⟨stored.stmts,stored.exprs,?_,stored.blocks⟩
  change ∀ other ∈ (draft.locals.push ⟨type,name,span⟩).toList, _
  rw [Array.toList_push]
  exact List.forall_mem_append.mpr ⟨stored.locals,List.forall_mem_singleton.mpr given⟩

theorem Numbered.push {stmts : Array StmtNode} {ids : List StmtId} {parts : List Span}
    (numbered : Numbered stmts ids parts) (node : StmtNode) : Numbered (stmts.push node) ids parts :=
  numbered.imp fun _ _ ⟨other,found,span⟩ => ⟨other,getElem?_push_of_some node found,span⟩

/-- A statement is added; of a block it must be known which spans its statements have. -/
theorem Stored.addStmt (stored : Stored p q draft) {node : StmtNode} (given : ∀ span ∈ node.spans, p span)
    (block : ∀ ids span, node = .block ids span → ∃ parts, Numbered draft.stmts ids parts ∧ q span parts) :
    Stored p q (addStmt node draft).2 := by
  refine ⟨?_,stored.exprs,stored.locals,?_⟩
  · change ∀ other ∈ (draft.stmts.push node).toList, _
    rw [Array.toList_push]
    exact List.forall_mem_append.mpr ⟨stored.stmts,List.forall_mem_singleton.mpr given⟩
  · change ∀ ids span, .block ids span ∈ (draft.stmts.push node).toList →
      ∃ parts, Numbered (draft.stmts.push node) ids parts ∧ q span parts
    intro ids span member
    rw [Array.toList_push,List.mem_append,List.mem_singleton] at member
    obtain ⟨parts,numbered,holds⟩ : ∃ parts, Numbered draft.stmts ids parts ∧ q span parts := by
      rcases member with known | new
      · exact stored.blocks ids span known
      · exact block ids span new.symm
    exact ⟨parts,numbered.push node,holds⟩

theorem Stored.addPlain (stored : Stored p q draft) {node : StmtNode} (given : ∀ span ∈ node.spans, p span)
    (plain : node.isBlock = false := by rfl) : Stored p q (Drafting.addStmt node draft).2 := by
  refine stored.addStmt given fun ids span same => ?_
  rw [same] at plain
  cases plain

/-- What holds of a node with a name of its own. -/
theorem with_name {span name : Span} (own : p span) (named : p name) : ∀ place ∈ [span,name], p place :=
  List.forall_mem_cons.mpr ⟨own,List.forall_mem_singleton.mpr named⟩

section Expressions

variable {β : Type} (scope : Scope β) (p q)

/-- Drafting the expression stores its spans. -/
def Stores (e : Expr) : Prop := (∀ span ∈ e.spans, p span) → ∀ before, Stored p q before →
  Stored p q (expr scope e before).2

def StoresAll (list : List Expr) : Prop := (∀ span ∈ Expr.spansAll list, p span) →
  ∀ before, Stored p q before → Stored p q (exprs scope list before).2

def StoresOption (value : Option Expr) : Prop := (∀ span ∈ Expr.spansOption value, p span) →
  ∀ before, Stored p q before → Stored p q (exprOption scope value before).2

variable {p q} (behind : ∀ span, p span → p (.empty span.stop))

include behind

theorem expr_all_stores : (∀ e, Stores p q scope e) ∧ (∀ value, StoresOption p q scope value) ∧
    ∀ list, StoresAll p q scope list := by
  apply expr_induction
  case name => exact fun _ _ given _ stored => stored.addExpr given
  case literal => exact fun _ _ _ given _ stored => stored.addExpr given
  case this => exact fun _ given _ stored => stored.addExpr given
  case super => exact fun _ given _ stored => stored.addExpr given
  case missing => exact fun _ given _ stored => stored.addExpr given
  case nameCall =>
    intro text place args span listed given before stored
    simp only [Expr.spans,List.forall_mem_cons,List.forall_mem_append] at given
    obtain ⟨own,⟨named,_⟩,inside⟩ := given
    exact (listed inside before stored).addExpr (with_name own named)
  case thisFieldCall =>
    intro place name access args span listed given before stored
    simp only [Expr.spans,List.forall_mem_cons,List.forall_mem_append] at given
    obtain ⟨own,⟨_,named,first⟩,inside⟩ := given
    have receiver : Stored p q (addExpr (.this place) before).2 :=
      stored.addExpr (List.forall_mem_singleton.mpr first.1)
    exact (listed inside _ receiver).addExpr (with_name own named)
  case fieldCall =>
    intro receiver name access args span other inner listed given before stored
    simp only [Expr.spans,List.forall_mem_cons,List.forall_mem_append] at given
    obtain ⟨own,⟨_,named,first⟩,inside⟩ := given
    rw [expr_call_field scope args span other]
    exact (listed inside _ (inner first before stored)).addExpr (with_name own named)
  case thisCall =>
    intro place args span listed given before stored
    simp only [Expr.spans,List.forall_mem_cons,List.forall_mem_append] at given
    obtain ⟨own,⟨named,_⟩,inside⟩ := given
    exact (listed inside before stored).addExpr (with_name own named)
  case superCall =>
    intro place args span listed given before stored
    simp only [Expr.spans,List.forall_mem_cons,List.forall_mem_append] at given
    obtain ⟨own,⟨named,_⟩,inside⟩ := given
    exact (listed inside before stored).addExpr (with_name own named)
  case call =>
    intro callee args span unnamed inner listed given before stored
    simp only [Expr.spans,List.forall_mem_cons,List.forall_mem_append] at given
    obtain ⟨own,first,inside⟩ := given
    rw [expr_call scope args span unnamed]
    have named := behind _ (first _ callee.span_mem_spans)
    exact (listed inside _ (inner first before stored)).addExpr (with_name own named)
  case create =>
    intro outer type args dims initializer body span first second third fourth given before stored
    simp only [Expr.spans,List.forall_mem_cons,List.forall_mem_append] at given
    obtain ⟨own,typed,outside,listed,sized,filled,anonymous⟩ := given
    have parts := fourth filled _ (third sized _ (second listed _ (first outside before stored)))
    exact parts.addExpr (List.forall_mem_cons.mpr ⟨own,List.forall_mem_cons.mpr ⟨typed,anonymous⟩⟩)
  case field =>
    intro receiver name span inner given before stored
    simp only [Expr.spans,List.forall_mem_cons] at given
    obtain ⟨own,named,inside⟩ := given
    exact (inner inside before stored).addExpr (with_name own named)
  case index =>
    intro array position span first second given before stored
    simp only [Expr.spans,List.forall_mem_cons,List.forall_mem_append] at given
    obtain ⟨own,left,right⟩ := given
    exact (second right _ (first left before stored)).addExpr (List.forall_mem_singleton.mpr own)
  case unary =>
    intro op leading operand span inner given before stored
    simp only [Expr.spans,List.forall_mem_cons] at given
    exact (inner given.2 before stored).addExpr (List.forall_mem_singleton.mpr given.1)
  case binary =>
    intro op left right span first second given before stored
    simp only [Expr.spans,List.forall_mem_cons,List.forall_mem_append] at given
    obtain ⟨own,early,late⟩ := given
    exact (second late _ (first early before stored)).addExpr (List.forall_mem_singleton.mpr own)
  case instanceOf =>
    intro operand type span inner given before stored
    simp only [Expr.spans,List.forall_mem_cons] at given
    exact (inner given.2.2 before stored).addExpr (List.forall_mem_singleton.mpr given.1)
  case assign =>
    intro op left right span first second given before stored
    simp only [Expr.spans,List.forall_mem_cons,List.forall_mem_append] at given
    obtain ⟨own,early,late⟩ := given
    exact (second late _ (first early before stored)).addExpr (List.forall_mem_singleton.mpr own)
  case conditional =>
    intro condition yes no span first second third given before stored
    simp only [Expr.spans,List.forall_mem_cons,List.forall_mem_append] at given
    obtain ⟨own,asked,taken,other⟩ := given
    have parts := third other _ (second taken _ (first asked before stored))
    exact parts.addExpr (List.forall_mem_singleton.mpr own)
  case paren =>
    intro inside span inner given before stored
    simp only [Expr.spans,List.forall_mem_cons] at given
    exact (inner given.2 before stored).addExpr (List.forall_mem_singleton.mpr given.1)
  case arrayInit =>
    intro elements span listed given before stored
    simp only [Expr.spans,List.forall_mem_cons] at given
    exact (listed given.2 before stored).addExpr (List.forall_mem_singleton.mpr given.1)
  case nil => exact fun _ _ stored => stored
  case cons =>
    intro first rest one others given before stored
    simp only [Expr.spansAll,List.forall_mem_append] at given
    exact others given.2 _ (one given.1 before stored)
  case none => exact fun _ _ stored => stored
  case some => exact fun value inner given before stored => inner given before stored

end Expressions

section Statements

variable {β γ : Type} (scope : Scope β) (p q)

/-- The spans are of one sort, and the blocks have their statements where they should. -/
def Sorted (spans : List Span) (blocks : List Block) : Prop :=
  (∀ span ∈ spans, p span) ∧ ∀ b ∈ blocks, q b.span (b.statements.map Stmt.span)

def StmtStores (s : Stmt) : Prop := Sorted p q s.spans s.blocks →
  ∀ before, Stored p q before → Stored p q (stmt scope s before).2

def StmtsStore (list : List Stmt) : Prop := Sorted p q (Stmt.spansAll list) (Stmt.blocksAll list) →
  ∀ before, Stored p q before → Stored p q (stmts scope list before).2

def StmtOptionStores (value : Option Stmt) : Prop :=
  Sorted p q (Stmt.spansOption value) (Stmt.blocksOption value) →
    ∀ before, Stored p q before → Stored p q (stmtOption scope value before).2

def BlockStores (b : Block) : Prop := Sorted p q b.spans b.blocks →
  ∀ before, Stored p q before → Stored p q (block scope b before).2

def BlockOptionStores (value : Option Block) : Prop :=
  Sorted p q (Block.spansOption value) (Block.blocksOption value) →
    ∀ before, Stored p q before → Stored p q (blockOption scope value before).2

def CatchStores (clause : Catch) : Prop := Sorted p q clause.spans clause.blocks →
  ∀ before, Stored p q before → Stored p q (catchNode scope clause before).2

def CatchesStore (list : List Catch) : Prop := Sorted p q (Catch.spansAll list) (Catch.blocksAll list) →
  ∀ before, Stored p q before → Stored p q (catchNodes scope list before).2

variable {p q} {span : Span} {spans more : List Span} {blocks others : List Block}

theorem Sorted.tail (sorted : Sorted p q (span :: spans) blocks) : Sorted p q spans blocks :=
  ⟨(List.forall_mem_cons.mp sorted.1).2,sorted.2⟩

theorem Sorted.head (sorted : Sorted p q (span :: spans) blocks) : p span :=
  (List.forall_mem_cons.mp sorted.1).1

theorem Sorted.single (sorted : Sorted p q (span :: spans) blocks) : ∀ place ∈ [span], p place :=
  List.forall_mem_singleton.mpr sorted.head

theorem Sorted.left (sorted : Sorted p q (spans ++ more) (blocks ++ others)) : Sorted p q spans blocks :=
  ⟨(List.forall_mem_append.mp sorted.1).1,(List.forall_mem_append.mp sorted.2).1⟩

theorem Sorted.right (sorted : Sorted p q (spans ++ more) (blocks ++ others)) : Sorted p q more others :=
  ⟨(List.forall_mem_append.mp sorted.1).2,(List.forall_mem_append.mp sorted.2).2⟩

/-- Spans in front, in which there are no blocks. -/
theorem Sorted.front (sorted : Sorted p q (spans ++ more) blocks) : ∀ span ∈ spans, p span :=
  (List.forall_mem_append.mp sorted.1).1

theorem Sorted.back (sorted : Sorted p q (spans ++ more) blocks) : Sorted p q more blocks :=
  ⟨(List.forall_mem_append.mp sorted.1).2,sorted.2⟩

theorem catchNodes_spans (list : List Catch) (before : Draft) :
    (catchNodes scope list before).1.map (·.span) = list.map (·.span) := by
  induction list generalizing before with
  | nil => rfl
  | cons first rest ih =>
    obtain ⟨param,body,span⟩ := first
    exact congrArg (span :: ·) (ih _)

theorem Catch.span_mem_spansAll {clause : Catch} {list : List Catch} (listed : clause ∈ list) :
    clause.span ∈ Catch.spansAll list := by
  induction list with
  | nil => cases listed
  | cons first rest ih =>
    rw [Catch.spansAll,List.mem_append]
    rcases List.mem_cons.mp listed with rfl | listed
    · cases clause
      exact .inl List.mem_cons_self
    · exact .inr (ih listed)

variable (behind : ∀ span, p span → p (.empty span.stop)) (method : Method γ)

include behind

theorem declarators_store (type : TypeRef) (list : List Declarator) (typed : p type.span)
    (given : ∀ span ∈ list.flatMap Declarator.spans, p span) :
    ∀ before, Stored p q before → Stored p q (declarators scope type list before).2 := by
  induction list with
  | nil => exact fun _ stored => stored
  | cons first rest ih =>
    intro before stored
    simp only [List.flatMap_cons,List.forall_mem_append,Declarator.spans,List.forall_mem_cons] at given
    obtain ⟨⟨own,named,value⟩,others⟩ := given
    have valued := (expr_all_stores scope behind).2.1 first.initializer value before stored
    exact ih others _ (valued.declare (by simp [Local.spans,own,named,typed]))

include method

theorem stmt_all_stores : (∀ s, StmtStores p q scope s) ∧ (∀ value, BlockOptionStores p q scope value) ∧
    (∀ b, BlockStores p q scope b) ∧ (∀ list, StmtsStore p q scope list) ∧
    (∀ list, CatchesStore p q scope list) ∧ (∀ clause, CatchStores p q scope clause) ∧
    ∀ value, StmtOptionStores p q scope value := by
  obtain ⟨values,options,lists⟩ := @expr_all_stores p q β scope behind
  -- The parts are stored from left to right and the statement behind them, so only a block has to
  -- tell which spans its statements got.
  apply Stmt.induction_all
  case declare =>
    intro type list span sorted before stored
    have parts := declarators_store scope behind type list sorted.tail.head sorted.tail.tail.1 before stored
    exact parts.addPlain sorted.single
  case expr =>
    intro value span sorted before stored
    exact (values value sorted.tail.1 before stored).addPlain sorted.single
  case returns =>
    intro value span sorted before stored
    exact (options value sorted.tail.1 before stored).addPlain sorted.single
  case throws =>
    intro value span sorted before stored
    exact (values value sorted.tail.1 before stored).addPlain sorted.single
  case ifElse =>
    intro condition yes no span first second sorted before stored
    have inside := sorted.tail.back
    have asked := values condition sorted.tail.front before stored
    exact (second inside.right _ (first inside.left _ asked)).addPlain sorted.single
  case whileLoop =>
    intro condition body span inner sorted before stored
    have asked := values condition sorted.tail.front before stored
    exact (inner sorted.tail.back _ asked).addPlain sorted.single
  case forLoop =>
    intro init condition update body span first inner sorted before stored
    have header : Sorted p q (Expr.spansOption condition ++ (Expr.spansAll update ++ body.spans)) body.blocks :=
      sorted.tail.right
    have begun := first sorted.tail.left before stored
    have stepped := lists update header.back.front _ (options condition header.front _ begun)
    have parts := (inner header.back.back _ stepped).outside before.visible
    exact parts.addPlain sorted.single
  case forEach =>
    intro element iterable body span inner sorted before stored
    have header := sorted.tail.back
    have asked := values iterable header.front before stored
    have declared : Stored p q (declareParam element (expr scope iterable before).2).2 :=
      asked.declare (by have own := sorted.tail.front; simpa [Local.spans,Param.spans] using own)
    have parts := (inner header.back _ declared).outside (expr scope iterable before).2.visible
    exact parts.addPlain sorted.single
  case tryCatch =>
    intro body catches cleanup span first second third sorted before stored
    have inside := sorted.tail
    have caught := second inside.right.left _ (first inside.left before stored)
    refine (third inside.right.right _ caught).addPlain ?_
    refine List.forall_mem_cons.mpr ⟨sorted.head,?_⟩
    rw [catchNodes_spans,List.forall_mem_map]
    exact fun clause listed => inside.right.left.1 _ (Catch.span_mem_spansAll listed)
  case block => exact fun body inner => inner
  case breaks => exact fun span sorted before stored => stored.addPlain sorted.single
  case continues => exact fun span sorted before stored => stored.addPlain sorted.single
  case empty => exact fun span sorted before stored => stored.addPlain sorted.single
  case unsupported => exact fun span sorted before stored => stored.addPlain sorted.single
  case statements =>
    intro list span inner sorted before stored
    obtain ⟨laid,blocks⟩ := List.forall_mem_cons.mp sorted.2
    have parts := (inner ⟨sorted.tail.1,blocks⟩ before stored).outside before.visible
    refine parts.addStmt sorted.single fun ids place same => ?_
    cases same
    refine ⟨list.map Stmt.span,List.forall₂_map_right_iff.mpr ?_,laid⟩
    have nodes := (stmts_draw list before : StmtsDrawn scope method list before _ _).nodes
    refine nodes.imp fun _ _ entry => ?_
    obtain ⟨node,found,span,_⟩ := entry
    exact ⟨node,found,span⟩
  case clause =>
    intro param body span inner sorted before stored
    have declared : Stored p q (declareParam param before).2 :=
      stored.declare (by have own := sorted.tail.front; simpa [Local.spans,Param.spans] using own)
    exact (inner sorted.tail.back _ declared).outside before.visible
  case noStmt => exact fun _ _ stored => stored
  case someStmt => exact fun _ inner => inner
  case nil => exact fun _ _ stored => stored
  case cons =>
    intro first rest one others sorted before stored
    exact others sorted.right _ (one sorted.left before stored)
  case noClause => exact fun _ _ stored => stored
  case clauses =>
    intro first rest one others sorted before stored
    exact others sorted.right _ (one sorted.left before stored)
  case noBlock => exact fun _ _ stored => stored
  case someBlock => exact fun _ inner => inner

end Statements

theorem Numbered.map_eq {body : Body} {ids : List StmtId} {parts : List Span}
    (numbered : Numbered body.stmts ids parts) : ids.map body.stmtSpan? = parts.map some := by
  induction numbered with
  | nil => rfl
  | cons first _ ih =>
    obtain ⟨node,found,span⟩ := first
    simp only [List.map_cons,ih,Body.stmtSpan?,found,Option.map_some,span]

end Drafting

namespace Body

variable {β γ : Type} (scope : Scope β) (method : Method γ) (b : Block) {p : Span → Prop}
  {q : Span → List Span → Prop}

include method in
theorem ofBlock_stored (behind : ∀ span, p span → p (.empty span.stop))
    (sorted : Drafting.Sorted p q b.spans b.blocks) : (∀ span ∈ (ofBlock scope b).spans, p span) ∧
      ∀ ids span, .block ids span ∈ (ofBlock scope b).stmts.toList →
        ∃ parts, ids.map (ofBlock scope b).stmtSpan? = parts.map some ∧ q span parts := by
  have stored := (Drafting.stmt_all_stores scope behind method).2.2.1 b sorted _ (.empty [])
  refine ⟨?_,fun ids span listed => ?_⟩
  · simp only [spans,List.forall_mem_append,List.forall_mem_flatMap]
    exact ⟨⟨stored.stmts,stored.exprs⟩,stored.locals⟩
  · obtain ⟨parts,numbered,holds⟩ := stored.blocks ids span listed
    exact ⟨parts,numbered.map_eq,holds⟩

theorem ofBlock_span : (ofBlock scope b).span = b.span := by
  simp [span,ofBlock_eq,StmtNode.span]

end Body
end Transplant
