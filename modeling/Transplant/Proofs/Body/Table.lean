import Transplant.Donor.Range
import Transplant.Proofs.Body.Stmt

/-! The tables of a whole body against its syntax: its findings and variables are those met on the
way through it, and the spans selected from it are spans of its statements. -/
namespace Transplant

open Java (Stmt Block)
open Drafting

namespace Java

/-- From the start of the first to the end of the last of some statements. -/
def Stmt.spansOf (statements : List Stmt) : Option (List Span) :=
  match statements.head?,statements.getLast? with
  | some first,some last =>
    (Span.ofBounds? first.span.start last.span.stop).map fun span => [span]
  | _,_ => some []

/-- The parts of a body that take the place of a call. -/
def Block.selectSpans (body : Block) (hasValue : Bool) (mode : CallMode) : Option (List Span) :=
  match body.statements.getLast?.bind (·.value?),hasValue,mode with
  | some _,false,_ => Stmt.spansOf body.statements.dropLast
  | some value,true,.expression =>
    (Stmt.spansOf body.statements.dropLast).map (· ++ value.toList.map (·.span))
  | _,_,_ => Stmt.spansOf body.statements

/-- Whether a statement leaves the body early shows in no other visit. -/
theorem Stmt.walk_filterMap_last {κ : Type} (f : Visit → Option κ) (silent : ∀ span, f (.leave span) = none)
    (s : Stmt) (sight : Sight) : (s.walk true sight).filterMap f = (s.walk false sight).filterMap f := by
  cases s with
  | returns value span => simp [leaving,silent]
  | throws value span => simp [leaving,silent]
  | _ => rfl

theorem Stmt.walkTop_filterMap {κ : Type} (f : Visit → Option κ) (silent : ∀ span, f (.leave span) = none)
    (list : List Stmt) (sight : Sight) :
    (Stmt.walkTop sight list).filterMap f = (Stmt.walkAll sight list).filterMap f := by
  induction list generalizing sight with
  | nil => rfl
  | cons first rest ih =>
    cases rest with
    | nil => simp [Stmt.walkTop,Stmt.walkAll,Stmt.walk_filterMap_last f silent]
    | cons second rest =>
      have tail := ih (first.after sight)
      rw [Stmt.walkAll,List.filterMap_append,← tail,← List.filterMap_append]
      rfl

end Java

/-- Lists related element by element are both empty or agree at both ends. -/
theorem forall₂_ends {α β : Type} {R : α → β → Prop} {left : List α} {right : List β}
    (related : List.Forall₂ R left right) :
    (left = [] ∧ right = []) ∨ ∃ a b c d, left.head? = some a ∧ right.head? = some b ∧ R a b ∧
      left.getLast? = some c ∧ right.getLast? = some d ∧ R c d := by
  induction related with
  | nil => exact .inl ⟨rfl,rfl⟩
  | @cons a b left right first _ ih =>
    refine .inr ?_
    rcases ih with ⟨rfl,rfl⟩ | ⟨_,_,c,d,_,_,_,leftLast,rightLast,last⟩
    · exact ⟨a,b,a,b,rfl,rfl,first,rfl,rfl,first⟩
    · exact ⟨a,b,c,d,rfl,rfl,first,by simp [List.getLast?_cons,leftLast],
        by simp [List.getLast?_cons,rightLast],last⟩

namespace Body

variable {β : Type} (scope : Scope β) (block : Block)

/-- The draft of a body before the body itself is entered. -/
def topDraft : Draft := (Drafting.stmts scope block.statements ⟨#[],#[],#[],[]⟩).2

def topIds : List StmtId := (Drafting.stmts scope block.statements ⟨#[],#[],#[],[]⟩).1

theorem ofBlock_eq : ofBlock scope block =
    ⟨(topDraft scope block).stmts.size,
      (topDraft scope block).stmts.push (.block (topIds scope block) block.span),
      (topDraft scope block).exprs,(topDraft scope block).locals⟩ := by
  cases block
  rfl

theorem ofBlock_holds : Holds (ofBlock scope block) (topDraft scope block) := by
  rw [ofBlock_eq]
  exact ⟨fun _ _ found => found,fun _ _ found => getElem?_push_of_some _ found⟩

theorem ofBlock_statements : (ofBlock scope block).statements = topIds scope block := by
  simp [statements,ofBlock_eq]

theorem ofBlock_drawn {γ : Type} (method : Method γ) : StmtsDrawn scope method block.statements
    ⟨#[],#[],#[],[]⟩ (topIds scope block) (topDraft scope block) := stmts_draw _ _

/-- The variables of a body are those declared on the way through it. -/
theorem ofBlock_locals {γ : Type} (method : Method γ) :
    (ofBlock scope block).locals.toList = block.visits.filterMap Visit.declared? := by
  rw [Java.Block.visits,Stmt.walkTop_filterMap _ fun _ => rfl,ofBlock_eq]
  exact (ofBlock_drawn scope block method).drafted.locals

/-- What a number at the top of a body stands for. -/
def Stands (id : StmtId) (s : Stmt) : Prop :=
  ∃ node, (ofBlock scope block).stmts[id]? = some node ∧ node.span = s.span ∧
    Returns (topDraft scope block) node.value? s.value?

theorem ofBlock_stands {γ : Type} (method : Method γ) :
    List.Forall₂ (Stands scope block) (topIds scope block) block.statements :=
  (ofBlock_drawn scope block method).nodes.imp fun _ _ ⟨node,found,rest⟩ =>
    ⟨node,(ofBlock_holds scope block).stmts _ _ found,rest⟩

theorem statementSpans_eq {ids : List StmtId} {list : List Stmt}
    (stand : List.Forall₂ (Stands scope block) ids list) :
    (ofBlock scope block).statementSpans ids = Stmt.spansOf list := by
  rcases forall₂_ends stand with ⟨rfl,rfl⟩ | ⟨a,b,c,d,idsHead,listHead,first,idsLast,listLast,last⟩
  · rfl
  · obtain ⟨firstNode,firstFound,firstSpan,_⟩ := first
    obtain ⟨lastNode,lastFound,lastSpan,_⟩ := last
    simp only [statementSpans,Stmt.spansOf,idsHead,listHead,idsLast,listLast,Option.bind_some,stmtSpan?,
      firstFound,lastFound,Option.map_some,firstSpan,lastSpan]

theorem lastReturn?_eq (body : Body) : body.lastReturn? =
    (body.statements.getLast?.bind (body.stmts[·]?)).bind StmtNode.value? := by
  rw [lastReturn?]
  cases body.statements.getLast?.bind (body.stmts[·]?) with
  | none => rfl
  | some node => cases node <;> rfl

/-- Selecting from the tables is selecting from the syntax. -/
theorem ofBlock_selectSpans {γ : Type} (method : Method γ) (hasValue : Bool) (mode : CallMode) :
    (ofBlock scope block).selectSpans hasValue mode = block.selectSpans hasValue mode := by
  have stand := ofBlock_stands scope block method
  have all := statementSpans_eq scope block stand
  have shorter : List.Forall₂ (Stands scope block) (topIds scope block).dropLast
      block.statements.dropLast := by
    rw [List.dropLast_eq_take,List.dropLast_eq_take,stand.length_eq]
    exact List.forall₂_take _ stand
  have leading := statementSpans_eq scope block shorter
  rcases forall₂_ends stand with ⟨noIds,noStatements⟩ | ⟨_,_,id,s,_,_,_,idsLast,listLast,last⟩
  · simp only [selectSpans,Block.selectSpans,lastReturn?_eq,ofBlock_statements,noIds,noStatements]
    rfl
  · obtain ⟨node,found,_,returns⟩ := last
    have given : (ofBlock scope block).lastReturn? = node.value? := by
      rw [lastReturn?_eq,ofBlock_statements,idsLast]
      simp only [Option.bind_some,found]
    simp only [selectSpans,Block.selectSpans,given,ofBlock_statements,listLast,Option.bind_some,all,leading]
    generalize node.value? = known at returns
    generalize s.value? = meant at returns
    match known,meant,returns with
    | none,none,_ => rfl
    | some none,some none,_ => cases hasValue <;> cases mode <;> rfl
    | some (some value),some (some e),⟨entry,stored,span⟩ =>
      have spans : (ofBlock scope block).exprSpans (some value) = [e.span] := by
        have entered := (ofBlock_holds scope block).exprs value entry stored
        simp [exprSpans,entered,span]
      cases hasValue <;> cases mode <;> simp [spans]

end Body

/-- The findings in a body are those of the visits on the way through it. -/
theorem Method.findings_ofBlock {β : Type} (scope : Scope β) (block : Block) (method : Method Body)
    (given : method.body = some (Body.ofBlock scope block)) :
    method.findings.map Finding.erase = block.visits.flatMap (Visit.findings scope method) := by
  have shown := (Body.ofBlock_drawn scope block method).top _ (Body.ofBlock_holds scope block)
  simp only [Method.findings,given,Body.ofBlock_statements]
  exact shown

end Transplant
