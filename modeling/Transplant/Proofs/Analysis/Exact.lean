import Mathlib
import Transplant.Proofs.Donor.Sites
import Transplant.Proofs.Item.Bodies

/-! What is said of a method against the tables of its body: the uses of parameters and variables,
the early exits and the parts that were not read are those of the tables, each once, and what has an
order comes in the order of the source. -/
namespace Transplant

open Java (Block Marks Spelled offset)

def StmtNode.unsupported? : StmtNode → Option Span
  | .unsupported span => some span
  | _ => none

def StmtNode.leaves : StmtNode → Bool
  | .returns _ _ => true
  | .throws _ _ => true
  | _ => false

/-- What was not read of an expression: all of it, or the class behind a creation. -/
def ExprNode.unread? : ExprNode → Option Span
  | .missing span => some span
  | .create _ _ _ _ _ inside _ _ => inside
  | _ => none

/-- A finding that does not depend on the class in which the method stands. -/
def Finding.plain? : Finding → Option Finding
  | .receiver _ => none
  | .superMention _ => none
  | .recursion _ => none
  | finding => some finding

/-- What an expression itself shows of parameters, of variables and of what was not read. -/
def ExprNode.shown? (id : ExprId) (access : Access) : ExprNode → Option Finding
  | .name _ (.param number) span => some (.param number ⟨id,span,access⟩)
  | .name _ (.localVar target) span => some (.localVar target span)
  | node => node.unread?.map .unread

/-- Where a local variable called `called` is used. -/
def ExprNode.localUse? (locals : Array Local) (called : String) : ExprNode → Option Span
  | .name _ (.localVar id) span => if (locals[id]?).any (·.name.text == called) then some span else none
  | _ => none

namespace Body

variable {β γ : Type} (scope : Scope β) (block : Block) (body : Body) (method : Method γ)

theorem exprEntries_isExpr {access : Access} {id inner : ExprId} {isLast : Bool} :
    .stmt inner isLast ∉ body.exprEntries access id := by
  induction id using Nat.strongRecOn generalizing access with
  | ind id ih =>
    rw [exprEntries]
    cases body.exprs[id]? with
    | none => exact List.not_mem_nil
    | some node =>
      simp only [List.mem_cons,reduceCtorEq,List.mem_flatMap,false_or,not_exists,not_and]
      intro part _
      split
      · exact ih part.1 ‹_›
      · exact List.not_mem_nil

/-- Inside a statement no other one may leave the body. -/
theorem isLast_of_stmtEntries {isLast : Bool} {id inner : StmtId}
    (member : .stmt inner true ∈ body.stmtEntries isLast id) : .stmt inner true = Entry.stmt id isLast := by
  induction id using Nat.strongRecOn generalizing isLast with
  | ind id ih =>
    rw [stmtEntries] at member
    cases found : body.stmts[id]? with
    | none => simp [found] at member
    | some node =>
      simp only [found,List.mem_cons,List.mem_flatMap] at member
      rcases member with here | ⟨part,_,inside⟩
      · exact here
      · cases part with
        | expr value => exact absurd inside body.exprEntries_isExpr
        | stmt other =>
          simp only at inside
          split at inside
          · cases ih other ‹_› inside
          · cases inside

theorem isLast_of_topEntries {id : StmtId} {ids : List StmtId} (member : .stmt id true ∈ body.topEntries ids) :
    ids.getLast? = some id := by
  rw [topEntries_eq] at member
  obtain ⟨entry,listed,inside⟩ := List.mem_flatMap.mp member
  cases entry with
  | expr value access => exact absurd inside body.exprEntries_isExpr
  | stmt outer isLast =>
    cases body.isLast_of_stmtEntries inside
    exact isLast_of_atTop listed

theorem mem_topEntries_of_last {id : StmtId} {ids : List StmtId} {node : StmtNode}
    (found : body.stmts[id]? = some node) (last : ids.getLast? = some id) :
    .stmt id true ∈ body.topEntries ids := by
  rw [topEntries_eq]
  refine List.mem_flatMap.mpr ⟨_,atTop_of_last last,?_⟩
  rw [entriesOf,stmtEntries,found]
  exact List.mem_cons_self

theorem parts_nodup : body.parts.Nodup := by
  refine List.nodup_append.mpr ⟨List.nodup_range.map ?_,List.nodup_range.map ?_,?_⟩
  · rintro _ _ ⟨⟩
    rfl
  · rintro _ _ ⟨⟩
    rfl
  · simp

include method in
theorem mem_topEntries (part : StmtPart) : part ∈ (ofBlock scope block).parts ↔
    ∃ entry ∈ (ofBlock scope block).topEntries (ofBlock scope block).statements, entry.part = part := by
  rw [← (ofBlock_entries scope block method).mem_iff,List.mem_map]

/-- What is read off all entries is read off both tables. -/
theorem flatMap_parts {κ : Type} (ofStmt : StmtNode → List κ) (ofExpr : ExprNode → List κ)
    (closed : ∀ statements span, ofStmt (.block statements span) = []) :
    ((ofBlock scope block).parts.flatMap fun
      | .stmt id => (ofBlock scope block).stmts[id]?.toList.flatMap ofStmt
      | .expr id => (ofBlock scope block).exprs[id]?.toList.flatMap ofExpr) =
    (ofBlock scope block).stmts.toList.flatMap ofStmt ++ (ofBlock scope block).exprs.toList.flatMap ofExpr := by
  have table {α : Type} (nodes : List α) (f : α → List κ) :
      ((List.range nodes.length).flatMap fun id => nodes[id]?.toList.flatMap f) = nodes.flatMap f := by
    induction nodes with
    | nil => rfl
    | cons node rest ih =>
      rw [List.length_cons,List.range_succ_eq_map,List.flatMap_cons,List.flatMap_map,List.flatMap_cons,← ih]
      simp
  -- The body itself is the last statement of the table and shows nothing.
  have root : (ofBlock scope block).stmts.toList.flatMap ofStmt =
      (topDraft scope block).stmts.toList.flatMap ofStmt := by
    simp [ofBlock_eq,closed]
  have inside (id : StmtId) (known : id < (topDraft scope block).stmts.size) :
      (ofBlock scope block).stmts[id]? = (topDraft scope block).stmts[id]? := by
    rw [ofBlock_eq,Array.getElem?_push_lt known,Array.getElem?_eq_getElem known]
  have count : (ofBlock scope block).root = (topDraft scope block).stmts.size := by rw [ofBlock_eq]
  rw [root,parts,count,List.flatMap_append,List.flatMap_map,List.flatMap_map]
  congr 1
  · rw [← table (topDraft scope block).stmts.toList,Array.length_toList]
    refine List.flatMap_congr fun id member => ?_
    simp only [inside id (List.mem_range.mp member),Array.getElem?_toList]
  · rw [← table (ofBlock scope block).exprs.toList,Array.length_toList]
    simp only [Array.getElem?_toList]

end Body

namespace Method

variable (method : Method Body)

theorem plain_of_node (body : Body) (id : ExprId) (access : Access) (node : ExprNode) :
    (method.findingsBefore body id access node ++ findingsAfter node).filterMap Finding.plain? =
      (node.shown? id access).toList := by
  cases node with
  | name text resolution span =>
    simp only [findingsBefore,nameFindings,findingsAfter,List.append_nil]
    split
    · rfl
    · rfl
    · split <;> rfl
    · rfl
    · rfl
  | call receiver callee args target span =>
    cases receiver with
    | none =>
      simp only [findingsBefore,bareCallFindings,findingsAfter,List.append_nil]
      repeat' split
      all_goals rfl
    | some receiver =>
      simp only [findingsBefore,findingsAfter,List.append_nil]
      split <;> rfl
  | create outer type args dims initializer inside target span =>
    cases outer with
    | none =>
      simp only [findingsBefore]
      split <;> cases inside <;> rfl
    | some outer => cases inside <;> rfl
  | _ => rfl

end Method

theorem ExprNode.name_of_shown (node : ExprNode) {id : ExprId} {access : Access} {number : Nat}
    {mention : ParamUse} (shown : node.shown? id access = some (.param number mention)) :
    ∃ name, node = .name name (.param number) mention.span ∧ id = mention.expr := by
  cases node with
  | name text resolution span =>
    cases resolution <;> cases shown
    exact ⟨text,rfl,rfl⟩
  | create outer type args dims initializer inside target span => cases inside <;> cases shown
  | _ => cases shown

theorem ExprNode.shown_ne_interruption (node : ExprNode) {id : ExprId} {access : Access} {span : Span} :
    node.shown? id access ≠ some (.interruption span) := by
  cases node with
  | name text resolution place => cases resolution <;> exact nofun
  | create outer type args dims initializer inside target place => cases inside <;> exact nofun
  | _ => exact nofun

theorem StmtNode.leavingFindings_param (node : StmtNode) {isLast : Bool} {number : Nat} {mention : ParamUse} :
    .param number mention ∉ Method.leavingFindings isLast node := by
  cases node with
  | returns | throws => cases isLast <;> simp [Method.leavingFindings]
  | _ => simp [Method.leavingFindings]

theorem StmtNode.leavingFindings_interruption (node : StmtNode) {isLast : Bool} {span : Span} :
    .interruption span ∈ Method.leavingFindings isLast node ↔
      node.leaves = true ∧ isLast = false ∧ node.span = span := by
  cases node with
  | returns | throws => cases isLast <;> simp [Method.leavingFindings,leaves,StmtNode.span,eq_comm]
  | _ => simp [Method.leavingFindings,leaves]

namespace Method

variable {β : Type} {scope : Scope β} {block : Block} {method : Method Body}

section

variable (given : method.body = some (Body.ofBlock scope block))

include given

theorem findings_perm : method.findings.Perm (((Body.ofBlock scope block).topEntries
    (Body.ofBlock scope block).statements).flatMap (method.ownFindings (Body.ofBlock scope block))) := by
  simp only [findings,given]
  exact method.topFindings_perm _ _

/-- A finding is shown by one of the entries. -/
theorem mem_findings {finding : Finding} (plain : finding.plain? = some finding) : finding ∈ method.findings ↔
    (∃ id node access, .expr id access ∈ (Body.ofBlock scope block).topEntries (Body.ofBlock scope block).statements ∧
      (Body.ofBlock scope block).exprs[id]? = some node ∧ node.shown? id access = some finding) ∨
    ∃ id node isLast, .stmt id isLast ∈ (Body.ofBlock scope block).topEntries (Body.ofBlock scope block).statements ∧
      (Body.ofBlock scope block).stmts[id]? = some node ∧ finding ∈ leavingFindings isLast node := by
  have shown (body : Body) (id : ExprId) (access : Access) (node : ExprNode) :
      finding ∈ method.findingsBefore body id access node ++ findingsAfter node ↔
        node.shown? id access = some finding := by
    rw [← Option.mem_toList,← plain_of_node,List.mem_filterMap]
    constructor
    · exact fun member => ⟨finding,member,plain⟩
    · rintro ⟨other,member,same⟩
      cases other <;> cases same <;> exact member
  rw [(findings_perm given).mem_iff,List.mem_flatMap]
  constructor
  · rintro ⟨entry,reached,made⟩
    cases entry with
    | expr id access =>
      simp only [ownFindings] at made
      cases found : (Body.ofBlock scope block).exprs[id]? with
      | none => simp [found] at made
      | some node => exact .inl ⟨id,node,access,reached,found,(shown ..).mp (by simpa [found] using made)⟩
    | stmt id isLast =>
      simp only [ownFindings] at made
      cases found : (Body.ofBlock scope block).stmts[id]? with
      | none => simp [found] at made
      | some node => exact .inr ⟨id,node,isLast,reached,found,by simpa [found] using made⟩
  · rintro (⟨id,node,access,reached,found,same⟩ | ⟨id,node,isLast,reached,found,made⟩)
    · exact ⟨_,reached,by rw [ownFindings,found]; exact (shown ..).mpr same⟩
    · exact ⟨_,reached,by rw [ownFindings,found]; exact made⟩

/-- What is picked from the findings, but for early exits, is picked from both tables. -/
theorem picked_perm {κ : Type} (pick : Finding → Option κ) (ofStmt : StmtNode → Option κ)
    (ofExpr : ExprNode → Option κ) (plain : ∀ finding, finding.plain?.bind pick = pick finding)
    (stays : ∀ span, pick (.interruption span) = none)
    (stmts : ∀ node, (node.unsupported?.map .unsupported).bind pick = ofStmt node)
    (exprs : ∀ id access node, (node.shown? id access).bind pick = ofExpr node) :
    (method.findings.filterMap pick).Perm ((Body.ofBlock scope block).stmts.toList.filterMap ofStmt ++
      (Body.ofBlock scope block).exprs.toList.filterMap ofExpr) := by
  have both := Body.flatMap_parts scope block (fun node => (ofStmt node).toList) (fun node => (ofExpr node).toList)
    fun statements span => by rw [← stmts]; rfl
  rw [← List.filterMap_eq_flatMap_toList,← List.filterMap_eq_flatMap_toList] at both
  rw [← both]
  refine ((findings_perm given).filterMap pick).trans ?_
  refine .trans ?_ ((Body.ofBlock_entries scope block method).flatMap_right _)
  rw [List.filterMap_flatMap,List.flatMap_map]
  refine .of_eq (List.flatMap_congr fun entry _ => ?_)
  cases entry with
  | expr id access =>
    simp only [ownFindings,Entry.part]
    cases (Body.ofBlock scope block).exprs[id]? with
    | none => rfl
    | some node =>
      have own := congrArg (List.filterMap pick) (method.plain_of_node (Body.ofBlock scope block) id access node)
      simp only [List.filterMap_filterMap,plain] at own
      rw [own]
      simp only [← exprs id access node,Option.toList_some,List.flatMap_singleton]
      cases node.shown? id access <;> simp [Drafting.filterMap_singleton]
  | stmt id isLast =>
    simp only [ownFindings,Entry.part]
    cases (Body.ofBlock scope block).stmts[id]? with
    | none => rfl
    | some node =>
      rw [Option.toList_some,List.flatMap_singleton,← stmts node]
      cases node with
      | returns | throws => cases isLast <;> simp [leavingFindings,StmtNode.unsupported?,stays]
      | unsupported span => simp [leavingFindings,StmtNode.unsupported?,Drafting.filterMap_singleton]
      | _ => rfl

/-- What only expressions show is picked from their table. -/
theorem picked_exprs_perm {κ : Type} (pick : Finding → Option κ) (ofExpr : ExprId → ExprNode → Option κ)
    (stmts : ∀ isLast node, (leavingFindings isLast node).filterMap pick = [])
    (exprs : ∀ id access node, (method.findingsBefore (Body.ofBlock scope block) id access node ++
      findingsAfter node).filterMap pick = (ofExpr id node).toList) :
    (method.findings.filterMap pick).Perm ((List.range (Body.ofBlock scope block).exprs.size).filterMap
      fun id => ((Body.ofBlock scope block).exprs[id]?).bind (ofExpr id)) := by
  have table : ((Body.ofBlock scope block).parts.flatMap fun
        | .stmt _ => []
        | .expr id => (((Body.ofBlock scope block).exprs[id]?).bind (ofExpr id)).toList) =
      (List.range (Body.ofBlock scope block).exprs.size).filterMap
        fun id => ((Body.ofBlock scope block).exprs[id]?).bind (ofExpr id) := by
    simp [Body.parts,List.flatMap_map,List.filterMap_eq_flatMap_toList]
  rw [← table]
  -- Each part of the body is looked at once.
  refine ((findings_perm given).filterMap _).trans ?_
  refine .trans ?_ ((Body.ofBlock_entries scope block method).flatMap_right _)
  rw [List.filterMap_flatMap,List.flatMap_map]
  refine .of_eq (List.flatMap_congr fun entry _ => ?_)
  cases entry with
  | expr id access =>
    simp only [ownFindings,Entry.part]
    cases (Body.ofBlock scope block).exprs[id]? with
    | none => rfl
    | some node => exact exprs id access node
  | stmt id isLast =>
    simp only [ownFindings,Entry.part]
    cases (Body.ofBlock scope block).stmts[id]? with
    | none => rfl
    | some node => exact stmts isLast node

/-- The uses of a parameter are the names in the table that stand for it. -/
theorem paramUses_exact (index : Nat) (id : ExprId) (span : Span) :
    (∃ access, ⟨id,span,access⟩ ∈ method.paramUses index) ↔
      ∃ name, (Body.ofBlock scope block).exprs[id]? = some (.name name (.param index) span) := by
  have used (mention : ParamUse) : mention ∈ method.paramUses index ↔
      .param index mention ∈ method.findings := by
    simp only [paramUses,List.mem_filterMap]
    constructor
    · rintro ⟨finding,found,same⟩
      cases finding with
      | param other listed =>
        simp only [Option.ite_none_right_eq_some,Option.some.injEq] at same
        obtain ⟨rfl,rfl⟩ := same
        exact found
      | _ => cases same
    · exact fun found => ⟨_,found,by simp⟩
  constructor
  · rintro ⟨access,listed⟩
    rcases (mem_findings given rfl).mp ((used _).mp listed) with
      ⟨other,node,looked,_,found,shown⟩ | ⟨_,node,isLast,_,_,left⟩
    · obtain ⟨name,rfl,rfl⟩ := node.name_of_shown shown
      exact ⟨name,found⟩
    · exact absurd left node.leavingFindings_param
  · rintro ⟨name,found⟩
    have known : .expr id ∈ (Body.ofBlock scope block).parts :=
      List.mem_append_right _ (List.mem_map_of_mem (List.mem_range.mpr (Array.getElem?_eq_some_iff.mp found).1))
    obtain ⟨entry,reached,same⟩ := (Body.mem_topEntries scope block method _).mp known
    cases entry with
    | stmt other isLast => cases same
    | expr other access =>
      cases same
      exact ⟨access,(used _).mpr ((mem_findings given rfl).mpr (.inl ⟨_,_,access,reached,found,rfl⟩))⟩

/-- The flow is interrupted when a statement leaves the body that is not the last one. -/
theorem interruptions_exact : method.interruptions ≠ [] ↔
    ∃ id node, (Body.ofBlock scope block).stmts[id]? = some node ∧ node.leaves = true ∧
      (Body.ofBlock scope block).statements.getLast? ≠ some id := by
  have reported : method.interruptions ≠ [] ↔ ∃ span, .interruption span ∈ method.findings := by
    constructor
    · intro some
      obtain ⟨span,listed⟩ := List.exists_mem_of_ne_nil _ some
      obtain ⟨finding,found,same⟩ := List.mem_filterMap.mp listed
      cases finding <;> cases same
      exact ⟨span,found⟩
    · rintro ⟨span,found⟩
      exact List.ne_nil_of_mem (List.mem_filterMap.mpr ⟨_,found,rfl⟩)
  rw [reported]
  constructor
  · rintro ⟨span,listed⟩
    rcases (mem_findings given rfl).mp listed with ⟨_,node,_,_,_,shown⟩ | ⟨id,node,isLast,reached,found,left⟩
    · exact absurd shown node.shown_ne_interruption
    · obtain ⟨leaves,rfl,_⟩ := node.leavingFindings_interruption.mp left
      refine ⟨id,node,found,leaves,fun last => ?_⟩
      -- The last statement is reached as such, and no statement is reached twice.
      have again := (Body.ofBlock scope block).mem_topEntries_of_last found last
      have once := (Body.ofBlock_entries scope block method).nodup_iff.mpr (Body.parts_nodup _)
      cases List.inj_on_of_nodup_map once again reached rfl
  · rintro ⟨id,node,found,leaves,notLast⟩
    have known : .stmt id ∈ (Body.ofBlock scope block).parts := by
      have inside : id < (Body.ofBlock scope block).root := by
        rw [Body.ofBlock_eq] at found ⊢
        rw [Array.getElem?_push] at found
        split at found
        · cases found
          cases leaves
        · exact (Array.getElem?_eq_some_iff.mp found).1
      exact List.mem_append_left _ (List.mem_map_of_mem (List.mem_range.mpr inside))
    obtain ⟨entry,reached,same⟩ := (Body.mem_topEntries scope block method _).mp known
    cases entry with
    | expr other access => cases same
    | stmt other isLast =>
      cases same
      cases isLast with
      | true => exact absurd (Body.isLast_of_topEntries _ reached) notLast
      | false =>
        have left := node.leavingFindings_interruption.mpr ⟨leaves,rfl,rfl⟩
        exact ⟨node.span,(mem_findings given rfl).mpr (.inr ⟨_,node,false,reached,found,left⟩)⟩

theorem unsupported_exact : method.unsupportedStatements.Perm
    ((Body.ofBlock scope block).stmts.toList.filterMap StmtNode.unsupported?) := by
  refine (picked_perm given _ StmtNode.unsupported? (fun _ => none)
    (fun finding => by cases finding <;> rfl) (fun _ => rfl)
    (fun node => by cases node <;> rfl)
    (fun id access node => by
      cases node with
      | name text resolution span => cases resolution <;> rfl
      | create outer type args dims initializer inside target span => cases inside <;> rfl
      | _ => rfl)).trans ?_
  simp only [List.filterMap_none,List.append_nil]
  exact .refl _

theorem unread_exact : method.unreadExpressions.Perm
    ((Body.ofBlock scope block).exprs.toList.filterMap ExprNode.unread?) := by
  refine (picked_perm given _ (fun _ => none) ExprNode.unread?
    (fun finding => by cases finding <;> rfl) (fun _ => rfl)
    (fun node => by cases node <;> rfl)
    (fun id access node => by
      cases node with
      | name text resolution span => cases resolution <;> rfl
      | create outer type args dims initializer inside target span => cases inside <;> rfl
      | _ => rfl)).trans ?_
  simp only [List.filterMap_none,List.nil_append]
  exact .refl _

/-- The places of a name are its declarations and uses in the tables. -/
theorem spansOfLocal_exact (called : String) : (method.spansOfLocal called).Perm
    (((Body.ofBlock scope block).locals.toList.filter (·.name.text == called)).map (·.name.span) ++
      (Body.ofBlock scope block).exprs.toList.filterMap
        (ExprNode.localUse? (Body.ofBlock scope block).locals called)) := by
  have own : method.locals = (Body.ofBlock scope block).locals.toList := by simp [locals,given]
  refine (List.mergeSort_perm _ _).trans ?_
  rw [own]
  simp only [Array.getElem?_toList]
  refine .append_left _ ((picked_perm given _ (fun _ => none)
    (ExprNode.localUse? (Body.ofBlock scope block).locals called)
    (fun finding => by cases finding <;> rfl) (fun _ => rfl)
    (fun node => by cases node <;> rfl)
    (fun id access node => by
      cases node with
      | name text resolution span => cases resolution <;> rfl
      | create outer type args dims initializer inside target span => cases inside <;> rfl
      | _ => rfl)).trans ?_)
  simp only [List.filterMap_none,List.nil_append]
  exact .refl _

end

/-- The places of a name come in the order of the source. -/
theorem spansOfLocal_sorted (method : Method Body) (called : String) :
    (method.spansOfLocal called).Pairwise fun first second => first.atMost second = true := by
  refine List.pairwise_mergeSort ?_ ?_ _
  · intro first second third one two
    simp only [Span.atMost,Bool.or_eq_true,Bool.and_eq_true,decide_eq_true_eq,beq_iff_eq] at one two ⊢
    omega
  · intro first second
    simp only [Span.atMost,Bool.or_eq_true,Bool.and_eq_true,decide_eq_true_eq,beq_iff_eq]
    omega

end Method

section

variable {first second : String}

theorem idxOf_of_filter {keep : String → Bool} {names : List String} (here : keep first = true)
    (there : keep second = true) (order : (names.filter keep).idxOf first < (names.filter keep).idxOf second) :
    names.idxOf first < names.idxOf second := by
  induction names with
  | nil => exact absurd order (Nat.lt_irrefl _)
  | cons name rest ih =>
    by_cases kept : keep name = true
    · rw [List.filter_cons_of_pos kept] at order
      by_cases same : name = first
      · subst same
        by_cases other : name = second
        · subst other
          exact absurd order (Nat.lt_irrefl _)
        · rw [List.idxOf_cons_self,List.idxOf_cons_ne _ other]
          exact Nat.succ_pos _
      · by_cases other : name = second
        · subst other
          rw [List.idxOf_cons_self] at order
          exact absurd order (Nat.not_lt_zero _)
        · rw [List.idxOf_cons_ne _ same,List.idxOf_cons_ne _ other] at order ⊢
          exact Nat.succ_lt_succ (ih (Nat.lt_of_succ_lt_succ order))
    · rw [List.filter_cons_of_neg kept] at order
      have apart (word : String) (held : keep word = true) : name ≠ word := by
        rintro rfl
        exact kept held
      rw [List.idxOf_cons_ne _ (apart first here),List.idxOf_cons_ne _ (apart second there)]
      exact Nat.succ_lt_succ (ih order)

/-- Without the repetitions, names come in the order of their first occurrences. -/
theorem eraseDups_ordered (names : List String) :
    names.eraseDups.Pairwise fun first second => names.idxOf first < names.idxOf second := by
  induction length : names.length using Nat.strongRecOn generalizing names with
  | ind count ih =>
    cases names with
    | nil => simp
    | cons name rest =>
      have others (word : String) (member : word ∈ (rest.filter fun other => !other == name).eraseDups) :
          (!word == name) = true := (List.mem_filter.mp (List.mem_eraseDups.mp member)).2
      rw [List.eraseDups_cons]
      refine List.pairwise_cons.mpr ⟨fun word member => ?_,?_⟩
      · have different : name ≠ word := by
          rintro rfl
          simpa using others name member
        rw [List.idxOf_cons_self,List.idxOf_cons_ne _ different]
        exact Nat.succ_pos _
      · have fewer := List.length_filter_le (fun other => !other == name) rest
        simp only [List.length_cons] at length
        refine (ih _ (by omega) _ rfl).imp_of_mem fun {one other} inOne inOther order => ?_
        have apart (word : String) (held : (!word == name) = true) : name ≠ word := by
          rintro rfl
          simp at held
        rw [List.idxOf_cons_ne _ (apart _ (others _ inOne)),List.idxOf_cons_ne _ (apart _ (others _ inOther))]
        exact Nat.succ_lt_succ (idxOf_of_filter (others _ inOne) (others _ inOther) order)

end

/-- Where a finding begins that is a place of the source to be edited. -/
def Finding.start? : Finding → Option Nat
  | .param _ mention => some mention.span.start
  | .localVar _ span => some span.start
  | .receiver found => some found.span.start
  | _ => none

def Finding.Ahead (first second : Finding) : Prop :=
  ∀ early late, first.start? = some early → second.start? = some late → early < late

theorem Finding.start?_erase (finding : Finding) : finding.erase.start? = finding.start? := by
  cases finding <;> rfl

theorem Finding.start?_eq (finding : Finding) : finding.start? = finding.site?.map (·.start) := by
  cases finding with
  | receiver found =>
    simp only [start?,site?,Option.map_some]
    split <;> rfl
  | _ => rfl

/-- A finding begins where its visit does, at a word. -/
theorem Java.Marks.start_of_finding {tokens : List Java.Token} {β γ : Type} (scope : Scope β) (method : Method γ)
    {visit : Visit} {a b : Nat} (marks : Marks tokens visit a b) (g : Nat → Nat) (finding : Finding)
    (made : finding ∈ (visit.move g).findings scope method) (start : Nat) (placed : finding.start? = some start) :
    start = g (2 * a + 1) ∧ b = a + 1 := by
  rw [Finding.start?_eq,Option.map_eq_some_iff] at placed
  obtain ⟨span,site,rfl⟩ := placed
  obtain ⟨place,own,here⟩ := (visit.move g).editedAt_of_finding scope method finding made span site
  have same : span.start = place.start := by rcases here with rfl | rfl <;> rfl
  rw [same]
  cases marks with
  | name | this =>
    cases own
    exact ⟨rfl,rfl⟩
  | call callee arity whole opened begins =>
    cases own
    exact ⟨congrArg g begins,rfl⟩
  | create created whole seen begins =>
    cases own
    exact ⟨congrArg g begins,rfl⟩
  | declare | unnamed => cases made
  | _ => cases own

/-- What is found to be edited is found in the order of the source. -/
theorem Method.ReadFrom.findings_ahead {text : Text} {method : Method Body} {read : Block}
    (known : method.ReadFrom text read) : method.findings.Pairwise Finding.Ahead := by
  obtain ⟨i,j,bound,spelled⟩ := known.spelled
  suffices erased : (method.findings.map Finding.erase).Pairwise Finding.Ahead by
    refine (List.pairwise_map.mp erased).imp fun given early late first second => ?_
    exact given early late ((Finding.start?_erase _).trans first) ((Finding.start?_erase _).trans second)
  rw [findings_ofBlock (method.scopeIn text) _ method known.body,Java.Block.mapSpans_visits,List.pairwise_flatMap]
  refine ⟨fun visit _ => ?_,List.pairwise_map.mpr (spelled.ordered.imp ?_)⟩
  · have alone := (List.pairwise_append.mp (visit.mentions_pairwise (method.scopeIn text) method
      fun early late => early.start < late.start)).1
    refine (List.pairwise_map.mp alone).imp fun given early late first second => ?_
    rw [Finding.start?_eq,Option.map_eq_some_iff] at first second
    obtain ⟨left,leftSite,rfl⟩ := first
    obtain ⟨right,rightSite,rfl⟩ := second
    exact given left right leftSite rightSite
  · intro first second ⟨a,b,c,d,early,late,order,last⟩ m inFirst n inSecond start next placedFirst placedSecond
    obtain ⟨rfl,rfl⟩ := early.start_of_finding (method.scopeIn text) method _ m inFirst start placedFirst
    obtain ⟨rfl,rfl⟩ := late.start_of_finding (method.scopeIn text) method _ n inSecond next placedSecond
    calc
      offset text (2 * a + 1) < offset text (2 * a + 2) := Java.offset_lt text (by omega)
      _ ≤ offset text (2 * c + 1) := Java.offset_mono text (by omega) (by omega)

/-- What is said of a method is what the tables of its body show, nothing less and nothing twice. -/
structure Method.Exact (method : Method Body) (body : Body) : Prop where
  uses : ∀ number id span, (∃ access, ⟨id,span,access⟩ ∈ method.paramUses number) ↔
    ∃ name, body.exprs[id]? = some (.name name (.param number) span)
  usesAscend : ∀ number, (method.paramUses number).Pairwise fun first second => first.span.start < second.span.start
  names : ∀ name, name ∈ method.localNames.map (·.name) ↔ name ∈ body.locals.toList.map (·.name.text)
  namesAscend : (method.localNames.map (·.name)).Pairwise fun first second =>
    (body.locals.toList.map (·.name.text)).idxOf first < (body.locals.toList.map (·.name.text)).idxOf second
  places : ∀ entry ∈ method.localNames, entry.spans.Perm
    ((body.locals.toList.filter (·.name.text == entry.name)).map (·.name.span) ++
      body.exprs.toList.filterMap (ExprNode.localUse? body.locals entry.name))
  placesAscend : ∀ entry ∈ method.localNames,
    entry.spans.Pairwise fun first second => first.atMost second = true
  interrupted : method.interruptions ≠ [] ↔ ∃ id node, body.stmts[id]? = some node ∧ node.leaves = true ∧
    body.statements.getLast? ≠ some id
  unsupported : ((method.activation.filter (·.code == "unsupported-statement")).map (·.span)).Perm
    ((body.stmts.toList.filterMap StmtNode.unsupported?).map some)
  unread : ((method.activation.filter (·.code == "unsupported-expression")).map (·.span)).Perm
    ((body.exprs.toList.filterMap ExprNode.unread?).map some)
  receiversAscend : method.implicitReceivers.Pairwise fun first second => first.span.start < second.span.start

namespace Method

/-- The entries of one kind among those of all kinds. -/
theorem filter_entries (spans : List Span) (severity : Severity) (code wanted message : String) :
    (spans.map fun span => Problem.mk severity code message (some span)).filter (·.code == wanted) =
      if code == wanted then spans.map fun span => Problem.mk severity code message (some span) else [] := by
  split
  · rename_i same
    exact List.filter_eq_self.mpr (List.forall_mem_map.mpr fun _ _ => same)
  · rename_i other
    exact List.filter_eq_nil_iff.mpr (List.forall_mem_map.mpr fun _ _ => other)

theorem activation_unsupported (method : Method Body) (bodied : method.body.isNone = false) :
    (method.activation.filter (·.code == "unsupported-statement")).map (·.span) =
      method.unsupportedStatements.map some := by
  simp [activation,bodied,filter_entries,Function.comp_def]

theorem activation_unread (method : Method Body) (bodied : method.body.isNone = false) :
    (method.activation.filter (·.code == "unsupported-expression")).map (·.span) =
      method.unreadExpressions.map some := by
  simp [activation,bodied,filter_entries,Function.comp_def]

end Method

/-- The analysis of a method of any text agrees with the tables of its body. -/
theorem ItemTree.method_exact (text : Text) (method : Method Body) (body : Body)
    (member : method ∈ (ofText text).methods) (given : method.body = some body) : method.Exact body := by
  obtain ⟨read,known⟩ := method_readFrom text method body member given
  obtain rfl := Option.some.inj (given.symm.trans known.body)
  have bodied : method.body.isNone = false := by rw [given]; rfl
  have own : method.locals = (Body.ofBlock (method.scopeIn text)
      (read.mapSpans (Span.map (offset text)))).locals.toList := by simp [Method.locals,given]
  have called : method.localNames.map (·.name) = (method.locals.map (·.name.text)).eraseDups := by
    simp [Method.localNames,Function.comp_def]
  have ahead := known.findings_ahead
  constructor
  case uses => exact Method.paramUses_exact given
  case usesAscend =>
    intro number
    refine List.pairwise_filterMap.mpr (ahead.imp fun order first one second two => ?_)
    split at one <;> split at two <;> simp_all [Finding.Ahead,Finding.start?]
  case names =>
    intro name
    rw [called,List.mem_eraseDups,own]
  case namesAscend =>
    rw [called,own]
    exact eraseDups_ordered _
  case places =>
    intro entry listed
    obtain ⟨name,_,rfl⟩ := List.mem_map.mp listed
    exact Method.spansOfLocal_exact given name
  case placesAscend =>
    intro entry listed
    obtain ⟨name,_,rfl⟩ := List.mem_map.mp listed
    exact method.spansOfLocal_sorted name
  case interrupted => exact Method.interruptions_exact given
  case unsupported =>
    rw [method.activation_unsupported bodied]
    exact (Method.unsupported_exact given).map some
  case unread =>
    rw [method.activation_unread bodied]
    exact (Method.unread_exact given).map some
  case receiversAscend =>
    refine List.pairwise_filterMap.mpr (ahead.imp fun order first one second two => ?_)
    split at one <;> split at two <;> simp_all [Finding.Ahead,Finding.start?]

set_option maxRecDepth 20000 in
/-- A method with three uses of its parameter, one of them in an early exit. -/
theorem ItemTree.method_exact_returning : ∃ method ∈ (ofText
    "class A { int m(int p) { if (p > 0) { return p; } int q = p; return q; } }".toList).methods,
    ∃ body, method.body = some body ∧ (method.paramUses 0).map (·.span) = [⟨29,30⟩,⟨45,46⟩,⟨58,59⟩] ∧
      method.localNames = [⟨"q",[⟨54,55⟩,⟨68,69⟩]⟩] ∧ method.interruptions = [⟨38,47⟩] ∧ method.Exact body := by
  have evaluated : (ofText
      "class A { int m(int p) { if (p > 0) { return p; } int q = p; return q; } }".toList).methods.map
      (fun method => (method.body.isSome,(method.paramUses 0).map (·.span),method.localNames,method.interruptions)) =
      [(true,[⟨29,30⟩,⟨45,46⟩,⟨58,59⟩],[⟨"q",[⟨54,55⟩,⟨68,69⟩]⟩],[⟨38,47⟩])] := by
    cbv
  obtain ⟨method,listed,same⟩ := List.map_eq_singleton_iff.mp evaluated
  simp only [Prod.mk.injEq] at same
  obtain ⟨bodied,uses,names,left⟩ := same
  obtain ⟨body,given⟩ := Option.isSome_iff_exists.mp bodied
  have member : method ∈ (ofText
      "class A { int m(int p) { if (p > 0) { return p; } int q = p; return q; } }".toList).methods := by
    rw [listed]
    exact List.mem_singleton_self method
  exact ⟨method,member,body,given,uses,names,left,method_exact _ method body member given⟩

end Transplant
