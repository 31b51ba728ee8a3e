import Transplant.Proofs.Analysis.Exact
import Transplant.Proofs.Donor.Evaluated

/-! How a parameter is accessed, told from where its names stand. What is around a name decides how it is used,
parentheses aside, and the uses of one parameter are joined in any number and order. -/
namespace Transplant

open Java (AssignOp UnaryOp)

namespace Access

/-- Nothing but accesses of one kind. -/
def Only (kind access : Access) : Prop := access = unused ∨ access = kind

theorem join_eq_unused_iff (first second : Access) : first.join second = unused ↔ first = unused ∧ second = unused := by
  cases first <;> cases second <;> decide

theorem only_join_iff {kind : Access} (single : kind ≠ readWrite) (first second : Access) :
    Only kind (first.join second) ↔ Only kind first ∧ Only kind second := by
  cases kind <;> cases first <;> cases second <;> simp_all [Only,join]

theorem foldl_join_eq_unused_iff (start : Access) (list : List Access) :
    list.foldl join start = unused ↔ start = unused ∧ ∀ access ∈ list, access = unused := by
  induction list generalizing start with
  | nil => simp
  | cons first rest ih => rw [List.foldl_cons,ih,join_eq_unused_iff,List.forall_mem_cons,and_assoc]

theorem only_foldl_join_iff {kind : Access} (single : kind ≠ readWrite) (start : Access) (list : List Access) :
    Only kind (list.foldl join start) ↔ Only kind start ∧ ∀ access ∈ list, Only kind access := by
  induction list generalizing start with
  | nil => simp
  | cons first rest ih => rw [List.foldl_cons,ih,only_join_iff single,List.forall_mem_cons,and_assoc]

variable {list : List Access} (used : ∀ access ∈ list, access ≠ unused)

include used

theorem joinAll_eq_unused_iff : joinAll list = unused ↔ list = [] := by
  rw [joinAll,foldl_join_eq_unused_iff]
  constructor
  · rintro ⟨_,all⟩
    exact List.eq_nil_iff_forall_not_mem.mpr fun access member => used access member (all access member)
  · rintro rfl
    exact ⟨rfl,nofun⟩

/-- Reading alone and writing alone stay what they are. -/
theorem joinAll_eq_iff {kind : Access} (some : kind ≠ unused) (single : kind ≠ readWrite) :
    joinAll list = kind ↔ list ≠ [] ∧ ∀ access ∈ list, access = kind := by
  have split : joinAll list = kind ↔ joinAll list ≠ unused ∧ Only kind (joinAll list) := by
    constructor
    · rintro rfl
      exact ⟨some,.inr rfl⟩
    · exact fun ⟨other,only⟩ => only.resolve_left other
  rw [split,Ne,joinAll_eq_unused_iff used,joinAll,only_foldl_join_iff single]
  refine and_congr_right fun _ => ⟨fun ⟨_,all⟩ access member => ?_,
    fun all => ⟨.inl rfl,fun access member => .inr (all access member)⟩⟩
  exact (all access member).resolve_left (used access member)

end Access

namespace Body

variable (body : Body)

/-- The second expression is the first one, maybe in parentheses. -/
inductive Parenthesized (id : ExprId) : ExprId → Prop where
  | self : Parenthesized id id
  | paren {inner outer : ExprId} {span : Span} (found : body.exprs[outer]? = some (.paren inner span))
      (deeper : Parenthesized id inner) : Parenthesized id outer

/-- The expression, maybe in parentheses, is the left side of an assignment. -/
def IsAssigned (op : AssignOp) (id : ExprId) : Prop :=
  ∃ (outer parent right : ExprId) (span : Span), body.Parenthesized id outer ∧
    body.exprs[parent]? = some (.assign op outer right span)

/-- The expression, maybe in parentheses, is counted up or down, on either side of the sign. -/
def IsCounted (id : ExprId) : Prop :=
  ∃ (outer parent : ExprId) (op : UnaryOp) (leading : Bool) (span : Span), body.Parenthesized id outer ∧
    (op = .increment ∨ op = .decrement) ∧ body.exprs[parent]? = some (.unary op leading outer span)

/-- What is around an expression says how it is accessed. -/
def Explains (id : ExprId) : Access → Prop
  | .unused => False
  | .read => True
  | .write => body.IsAssigned .assign id
  | .readWrite => (∃ op ≠ AssignOp.assign, body.IsAssigned op id) ∨ body.IsCounted id

end Body

/-- A part is read, but for what is in parentheses, assigned to or counted. -/
theorem ExprNode.mem_parts {node : ExprNode} {access : Access} {part : ExprId × Access} (listed : part ∈ node.parts access) :
    part.2 = .read ∨ (∃ span, node = .paren part.1 span ∧ part.2 = access) ∨
    (∃ op right span, node = .assign op part.1 right span ∧ part.2 = if op = .assign then .write else .readWrite) ∨
    ∃ op leading span, node = .unary op leading part.1 span ∧ (op = .increment ∨ op = .decrement) ∧
      part.2 = .readWrite := by
  cases node with
  | paren inner span =>
    obtain rfl := List.mem_singleton.mp listed
    exact .inr (.inl ⟨span,rfl,rfl⟩)
  | assign op left right span =>
    rcases List.mem_pair.mp listed with rfl | rfl
    · exact .inr (.inr (.inl ⟨op,right,span,rfl,rfl⟩))
    · exact .inl rfl
  | unary op leading operand span =>
    obtain rfl := List.mem_singleton.mp listed
    by_cases counts : op = .increment ∨ op = .decrement
    · exact .inr (.inr (.inr ⟨op,leading,span,rfl,counts,if_pos (by simpa using counts)⟩))
    · exact .inl (if_neg (by simpa using counts))
  | call | create | arrayInit =>
    obtain ⟨_,_,rfl⟩ := List.mem_map.mp listed
    exact .inl rfl
  | name | literal | this | super | missing => cases listed
  | _ =>
    simp only [parts,List.mem_cons,List.not_mem_nil,or_false] at listed
    rcases listed with rfl | rfl | rfl <;> exact .inl rfl

/-- Which expressions are inside does not depend on the access. -/
theorem ExprNode.parts_children (node : ExprNode) (access : Access) : (node.parts access).map (·.1) = node.children := by
  cases node <;> rfl

namespace Body

section

variable {body : Body} {id root : ExprId} {access around : Access}

/-- Among the parts of an expression, only the access of the expression itself is not explained. -/
theorem explains_of_exprEntries (reached : .expr id access ∈ body.exprEntries around root) :
    (body.Parenthesized id root ∧ access = around) ∨ body.Explains id access := by
  induction root using Nat.strongRecOn generalizing around with
  | ind root ih =>
    rw [exprEntries] at reached
    cases found : body.exprs[root]? with
    | none => simp [found] at reached
    | some node =>
      simp only [found,List.mem_cons,List.mem_flatMap] at reached
      rcases reached with here | ⟨part,listed,inside⟩
      · cases here
        exact .inl ⟨.self,rfl⟩
      split at inside
      · rcases ih part.1 ‹_› inside with ⟨bare,rfl⟩ | explained
        · rcases ExprNode.mem_parts listed with read | ⟨span,rfl,same⟩ | ⟨op,right,span,rfl,same⟩ |
            ⟨op,leading,span,rfl,counts,same⟩
          · exact .inr (by rw [read]; trivial)
          · exact .inl ⟨.paren found bare,same⟩
          · rw [same]
            have assigned : body.IsAssigned op id := ⟨_,_,_,_,bare,found⟩
            by_cases plain : op = .assign
            · subst plain
              exact .inr assigned
            · rw [if_neg plain]
              exact .inr (.inl ⟨op,plain,assigned⟩)
          · rw [same]
            exact .inr (.inr ⟨_,_,op,_,_,bare,counts,found⟩)
        · exact .inr explained
      · cases inside

theorem mem_exprEntries_self (known : id < body.exprs.size) : .expr id access ∈ body.exprEntries access id := by
  rw [exprEntries,Array.getElem?_eq_getElem known]
  exact List.mem_cons_self

/-- With an expression its parts are reached. -/
theorem exprEntries_parts (nested : body.Nested) {node : ExprNode} {part : ExprId × Access}
    (reached : .expr id access ∈ body.exprEntries around root) (found : body.exprs[id]? = some node)
    (listed : part ∈ node.parts access) : .expr part.1 part.2 ∈ body.exprEntries around root := by
  have child : part.1 ∈ node.children := node.parts_children access ▸ List.mem_map_of_mem listed
  have smaller : part.1 < id := nested.exprs id node found part.1 child
  induction root using Nat.strongRecOn generalizing around with
  | ind root ih =>
    rw [exprEntries] at reached ⊢
    cases entered : body.exprs[root]? with
    | none => simp [entered] at reached
    | some top =>
      simp only [entered,List.mem_cons,List.mem_flatMap] at reached ⊢
      rcases reached with here | ⟨other,member,inside⟩
      · cases here
        cases entered.symm.trans found
        refine .inr ⟨part,listed,?_⟩
        rw [if_pos smaller]
        exact mem_exprEntries_self (Nat.lt_trans smaller (Array.getElem?_eq_some_iff.mp found).1)
      · split at inside
        · refine .inr ⟨other,member,?_⟩
          rw [if_pos ‹_›]
          exact ih other.1 ‹_› inside
        · cases inside

/-- An expression is reached from one that a statement reads. -/
theorem value_of_stmtEntries {isLast : Bool} {root : StmtId} (reached : .expr id access ∈ body.stmtEntries isLast root) :
    ∃ value, .expr id access ∈ body.exprEntries .read value ∧
      body.exprEntries .read value ⊆ body.stmtEntries isLast root := by
  induction root using Nat.strongRecOn generalizing isLast with
  | ind root ih =>
    rw [stmtEntries] at reached ⊢
    cases found : body.stmts[root]? with
    | none => simp [found] at reached
    | some node =>
      simp only [found,List.mem_cons,reduceCtorEq,List.mem_flatMap,false_or] at reached ⊢
      obtain ⟨part,listed,inside⟩ := reached
      cases part with
      | expr value =>
        exact ⟨value,inside,fun entry member => List.mem_cons_of_mem _ (List.mem_flatMap.mpr ⟨_,listed,member⟩)⟩
      | stmt inner =>
        simp only at inside
        split at inside
        · rename_i smaller
          obtain ⟨value,here,within⟩ := ih inner smaller inside
          refine ⟨value,here,fun entry member => List.mem_cons_of_mem _ (List.mem_flatMap.mpr ⟨_,listed,?_⟩)⟩
          simpa only [if_pos smaller] using within member
        · cases inside

theorem value_of_topEntries {ids : List StmtId} (reached : .expr id access ∈ body.topEntries ids) :
    ∃ value, .expr id access ∈ body.exprEntries .read value ∧ body.exprEntries .read value ⊆ body.topEntries ids := by
  rw [topEntries_eq] at reached ⊢
  obtain ⟨entry,listed,inside⟩ := List.mem_flatMap.mp reached
  cases entry with
  | expr root around =>
    have other := (atTop_parts ids).symm ▸ List.mem_map_of_mem (f := Entry.part) listed
    simp [Entry.part] at other
  | stmt root isLast =>
    obtain ⟨value,here,within⟩ := value_of_stmtEntries inside
    exact ⟨value,here,fun entry member => List.mem_flatMap.mpr ⟨_,listed,within member⟩⟩

end

/-- The access with which an expression is looked at. -/
def Accessed (body : Body) (id : ExprId) (access : Access) : Prop :=
  .expr id access ∈ body.topEntries body.statements

namespace Accessed

variable {body : Body} {id outer : ExprId} {access : Access}

theorem explained (accessed : body.Accessed id access) : body.Explains id access := by
  obtain ⟨value,inside,_⟩ := value_of_topEntries accessed
  rcases explains_of_exprEntries inside with ⟨_,rfl⟩ | explained
  · trivial
  · exact explained

theorem part (nested : body.Nested) (accessed : body.Accessed id access) {node : ExprNode} {part : ExprId × Access}
    (found : body.exprs[id]? = some node) (listed : part ∈ node.parts access) : body.Accessed part.1 part.2 := by
  obtain ⟨value,inside,within⟩ := value_of_topEntries accessed
  exact within (exprEntries_parts nested inside found listed)

/-- Parentheses are accessed as what is in them. -/
theorem inside (nested : body.Nested) (bare : body.Parenthesized id outer) (accessed : body.Accessed outer access) :
    body.Accessed id access := by
  induction bare with
  | self => exact accessed
  | @paren inner outer span found _ ih =>
    exact ih (accessed.part nested found (List.mem_singleton_self (inner,access)))

end Accessed

section

variable {β γ : Type} (scope : Scope β) (block : Java.Block) (method : Method γ) {id : ExprId} {access : Access}

include method in
theorem exists_accessed (known : id < (ofBlock scope block).exprs.size) :
    ∃ access, (ofBlock scope block).Accessed id access := by
  have listed : .expr id ∈ (ofBlock scope block).parts :=
    List.mem_append_right _ (List.mem_map_of_mem (List.mem_range.mpr known))
  obtain ⟨entry,reached,same⟩ := (mem_topEntries scope block method _).mp listed
  cases entry with
  | stmt other isLast => cases same
  | expr other access =>
    cases same
    exact ⟨access,reached⟩

include method in
/-- An expression is looked at once. -/
theorem Accessed.unique {other : Access} (first : (ofBlock scope block).Accessed id access)
    (second : (ofBlock scope block).Accessed id other) : access = other := by
  have once := (ofBlock_entries scope block method).nodup_iff.mpr (parts_nodup _)
  cases List.inj_on_of_nodup_map once first second rfl
  rfl

include method in
theorem Accessed.of_assigned {op : AssignOp} (accessed : (ofBlock scope block).Accessed id access)
    (assigned : (ofBlock scope block).IsAssigned op id) : access = if op = .assign then .write else .readWrite := by
  obtain ⟨outer,parent,right,span,bare,found⟩ := assigned
  have nested := ofBlock_nested scope block
  obtain ⟨around,reached⟩ := exists_accessed scope block method (Array.getElem?_eq_some_iff.mp found).1
  have left := reached.part nested found (List.mem_cons_self (a := (outer,_)))
  exact accessed.unique scope block method (left.inside nested bare)

include method in
theorem Accessed.of_counted (accessed : (ofBlock scope block).Accessed id access)
    (counted : (ofBlock scope block).IsCounted id) : access = .readWrite := by
  obtain ⟨outer,parent,op,leading,span,bare,counts,found⟩ := counted
  have nested := ofBlock_nested scope block
  obtain ⟨around,reached⟩ := exists_accessed scope block method (Array.getElem?_eq_some_iff.mp found).1
  have operand := reached.part nested found (List.mem_singleton_self _)
  rw [if_pos (by simpa using counts)] at operand
  exact accessed.unique scope block method (operand.inside nested bare)

include method in
theorem Accessed.eq_write_iff (accessed : (ofBlock scope block).Accessed id access) :
    access = .write ↔ (ofBlock scope block).IsAssigned .assign id := by
  constructor
  · rintro rfl
    exact accessed.explained
  · exact accessed.of_assigned scope block method

include method in
theorem Accessed.eq_read_iff (accessed : (ofBlock scope block).Accessed id access) :
    access = .read ↔ (∀ op, ¬ (ofBlock scope block).IsAssigned op id) ∧ ¬ (ofBlock scope block).IsCounted id := by
  constructor
  · rintro rfl
    refine ⟨fun op assigned => ?_,fun counted => ?_⟩
    · have other := accessed.of_assigned scope block method assigned
      split at other <;> cases other
    · cases accessed.of_counted scope block method counted
  · rintro ⟨unassigned,uncounted⟩
    have explained := accessed.explained
    cases access with
    | unused => exact explained.elim
    | read => rfl
    | write => exact (unassigned _ explained).elim
    | readWrite =>
      rcases explained with ⟨op,_,assigned⟩ | counted
      · exact (unassigned op assigned).elim
      · exact (uncounted counted).elim

end

end Body

namespace Method

variable (method : Method Body) (index : Nat)

/-- The expression is a name in the body that stands for the parameter. -/
def Refers (body : Body) (id : ExprId) : Prop :=
  method.body = some body ∧ ∃ (name : String) (span : Span), body.exprs[id]? = some (.name name (.param index) span)

def RefersSome : Prop := ∃ body id, method.Refers index body id

/-- Each mention is the left side of a plain assignment. -/
def WritesOnly : Prop := ∀ body id, method.Refers index body id → body.IsAssigned .assign id

/-- No mention is the left side of an assignment, nor counted. -/
def ReadsOnly : Prop :=
  ∀ body id, method.Refers index body id → (∀ op, ¬ body.IsAssigned op id) ∧ ¬ body.IsCounted id

variable {method index} {β : Type} {scope : Scope β} {block : Java.Block}

section

variable (given : method.body = some (Body.ofBlock scope block))

include given

/-- A parameter is used with the accesses with which its mentions are looked at. -/
theorem mem_accesses (access : Access) : access ∈ (method.paramUses index).map (·.access) ↔
    ∃ id, method.Refers index (Body.ofBlock scope block) id ∧ (Body.ofBlock scope block).Accessed id access := by
  have used (mention : ParamUse) : mention ∈ method.paramUses index ↔ .param index mention ∈ method.findings := by
    simp only [paramUses,List.mem_filterMap]
    constructor
    · rintro ⟨finding,found,same⟩
      cases finding with
      | param other listed =>
        simp only [Option.ite_none_right_eq_some,Option.some.injEq] at same
        obtain ⟨rfl,rfl⟩ := same
        exact found
      | _ => cases same
    · exact fun found => ⟨_,found,by simp⟩
  have shown (mention : ParamUse) :=
    (used mention).trans (mem_findings given (rfl : (Finding.param index mention).plain? = some (.param index mention)))
  simp only [List.mem_map,shown]
  constructor
  · rintro ⟨mention,⟨id,node,around,reached,found,shown⟩ | ⟨_,node,_,_,_,left⟩,rfl⟩
    · obtain ⟨name,rfl,rfl⟩ := node.name_of_shown shown
      obtain rfl : around = mention.access := congrArg ParamUse.access (Finding.param.inj (Option.some.inj shown)).2
      exact ⟨mention.expr,⟨given,name,_,found⟩,reached⟩
    · exact absurd left node.leavingFindings_param
  · rintro ⟨id,⟨_,name,span,found⟩,reached⟩
    exact ⟨⟨id,span,access⟩,.inl ⟨id,_,access,reached,found,rfl⟩,rfl⟩

theorem Refers.accessed {body : Body} {id : ExprId} (refers : method.Refers index body id) :
    ∃ access ∈ (method.paramUses index).map (·.access), body = Body.ofBlock scope block ∧ body.Accessed id access := by
  obtain rfl := Option.some.inj (given.symm.trans refers.1)
  obtain ⟨_,_,found⟩ := refers.2
  obtain ⟨access,accessed⟩ := Body.exists_accessed scope block method (Array.getElem?_eq_some_iff.mp found).1
  exact ⟨access,(mem_accesses given access).mpr ⟨id,refers,accessed⟩,rfl,accessed⟩

theorem accesses_used : ∀ access ∈ (method.paramUses index).map (·.access), access ≠ .unused := by
  rintro _ listed rfl
  obtain ⟨id,_,accessed⟩ := (mem_accesses given _).mp listed
  exact accessed.explained

theorem accesses_ne_nil_iff : (method.paramUses index).map (·.access) ≠ [] ↔ method.RefersSome index := by
  constructor
  · intro some
    obtain ⟨access,listed⟩ := List.exists_mem_of_ne_nil _ some
    obtain ⟨id,refers,_⟩ := (mem_accesses given access).mp listed
    exact ⟨_,id,refers⟩
  · rintro ⟨body,id,refers⟩
    obtain ⟨access,listed,_⟩ := refers.accessed given
    exact List.ne_nil_of_mem listed

/-- What is told of each mention by its access is told of all by all accesses. -/
theorem forall_accesses_iff {kind : Access} {holds : Body → ExprId → Prop}
    (each : ∀ id access, (Body.ofBlock scope block).Accessed id access →
      (access = kind ↔ holds (Body.ofBlock scope block) id)) :
    (∀ access ∈ (method.paramUses index).map (·.access), access = kind) ↔
      ∀ body id, method.Refers index body id → holds body id := by
  constructor
  · intro all body id refers
    obtain ⟨access,listed,rfl,accessed⟩ := refers.accessed given
    exact (each id access accessed).mp (all access listed)
  · intro all access listed
    obtain ⟨id,refers,accessed⟩ := (mem_accesses given access).mp listed
    exact (each id access accessed).mpr (all _ id refers)

end

end Method

/-- How a parameter is accessed on the whole, told from all its mentions. -/
structure Access.Tells (access : Access) (method : Method Body) (index : Nat) : Prop where
  unused : access = .unused ↔ ¬ method.RefersSome index
  write : access = .write ↔ method.RefersSome index ∧ method.WritesOnly index
  read : access = .read ↔ method.RefersSome index ∧ method.ReadsOnly index
  readWrite : access = .readWrite ↔
    method.RefersSome index ∧ ¬ method.WritesOnly index ∧ ¬ method.ReadsOnly index

/-- Unused, written and read say that the fourth is what is left. -/
theorem Access.Tells.of_three {access : Access} {method : Method Body} {index : Nat}
    (unused : access = .unused ↔ ¬ method.RefersSome index)
    (write : access = .write ↔ method.RefersSome index ∧ method.WritesOnly index)
    (read : access = .read ↔ method.RefersSome index ∧ method.ReadsOnly index) : access.Tells method index := by
  refine ⟨unused,write,read,?_⟩
  cases access <;> simp only [reduceCtorEq,true_iff,false_iff] at unused write read ⊢ <;> tauto

namespace Donor

/-- However often a method is prepared, the access of each parameter tells how its mentions in the body are used. -/
theorem access_tells (text : Text) (method : Method Body) (layout : Layout)
    (member : method ∈ (ItemTree.ofText text).methods) (times : Nat) (once : 1 ≤ times) (index : Nat)
    (inside : index < method.params.length) :
    ∃ parameter, (prepare^[times] (ofMethod text method layout)).parameters[index]? = some parameter ∧
      parameter.access.Tells method index := by
  obtain ⟨times,rfl⟩ := Nat.exists_eq_add_of_le' once
  rw [Function.iterate_succ_apply,prepare_again]
  refine ⟨⟨index,method.params[index].name.text,method.params[index].type.text,method.paramUses index⟩,?_,?_⟩
  · simp [prepare,ofMethod,inside]
  rw [Parameter.access]
  cases bodied : method.body with
  | none =>
    have nothing : method.paramUses index = [] := by simp [Method.paramUses,Method.findings,bodied]
    have unmentioned : ¬ method.RefersSome index := by
      rintro ⟨body,id,given,_⟩
      cases bodied.symm.trans given
    rw [nothing]
    exact .of_three (by simp [unmentioned,Access.joinAll]) (by simp [unmentioned,Access.joinAll])
      (by simp [unmentioned,Access.joinAll])
  | some body =>
    obtain ⟨read,known⟩ := ItemTree.method_readFrom text method body member bodied
    have used := @Method.accesses_used method index _ _ _ known.body
    have some := @Method.accesses_ne_nil_iff method index _ _ _ known.body
    refine .of_three ?_ ?_ ?_
    · rw [Access.joinAll_eq_unused_iff used,← some,not_not]
    · rw [Access.joinAll_eq_iff used (by decide) (by decide),some]
      exact and_congr_right fun _ => Method.forall_accesses_iff known.body fun id access accessed =>
        accessed.eq_write_iff _ _ method
    · rw [Access.joinAll_eq_iff used (by decide) (by decide),some]
      exact and_congr_right fun _ => Method.forall_accesses_iff known.body fun id access accessed =>
        accessed.eq_read_iff _ _ method

/-- Both writes of the second parameter are plain ones, once behind parentheses; the first one is also counted. -/
theorem access_tells_parenthesized : ∃ method ∈ (ItemTree.ofText
    "class A { int m(int p, int q) { q = (p)++; ((q)) = p; return 0; } }".toList).methods,
    1 < method.params.length ∧ method.RefersSome 1 ∧ method.WritesOnly 1 ∧
      ¬ method.WritesOnly 0 ∧ ¬ method.ReadsOnly 0 := by
  have evaluated : ∃ method ∈ (ItemTree.ofText
      "class A { int m(int p, int q) { q = (p)++; ((q)) = p; return 0; } }".toList).methods,
      1 < method.params.length ∧
      (prepare^[1] (ofMethod "class A { int m(int p, int q) { q = (p)++; ((q)) = p; return 0; } }".toList method
        .standard)).parameters.map (·.access) = [.readWrite,.write] := by
    decide +kernel
  obtain ⟨method,member,inside,accesses⟩ := evaluated
  obtain ⟨first,firstListed,counted⟩ := access_tells _ method .standard member 1 (Nat.le_refl 1) 0 (by omega)
  obtain ⟨second,secondListed,written⟩ := access_tells _ method .standard member 1 (Nat.le_refl 1) 1 inside
  have both : first.access = .readWrite := by
    have := congrArg (·[0]?) accesses
    rw [List.getElem?_map,firstListed] at this
    exact Option.some.inj this
  have only : second.access = .write := by
    have := congrArg (·[1]?) accesses
    rw [List.getElem?_map,secondListed] at this
    exact Option.some.inj this
  exact ⟨method,member,inside,(written.write.mp only).1,(written.write.mp only).2,(counted.readWrite.mp both).2⟩

end Donor
end Transplant
