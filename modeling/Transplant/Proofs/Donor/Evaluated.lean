import Mathlib.Logic.Function.Iterate
import Transplant.Donor.Basic
import Transplant.Proofs.Body.Nested
import Transplant.Proofs.Item.Bodies

/-! When a returned value has to be computed. The parts of a statement have smaller numbers, so looking
for a `return` ends, and it reaches every statement that the last one is made of. -/
namespace Transplant

theorem StmtNode.inner_parts {node : StmtNode} {part : StmtId} (listed : part ∈ node.inner) :
    .stmt part ∈ node.parts := by
  cases node <;> simp_all [StmtNode.inner,StmtNode.parts]

namespace Body

variable (body : Body)

/-- A name, or a field of a field and so on of what a name stands for. -/
inductive NameChain : ExprId → Prop where
  | name {id : ExprId} {name : String} {resolution : Resolution} {span : Span}
      (found : body.exprs[id]? = some (.name name resolution span)) : NameChain id
  | field {id receiver : ExprId} {name : Java.Ident} {span : Span}
      (found : body.exprs[id]? = some (.field receiver name span)) (chain : NameChain receiver) : NameChain id

/-- A literal or a chain of names. -/
def Reusable (id : ExprId) : Prop :=
  (∃ kind value span, body.exprs[id]? = some (.literal kind value span)) ∨ body.NameChain id

/-- The second statement is the first one or stands in it at some depth. -/
inductive Nests : StmtId → StmtId → Prop where
  | self (id : StmtId) : Nests id id
  | block {id part inner : StmtId} {statements : List StmtId} {span : Span}
      (found : body.stmts[id]? = some (.block statements span)) (listed : part ∈ statements)
      (deeper : Nests part inner) : Nests id inner
  | yes {id yes inner : StmtId} {condition : ExprId} {no : Option StmtId} {span : Span}
      (found : body.stmts[id]? = some (.ifElse condition yes no span)) (deeper : Nests yes inner) : Nests id inner
  | no {id yes no inner : StmtId} {condition : ExprId} {span : Span}
      (found : body.stmts[id]? = some (.ifElse condition yes (some no) span)) (deeper : Nests no inner) :
      Nests id inner
  | whileLoop {id part inner : StmtId} {condition : ExprId} {span : Span}
      (found : body.stmts[id]? = some (.whileLoop condition part span)) (deeper : Nests part inner) : Nests id inner
  | forLoop {id part inner : StmtId} {init : List StmtId} {condition : Option ExprId} {update : List ExprId}
      {span : Span} (found : body.stmts[id]? = some (.forLoop init condition update part span))
      (deeper : Nests part inner) : Nests id inner
  | forEach {id part inner : StmtId} {element : LocalId} {iterable : ExprId} {span : Span}
      (found : body.stmts[id]? = some (.forEach element iterable part span)) (deeper : Nests part inner) :
      Nests id inner
  | tried {id part inner : StmtId} {catches : List CatchNode} {cleanup : Option StmtId} {span : Span}
      (found : body.stmts[id]? = some (.tryCatch part catches cleanup span)) (deeper : Nests part inner) :
      Nests id inner
  | caught {id part inner : StmtId} {clause : CatchNode} {catches : List CatchNode} {cleanup : Option StmtId}
      {span : Span} (found : body.stmts[id]? = some (.tryCatch part catches cleanup span))
      (listed : clause ∈ catches) (deeper : Nests clause.body inner) : Nests id inner
  | cleanup {id part cleanup inner : StmtId} {catches : List CatchNode} {span : Span}
      (found : body.stmts[id]? = some (.tryCatch part catches (some cleanup) span)) (deeper : Nests cleanup inner) :
      Nests id inner

/-- In a statement stands a `return` with a value that has to be computed. -/
def ReturnsComputed (id : StmtId) : Prop :=
  ∃ inner value span, body.Nests id inner ∧ body.stmts[inner]? = some (.returns (some value) span) ∧
    ¬body.Reusable value

variable {body}

/-- Standing deeper is standing in one of the statements directly inside. -/
theorem nests_iff (id inner : StmtId) : body.Nests id inner ↔ id = inner ∨
    ∃ node part, body.stmts[id]? = some node ∧ part ∈ node.inner ∧ body.Nests part inner := by
  constructor
  · intro nests
    cases nests with
    | self => exact .inl rfl
    | block found listed deeper => exact .inr ⟨_,_,found,listed,deeper⟩
    | yes found deeper => exact .inr ⟨_,_,found,by simp [StmtNode.inner],deeper⟩
    | no found deeper => exact .inr ⟨_,_,found,by simp [StmtNode.inner],deeper⟩
    | whileLoop found deeper => exact .inr ⟨_,_,found,by simp [StmtNode.inner],deeper⟩
    | forLoop found deeper => exact .inr ⟨_,_,found,by simp [StmtNode.inner],deeper⟩
    | forEach found deeper => exact .inr ⟨_,_,found,by simp [StmtNode.inner],deeper⟩
    | tried found deeper => exact .inr ⟨_,_,found,by simp [StmtNode.inner],deeper⟩
    | caught found listed deeper =>
      exact .inr ⟨_,_,found,by simp [StmtNode.inner,List.mem_map_of_mem listed],deeper⟩
    | cleanup found deeper => exact .inr ⟨_,_,found,by simp [StmtNode.inner],deeper⟩
  · rintro (rfl | ⟨node,part,found,listed,deeper⟩)
    · exact .self id
    · cases node with
      | block => exact .block found listed deeper
      | ifElse condition yes no span =>
        rcases List.mem_cons.mp listed with rfl | other
        · exact .yes found deeper
        · rw [Option.mem_toList.mp other] at found
          exact .no found deeper
      | whileLoop => exact .whileLoop found (List.mem_singleton.mp listed ▸ deeper)
      | forLoop => exact .forLoop found (List.mem_singleton.mp listed ▸ deeper)
      | forEach => exact .forEach found (List.mem_singleton.mp listed ▸ deeper)
      | tryCatch tried catches cleanup span =>
        simp only [StmtNode.inner,List.mem_cons,List.mem_append,List.mem_map,Option.mem_toList] at listed
        rcases listed with rfl | ⟨clause,among,rfl⟩ | last
        · exact .tried found deeper
        · exact .caught found among deeper
        · rw [last] at found
          exact .cleanup found deeper
      | _ => cases listed

theorem isDottedName_iff (nested : body.Nested) (id : ExprId) : body.isDottedName id = true ↔ body.NameChain id := by
  constructor
  · intro dotted
    induction id using isDottedName.induct body with
    | case1 id _ _ _ found => exact .name found
    | case2 id receiver _ _ found smaller ih =>
      rw [isDottedName,found] at dotted
      exact .field found (ih (by simpa [smaller] using dotted))
    | case3 id receiver _ _ found larger =>
      rw [isDottedName,found] at dotted
      simp [larger] at dotted
    | case4 id notName notField =>
      rw [isDottedName] at dotted
      split at dotted
      · exact absurd ‹_› (notName _ _ _)
      · exact absurd ‹_› (notField _ _ _)
      · cases dotted
  · intro chain
    induction chain with
    | name found => rw [isDottedName,found]
    | @field id receiver name span found _ ih =>
      have smaller := nested.exprs id _ found receiver (by simp [ExprNode.children,ExprNode.parts])
      rw [isDottedName,found]
      simpa [smaller] using ih

theorem isPlainValue_iff (nested : body.Nested) (id : ExprId) : body.isPlainValue id = true ↔ body.Reusable id := by
  unfold isPlainValue Reusable
  split
  · rename_i kind value span found
    exact ⟨fun _ => .inl ⟨kind,value,span,found⟩,fun _ => rfl⟩
  · rename_i other
    rw [isDottedName_iff nested]
    exact ⟨.inr,fun plain => plain.resolve_left fun ⟨kind,value,span,found⟩ => other kind value span found⟩

/-- A statement that is no `return` returns what the statements directly inside return. -/
theorem returnsComputed_inner {id : StmtId} {node : StmtNode} (nested : body.Nested)
    (found : body.stmts[id]? = some node) (other : node.value? = none) :
    body.returnsComputed id = true ↔ ∃ part ∈ node.inner, body.returnsComputed part = true := by
  have reached : body.returnsComputed id =
      node.inner.any fun part => if part < id then body.returnsComputed part else false := by
    rw [returnsComputed,found]
    cases node with
    | returns => cases other
    | _ => rfl
  rw [reached,List.any_eq_true]
  refine exists_congr fun part => and_congr_right fun listed => ?_
  rw [if_pos (nested.stmts id node found part (StmtNode.inner_parts listed))]

theorem returnsComputed_iff (nested : body.Nested) (id : StmtId) :
    body.returnsComputed id = true ↔ body.ReturnsComputed id := by
  induction id using Nat.strongRecOn with
  | ind id ih =>
    cases found : body.stmts[id]? with
    | none =>
      rw [returnsComputed,found]
      refine iff_of_false Bool.false_ne_true ?_
      rintro ⟨inner,value,span,nests,stored,_⟩
      rcases (nests_iff id inner).mp nests with rfl | ⟨_,_,known,_⟩
      · cases found.symm.trans stored
      · cases found.symm.trans known
    | some node =>
      cases returned : node.value? with
      | none =>
        rw [returnsComputed_inner nested found returned]
        constructor
        · rintro ⟨part,listed,computed⟩
          obtain ⟨inner,value,span,nests,rest⟩ :=
            (ih part (nested.stmts id node found part (StmtNode.inner_parts listed))).mp computed
          exact ⟨inner,value,span,(nests_iff id inner).mpr (.inr ⟨node,part,found,listed,nests⟩),rest⟩
        · rintro ⟨inner,value,span,nests,stored,computed⟩
          rcases (nests_iff id inner).mp nests with rfl | ⟨_,part,known,listed,deeper⟩
          · cases found.symm.trans stored
            cases returned
          · cases found.symm.trans known
            exact ⟨part,listed,(ih part (nested.stmts id node found part (StmtNode.inner_parts listed))).mpr
              ⟨inner,value,span,deeper,stored,computed⟩⟩
      | some returns =>
        obtain ⟨span,rfl⟩ : ∃ span, node = .returns returns span := by
          cases node <;> cases returned
          exact ⟨_,rfl⟩
        rw [returnsComputed,found,Option.any_eq_true]
        constructor
        · rintro ⟨value,rfl,computed⟩
          refine ⟨id,value,span,.self id,found,fun plain => ?_⟩
          rw [(isPlainValue_iff nested value).mpr plain] at computed
          cases computed
        · rintro ⟨inner,value,_,nests,stored,computed⟩
          rcases (nests_iff id inner).mp nests with rfl | ⟨_,part,known,listed,_⟩
          · cases found.symm.trans stored
            refine ⟨value,rfl,?_⟩
            rw [Bool.not_eq_true',← Bool.not_eq_true]
            exact fun plain => computed ((isPlainValue_iff nested value).mp plain)
          · cases found.symm.trans known
            cases listed

end Body

namespace Donor

theorem prepare_prepare (donor : Donor) : donor.prepare.prepare = donor.prepare := by
  simp [prepare,hasReturnValue,returnsComputed,statements]

theorem prepare_again (donor : Donor) (more : Nat) : prepare^[more] donor.prepare = donor.prepare := by
  induction more with
  | zero => rfl
  | succ more ih => rw [Function.iterate_succ_apply,prepare_prepare,ih]

theorem returnsComputed_iff (text : Text) (layout : Layout) {method : Method Body}
    (member : method ∈ (ItemTree.ofText text).methods) : (ofMethod text method layout).returnsComputed = true ↔
      ∃ body last, method.body = some body ∧ body.statements.getLast? = some last ∧ body.ReturnsComputed last := by
  cases given : method.body with
  | none => simp [returnsComputed,ofMethod,given]
  | some body =>
    obtain ⟨read,known⟩ := ItemTree.method_readFrom text method body member given
    have nested : body.Nested := by
      cases given.symm.trans known.body
      exact Body.ofBlock_nested _ _
    cases isLast : body.statements.getLast? with
    | none => simp [returnsComputed,statements,ofMethod,given,isLast]
    | some last => simp [returnsComputed,statements,ofMethod,given,isLast,Body.returnsComputed_iff nested]

/-- However often a method is prepared, its value has to be computed just when a `return` in its last
statement computes it, and preparing it once more changes neither this nor its parameters. -/
theorem mustEvaluateReturnValue_iff (text : Text) (method : Method Body) (layout : Layout)
    (member : method ∈ (ItemTree.ofText text).methods) (times : Nat) (once : 1 ≤ times) :
    ((prepare^[times] (ofMethod text method layout)).mustEvaluateReturnValue = true ↔
      method.returnType.text ≠ "void" ∧ ∃ body last, method.body = some body ∧
        body.statements.getLast? = some last ∧ body.ReturnsComputed last) ∧
    ∀ more, (prepare^[more] (prepare^[times] (ofMethod text method layout))).parameters =
        (prepare^[times] (ofMethod text method layout)).parameters ∧
      (prepare^[more] (prepare^[times] (ofMethod text method layout))).mustEvaluateReturnValue =
        (prepare^[times] (ofMethod text method layout)).mustEvaluateReturnValue := by
  obtain ⟨times,rfl⟩ := Nat.exists_eq_add_of_le' once
  rw [Function.iterate_succ_apply,prepare_again]
  refine ⟨?_,fun more => by rw [prepare_again]; exact ⟨rfl,rfl⟩⟩
  have stored : (ofMethod text method layout).prepare.mustEvaluateReturnValue =
      (!method.isVoid && (ofMethod text method layout).returnsComputed) := rfl
  rw [stored,Bool.and_eq_true,Method.isVoid,Bool.not_eq_true',beq_eq_false_iff_ne,returnsComputed_iff text layout member]

/-- A call is computed in a `catch`, a field is read in front of it. -/
theorem mustEvaluateReturnValue_caught : ∃ method ∈ (ItemTree.ofText
    "class A { int m() { try { return a.b; } catch (E e) { return f(); } } }".toList).methods,
    ∃ body last, method.body = some body ∧ body.statements.getLast? = some last ∧ body.ReturnsComputed last := by
  have evaluated : ∃ method ∈ (ItemTree.ofText
      "class A { int m() { try { return a.b; } catch (E e) { return f(); } } }".toList).methods,
      (ofMethod "class A { int m() { try { return a.b; } catch (E e) { return f(); } } }".toList method
        .standard).prepare.mustEvaluateReturnValue = true := by
    decide +kernel
  obtain ⟨method,member,computed⟩ := evaluated
  exact ⟨method,member,((mustEvaluateReturnValue_iff _ method .standard member 1 (Nat.le_refl 1)).1.mp computed).2⟩

end Donor
end Transplant
