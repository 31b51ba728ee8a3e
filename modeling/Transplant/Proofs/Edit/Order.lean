import Transplant.Edit.Apply

/-! Edits in span order. Edits of one span keep the order they were given in, so a list has exactly
one arrangement in span order. -/
namespace Transplant

namespace Span

theorem atMost_iff (first second : Span) :
    first.atMost second = true ↔
      first.start < second.start ∨ (first.start = second.start ∧ first.stop ≤ second.stop) := by
  simp [atMost]

theorem atMost_trans (first second third : Span) (left : first.atMost second = true)
    (right : second.atMost third = true) : first.atMost third = true := by
  rw [atMost_iff] at *
  omega

theorem atMost_total (first second : Span) :
    (first.atMost second || second.atMost first) = true := by
  rw [Bool.or_eq_true,atMost_iff,atMost_iff]
  omega

theorem atMost_antisymm (first second : Span) (left : first.atMost second = true)
    (right : second.atMost first = true) : first = second := by
  rw [atMost_iff] at *
  cases first
  cases second
  simp only [Span.mk.injEq] at *
  omega

end Span

namespace Edit

/-- The same edits in span order, those of one span in the order they were given in. -/
structure StablySorted (edits arranged : List Edit) : Prop where
  ascending : arranged.Pairwise fun first second => first.span.atMost second.span = true
  kept : ∀ span : Span,
    arranged.filter (fun edit => edit.span == span) = edits.filter (fun edit => edit.span == span)

theorem StablySorted.mem_iff {edits arranged : List Edit} (stable : StablySorted edits arranged)
    (edit : Edit) : edit ∈ arranged ↔ edit ∈ edits := by
  have same := congrArg (edit ∈ ·) (stable.kept edit.span)
  simpa using same

private theorem filter_cons_cancel {first : Edit} {left right : List Edit} (span : Span)
    (same : (first :: left).filter (fun edit => edit.span == span) =
      (first :: right).filter (fun edit => edit.span == span)) :
    left.filter (fun edit => edit.span == span) = right.filter (fun edit => edit.span == span) := by
  by_cases here : (first.span == span) = true
  · simpa [List.filter_cons,here] using same
  · simpa [List.filter_cons,here] using same

/-- Spans are told apart by their order, so the two heads have one span, and edits of one span
come in the order given. -/
theorem StablySorted.unique {edits left right : List Edit} (first : StablySorted edits left)
    (second : StablySorted edits right) : left = right := by
  have ⟨firstUp,firstKept⟩ := first
  have ⟨secondUp,secondKept⟩ := second
  have same (span : Span) := (firstKept span).trans (secondKept span).symm
  clear first second firstKept secondKept
  induction left generalizing right with
  | nil =>
    cases right with
    | nil => rfl
    | cons b right => simpa using same b.span
  | cons a left ih =>
    cases right with
    | nil => simpa using same a.span
    | cons b right =>
      have members (edit : Edit) : edit ∈ a :: left ↔ edit ∈ b :: right := by
        simpa using congrArg (edit ∈ ·) (same edit.span)
      rw [List.pairwise_cons] at firstUp secondUp
      have below : a.span.atMost b.span = true := by
        rcases List.mem_cons.mp ((members b).mpr (by simp)) with rfl | inside
        · simp [Span.atMost_iff]
        · exact firstUp.1 b inside
      have above : b.span.atMost a.span = true := by
        rcases List.mem_cons.mp ((members a).mp (by simp)) with rfl | inside
        · simp [Span.atMost_iff]
        · exact secondUp.1 a inside
      have spans := Span.atMost_antisymm _ _ below above
      have heads : a = b := by
        have group := same a.span
        rw [List.filter_cons_of_pos (by simp),List.filter_cons_of_pos (by simp [spans])] at group
        exact (List.cons.inj group).1
      subst heads
      rw [ih firstUp.2 secondUp.2 fun span => filter_cons_cancel span (same span)]

theorem sorted_stable (edits : List Edit) : StablySorted edits (sorted edits) := by
  let le (first second : Edit) : Bool := first.span.atMost second.span
  have transitive : ∀ a b c : Edit, le a b → le b c → le a c := fun _ _ _ => Span.atMost_trans _ _ _
  have total : ∀ a b : Edit, le a b || le b a := fun _ _ => Span.atMost_total _ _
  have order : (sorted edits).Pairwise fun first second => le first second :=
    List.pairwise_mergeSort transitive total edits
  refine ⟨order,?_⟩
  intro span
  have group : (edits.filter (fun edit => edit.span == span)).Pairwise
      (fun first second => first.span.atMost second.span = true) := by
    apply List.pairwise_of_forall_mem_list
    intro first inFirst second inSecond
    simp only [List.mem_filter,beq_iff_eq] at inFirst inSecond
    simp [Span.atMost_iff,inFirst.2,inSecond.2]
  have inside := (List.sublist_mergeSort transitive total group List.filter_sublist).filter
    (fun edit : Edit => edit.span == span)
  rw [List.filter_filter] at inside
  simp only [Bool.and_self] at inside
  have sizes := (List.mergeSort_perm edits fun first second =>
    first.span.atMost second.span).countP_eq (fun edit => edit.span == span)
  rw [List.countP_eq_length_filter,List.countP_eq_length_filter] at sizes
  exact (inside.eq_of_length sizes.symm).symm

theorem mem_sorted (edits : List Edit) (edit : Edit) : edit ∈ sorted edits ↔ edit ∈ edits :=
  (sorted_stable edits).mem_iff edit

/-- Lists of edits that follow each other are sorted one by one. -/
theorem sorted_append (left right : List Edit)
    (follows : ∀ first ∈ left, ∀ second ∈ right, first.span.atMost second.span = true) :
    sorted (left ++ right) = sorted left ++ sorted right := by
  apply (sorted_stable (left ++ right)).unique
  refine ⟨?_,?_⟩
  · rw [List.pairwise_append]
    refine ⟨(sorted_stable left).ascending,(sorted_stable right).ascending,?_⟩
    intro first inLeft second inRight
    exact follows first ((mem_sorted _ _).mp inLeft) second ((mem_sorted _ _).mp inRight)
  · intro span
    rw [List.filter_append,List.filter_append,(sorted_stable left).kept,(sorted_stable right).kept]

end Edit
end Transplant
