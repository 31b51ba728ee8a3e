import Transplant.Proofs.Edit.Rewrite

/-! Edits recorded in another order. The checks look at spans only, and in span order the spans are the
same whichever way the edits were recorded. Edits that pass the checks are in the same order too, as two
of them have one span only when both insert at one place. -/
namespace Transplant.Edit

variable {text : Text} {edits others : List Edit}

/-- The edits that insert in front of byte `here`, as they were recorded. -/
def insertsAt (edits : List Edit) (here : Nat) : List Edit :=
  edits.filter fun edit => edit.span == .empty here

/-- Edits that stand at the same spans in the same order. -/
def SameSpans (edits others : List Edit) : Prop := edits.map (·.span) = others.map (·.span)

theorem SameSpans.forM_check (same : SameSpans edits others) :
    edits.forM (check text) = others.forM (check text) := by
  induction edits generalizing others with
  | nil =>
    obtain rfl : others = [] := List.map_eq_nil_iff.mp same.symm
    rfl
  | cons edit edits ih =>
    obtain ⟨other,others,rfl,span,rest⟩ := List.map_eq_cons_iff.mp same.symm
    have first : check text edit = check text other := by simp only [check,span]
    simp only [List.forM,first,ih rest.symm]

theorem SameSpans.checkApart (same : SameSpans edits others) : checkApart edits = checkApart others := by
  induction edits generalizing others with
  | nil =>
    obtain rfl : others = [] := List.map_eq_nil_iff.mp same.symm
    rfl
  | cons edit edits ih =>
    obtain ⟨other,others,rfl,span,rest⟩ := List.map_eq_cons_iff.mp same.symm
    have later := ih rest.symm
    cases edits with
    | nil =>
      obtain rfl : others = [] := List.map_eq_nil_iff.mp rest
      rfl
    | cons next edits =>
      obtain ⟨another,others,rfl,behind,_⟩ := List.map_eq_cons_iff.mp rest
      simp only [Edit.checkApart,overlaps,span,behind,later]

/-- In span order the spans are told apart by their order alone. -/
theorem sorted_sameSpans (permuted : edits.Perm others) : SameSpans (sorted edits) (sorted others) := by
  have ascending (edits : List Edit) :
      ((sorted edits).map (·.span)).Pairwise fun first second => first.atMost second = true :=
    List.pairwise_map.mpr (sorted_stable edits).ascending
  have arranged : (sorted edits).Perm (sorted others) :=
    (List.mergeSort_perm edits _).trans (permuted.trans (List.mergeSort_perm others _).symm)
  exact (arranged.map (·.span)).eq_of_pairwise
    (fun first second _ _ => Span.atMost_antisymm first second) (ascending edits) (ascending others)

/-- No two of the edits take the place of the same bytes. -/
def Lone (edits : List Edit) : Prop :=
  edits.Pairwise fun first second => first.span = second.span → first.span.isEmpty = true

theorem Lone.perm (lone : Lone edits) (permuted : edits.Perm others) : Lone others := by
  refine List.Pairwise.perm lone permuted fun {first second} empty same => ?_
  rw [same]
  exact empty same.symm

/-- Edits with one span stand next to each other in span order, so that comparing neighbours finds them. -/
theorem lone_of_checkApart (ascending : edits.Pairwise fun first second => first.span.atMost second.span = true)
    (apart : checkApart edits = .ok ()) : Lone edits := by
  induction edits with
  | nil => exact .nil
  | cons first rest ih =>
    cases rest with
    | nil => exact List.pairwise_singleton _ _
    | cons second rest =>
      simp only [checkApart] at apart
      split at apart
      · cases apart
      rename_i clear
      obtain ⟨below,behind⟩ := List.pairwise_cons.mp ascending
      refine List.pairwise_cons.mpr ⟨fun later member same => ?_,ih behind apart⟩
      have neighbour : first.span = second.span := by
        rcases List.mem_cons.mp member with rfl | further
        · exact same
        · refine Span.atMost_antisymm _ _ (below second (by simp)) ?_
          rw [same]
          exact (List.pairwise_cons.mp behind).1 later further
      simp only [overlaps,neighbour,Bool.or_eq_true,decide_eq_true_eq,beq_self_eq_true,Bool.and_true,
        Bool.not_eq_true',not_or,Bool.not_eq_false] at clear
      rw [neighbour]
      exact clear.2

theorem sorted_perm (permuted : edits.Perm others) (kept : ∀ here, insertsAt edits here = insertsAt others here)
    (lone : Lone edits) : sorted edits = sorted others := by
  refine (sorted_stable edits).unique ⟨(sorted_stable others).ascending,fun span => ?_⟩
  rw [(sorted_stable others).kept]
  by_cases empty : span.isEmpty = true
  · have place : span = .empty span.start := by
      simp only [Span.isEmpty,beq_iff_eq] at empty
      rw [Span.empty,show span = ⟨span.start,span.stop⟩ from rfl,← empty]
    rw [place]
    exact (kept span.start).symm
  · -- A span that is not empty is that of one edit at most.
    have single {edits : List Edit} (lone : Lone edits) :
        (edits.filter fun edit => edit.span == span).Pairwise fun _ _ => False := by
      refine (lone.sublist List.filter_sublist).imp_of_mem fun {first second} inFirst inSecond alone => ?_
      have here := beq_iff_eq.mp (List.mem_filter.mp inFirst).2
      have there := beq_iff_eq.mp (List.mem_filter.mp inSecond).2
      exact empty (here ▸ alone (here.trans there.symm))
    exact (permuted.symm.filter _).eq_of_pairwise (fun _ _ _ _ never => never.elim)
      (single (lone.perm permuted)) (single lone)

/-- The order edits are recorded in does not matter, but for inserts at one place: the edits come to the
same normal form and make the same text of a text, or are refused with the same error. -/
theorem normalize_perm (text : Text) (edits others : List Edit) (permuted : edits.Perm others)
    (kept : ∀ here, insertsAt edits here = insertsAt others here) :
    normalize text edits = normalize text others ∧ apply text edits = apply text others := by
  have spans := sorted_sameSpans permuted
  have same : normalize text edits = normalize text others := by
    cases apart : checkApart (sorted edits) with
    | error error =>
      have again := spans.checkApart ▸ apart
      simp only [normalize,spans.forM_check,apart,again]
      cases (sorted others).forM (check text) <;> rfl
    | ok =>
      have lone := lone_of_checkApart (sorted_stable edits).ascending apart
      simp only [normalize,
        sorted_perm permuted kept (lone.perm (List.mergeSort_perm edits _))]
  exact ⟨same,by simp only [apply,same]⟩

/-- The edits of `touching` in another order, the two inserts at byte 2 still one after the other. -/
def touchingAgain : List Edit :=
  [.insert 3 ['r'],.insert 2 ['p'],.delete ⟨0,2⟩,.insert 2 ['q'],⟨⟨2,3⟩,['x','y']⟩]

/-- Two edits replace the same bytes. -/
def clashing : List Edit := [⟨⟨0,2⟩,['x']⟩,.insert 2 ['p'],⟨⟨0,2⟩,['y']⟩]

theorem normalize_perm_touching :
    (touching.Perm touchingAgain ∧ (∀ here, insertsAt touching here = insertsAt touchingAgain here) ∧
      apply ['é','b','c'] touching = apply ['é','b','c'] touchingAgain) ∧
    normalize ['é','b'] clashing = normalize ['é','b'] clashing.reverse := by
  have shuffled : touching.Perm touchingAgain := by decide
  have inserts : ∀ here, insertsAt touching here = insertsAt touchingAgain here := by
    intro here
    by_cases two : here = 2
    · rw [two]
      decide
    by_cases three : here = 3
    · rw [three]
      decide
    simp [insertsAt,touching,touchingAgain,insert,delete,Span.empty,Ne.symm two,Ne.symm three]
  have single : ∀ here, insertsAt clashing here = insertsAt clashing.reverse here := by
    intro here
    by_cases two : here = 2
    · rw [two]
      decide
    · simp [insertsAt,clashing,insert,Span.empty,Ne.symm two]
  exact ⟨⟨shuffled,inserts,(normalize_perm _ _ _ shuffled inserts).2⟩,
    (normalize_perm _ _ _ clashing.reverse_perm.symm single).1⟩

end Transplant.Edit
