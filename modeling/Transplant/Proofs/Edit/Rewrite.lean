import Mathlib.Algebra.BigOperators.Group.List.Basic
import Mathlib.Algebra.Ring.Int.Defs
import Transplant.Proofs.Edit.Order
import Transplant.Proofs.Text.Cut

/-! Applying edits is one pass over the text from left to right. The pass copies the untouched
text up to each edit and puts its replacement in place of the bytes it covers; splicing joined
edits from the back comes to the same text. -/
namespace Transplant.Edit

/-- The text from byte `here` on, with each of the edits made in turn. -/
def rewriteFrom (text : Text) (here : Nat) : List Edit → Text
  | [] => text.after here
  | edit :: rest =>
    text.between here edit.span.start ++ edit.replacement ++ rewriteFrom text edit.span.stop rest

/-- The span lies in the text and does not split a character. -/
structure Fits (text : Text) (edit : Edit) : Prop where
  inside : edit.span.stop ≤ text.size
  atStart : text.isBoundary edit.span.start = true
  atStop : text.isBoundary edit.span.stop = true

/-- One of two edits ends at or before the start of the other. -/
def Apart (first second : Edit) : Prop :=
  first.span.stop ≤ second.span.start ∨ second.span.stop ≤ first.span.start

/-- Each edit ends at or before the start of all later ones. -/
def Ascending (edits : List Edit) : Prop :=
  edits.Pairwise fun first second => first.span.stop ≤ second.span.start

def Ordered (edit : Edit) : Prop := edit.span.start ≤ edit.span.stop

instance (text : Text) (edit : Edit) : Decidable (Fits text edit) :=
  decidable_of_iff (edit.span.stop ≤ text.size ∧ text.isBoundary edit.span.start = true ∧
      text.isBoundary edit.span.stop = true)
    ⟨fun ⟨inside,atStart,atStop⟩ => ⟨inside,atStart,atStop⟩,
      fun fits => ⟨fits.inside,fits.atStart,fits.atStop⟩⟩

instance (first second : Edit) : Decidable (Apart first second) :=
  inferInstanceAs (Decidable (_ ∨ _))

instance (edit : Edit) : Decidable (Ordered edit) := inferInstanceAs (Decidable (_ ≤ _))

theorem check_eq_ok_iff (text : Text) (edit : Edit) : check text edit = .ok () ↔ Fits text edit := by
  simp only [check]
  constructor
  · intro passed
    split at passed
    · cases passed
    split at passed
    · cases passed
    split at passed
    · cases passed
    · rename_i inside atStart atStop
      exact ⟨by omega,by simpa using atStart,by simpa using atStop⟩
  · rintro ⟨inside,atStart,atStop⟩
    simp [atStart,atStop,Nat.not_lt.mpr inside]

theorem bind_eq_ok_iff {α β ε : Type} {made : Except ε α} {next : α → Except ε β} {result : β} :
    made >>= next = .ok result ↔ ∃ value, made = .ok value ∧ next value = .ok result := by
  cases made <;> simp [bind,Except.bind]

theorem bind_eq_error_iff {α β ε : Type} {made : Except ε α} {next : α → Except ε β} {error : ε} :
    made >>= next = .error error ↔ made = .error error ∨ ∃ value, made = .ok value ∧ next value = .error error := by
  cases made <;> simp [bind,Except.bind]

theorem forM_eq_ok_iff {α ε : Type} (check : α → Except ε Unit) (items : List α) :
    items.forM check = .ok () ↔ ∀ item ∈ items, check item = .ok () := by
  induction items with
  | nil => simp [List.forM,pure,Except.pure]
  | cons item items ih =>
    rw [List.forM,bind_eq_ok_iff,List.forall_mem_cons,ih]
    exact ⟨fun ⟨_,first,rest⟩ => ⟨first,rest⟩,fun ⟨first,rest⟩ => ⟨_,first,rest⟩⟩

theorem exists_of_forM_eq_error {α ε : Type} {check : α → Except ε Unit} {items : List α} {error : ε}
    (failed : items.forM check = .error error) : ∃ item ∈ items, check item = .error error := by
  induction items with
  | nil => cases failed
  | cons item items ih =>
    rcases bind_eq_error_iff.mp failed with faulty | ⟨_,_,failed⟩
    · exact ⟨item,List.mem_cons_self,faulty⟩
    · obtain ⟨later,member,faulty⟩ := ih failed
      exact ⟨later,List.mem_cons_of_mem _ member,faulty⟩

/-- Edits that replace the same bytes each begin before the other one ends, too. -/
theorem overlaps_iff {first second : Edit} (ordered : Ordered first) :
    overlaps first second = true ↔ second.span.start < first.span.stop := by
  simp only [overlaps,Span.isEmpty,Bool.or_eq_true,decide_eq_true_eq,Bool.and_eq_true,Bool.not_eq_true',
    beq_eq_false_iff_ne,beq_iff_eq]
  constructor
  · rintro (early | ⟨lasting,same⟩)
    · exact early
    · rw [← same]
      exact Nat.lt_of_le_of_ne ordered lasting
  · exact Or.inl

theorem checkApart_eq_ok_iff (edits : List Edit) (ordered : ∀ edit ∈ edits, Ordered edit)
    (sorted : edits.Pairwise fun first second => first.span.atMost second.span = true) :
    checkApart edits = .ok () ↔ Ascending edits := by
  induction edits with
  | nil => simp [checkApart,Ascending]
  | cons first rest ih =>
    cases rest with
    | nil => simp [checkApart,Ascending]
    | cons second rest =>
      have tail := ih (fun edit member => ordered edit (by simp [member])) sorted.tail
      have firstOrdered := ordered first (by simp)
      have secondOrdered := ordered second (by simp)
      simp only [checkApart,Ascending,List.pairwise_cons] at tail ⊢
      by_cases cross : overlaps first second = true
      · simp only [cross,if_true,reduceCtorEq,false_iff]
        rintro ⟨follows,_⟩
        exact Nat.not_lt.mpr (follows second (by simp)) ((overlaps_iff firstOrdered).mp cross)
      · simp only [cross,if_false,Bool.false_eq_true]
        rw [tail]
        have near := Nat.not_lt.mp fun early => cross ((overlaps_iff firstOrdered).mpr early)
        refine ⟨fun later => ⟨?_,later⟩,fun later => later.2⟩
        intro edit member
        rcases List.mem_cons.mp member with rfl | inside
        · exact near
        · have far := later.1 edit inside
          unfold Ordered at secondOrdered
          omega

/-- In span order an edit that keeps apart from a later one ends before it: if it were the other
way round both would be empty at one place. -/
theorem ascending_sorted_iff (edits : List Edit) (ordered : ∀ edit ∈ edits, Ordered edit) :
    Ascending (sorted edits) ↔ edits.Pairwise Apart := by
  have symmetric : Std.Symm Apart := ⟨fun _ _ apart => apart.symm⟩
  rw [← (List.mergeSort_perm edits fun first second =>
    first.span.atMost second.span).pairwise_iff (fun apart => symmetric.symm _ _ apart)]
  constructor
  · exact fun up => up.imp Or.inl
  · intro apart
    apply (List.pairwise_and_iff.mpr ⟨apart,(sorted_stable edits).ascending⟩).imp_of_mem
    intro first second inFirst inSecond both
    have firstOrdered := ordered first ((mem_sorted _ _).mp inFirst)
    have secondOrdered := ordered second ((mem_sorted _ _).mp inSecond)
    obtain ⟨apart,order⟩ := both
    rw [Span.atMost_iff] at order
    unfold Apart at apart
    unfold Ordered at firstOrdered secondOrdered
    omega

theorem rewriteFrom_joinNext (text : Text) (here : Nat) (edit : Edit) (rest : List Edit)
    (fits : Fits text edit) :
    rewriteFrom text here (joinNext edit rest) = rewriteFrom text here (edit :: rest) := by
  cases rest with
  | nil => rfl
  | cons next rest =>
    simp only [joinNext]
    split
    · rename_i touching
      simp [rewriteFrom,← touching,Text.between_self _ _ fits.atStop]
    · rfl

theorem rewriteFrom_coalesce (text : Text) (here : Nat) (edits : List Edit)
    (fits : ∀ edit ∈ edits, Fits text edit) :
    rewriteFrom text here (coalesce edits) = rewriteFrom text here edits := by
  induction edits generalizing here with
  | nil => rfl
  | cons edit rest ih =>
    change rewriteFrom text here (joinNext edit (coalesce rest)) = _
    rw [rewriteFrom_joinNext text here edit _ (fits edit (by simp))]
    simp only [rewriteFrom]
    rw [ih edit.span.stop fun later member => fits later (by simp [member])]

theorem Ascending.tail {edit : Edit} {rest : List Edit} (ascending : Ascending (edit :: rest)) :
    Ascending rest := List.Pairwise.tail ascending

/-- Joining changes neither where the first edit starts nor what lies behind the last one. -/
theorem joinNext_ascending (text : Text) (edit : Edit) (rest : List Edit)
    (fits : ∀ later ∈ edit :: rest, Fits text later) (ordered : ∀ later ∈ edit :: rest, Ordered later)
    (ascending : Ascending (edit :: rest)) :
    Ascending (joinNext edit rest) ∧ (∀ later ∈ joinNext edit rest, Fits text later) ∧
      (∀ later ∈ joinNext edit rest, Ordered later) ∧
      ∀ later ∈ joinNext edit rest, edit.span.start ≤ later.span.start := by
  have own := ordered edit (by simp)
  have near : ∀ later ∈ edit :: rest, edit.span.start ≤ later.span.start := by
    intro later member
    rcases List.mem_cons.mp member with rfl | inside
    · exact Nat.le_refl _
    · have far := (List.pairwise_cons.mp ascending).1 later inside
      unfold Ordered at own
      omega
  cases rest with
  | nil => exact ⟨ascending,fits,ordered,near⟩
  | cons next rest =>
    simp only [joinNext]
    split
    · rename_i touching
      have nextOrdered := ordered next (by simp)
      have nextFits := fits next (by simp)
      have ownFits := fits edit (by simp)
      have behind := (List.pairwise_cons.mp ascending.tail).1
      refine ⟨List.pairwise_cons.mpr ⟨behind,ascending.tail.tail⟩,?_,?_,?_⟩
      · intro later member
        rcases List.mem_cons.mp member with rfl | inside
        · exact ⟨nextFits.inside,ownFits.atStart,nextFits.atStop⟩
        · exact fits later (by simp [inside])
      · intro later member
        rcases List.mem_cons.mp member with rfl | inside
        · unfold Ordered at own nextOrdered ⊢
          dsimp only
          omega
        · exact ordered later (by simp [inside])
      · intro later member
        rcases List.mem_cons.mp member with rfl | inside
        · exact Nat.le_refl _
        · exact near later (by simp [inside])
    · exact ⟨ascending,fits,ordered,near⟩

theorem coalesce_ascending (text : Text) (edits : List Edit)
    (fits : ∀ edit ∈ edits, Fits text edit) (ordered : ∀ edit ∈ edits, Ordered edit)
    (ascending : Ascending edits) :
    Ascending (coalesce edits) ∧ (∀ edit ∈ coalesce edits, Fits text edit) ∧
      (∀ edit ∈ coalesce edits, Ordered edit) ∧
      ∀ here, (∀ edit ∈ edits, here ≤ edit.span.start) →
        ∀ edit ∈ coalesce edits, here ≤ edit.span.start := by
  induction edits with
  | nil => exact ⟨ascending,fits,ordered,fun _ _ => by simp [coalesce]⟩
  | cons edit rest ih =>
    obtain ⟨restUp,restFits,restOrdered,restAfter⟩ := ih (fun later member => fits later (by simp [member]))
      (fun later member => ordered later (by simp [member])) ascending.tail
    have follows := restAfter edit.span.stop (List.pairwise_cons.mp ascending).1
    obtain ⟨up,joinedFits,joinedOrdered,near⟩ := joinNext_ascending text edit (coalesce rest)
      (by simpa using ⟨fits edit (by simp),restFits⟩)
      (by simpa using ⟨ordered edit (by simp),restOrdered⟩)
      (List.pairwise_cons.mpr ⟨follows,restUp⟩)
    refine ⟨up,joinedFits,joinedOrdered,?_⟩
    intro here after later member
    exact Nat.le_trans (after edit (by simp)) (near later member)

/-- Splicing from the back is the pass from the front: what lies before the first edit is not
touched by any. -/
theorem applyNormal_eq (text : Text) (edits : List Edit) (here : Nat)
    (atHere : text.isBoundary here = true) (fits : ∀ edit ∈ edits, Fits text edit)
    (ordered : ∀ edit ∈ edits, Ordered edit) (ascending : Ascending edits)
    (after : ∀ edit ∈ edits, here ≤ edit.span.start) :
    applyNormal text edits = text.before here ++ rewriteFrom text here edits := by
  induction edits generalizing here with
  | nil => exact (text.before_append_after here).symm
  | cons edit rest ih =>
    have own := fits edit (by simp)
    have behind : applyNormal text rest =
        text.before edit.span.stop ++ rewriteFrom text edit.span.stop rest :=
      ih edit.span.stop own.atStop (fun later member => fits later (by simp [member]))
        (fun later member => ordered later (by simp [member])) ascending.tail
        (List.pairwise_cons.mp ascending).1
    have head := text.before_eq_append edit.span.start edit.span.stop (ordered edit (by simp))
      own.atStart own.atStop
    have front : (applyNormal text rest).before edit.span.start = text.before edit.span.start := by
      rw [behind,head,List.append_assoc,text.before_before_append _ _ own.atStart]
    have back : (applyNormal text rest).after edit.span.stop =
        rewriteFrom text edit.span.stop rest := by
      rw [behind,text.after_before_append _ _ own.atStop]
    calc applyNormal text (edit :: rest)
        = (applyNormal text rest).before edit.span.start ++ edit.replacement ++
            (applyNormal text rest).after edit.span.stop := rfl
      _ = text.before here ++ text.between here edit.span.start ++ edit.replacement ++
            rewriteFrom text edit.span.stop rest := by
          rw [front,back,text.before_eq_append here edit.span.start (after edit (by simp)) atHere
            own.atStart]
      _ = text.before here ++ rewriteFrom text here (edit :: rest) := by
          simp [rewriteFrom]

/-- Each edit changes the length by its own delta. -/
theorem size_rewriteFrom (text : Text) (edits : List Edit) (here : Nat)
    (atHere : text.isBoundary here = true) (fits : ∀ edit ∈ edits, Fits text edit)
    (ordered : ∀ edit ∈ edits, Ordered edit) (ascending : Ascending edits)
    (after : ∀ edit ∈ edits, here ≤ edit.span.start) :
    ((rewriteFrom text here edits).size : Int) =
      (text.size : Int) - here + (edits.map Edit.delta).sum := by
  induction edits generalizing here with
  | nil =>
    have bound := text.le_size_of_isBoundary here atHere
    simp only [rewriteFrom,text.size_after here atHere,List.map_nil,List.sum_nil]
    omega
  | cons edit rest ih =>
    have own := fits edit (by simp)
    have start := after edit (by simp)
    have length := ordered edit (by simp)
    have tail := ih edit.span.stop own.atStop (fun later member => fits later (by simp [member]))
      (fun later member => ordered later (by simp [member])) ascending.tail
      (List.pairwise_cons.mp ascending).1
    simp only [rewriteFrom,Text.size_append,
      text.size_between here edit.span.start start atHere own.atStart,List.map_cons,List.sum_cons,
      Edit.delta,Span.length] at tail ⊢
    unfold Ordered at length
    omega

/-- All edits fit and keep apart, so the edits can be made. -/
structure Applicable (text : Text) (edits : List Edit) : Prop where
  fits : ∀ edit ∈ edits, Fits text edit
  apart : edits.Pairwise Apart

theorem normalize_eq_ok_iff (text : Text) (edits normal : List Edit)
    (ordered : ∀ edit ∈ edits, Ordered edit) :
    normalize text edits = .ok normal ↔ Applicable text edits ∧ normal = coalesce (sorted edits) := by
  have checked : (sorted edits).forM (check text) = .ok () ↔ ∀ edit ∈ edits, Fits text edit := by
    simp only [forM_eq_ok_iff,check_eq_ok_iff,mem_sorted]
  have apart : checkApart (sorted edits) = .ok () ↔ edits.Pairwise Apart := by
    rw [checkApart_eq_ok_iff _ (fun edit member => ordered edit ((mem_sorted _ _).mp member))
      (sorted_stable edits).ascending,ascending_sorted_iff edits ordered]
  constructor
  · intro done
    obtain ⟨_,bounds,done⟩ := bind_eq_ok_iff.mp done
    obtain ⟨_,order,done⟩ := bind_eq_ok_iff.mp done
    exact ⟨⟨checked.mp bounds,apart.mp order⟩,(Except.ok.inj done).symm⟩
  · rintro ⟨⟨fits,keep⟩,rfl⟩
    simp [normalize,checked.mpr fits,apart.mpr keep,bind,Except.bind,pure,Except.pure]

theorem apply_eq_ok_iff (text result : Text) (edits : List Edit)
    (ordered : ∀ edit ∈ edits, Ordered edit) :
    apply text edits = .ok result ↔
      Applicable text edits ∧ result = rewriteFrom text 0 (sorted edits) := by
  have normal (applicable : Applicable text edits) :
      applyNormal text (coalesce (sorted edits)) = rewriteFrom text 0 (sorted edits) := by
    have fits : ∀ edit ∈ sorted edits, Fits text edit := by
      simpa only [mem_sorted] using applicable.fits
    obtain ⟨up,joinedFits,joinedOrdered,_⟩ := coalesce_ascending text (sorted edits) fits
      (by simpa only [mem_sorted] using ordered) ((ascending_sorted_iff edits ordered).mpr applicable.apart)
    rw [applyNormal_eq text _ 0 text.isBoundary_zero joinedFits joinedOrdered up
      (fun _ _ => Nat.zero_le _),Text.before_zero,List.nil_append,rewriteFrom_coalesce text 0 _ fits]
  constructor
  · intro done
    obtain ⟨edits',normalized,done⟩ := bind_eq_ok_iff.mp done
    obtain ⟨applicable,rfl⟩ := (normalize_eq_ok_iff text edits _ ordered).mp normalized
    exact ⟨applicable,(Except.ok.inj done).symm.trans (normal applicable)⟩
  · rintro ⟨applicable,rfl⟩
    have normalized := (normalize_eq_ok_iff text edits _ ordered).mpr ⟨applicable,rfl⟩
    simp [apply,normalized,normal applicable,bind,Except.bind,pure,Except.pure]

/-- Edits can be made exactly when all of them fit and any two keep apart, and the outcome is the
text rewritten from left to right, longer by what the edits add. -/
theorem apply_rewrites (text : Text) (edits : List Edit) (ordered : ∀ edit ∈ edits, Ordered edit) :
    ((∃ result, apply text edits = .ok result) ↔
      (∀ edit ∈ edits, Fits text edit) ∧ edits.Pairwise Apart) ∧
    ∀ result, apply text edits = .ok result →
      (∀ arranged, StablySorted edits arranged → result = rewriteFrom text 0 arranged) ∧
      (∃ arranged, StablySorted edits arranged) ∧
      (result.size : Int) = text.size + (edits.map delta).sum := by
  refine ⟨⟨?_,?_⟩,?_⟩
  · rintro ⟨result,done⟩
    have applicable := ((apply_eq_ok_iff text result edits ordered).mp done).1
    exact ⟨applicable.fits,applicable.apart⟩
  · rintro ⟨fits,apart⟩
    exact ⟨_,(apply_eq_ok_iff text _ edits ordered).mpr ⟨⟨fits,apart⟩,rfl⟩⟩
  · intro result done
    obtain ⟨applicable,rfl⟩ := (apply_eq_ok_iff text result edits ordered).mp done
    refine ⟨?_,⟨_,sorted_stable edits⟩,?_⟩
    · intro arranged stable
      rw [stable.unique (sorted_stable edits)]
    · have total : ((sorted edits).map delta).sum = (edits.map delta).sum :=
        ((List.mergeSort_perm edits _).map delta).sum_eq
      rw [size_rewriteFrom text (sorted edits) 0 text.isBoundary_zero
        (by simpa only [mem_sorted] using applicable.fits)
        (by simpa only [mem_sorted] using ordered)
        ((ascending_sorted_iff edits ordered).mpr applicable.apart) (fun _ _ => Nat.zero_le _),total]
      simp

/-- Inserts at one place, a replacement that two inserts touch, and a deletion before them. -/
def touching : List Edit :=
  [⟨⟨2,3⟩,['x','y']⟩,.insert 2 ['p'],.insert 2 ['q'],.insert 3 ['r'],.delete ⟨0,2⟩]

theorem apply_rewrites_touching :
    (∀ edit ∈ touching, Ordered edit) ∧
    (∃ result, apply ['é','b','c'] touching = .ok result) ∧
    ∀ result, apply ['é','b','c'] touching = .ok result → (result.size : Int) = 6 := by
  have made := apply_rewrites ['é','b','c'] touching (by decide)
  exact ⟨by decide,made.1.mpr (by decide),fun result done => (made.2 result done).2.2⟩

end Transplant.Edit
