import Transplant.Proofs.Edit.Follow
import Transplant.Proofs.Edit.Pass

/-! Markers given in another order. Whether they can be performed, and where each of them comes to
lie, does not depend on the order; the text depends on it only where several markers insert at one
place, which is where two of them touch. -/
namespace Transplant

namespace Edit

variable {text : Text} {edits others : List Edit} {here : Nat}

theorem Applicable.perm (applicable : Applicable text edits) (permuted : edits.Perm others) :
    Applicable text others where
  fits := fun edit member => applicable.fits edit (permuted.mem_iff.mpr member)
  apart := applicable.apart.perm permuted fun apart => apart.symm

theorem growth_perm (permuted : edits.Perm others) : Marker.growth edits = Marker.growth others := by
  rw [Marker.growth_eq_sum,Marker.growth_eq_sum]
  exact (permuted.map delta).sum_eq

/-- Some of the edits lie in the part that each of them lies in. -/
theorem within_filter (applicable : Applicable text edits) (ordered : ∀ edit ∈ edits, Ordered edit)
    (wanted : Edit → Bool) {low high : Nat} (lies : ∀ edit ∈ edits, wanted edit = true →
      low ≤ edit.span.start ∧ edit.span.stop ≤ high) : Within text low high (sorted (edits.filter wanted)) := by
  apply within_sorted
  · exact ⟨fun edit given => applicable.fits edit (List.mem_filter.mp given).1,
      applicable.apart.sublist List.filter_sublist⟩
  · exact fun edit given => ordered edit (List.mem_filter.mp given).1
  · intro edit given
    obtain ⟨given,chosen⟩ := List.mem_filter.mp given
    exact lies edit given chosen

theorem rewriteFrom_eq_pass (applicable : Applicable text edits)
    (ordered : ∀ edit ∈ edits, Ordered edit) :
    rewriteFrom text 0 (sorted edits) = pass (sorted edits) 0 0 (text.between 0 text.size) := by
  have within := within_whole applicable ordered
  rw [rewriteFrom_eq_rewriteTo 0 _ text.isBoundary_zero within.fits,
    pass_eq_rewriteTo (Nat.zero_le _) text.isBoundary_zero text.isBoundary_full within]

/-- Edits in another order that insert the same at each place make the same text: at most one of
them replaces what begins there. -/
theorem rewritten_congr (applicable : Applicable text edits) (ordered : ∀ edit ∈ edits, Ordered edit)
    (permuted : edits.Perm others) (inserted : ∀ here, insertedAt edits here = insertedAt others here) :
    rewriteFrom text 0 (sorted edits) = rewriteFrom text 0 (sorted others) := by
  have othersOrdered : ∀ edit ∈ others, Ordered edit := fun edit member =>
    ordered edit (permuted.mem_iff.mpr member)
  rw [rewriteFrom_eq_pass applicable ordered,
    rewriteFrom_eq_pass (applicable.perm permuted) othersOrdered]
  apply pass_congr
  · intro here _ _
    rw [insertedAt_sorted,insertedAt_sorted,inserted]
  · intro here _ _
    apply find?_eq_of_mem_iff
    · intro edit
      rw [mem_sorted,mem_sorted,permuted.mem_iff]
    · intro first inFirst second inSecond
      rw [mem_sorted,← permuted.mem_iff] at inFirst inSecond
      exact replacedAt?_unique ordered applicable.apart inFirst inSecond

theorem filter_span (wanted : Span → Bool) (edits : List Edit) (span : Span) :
    (edits.filter fun edit => wanted edit.span).filter (fun edit => edit.span == span) =
      if wanted span then edits.filter (fun edit => edit.span == span) else [] := by
  have same (edit : Edit) :
      (edit.span == span && wanted edit.span) = (edit.span == span && wanted span) := by
    cases here : edit.span == span with
    | false => rfl
    | true => rw [beq_iff_eq.mp here]
  rw [List.filter_filter,funext same]
  cases wanted span <;> simp

/-- Edits can be sorted in two parts when those of one part come before those of the other. -/
theorem sorted_parted (early : Span → Bool) (edits : List Edit)
    (follows : ∀ first second : Span, early first = true → early second = false →
      first.atMost second = true) :
    sorted edits = sorted (edits.filter fun edit => early edit.span) ++
      sorted (edits.filter fun edit => !early edit.span) := by
  rw [← sorted_append]
  · apply (sorted_stable edits).unique
    refine ⟨(sorted_stable _).ascending,?_⟩
    intro span
    rw [(sorted_stable _).kept,List.filter_append,filter_span early,filter_span fun span => !early span]
    cases early span <;> simp
  · intro first inFirst second inSecond
    exact follows _ _ (List.mem_filter.mp inFirst).2 (by simpa using (List.mem_filter.mp inSecond).2)

/-- The order of what is inserted at one place decides the text, but not its size. -/
theorem size_insertedAt (permuted : edits.Perm others) (here : Nat) :
    (insertedAt edits here).size = (insertedAt others here).size := by
  unfold insertedAt
  have inserts := permuted.filter fun edit => edit.span == .empty here
  generalize List.filter _ edits = list,List.filter _ others = other at inserts ⊢
  induction inserts with
  | nil => rfl
  | cons edit _ same => simp only [List.flatMap_cons,Text.size_append,same]
  | swap first second rest =>
    simp only [List.flatMap_cons,Text.size_append]
    omega
  | trans _ _ first second => exact first.trans second

/-- A pass begins with what is inserted where it begins. -/
theorem pass_begins (edits : List Edit) (here : Nat) (part : Text) :
    ∃ rest, pass edits here here part = insertedAt edits here ++ rest := by
  cases part with
  | nil => exact ⟨[],(List.append_nil _).symm⟩
  | cons c part =>
    rw [pass,if_neg (Nat.lt_irrefl here)]
    exact ⟨_,rfl⟩

/-- An insert cuts the rewritten text in two, since no other edit lies across its place. The bytes
before the cut can be counted. -/
theorem rewritten_parted (applicable : Applicable text edits) (ordered : ∀ edit ∈ edits, Ordered edit)
    (inserting : ∃ edit ∈ edits, edit.span = .empty here) :
    ∃ front back : Text,
      rewriteFrom text 0 (sorted edits) = front ++ (insertedAt edits here ++ back) ∧
      (front.size : Int) = here + Marker.growth (edits.filter (·.span.start < here)) := by
  obtain ⟨insert,member,place⟩ := inserting
  have symmetric : Std.Symm Apart := ⟨fun _ _ apart => apart.symm⟩
  have atHere : text.isBoundary here = true := by
    have fits := (applicable.fits insert member).atStart
    rwa [place] at fits
  have clear : ∀ edit ∈ edits, edit.span.stop ≤ here ∨ here ≤ edit.span.start := by
    intro edit given
    by_cases same : insert = edit
    · rw [← same,place]
      exact .inl (Nat.le_refl _)
    · have apart := applicable.apart.forall member given same
      rw [Apart,place] at apart
      exact apart.symm
  have early : Within text 0 here (sorted (edits.filter (·.span.start < here))) := by
    refine within_filter applicable ordered _ fun edit given low => ?_
    have side := clear edit given
    rw [decide_eq_true_eq] at low
    omega
  have late : Within text here text.size (sorted (edits.filter (!·.span.start < here))) := by
    refine within_filter applicable ordered _ fun edit given high => ?_
    have inside := (applicable.fits edit given).inside
    simp only [Bool.not_eq_true',decide_eq_false_iff_not] at high
    omega
  have inside := text.le_size_of_isBoundary here atHere
  have inserted : insertedAt (edits.filter (!·.span.start < here)) here = insertedAt edits here := by
    rw [insertedAt,filter_span fun span => !span.start < here,if_pos (by simp [Span.empty]),insertedAt]
  obtain ⟨back,begins⟩ := pass_begins (sorted (edits.filter (!·.span.start < here))) here
    (text.between here text.size)
  refine ⟨rewriteTo text 0 here (sorted (edits.filter (·.span.start < here))),back,?_,?_⟩
  · rw [pass_eq_rewriteTo inside atHere text.isBoundary_full late,insertedAt_sorted,inserted] at begins
    rw [rewriteFrom_eq_rewriteTo 0 _ text.isBoundary_zero (within_whole applicable ordered).fits,
      sorted_parted (fun span => span.start < here),rewriteTo_append inside (Nat.zero_le _)
        text.isBoundary_zero atHere text.isBoundary_full early late,begins]
    intro first second low high
    rw [Span.atMost_iff]
    simp only [decide_eq_true_eq,decide_eq_false_iff_not] at low high
    omega
  · rw [size_rewriteTo (Nat.zero_le _) text.isBoundary_zero atHere early,Marker.sum_sorted]
    simp

theorem insertedAt_of_rewritten (applicable : Applicable text edits)
    (ordered : ∀ edit ∈ edits, Ordered edit) (permuted : edits.Perm others)
    (same : rewriteFrom text 0 (sorted edits) = rewriteFrom text 0 (sorted others)) (here : Nat) :
    insertedAt edits here = insertedAt others here := by
  by_cases inserting : ∃ edit ∈ edits, edit.span = .empty here
  · have othersOrdered : ∀ edit ∈ others, Ordered edit := fun edit member =>
      ordered edit (permuted.mem_iff.mpr member)
    have again : ∃ edit ∈ others, edit.span = .empty here := by
      simpa only [permuted.mem_iff] using inserting
    obtain ⟨front,back,parted,front_size⟩ := rewritten_parted applicable ordered inserting
    obtain ⟨front',back',parted',front_size'⟩ :=
      rewritten_parted (applicable.perm permuted) othersOrdered again
    have fronts : front.size = front'.size := by
      have grown := growth_perm (permuted.filter (·.span.start < here))
      omega
    rw [parted,parted'] at same
    have behind := congrArg (Text.after · front.size) same
    simp only [Text.after_append] at behind
    rw [fronts,Text.after_append] at behind
    have begins := congrArg (Text.before · (insertedAt edits here).size) behind
    simp only [Text.before_append] at begins
    rwa [size_insertedAt permuted,Text.before_append] at begins
  · have none : ∀ edit ∈ edits, edit.span ≠ .empty here := by
      simpa using inserting
    rw [insertedAt_of_forall_ne none,insertedAt_of_forall_ne fun edit member =>
      none edit (permuted.mem_iff.mpr member)]

end Edit

namespace Marker

variable {text : Text} {markers others : List Marker} {first second : Marker}

/-- One of two markers ends at or before the start of the other. -/
def Apart (first second : Marker) : Prop :=
  first.span.stop ≤ second.span.start ∨ second.span.stop ≤ first.span.start

instance (first second : Marker) : Decidable (Apart first second) :=
  inferInstanceAs (Decidable (_ ∨ _))

theorem Apart.symm (apart : Apart first second) : Apart second first := Or.symm apart

/-- What has to hold of markers that keep apart for their edits to be made. -/
structure Performable (text : Text) (markers : List Marker) : Prop where
  inside : ∀ marker ∈ markers, marker.span.stop ≤ text.size
  own : ∀ marker ∈ markers, ∀ edit ∈ marker.edits, marker.span.contains edit.span = true
  applicable : Edit.Applicable text (markers.flatMap (·.edits))

theorem Performable.perm (performable : Performable text markers) (permuted : markers.Perm others) :
    Performable text others where
  inside := fun marker member => performable.inside marker (permuted.mem_iff.mpr member)
  own := fun marker member => performable.own marker (permuted.mem_iff.mpr member)
  applicable := performable.applicable.perm (permuted.flatMap_right _)

/-- Sorted by their spans, lasting markers that keep apart stand one behind the other. -/
theorem checkApart_sorted (lasting : ∀ marker ∈ markers, marker.span.start < marker.span.stop)
    (apart : markers.Pairwise Apart) :
    checkApart ((markers.map (·.span)).mergeSort Span.atMost) = .ok () := by
  apply checkApart_eq_ok
  have order := List.pairwise_mergeSort Span.atMost_trans
    (fun first second => by simpa using Span.atMost_total first second) (markers.map (·.span))
  have keep : ((markers.map (·.span)).mergeSort Span.atMost).Pairwise fun first second =>
      first.stop ≤ second.start ∨ second.stop ≤ first.start := by
    apply List.Pairwise.perm _ (List.mergeSort_perm _ _).symm Or.symm
    rw [List.pairwise_map]
    exact apart
  apply (List.pairwise_and_iff.mpr ⟨order,keep⟩).imp_of_mem
  intro first second inFirst inSecond both
  rw [List.mem_mergeSort,List.mem_map] at inFirst inSecond
  obtain ⟨marker,member,rfl⟩ := inFirst
  obtain ⟨other,given,rfl⟩ := inSecond
  have length := lasting marker member
  have otherLength := lasting other given
  have sorted := (Span.atMost_iff _ _).mp both.1
  omega

theorem Performable.check_eq_ok (performable : Performable text markers)
    (lasting : ∀ marker ∈ markers, marker.span.start < marker.span.stop)
    (apart : markers.Pairwise Apart) : check text markers = .ok () := by
  have bounds : ((markers.map (·.span)).mergeSort Span.atMost).forM (checkBounds text.size) =
      .ok () := by
    rw [Edit.forM_eq_ok_iff]
    intro span member
    obtain ⟨marker,inside,rfl⟩ := List.mem_map.mp (List.mem_mergeSort.mp member)
    simp [checkBounds,Nat.not_lt.mpr (performable.inside marker inside)]
  have inside : markers.forM (fun marker => marker.edits.forM marker.checkInside) = .ok () := by
    simp only [Edit.forM_eq_ok_iff]
    intro marker member edit own
    simp [checkInside,performable.own marker member edit own]
  simp only [check,bounds,checkApart_sorted lasting apart,inside,bind,Except.bind]

end Marker

namespace Snapshot

variable {snapshot : Snapshot} {markers others : List Marker} {outcome : EditOutcome}

theorem perform_eq_ok_iff (snapshot : Snapshot) (markers : List Marker) (outcome : EditOutcome)
    (lasting : ∀ marker ∈ markers, marker.span.start < marker.span.stop)
    (apart : markers.Pairwise Marker.Apart)
    (ordered : ∀ edit ∈ markers.flatMap (·.edits), edit.Ordered) :
    snapshot.perform markers = .ok outcome ↔ Marker.Performable snapshot.text markers ∧
      outcome = ⟨⟨Edit.rewriteFrom snapshot.text 0 (Edit.sorted (markers.flatMap (·.edits))),
        snapshot.lineBreak⟩,markers.mapIdx fun i marker => marker.moved (markers.eraseIdx i)⟩ := by
  constructor
  · intro done
    obtain ⟨checked,text,applied,rfl⟩ := steps_of_perform done
    obtain ⟨inside,own⟩ := Marker.inside_of_check checked
    obtain ⟨applicable,rfl⟩ := (Edit.apply_eq_ok_iff _ _ _ ordered).mp applied
    exact ⟨⟨inside,own,applicable⟩,rfl⟩
  · rintro ⟨performable,rfl⟩
    have applied := (Edit.apply_eq_ok_iff _ _ _ ordered).mpr ⟨performable.applicable,rfl⟩
    simp only [perform,performable.check_eq_ok lasting apart,applied,bind,Except.bind,pure,Except.pure]

theorem moved_perm {marker : Marker} {markers others : List Marker} (permuted : markers.Perm others) :
    marker.moved markers = marker.moved others := by
  have edits := permuted.flatMap_right (·.edits)
  simp only [Marker.moved,Edit.growth_perm (edits.filter _)]

/-- A marker is moved by the other markers, in whichever order they are given. -/
theorem spans_eq_map (permuted : markers.Perm others) :
    (others.mapIdx fun i marker => marker.moved (others.eraseIdx i)) =
      others.map fun marker => marker.moved (markers.erase marker) := by
  rw [List.mapIdx_eq_iff]
  intro i
  rw [List.getElem?_map]
  cases found : others[i]? with
  | none => rfl
  | some marker =>
    obtain ⟨inside,rfl⟩ := List.getElem?_eq_some_iff.mp found
    have rest : (others.eraseIdx i).Perm (markers.erase others[i]) := by
      apply List.Perm.cons_inv (a := others[i])
      exact (List.getElem_cons_eraseIdx_perm inside).trans (permuted.symm.trans
        (List.perm_cons_erase (permuted.mem_iff.mpr (List.getElem_mem inside))))
    simp only [Option.map_some,moved_perm rest]

theorem flatMap_perm_of_one {α β : Type} {made : α → List β} {left right : List α}
    (permuted : left.Perm right) (one : left.Pairwise fun a b => made a = [] ∨ made b = []) :
    left.flatMap made = right.flatMap made := by
  induction permuted with
  | nil => rfl
  | cons a _ ih => rw [List.flatMap_cons,List.flatMap_cons,ih one.tail]
  | swap a b rest =>
    have either := (List.pairwise_cons.mp one).1 a (by simp)
    rcases either with none | none <;> simp [none]
  | trans first _ ihFirst ihSecond =>
    exact (ihFirst one).trans (ihSecond (one.perm first Or.symm))

/-- Of markers that keep apart only two that touch can both insert at one place. -/
theorem insertedAt_of_clear (own : ∀ marker ∈ markers, ∀ edit ∈ marker.edits,
      marker.span.contains edit.span = true)
    (apart : markers.Pairwise Marker.Apart) (permuted : markers.Perm others)
    (clear : ∀ first ∈ markers, ∀ second ∈ markers, first.span.stop = second.span.start →
      Edit.insertedAt first.edits first.span.stop = [] ∨
        Edit.insertedAt second.edits second.span.start = []) (here : Nat) :
    Edit.insertedAt (markers.flatMap (·.edits)) here =
      Edit.insertedAt (others.flatMap (·.edits)) here := by
  have spread (markers : List Marker) : Edit.insertedAt (markers.flatMap (·.edits)) here =
      markers.flatMap fun marker => Edit.insertedAt marker.edits here := by
    simp only [Edit.insertedAt,List.filter_flatMap,List.flatMap_assoc]
  have inside : ∀ marker ∈ markers, Edit.insertedAt marker.edits here ≠ [] →
      marker.span.start ≤ here ∧ here ≤ marker.span.stop := by
    intro marker member inserts
    obtain ⟨edit,given,place⟩ : ∃ edit ∈ marker.edits, edit.span = .empty here := by
      by_contra none
      exact inserts (Edit.insertedAt_of_forall_ne (by simpa using none))
    have contained := (Span.contains_iff _ _).mp (own marker member edit given)
    rwa [place] at contained
  -- Of two markers that both insert here, the first ends here and the second begins here.
  have touching : ∀ first ∈ markers, ∀ second ∈ markers, first.span.stop ≤ second.span.start →
      Edit.insertedAt first.edits here ≠ [] → Edit.insertedAt second.edits here ≠ [] → False := by
    intro first inFirst second inSecond before firstInserts secondInserts
    have firstInside := inside first inFirst firstInserts
    have secondInside := inside second inSecond secondInserts
    have stop : first.span.stop = here := by omega
    have start : second.span.start = here := by omega
    have either := clear first inFirst second inSecond (stop.trans start.symm)
    rw [stop,start] at either
    exact either.elim firstInserts secondInserts
  rw [spread,spread]
  apply flatMap_perm_of_one permuted
  apply apart.imp_of_mem
  intro first second inFirst inSecond apart
  by_contra both
  rw [not_or] at both
  rcases apart with before | behind
  · exact touching first inFirst second inSecond before both.1 both.2
  · exact touching second inSecond first inFirst behind both.2 both.1

/-- Lasting markers that keep apart can be given in any order: they are performed or refused
together, and each marker comes to lie at the same place. The texts made are the same exactly when
both orders insert the same at each place, and they do if no two markers insert where they touch. -/
theorem perform_perm (snapshot : Snapshot) (markers others : List Marker)
    (permuted : markers.Perm others)
    (lasting : ∀ marker ∈ markers, marker.span.start < marker.span.stop)
    (apart : markers.Pairwise Marker.Apart)
    (ordered : ∀ edit ∈ markers.flatMap (·.edits), edit.Ordered) :
    ((∃ outcome, snapshot.perform markers = .ok outcome) ↔
      ∃ outcome, snapshot.perform others = .ok outcome) ∧
    ∀ first second, snapshot.perform markers = .ok first → snapshot.perform others = .ok second →
      (∃ place : Marker → Span,
        first.spans = markers.map place ∧ second.spans = others.map place) ∧
      (first.snapshot = second.snapshot ↔ ∀ here,
        Edit.insertedAt (markers.flatMap (·.edits)) here =
          Edit.insertedAt (others.flatMap (·.edits)) here) ∧
      ((∀ marker ∈ markers, ∀ next ∈ markers, marker.span.stop = next.span.start →
        Edit.insertedAt marker.edits marker.span.stop = [] ∨
          Edit.insertedAt next.edits next.span.start = []) →
        first.snapshot = second.snapshot) := by
  have othersLasting : ∀ marker ∈ others, marker.span.start < marker.span.stop :=
    fun marker member => lasting marker (permuted.mem_iff.mpr member)
  have othersApart := apart.perm permuted Marker.Apart.symm
  have edits := permuted.flatMap_right (·.edits)
  have othersOrdered : ∀ edit ∈ others.flatMap (·.edits), edit.Ordered :=
    fun edit member => ordered edit (edits.mem_iff.mpr member)
  have performed (outcome : EditOutcome) :=
    perform_eq_ok_iff snapshot markers outcome lasting apart ordered
  have othersPerformed (outcome : EditOutcome) :=
    perform_eq_ok_iff snapshot others outcome othersLasting othersApart othersOrdered
  refine ⟨⟨?_,?_⟩,?_⟩
  · rintro ⟨outcome,done⟩
    exact ⟨_,(othersPerformed _).mpr ⟨((performed _).mp done).1.perm permuted,rfl⟩⟩
  · rintro ⟨outcome,done⟩
    exact ⟨_,(performed _).mpr ⟨((othersPerformed _).mp done).1.perm permuted.symm,rfl⟩⟩
  · intro first second done othersDone
    obtain ⟨performable,rfl⟩ := (performed _).mp done
    obtain ⟨_,rfl⟩ := (othersPerformed _).mp othersDone
    have applicable := performable.applicable
    have texts := Edit.rewritten_congr applicable ordered edits
    refine ⟨⟨_,spans_eq_map (.refl markers),spans_eq_map permuted⟩,⟨?_,?_⟩,?_⟩
    · intro same
      exact Edit.insertedAt_of_rewritten applicable ordered edits (congrArg Snapshot.text same)
    · intro inserted
      rw [texts inserted]
    · intro clear
      rw [texts (insertedAt_of_clear performable.own apart permuted clear)]

/-- A marker and one that touches it, of which only the second inserts where they touch. -/
def neighbours : List Marker := [⟨⟨0,2⟩,[⟨⟨0,2⟩,['x','y']⟩]⟩,⟨⟨2,3⟩,[.insert 2 ['q']]⟩]

theorem perform_perm_neighbours :
    ∃ first second, perform ⟨['é','b'],.lf⟩ neighbours = .ok first ∧
      perform ⟨['é','b'],.lf⟩ neighbours.reverse = .ok second ∧
      first.snapshot = second.snapshot ∧ first.spans = second.spans.reverse := by
  have lined : Marker.Lined ['é','b'] neighbours :=
    ⟨by decide,by decide,by decide,by decide,by decide,⟨by decide,by decide⟩⟩
  have done := perform_eq_ok ⟨['é','b'],.lf⟩ neighbours lined
  have ⟨both,same⟩ := perform_perm ⟨['é','b'],.lf⟩ neighbours neighbours.reverse
    neighbours.reverse_perm.symm (by decide) (by decide) (by decide)
  obtain ⟨second,reversed⟩ := both.mp ⟨_,done⟩
  obtain ⟨⟨place,spans,turned⟩,_,texts⟩ := same _ second done reversed
  refine ⟨_,second,done,reversed,texts (by decide),?_⟩
  rw [spans,turned,List.map_reverse,List.reverse_reverse]

/-- Two markers that both insert where they touch. -/
def meeting : List Marker := [⟨⟨0,1⟩,[.insert 1 ['x']]⟩,⟨⟨1,2⟩,[.insert 1 ['y']]⟩]

/-- What touching markers insert at one place stands in the order the markers are given in. -/
theorem perform_meeting :
    meeting.Perm meeting.reverse ∧
    (∀ marker ∈ meeting, marker.span.start < marker.span.stop) ∧
    meeting.Pairwise Marker.Apart ∧
    ∃ first second, perform ⟨['a','b'],.lf⟩ meeting = .ok first ∧
      perform ⟨['a','b'],.lf⟩ meeting.reverse = .ok second ∧
      first.snapshot.text = ['a','x','y','b'] ∧ second.snapshot.text = ['a','y','x','b'] := by
  refine ⟨meeting.reverse_perm.symm,by decide,by decide,_,_,
    (perform_eq_ok_iff _ _ _ (by decide) (by decide) (by decide)).mpr
      ⟨⟨by decide,by decide,⟨by decide,by decide⟩⟩,rfl⟩,
    (perform_eq_ok_iff _ _ _ (by decide) (by decide) (by decide)).mpr
      ⟨⟨by decide,by decide,⟨by decide,by decide⟩⟩,rfl⟩,?_,?_⟩
  · rw [Edit.sorted,List.mergeSort_of_pairwise (by decide)]
    decide
  · rw [Edit.sorted,List.mergeSort_of_pairwise (by decide)]
    decide

end Snapshot
end Transplant
