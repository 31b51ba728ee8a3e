import Mathlib.Data.List.Perm.Subperm
import Transplant.Proofs.Edit.Follow

/-! What the errors say. A request is faulty in five ways, each with an error of its own, and the checks
report a fault that the request has. They compare neighbours in span order only, which finds out whether
any two spans overlap. -/
namespace Transplant

/-- Each of the spans begins before the other one ends. -/
def Span.Overlap (first second : Span) : Prop :=
  first.start < second.stop ∧ second.start < first.stop

theorem Span.Overlap.symm {first second : Span} (overlap : first.Overlap second) : second.Overlap first :=
  ⟨overlap.2,overlap.1⟩

/-- What is asked of a text: spans that have to lie in it, spans whose ends must not split a character,
the spans of edits that are to be made together, and markers with the edits inside them. -/
structure Request where
  text : Text
  bounded : List Span
  cut : List Span
  edits : List Span
  markers : List Marker

namespace Request

/-- What can be wrong with a request, by the error that says so. Two edits or two markers stand at
different places of the request, also when their spans are the same. -/
inductive Defect (request : Request) : EditError → Prop
  | beyond {span : Span} (asked : span ∈ request.bounded) (far : request.text.size < span.stop) :
      Defect request (.outOfBounds span request.text.size)
  | split {span : Span} {offset : Nat} (asked : span ∈ request.cut)
      (atEnd : offset = span.start ∨ offset = span.stop) (within : request.text.isBoundary offset = false) :
      Defect request (.notBoundary offset)
  | edits {first second : Span} (two : [first,second].Subperm request.edits) (overlap : first.Overlap second) :
      Defect request (.overlappingEdits first second)
  | outside {marker : Marker} {edit : Edit} (asked : marker ∈ request.markers) (own : edit ∈ marker.edits)
      (beside : marker.span.contains edit.span = false) : Defect request (.outsideMarker marker.span edit.span)
  | markers {first second : Span} (two : [first,second].Subperm (request.markers.map (·.span)))
      (overlap : first.Overlap second) : Defect request (.overlappingMarkers first second)

def ofSpan (text : Text) (span : Span) : Request := ⟨text,[span],[span],[],[]⟩

def ofEdits (text : Text) (edits : List Edit) : Request :=
  let spans := edits.map (·.span)
  ⟨text,spans,spans,spans,[]⟩

/-- The markers have to lie in the text. It is cut at the ends of their edits, not at their own. -/
def ofMarkers (text : Text) (markers : List Marker) : Request :=
  let spans := (markers.flatMap (·.edits)).map (·.span)
  ⟨text,markers.map (·.span) ++ spans,spans,spans,markers⟩

/-- Errors that differ in nothing but the offset at which a character is split. -/
def Alike : EditError → EditError → Prop
  | .notBoundary _,.notBoundary _ => True
  | first,second => first = second

/-- An error is a defect of the request, and something is made only of a request without defects. -/
def Truthful {α : Type} (request : Request) : Except EditError α → Prop
  | .error error => request.Defect error
  | .ok _ => ∀ error, ¬request.Defect error

variable {text : Text} {spans : List Span} {first second : Span} {edits : List Edit} {markers : List Marker}
  {error : EditError}

/-- Of spans in order, one that ends behind the start of a later one overlaps with it. -/
theorem overlap_of_sublist (sorted : spans.Pairwise fun first second => first.atMost second = true)
    (ordered : ∀ span ∈ spans, span.start ≤ span.stop) (two : [first,second].Sublist spans)
    (cross : second.start < first.stop) : first.Overlap second := by
  have order := sorted.sublist two
  rw [List.pairwise_pair,Span.atMost_iff] at order
  have length := ordered second (two.subset (by simp))
  unfold Span.Overlap
  omega

theorem not_overlap_of_two (apart : spans.Pairwise fun first second => ¬first.Overlap second)
    (two : [first,second].Subperm spans) : ¬first.Overlap second := by
  obtain ⟨picked,same,inside⟩ := two
  have both := (apart.sublist inside).perm same fun apart overlap => apart overlap.symm
  exact List.pairwise_pair.mp both

end Request

namespace Edit

variable {text : Text} {edits : List Edit} {error : EditError}

theorem defect_of_check {edit : Edit} (given : edit ∈ edits) (failed : check text edit = .error error) :
    (Request.ofEdits text edits).Defect error := by
  have asked : edit.span ∈ edits.map (·.span) := List.mem_map_of_mem given
  unfold check at failed
  split at failed
  · rename_i far
    cases failed
    exact .beyond asked far
  split at failed
  · rename_i within
    rw [Bool.not_eq_true'] at within
    cases failed
    exact .split asked (.inl rfl) within
  split at failed
  · rename_i within
    rw [Bool.not_eq_true'] at within
    cases failed
    exact .split asked (.inr rfl) within
  · cases failed

theorem exists_of_checkApart_eq_error (failed : checkApart edits = .error error) : ∃ first second,
    [first,second].Sublist edits ∧ overlaps first second = true ∧
      error = .overlappingEdits first.span second.span := by
  induction edits with
  | nil => cases failed
  | cons first rest ih =>
    cases rest with
    | nil => cases failed
    | cons second rest =>
      simp only [checkApart] at failed
      split at failed
      · rename_i cross
        exact ⟨first,second,by simp,cross,(Except.error.inj failed).symm⟩
      · obtain ⟨early,late,both,cross,said⟩ := ih failed
        exact ⟨early,late,both.cons _,cross,said⟩

theorem defect_of_normalize (ordered : ∀ edit ∈ edits, Ordered edit)
    (failed : normalize text edits = .error error) : (Request.ofEdits text edits).Defect error := by
  rcases bind_eq_error_iff.mp failed with bounds | ⟨_,_,failed⟩
  · obtain ⟨edit,member,faulty⟩ := exists_of_forM_eq_error bounds
    exact defect_of_check ((mem_sorted _ _).mp member) faulty
  rcases bind_eq_error_iff.mp failed with apart | ⟨_,_,failed⟩
  · obtain ⟨first,second,both,cross,rfl⟩ := exists_of_checkApart_eq_error apart
    have given := (List.mergeSort_perm edits fun first second => first.span.atMost second.span).map (·.span)
    have two : [first.span,second.span].Sublist ((sorted edits).map (·.span)) := both.map Edit.span
    have inOrder : ∀ edit ∈ sorted edits, Ordered edit := by simpa only [mem_sorted] using ordered
    refine .edits (two.subperm.trans given.subperm) (Request.overlap_of_sublist
      (List.pairwise_map.mpr (sorted_stable edits).ascending) (List.forall_mem_map.mpr inOrder) two ?_)
    exact (overlaps_iff (inOrder first (both.subset (by simp)))).mp cross
  · cases failed

theorem Applicable.not_overlap (applicable : Applicable text edits) :
    (edits.map (·.span)).Pairwise fun first second => ¬first.Overlap second := by
  refine List.pairwise_map.mpr (applicable.apart.imp fun {first second} apart overlap => ?_)
  unfold Apart at apart
  unfold Span.Overlap at overlap
  omega

theorem Applicable.flawless (applicable : Applicable text edits) :
    ∀ error, ¬(Request.ofEdits text edits).Defect error := by
  rintro error (⟨asked,far⟩ | ⟨asked,atEnd,within⟩ | ⟨two,overlap⟩ | ⟨asked,_,_⟩ | ⟨two,_⟩)
  · obtain ⟨edit,given,rfl⟩ := List.mem_map.mp asked
    exact Nat.not_lt.mpr (applicable.fits edit given).inside far
  · obtain ⟨edit,given,rfl⟩ := List.mem_map.mp asked
    have fits := applicable.fits edit given
    rcases atEnd with rfl | rfl
    · exact Bool.noConfusion (within.symm.trans fits.atStart)
    · exact Bool.noConfusion (within.symm.trans fits.atStop)
  · exact Request.not_overlap_of_two applicable.not_overlap two overlap
  · cases asked
  · exact absurd two.length_le (by simp [Request.ofEdits])

theorem normalize_truthful (ordered : ∀ edit ∈ edits, Ordered edit) :
    (Request.ofEdits text edits).Truthful (normalize text edits) := by
  cases done : normalize text edits with
  | error error => exact defect_of_normalize ordered done
  | ok normal => exact ((normalize_eq_ok_iff text edits normal ordered).mp done).1.flawless

theorem apply_truthful (ordered : ∀ edit ∈ edits, Ordered edit) :
    (Request.ofEdits text edits).Truthful (apply text edits) := by
  have normalized : (Request.ofEdits text edits).Truthful (normalize text edits) := normalize_truthful ordered
  cases done : normalize text edits with
  | error error =>
    rw [done] at normalized
    rw [apply,done]
    exact normalized
  | ok normal =>
    rw [done] at normalized
    rw [apply,done]
    exact normalized

end Edit

namespace Marker

variable {text : Text} {spans : List Span} {markers : List Marker} {error : EditError}

theorem exists_of_checkApart_eq_error (failed : checkApart spans = .error error) : ∃ first second,
    [first,second].Sublist spans ∧ second.start < first.stop ∧ error = .overlappingMarkers first second := by
  induction spans with
  | nil => cases failed
  | cons first rest ih =>
    cases rest with
    | nil => cases failed
    | cons second rest =>
      simp only [checkApart] at failed
      split at failed
      · rename_i cross
        exact ⟨first,second,by simp,cross,(Except.error.inj failed).symm⟩
      · obtain ⟨early,late,both,cross,said⟩ := ih failed
        exact ⟨early,late,both.cons _,cross,said⟩

theorem ascending_of_checkApart (ordered : ∀ span ∈ spans, span.start ≤ span.stop)
    (passed : checkApart spans = .ok ()) : spans.Pairwise fun first second => first.stop ≤ second.start := by
  induction spans with
  | nil => exact .nil
  | cons first rest ih =>
    cases rest with
    | nil => exact List.pairwise_singleton _ _
    | cons second rest =>
      simp only [checkApart] at passed
      split at passed
      · cases passed
      rename_i near
      have behind := ih (fun span member => ordered span (by simp [member])) passed
      refine List.pairwise_cons.mpr ⟨fun later member => ?_,behind⟩
      rcases List.mem_cons.mp member with rfl | further
      · exact Nat.not_lt.mp near
      · have length := ordered second (by simp)
        have far := (List.pairwise_cons.mp behind).1 later further
        omega

/-- The spans of the markers in span order are those of the markers, in span order. -/
theorem sorted_spans (markers : List Marker) :
    ((markers.map (·.span)).mergeSort Span.atMost).Perm (markers.map (·.span)) ∧
      ((markers.map (·.span)).mergeSort Span.atMost).Pairwise fun first second => first.atMost second = true :=
  ⟨List.mergeSort_perm _ _,List.pairwise_mergeSort Span.atMost_trans
    (fun first second => by simpa using Span.atMost_total first second) _⟩

theorem defect_of_check (ordered : ∀ marker ∈ markers, marker.span.start ≤ marker.span.stop)
    (failed : check text markers = .error error) : (Request.ofMarkers text markers).Defect error := by
  obtain ⟨given,inOrder⟩ := sorted_spans markers
  rcases Edit.bind_eq_error_iff.mp failed with bounds | ⟨_,_,failed⟩
  · obtain ⟨span,member,faulty⟩ := Edit.exists_of_forM_eq_error bounds
    unfold checkBounds at faulty
    split at faulty
    · rename_i far
      cases faulty
      exact .beyond (List.mem_append_left _ (given.subset member)) far
    · cases faulty
  rcases Edit.bind_eq_error_iff.mp failed with apart | ⟨_,_,failed⟩
  · obtain ⟨first,second,both,cross,rfl⟩ := exists_of_checkApart_eq_error apart
    refine .markers (both.subperm.trans given.subperm) (Request.overlap_of_sublist inOrder ?_ both cross)
    intro span member
    obtain ⟨marker,known,rfl⟩ := List.mem_map.mp (given.subset member)
    exact ordered marker known
  · obtain ⟨marker,known,wrong⟩ := Edit.exists_of_forM_eq_error failed
    obtain ⟨edit,own,faulty⟩ := Edit.exists_of_forM_eq_error wrong
    unfold checkInside at faulty
    split at faulty
    · cases faulty
    · rename_i beside
      cases faulty
      exact .outside known own (by simpa using beside)

theorem not_overlap_of_check (ordered : ∀ marker ∈ markers, marker.span.start ≤ marker.span.stop)
    (passed : check text markers = .ok ()) :
    (markers.map (·.span)).Pairwise fun first second => ¬first.Overlap second := by
  obtain ⟨given,_⟩ := sorted_spans markers
  have inOrder : ∀ span ∈ (markers.map (·.span)).mergeSort Span.atMost, span.start ≤ span.stop := by
    intro span member
    obtain ⟨marker,known,rfl⟩ := List.mem_map.mp (given.subset member)
    exact ordered marker known
  refine ((ascending_of_checkApart inOrder (checks_of_check passed).2.1).imp ?_).perm given
    fun apart overlap => apart overlap.symm
  intro first second near overlap
  unfold Span.Overlap at overlap
  omega

end Marker

namespace Snapshot

open Request

variable {snapshot : Snapshot} {markers : List Marker} {error : EditError}

/-- The edits of markers ask for nothing but what the markers with their edits ask for. -/
theorem defect_of_edits {text : Text} (found : (ofEdits text (markers.flatMap (·.edits))).Defect error) :
    (ofMarkers text markers).Defect error := by
  rcases found with ⟨asked,far⟩ | ⟨asked,atEnd,within⟩ | ⟨two,overlap⟩ | ⟨asked,_,_⟩ | ⟨two,_⟩
  · exact .beyond (List.mem_append_right _ asked) far
  · exact .split asked atEnd within
  · exact .edits two overlap
  · cases asked
  · exact absurd two.length_le (by simp [ofEdits])

theorem perform_truthful (lasting : ∀ marker ∈ markers, marker.span.start ≤ marker.span.stop)
    (ordered : ∀ marker ∈ markers, ∀ edit ∈ marker.edits, edit.Ordered) :
    (ofMarkers snapshot.text markers).Truthful (snapshot.perform markers) := by
  have inOrder : ∀ edit ∈ markers.flatMap (·.edits), edit.Ordered := by
    simpa only [List.forall_mem_flatMap] using ordered
  have applied : (ofEdits snapshot.text _).Truthful (Edit.apply snapshot.text _) := Edit.apply_truthful inOrder
  unfold perform
  cases checked : Marker.check snapshot.text markers with
  | error error => exact Marker.defect_of_check lasting checked
  | ok =>
    cases made : Edit.apply snapshot.text (markers.flatMap (·.edits)) with
    | error error =>
      rw [made] at applied
      exact defect_of_edits applied
    | ok text =>
      rw [made] at applied
      obtain ⟨inside,own⟩ := Marker.inside_of_check checked
      rintro error (⟨asked,far⟩ | ⟨asked,atEnd,within⟩ | ⟨two,overlap⟩ | ⟨asked,mine,beside⟩ | ⟨two,overlap⟩)
      · rcases List.mem_append.mp asked with marked | edited
        · obtain ⟨marker,known,rfl⟩ := List.mem_map.mp marked
          exact Nat.not_lt.mpr (inside marker known) far
        · exact applied _ (.beyond edited far)
      · exact applied _ (.split asked atEnd within)
      · exact applied _ (.edits two overlap)
      · exact Bool.noConfusion (beside.symm.trans (own _ asked _ mine))
      · exact not_overlap_of_two (Marker.not_overlap_of_check lasting checked) two overlap

variable {span : Span}

theorem defect_of_slice (order : span.start ≤ span.stop) (failed : snapshot.slice span = .error error) :
    (∃ other, Alike other error ∧ (ofSpan snapshot.text span).Defect other) ∧
      (snapshot.text.isBoundary span.start = false → (ofSpan snapshot.text span).Defect error) := by
  have asked : span ∈ [span] := List.mem_singleton_self span
  unfold slice at failed
  split at failed
  · rename_i far
    cases failed
    have defect : (ofSpan snapshot.text span).Defect (.outOfBounds span snapshot.text.size) := .beyond asked far
    exact ⟨⟨.outOfBounds span snapshot.text.size,rfl,defect⟩,fun _ => defect⟩
  · cases cut : snapshot.text.slice? span with
    | some part =>
      rw [cut] at failed
      cases failed
    | none =>
      rw [cut] at failed
      cases failed
      refine ⟨?_,fun within => .split asked (.inl rfl) within⟩
      rcases (Text.slice?_eq_none_iff _ _ order).mp cut with within | within
      · exact ⟨.notBoundary span.start,trivial,.split asked (.inl rfl) within⟩
      · exact ⟨.notBoundary span.stop,trivial,.split asked (.inr rfl) within⟩

theorem flawless_of_slice {part : Text} (order : span.start ≤ span.stop) (done : snapshot.slice span = .ok part) :
    ∀ error, ¬(ofSpan snapshot.text span).Defect error := by
  unfold slice at done
  split at done
  · cases done
  rename_i inside
  cases cut : snapshot.text.slice? span with
  | none =>
    rw [cut] at done
    cases done
  | some _ =>
    have bounded : ¬(snapshot.text.isBoundary span.start = false ∨ snapshot.text.isBoundary span.stop = false) := by
      rw [← Text.slice?_eq_none_iff _ _ order,cut]
      exact Option.some_ne_none _
    rintro error (⟨asked,far⟩ | ⟨asked,rfl | rfl,within⟩ | ⟨two,_⟩ | ⟨asked,_,_⟩ | ⟨two,_⟩)
    · rw [List.mem_singleton.mp asked] at far
      exact inside far
    · rw [List.mem_singleton.mp asked] at within
      exact bounded (.inl within)
    · rw [List.mem_singleton.mp asked] at within
      exact bounded (.inr within)
    · exact absurd two.length_le (by simp [ofSpan])
    · cases asked
    · exact absurd two.length_le (by simp [ofSpan])

/-- Edits are normalized, applied and performed, and spans are sliced, exactly when nothing is wrong with
the request, and else the error tells what is. Only where a slice splits no character but the one at its
end, the error may tell of another offset. -/
theorem errors_truthful (snapshot : Snapshot) (span : Span) (edits : List Edit) (markers : List Marker)
    (order : span.start ≤ span.stop) (ordered : ∀ edit ∈ edits, edit.Ordered)
    (lasting : ∀ marker ∈ markers, marker.span.start ≤ marker.span.stop)
    (inOrder : ∀ marker ∈ markers, ∀ edit ∈ marker.edits, edit.Ordered) :
    (ofEdits snapshot.text edits).Truthful (Edit.normalize snapshot.text edits) ∧
    (ofEdits snapshot.text edits).Truthful (Edit.apply snapshot.text edits) ∧
    (ofMarkers snapshot.text markers).Truthful (snapshot.perform markers) ∧
    (∀ error, snapshot.slice span = .error error →
      (∃ other, Alike other error ∧ (ofSpan snapshot.text span).Defect other) ∧
        (snapshot.text.isBoundary span.start = false → (ofSpan snapshot.text span).Defect error)) ∧
    ∀ part, snapshot.slice span = .ok part → ∀ error, ¬(ofSpan snapshot.text span).Defect error :=
  ⟨Edit.normalize_truthful ordered,Edit.apply_truthful ordered,perform_truthful lasting inOrder,
    fun _ => defect_of_slice order,fun _ => flawless_of_slice order⟩

/-- An insert inside of what is deleted, and a marker that begins inside of another one. -/
def crossing : List Marker := [⟨⟨0,3⟩,[.delete ⟨0,3⟩,.insert 2 ['x']]⟩,⟨⟨2,4⟩,[]⟩]

theorem errors_truthful_crossing :
    let edits := crossing.flatMap (·.edits)
    (Edit.apply ['é','b','c'] edits = .error (.overlappingEdits ⟨0,3⟩ ⟨2,2⟩) ∧
      (ofEdits ['é','b','c'] edits).Defect (.overlappingEdits ⟨0,3⟩ ⟨2,2⟩)) ∧
    (perform ⟨['é','b','c'],.lf⟩ crossing = .error (.overlappingMarkers ⟨0,3⟩ ⟨2,4⟩) ∧
      (ofMarkers ['é','b','c'] crossing).Defect (.overlappingMarkers ⟨0,3⟩ ⟨2,4⟩)) ∧
    slice ⟨['é','b','c'],.lf⟩ ⟨1,3⟩ = .error (.notBoundary 1) ∧
      (ofSpan ['é','b','c'] ⟨1,3⟩).Defect (.notBoundary 1) := by
  intro edits
  obtain ⟨_,applied,performed,sliced,_⟩ := errors_truthful ⟨['é','b','c'],.lf⟩ ⟨1,3⟩ edits crossing
    (by decide) (by decide) (by decide) (by decide)
  have refused : Edit.apply ['é','b','c'] edits = .error (.overlappingEdits ⟨0,3⟩ ⟨2,2⟩) := by
    rw [Edit.apply,Edit.normalize,Edit.sorted,List.mergeSort_of_pairwise (by decide)]
    rfl
  have unmade : perform ⟨['é','b','c'],.lf⟩ crossing = .error (.overlappingMarkers ⟨0,3⟩ ⟨2,4⟩) := by
    rw [perform,Marker.check,List.mergeSort_of_pairwise (by decide)]
    rfl
  have uncut : slice ⟨['é','b','c'],.lf⟩ ⟨1,3⟩ = .error (.notBoundary 1) := by decide
  rw [refused] at applied
  rw [unmade] at performed
  exact ⟨⟨refused,applied⟩,⟨unmade,performed⟩,uncut,(sliced _ uncut).2 (by decide)⟩

/-- A span of half a character is refused for its start, which splits nothing, and a marker around it is
performed, also when its ends are asked not to split a character. -/
theorem errors_untruthful :
    ¬(ofSpan ['é'] ⟨0,1⟩).Truthful (slice ⟨['é'],.lf⟩ ⟨0,1⟩) ∧
    ¬{ofMarkers ['é'] [⟨⟨0,1⟩,[]⟩] with cut := [⟨0,1⟩]}.Truthful (perform ⟨['é'],.lf⟩ [⟨⟨0,1⟩,[]⟩]) := by
  constructor
  · intro truthful
    have refused : slice ⟨['é'],.lf⟩ ⟨0,1⟩ = .error (.notBoundary 0) := by decide
    rw [refused] at truthful
    cases truthful with
    | split _ _ within => exact absurd within (by decide)
  · intro truthful
    have lined : Marker.Lined ['é'] [⟨⟨0,1⟩,[]⟩] :=
      ⟨by decide,by decide,by decide,by decide,by decide,⟨by decide,by decide⟩⟩
    rw [perform_eq_ok ⟨['é'],.lf⟩ [⟨⟨0,1⟩,[]⟩] lined] at truthful
    have asked : (⟨0,1⟩ : Span) ∈ [(⟨0,1⟩ : Span)] := List.mem_singleton_self _
    exact truthful (.notBoundary 1) (.split asked (.inr rfl) (by decide))

end Snapshot
end Transplant
