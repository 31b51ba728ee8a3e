import Transplant.Edit.Marker
import Transplant.Proofs.Edit.Stretch

/-! Markers followed through the edits. Each marker ends up around its own stretch of the text
with its own edits made, however much the stretches before it grow or shrink. -/
namespace Transplant

theorem Snapshot.slice_append (left middle right : Text) (lineBreak : LineBreak) :
    Snapshot.slice ⟨left ++ (middle ++ right),lineBreak⟩ ⟨left.size,left.size + middle.size⟩ =
      .ok middle := by
  have inside : left.size + middle.size ≤ (left ++ (middle ++ right)).size := by
    rw [Text.size_append,Text.size_append]
    omega
  simp only [Snapshot.slice,Text.slice?_append,if_neg (Nat.not_lt.mpr inside)]

namespace Marker

/-- Markers in the order of the text, each with edits inside it, that can all be made. -/
structure Lined (text : Text) (markers : List Marker) : Prop where
  order : ∀ marker ∈ markers, marker.span.start ≤ marker.span.stop
  inside : ∀ marker ∈ markers, marker.span.stop ≤ text.size
  ascending : markers.Pairwise fun first second =>
    first.span.stop ≤ second.span.start ∧ first.span.start < second.span.start
  own : ∀ marker ∈ markers, ∀ edit ∈ marker.edits, marker.span.contains edit.span = true
  ordered : ∀ edit ∈ markers.flatMap (·.edits), edit.Ordered
  applicable : Edit.Applicable text (markers.flatMap (·.edits))

/-- Such markers that moreover split no character. -/
structure Laid (text : Text) (markers : List Marker) : Prop extends Lined text markers where
  atStart : ∀ marker ∈ markers, text.isBoundary marker.span.start = true
  atStop : ∀ marker ∈ markers, text.isBoundary marker.span.stop = true

/-- A marker's stretch of the text with the marker's edits made. -/
def rewritten (text : Text) (marker : Marker) : Text :=
  Edit.rewriteTo text marker.span.start marker.span.stop (Edit.sorted marker.edits)

/-- The whole text with the edits of all markers made. -/
def rewriteAll (text : Text) (markers : List Marker) : Text :=
  Edit.rewriteTo text 0 text.size (Edit.sorted (markers.flatMap (·.edits)))

variable {text : Text} {markers : List Marker}

theorem checkApart_eq_ok (spans : List Span)
    (ascending : spans.Pairwise fun first second => first.stop ≤ second.start) :
    checkApart spans = .ok () := by
  induction spans with
  | nil => rfl
  | cons first rest ih =>
    cases rest with
    | nil => rfl
    | cons second rest =>
      have next := (List.pairwise_cons.mp ascending).1 second (by simp)
      simp only [checkApart,if_neg (Nat.not_lt.mpr next)]
      exact ih ascending.tail

theorem Lined.check_eq_ok (lined : Lined text markers) : check text markers = .ok () := by
  have sorted : (markers.map (·.span)).Pairwise fun first second => first.atMost second = true := by
    rw [List.pairwise_map]
    exact lined.ascending.imp fun both => (Span.atMost_iff _ _).mpr (.inl both.2)
  have apart : (markers.map (·.span)).Pairwise fun first second => first.stop ≤ second.start := by
    rw [List.pairwise_map]
    exact lined.ascending.imp fun both => both.1
  have bounds : (markers.map (·.span)).forM (checkBounds text.size) = .ok () := by
    rw [Edit.forM_eq_ok_iff]
    intro span member
    obtain ⟨marker,inside,rfl⟩ := List.mem_map.mp member
    simp [checkBounds,Nat.not_lt.mpr (lined.inside marker inside)]
  have inside : markers.forM (fun marker => marker.edits.forM marker.checkInside) = .ok () := by
    simp only [Edit.forM_eq_ok_iff]
    intro marker member edit own
    simp [checkInside,lined.own marker member edit own]
  simp only [check,List.mergeSort_of_pairwise sorted,bounds,checkApart_eq_ok _ apart,inside,bind,Except.bind]

theorem growth_eq_sum (edits : List Edit) : growth edits = (edits.map Edit.delta).sum := by
  simp [growth,List.sum,List.foldr_map]

theorem sum_sorted (edits : List Edit) :
    ((Edit.sorted edits).map Edit.delta).sum = growth edits := by
  rw [growth_eq_sum]
  exact ((List.mergeSort_perm edits _).map Edit.delta).sum_eq

/-- Around one marker: the edits of the markers before it, its own, and those behind it. -/
structure Split (text : Text) (front back : List Marker) (marker : Marker) : Prop where
  before : Edit.Within text 0 marker.span.start (Edit.sorted (front.flatMap (·.edits)))
  own : Edit.Within text marker.span.start marker.span.stop (Edit.sorted marker.edits)
  behind : Edit.Within text marker.span.stop text.size (Edit.sorted (back.flatMap (·.edits)))
  apart : ∀ edit ∈ back.flatMap (·.edits), marker.span.start < edit.span.stop

variable {front back : List Marker} {marker : Marker}

theorem Lined.split (lined : Lined text (front ++ marker :: back)) : Split text front back marker := by
  have ⟨_,rest,cross⟩ := List.pairwise_append.mp lined.ascending
  have later := (List.pairwise_cons.mp rest).1
  have part (edits : List Edit)
      (sub : edits.Sublist ((front ++ marker :: back).flatMap (·.edits))) :
      Edit.Applicable text edits ∧ ∀ edit ∈ edits, edit.Ordered :=
    ⟨⟨fun edit member => lined.applicable.fits edit (sub.subset member),
      lined.applicable.apart.sublist sub⟩,fun edit member => lined.ordered edit (sub.subset member)⟩
  simp only [List.flatMap_append,List.flatMap_cons] at part
  obtain ⟨frontFits,frontOrdered⟩ := part _ (List.sublist_append_left _ _)
  obtain ⟨ownFits,ownOrdered⟩ :=
    part _ ((List.sublist_append_left _ _).trans (List.sublist_append_right _ _))
  obtain ⟨backFits,backOrdered⟩ :=
    part _ ((List.sublist_append_right _ _).trans (List.sublist_append_right _ _))
  have far (edit : Edit) (member : edit ∈ back.flatMap (·.edits)) :
      marker.span.stop ≤ edit.span.start ∧ marker.span.start < edit.span.start := by
    obtain ⟨other,inBack,own⟩ := List.mem_flatMap.mp member
    have inside := (Span.contains_iff _ _).mp (lined.own other (by simp [inBack]) edit own)
    have apart := later other inBack
    omega
  refine ⟨Edit.within_sorted frontFits frontOrdered ?_,Edit.within_sorted ownFits ownOrdered ?_,
    Edit.within_sorted backFits backOrdered ?_,?_⟩
  · intro edit member
    obtain ⟨other,inFront,own⟩ := List.mem_flatMap.mp member
    have inside := (Span.contains_iff _ _).mp (lined.own other (by simp [inFront]) edit own)
    have apart := cross other inFront marker (by simp)
    omega
  · exact fun edit own => (Span.contains_iff _ _).mp (lined.own marker (by simp) edit own)
  · exact fun edit member => ⟨(far edit member).1,(backFits.fits edit member).inside⟩
  · intro edit member
    have length := backOrdered edit member
    have apart := far edit member
    unfold Edit.Ordered at length
    omega

/-- Only the edits of the markers before it move a marker. -/
theorem Split.earlier (split : Split text front back marker) :
    ((front ++ back).flatMap (·.edits)).filter (fun edit => edit.span.stop ≤ marker.span.start) =
      front.flatMap (·.edits) := by
  have kept : (front.flatMap (·.edits)).filter (fun edit => edit.span.stop ≤ marker.span.start) =
      front.flatMap (·.edits) := by
    rw [List.filter_eq_self]
    intro edit member
    simpa using split.before.before edit ((Edit.mem_sorted _ _).mpr member)
  have dropped : (back.flatMap (·.edits)).filter (fun edit => edit.span.stop ≤ marker.span.start) =
      [] := by
    rw [List.filter_eq_nil_iff]
    intro edit member
    simpa using split.apart edit member
  rw [List.flatMap_append,List.filter_append,kept,dropped,List.append_nil]

theorem Lined.sorted_eq (lined : Lined text (front ++ marker :: back)) :
    Edit.sorted ((front ++ marker :: back).flatMap (·.edits)) =
      Edit.sorted (front.flatMap (·.edits)) ++ (Edit.sorted marker.edits ++
        Edit.sorted (back.flatMap (·.edits))) := by
  have split := lined.split
  have order := lined.order marker (by simp)
  have second := Edit.sorted_append_within split.own split.behind
  have rest := split.own.append order (lined.inside marker (by simp)) split.behind
  rw [← second] at rest ⊢
  rw [List.flatMap_append,List.flatMap_cons,Edit.sorted_append_within split.before rest]

/-- The rewritten text around one marker: what stands before it, its own stretch, and the rest. -/
theorem Lined.rewriteAll_eq (lined : Lined text (front ++ marker :: back))
    (atStart : text.isBoundary marker.span.start = true)
    (atStop : text.isBoundary marker.span.stop = true) :
    rewriteAll text (front ++ marker :: back) =
      Edit.rewriteTo text 0 marker.span.start (Edit.sorted (front.flatMap (·.edits))) ++
        (marker.rewritten text ++
          Edit.rewriteTo text marker.span.stop text.size (Edit.sorted (back.flatMap (·.edits)))) := by
  have split := lined.split
  have order := lined.order marker (by simp)
  have inside := text.le_size_of_isBoundary _ atStop
  have rest := split.own.append order inside split.behind
  rw [rewriteAll,lined.sorted_eq,Edit.rewriteTo_append (Nat.le_trans order inside) (Nat.zero_le _)
    text.isBoundary_zero atStart text.isBoundary_full split.before rest,
    Edit.rewriteTo_append inside order atStart atStop text.isBoundary_full split.own split.behind]
  rfl

/-- A marker is moved to where its rewritten stretch stands. -/
theorem Lined.moved_eq (lined : Lined text (front ++ marker :: back))
    (atStart : text.isBoundary marker.span.start = true)
    (atStop : text.isBoundary marker.span.stop = true) :
    marker.moved (front ++ back) =
      let start := (Edit.rewriteTo text 0 marker.span.start (Edit.sorted (front.flatMap (·.edits)))).size
      ⟨start,start + (marker.rewritten text).size⟩ := by
  have split := lined.split
  have order := lined.order marker (by simp)
  have frontSize := Edit.size_rewriteTo (Nat.zero_le _) text.isBoundary_zero atStart split.before
  have ownSize := Edit.size_rewriteTo order atStart atStop split.own
  rw [sum_sorted] at frontSize ownSize
  simp only [moved,split.earlier,rewritten,Span.length,Span.mk.injEq]
  omega

/-- A marker that splits no character is moved around its rewritten stretch. -/
theorem Lined.slice_moved (lined : Lined text (front ++ marker :: back)) (lineBreak : LineBreak)
    (atStart : text.isBoundary marker.span.start = true)
    (atStop : text.isBoundary marker.span.stop = true) :
    Snapshot.slice ⟨rewriteAll text (front ++ marker :: back),lineBreak⟩ (marker.moved (front ++ back)) =
      .ok (marker.rewritten text) := by
  rw [lined.rewriteAll_eq atStart atStop,lined.moved_eq atStart atStop]
  exact Snapshot.slice_append _ _ _ _

end Marker

theorem Snapshot.perform_eq_ok (snapshot : Snapshot) (markers : List Marker)
    (lined : Marker.Lined snapshot.text markers) : snapshot.perform markers =
      .ok ⟨⟨Marker.rewriteAll snapshot.text markers,snapshot.lineBreak⟩,
        markers.mapIdx fun i marker => marker.moved (markers.eraseIdx i)⟩ := by
  have applied := (Edit.apply_eq_ok_iff snapshot.text _ _ lined.ordered).mpr ⟨lined.applicable,rfl⟩
  rw [Edit.rewriteFrom_eq_rewriteTo 0 _ (Text.isBoundary_zero _) (by
    simpa only [Edit.mem_sorted] using lined.applicable.fits)] at applied
  simp only [perform,lined.check_eq_ok,applied,Marker.rewriteAll,bind,Except.bind,pure,Except.pure]

/-- Around its `i`th element a list falls into what stands before it and what stands behind it. -/
theorem parted_at {α : Type} (list : List α) (i : Nat) (inside : i < list.length) :
    list = list.take i ++ list[i] :: list.drop (i + 1) ∧
      list.eraseIdx i = list.take i ++ list.drop (i + 1) :=
  ⟨by simp,List.eraseIdx_eq_take_drop_succ list i⟩

/-- Performing laid-out markers succeeds, keeps the line break, and gives for each marker, in their
order, the span of its rewritten stretch. -/
theorem Snapshot.perform_slices (snapshot : Snapshot) (markers : List Marker)
    (laid : Marker.Laid snapshot.text markers) :
    ∃ outcome, snapshot.perform markers = .ok outcome ∧
      outcome.snapshot.lineBreak = snapshot.lineBreak ∧
      List.Forall₂ (fun span marker =>
        outcome.snapshot.slice span = .ok (marker.rewritten snapshot.text)) outcome.spans markers := by
  refine ⟨_,snapshot.perform_eq_ok markers laid.toLined,rfl,?_⟩
  rw [List.forall₂_iff_get]
  refine ⟨by simp,?_⟩
  intro i _ inside
  obtain ⟨parted,others⟩ := parted_at markers i inside
  have around := laid.toLined
  have member := List.getElem_mem inside
  rw [parted] at around
  have sliced := around.slice_moved snapshot.lineBreak (laid.atStart _ member) (laid.atStop _ member)
  rw [← parted,← others] at sliced
  simpa only [List.get_eq_getElem,List.getElem_mapIdx] using sliced

end Transplant
