import Transplant.Donor.Blocks
import Transplant.Proofs.Edit.Marker
import Transplant.Proofs.Edit.Pass

/-! From recorded edits and the spans that are kept to blocks of lines. An edit is handed to one
span by where it starts; as long as none lies across the end of a span or at the end of the first
of two, each span gets exactly the edits inside it, and its block is one pass over it. -/
namespace Transplant

/-- The lines of a part of a text, less the indentation shared by all but the first. -/
def Block.ofPart (layout : Layout) (lineBreak : LineBreak) (part : Text) : Text :=
  Text.join lineBreak.text (Text.trimIndentation layout false part.lines)

namespace RewriteLog

/-- At most two spans of the text are kept, one before the other, and the edits keep clear of their
ends: each lies inside of a span or outside, and none at the end of the first of two. -/
structure Kept (text : Text) (edits : List Edit) (spans : List Span) : Prop where
  few : spans.length ≤ 2
  order : ∀ span ∈ spans, span.start ≤ span.stop
  atStart : ∀ span ∈ spans, text.isBoundary span.start = true
  atStop : ∀ span ∈ spans, text.isBoundary span.stop = true
  ascending : spans.Pairwise fun first second =>
    first.stop ≤ second.start ∧ first.start < second.start ∧
      ∀ edit ∈ edits, first.contains edit.span = true → edit.span.start < first.stop
  clear : ∀ span ∈ spans, ∀ edit ∈ edits, span.contains edit.span = true ∨
    edit.span.stop ≤ span.start ∨ span.stop ≤ edit.span.start

def markerOf (edits : List Edit) (span : Span) : Marker :=
  ⟨span,edits.filter fun edit => span.contains edit.span⟩

variable {text : Text} {log : RewriteLog} {spans : List Span}

/-- Every edit inside a span goes to this span. -/
theorem Kept.markers_eq (kept : Kept text (log.map Rewrite.edit) spans) :
    markers log spans = spans.map (markerOf (log.map Rewrite.edit)) := by
  match spans,kept with
  | [],_ => rfl
  | [only],_ => simp [markers,markerOf,route]
  | [first,second],kept =>
    obtain ⟨apart,_,early⟩ := (List.pairwise_cons.mp kept.ascending).1 second (by simp)
    have toFirst : ∀ edit ∈ log.map Rewrite.edit,
        (route [first,second] edit == 0 && first.contains edit.span) = first.contains edit.span := by
      intro edit member
      cases inside : first.contains edit.span with
      | false => simp
      | true => simp [route,Nat.not_le.mpr (early edit member inside)]
    have toSecond : ∀ edit ∈ log.map Rewrite.edit,
        (route [first,second] edit == 1 && second.contains edit.span) =
          second.contains edit.span := by
      intro edit _
      cases inside : second.contains edit.span with
      | false => simp
      | true =>
        have low := ((Span.contains_iff _ _).mp inside).1
        simp [route,Nat.le_trans apart low]
    simp only [markers,List.mapIdx_cons,List.mapIdx_nil,List.map_cons,List.map_nil,markerOf,
      Nat.zero_add]
    rw [List.filter_congr toFirst,List.filter_congr toSecond]
  | _ :: _ :: _ :: _,kept =>
    have few := kept.few
    simp only [List.length_cons] at few
    omega

theorem Kept.laid {edits : List Edit} (kept : Kept text edits spans)
    (applicable : Edit.Applicable text edits) (ordered : ∀ edit ∈ edits, edit.Ordered) :
    Marker.Laid text (spans.map (markerOf edits)) where
  order := by simpa [markerOf] using kept.order
  inside := by
    simpa [markerOf] using fun span member => text.le_size_of_isBoundary _ (kept.atStop span member)
  atStart := by simpa [markerOf] using kept.atStart
  atStop := by simpa [markerOf] using kept.atStop
  ascending := by
    rw [List.pairwise_map]
    exact kept.ascending.imp fun ⟨apart,early,_⟩ => ⟨apart,early⟩
  own := by
    intro marker member edit own
    obtain ⟨span,_,rfl⟩ := List.mem_map.mp member
    exact (List.mem_filter.mp own).2
  ordered := by
    intro edit member
    obtain ⟨marker,inMarkers,own⟩ := List.mem_flatMap.mp member
    obtain ⟨span,_,rfl⟩ := List.mem_map.mp inMarkers
    exact ordered edit (List.mem_filter.mp own).1
  applicable := by
    refine ⟨?_,?_⟩
    · intro edit member
      obtain ⟨marker,inMarkers,own⟩ := List.mem_flatMap.mp member
      obtain ⟨span,_,rfl⟩ := List.mem_map.mp inMarkers
      exact applicable.fits edit (List.mem_filter.mp own).1
    · rw [List.pairwise_flatMap]
      refine ⟨?_,?_⟩
      · intro marker member
        obtain ⟨span,_,rfl⟩ := List.mem_map.mp member
        exact applicable.apart.sublist List.filter_sublist
      · rw [List.pairwise_map]
        apply kept.ascending.imp
        intro first second ⟨apart,_⟩ early inFirst late inSecond
        have left := (Span.contains_iff _ _).mp (List.mem_filter.mp inFirst).2
        have right := (Span.contains_iff _ _).mp (List.mem_filter.mp inSecond).2
        exact .inl (by omega)

theorem Kept.rewritten_eq {edits : List Edit} (kept : Kept text edits spans)
    (applicable : Edit.Applicable text edits) (ordered : ∀ edit ∈ edits, edit.Ordered)
    (span : Span) (member : span ∈ spans) :
    (markerOf edits span).rewritten text =
      Edit.pass edits span.start span.start (text.between span.start span.stop) :=
  (Edit.pass_eq_sorted edits span (kept.order span member) (kept.atStart span member)
    (kept.atStop span member) applicable ordered (kept.clear span member)).symm

end RewriteLog

theorem mapM_eq_ok_of_forall₂ {α β ε : Type} (f : α → Except ε β) (items : List α) (results : List β)
    (related : List.Forall₂ (fun item result => f item = .ok result) items results) :
    items.mapM f = .ok results := by
  induction related with
  | nil => rfl
  | cons first _ ih => simp [List.mapM_cons,first,ih,bind,Except.bind,pure,Except.pure]

/-- Each kept span becomes the block of its part of the text after one pass with all edits. -/
theorem Snapshot.extract_kept (snapshot : Snapshot) (log : RewriteLog) (spans : List Span)
    (layout : Layout) (kept : RewriteLog.Kept snapshot.text (log.map Rewrite.edit) spans)
    (applicable : Edit.Applicable snapshot.text (log.map Rewrite.edit))
    (ordered : ∀ edit ∈ log.map Rewrite.edit, edit.Ordered) :
    (do
      let outcome ← snapshot.perform (RewriteLog.markers log spans)
      Block.extractAll layout outcome.snapshot outcome.spans) =
    .ok (spans.map fun span => Block.ofPart layout snapshot.lineBreak
      (Edit.pass (log.map Rewrite.edit) span.start span.start
        (snapshot.text.between span.start span.stop))) := by
  obtain ⟨outcome,done,lineBreak,slices⟩ := snapshot.perform_slices
    (spans.map (RewriteLog.markerOf (log.map Rewrite.edit))) (kept.laid applicable ordered)
  rw [kept.markers_eq,done]
  apply mapM_eq_ok_of_forall₂
  rw [List.forall₂_map_right_iff,List.forall₂_iff_get] at slices ⊢
  refine ⟨slices.1,?_⟩
  intro i left right
  have sliced := slices.2 i left right
  rw [kept.rewritten_eq applicable ordered _ (List.get_mem spans ⟨i,right⟩)] at sliced
  simp only [Block.extract,sliced,lineBreak,Block.ofPart,bind,Except.bind,pure,Except.pure]

end Transplant
