import Transplant.Edit.Log
import Transplant.Proofs.Edit.Defects

/-! Recorded commands handed to the spans that are kept. The spans ascend, so a command that begins
before the end of one of them lies in no other, and where it begins tells which marker takes it. -/
namespace Transplant

/-- A command belongs to a span that it replaces a part of, or inserts into before its end. -/
def Rewrite.BelongsTo (span : Span) : Rewrite → Prop
  | .replace own _ => own.start < own.stop ∧ span.contains own = true
  | .insert offset _ => span.start ≤ offset ∧ offset < span.stop

instance (span : Span) (command : Rewrite) : Decidable (command.BelongsTo span) := by
  cases command <;> unfold Rewrite.BelongsTo <;> infer_instance

theorem Rewrite.BelongsTo.contains {span : Span} {command : Rewrite} (belongs : command.BelongsTo span) :
    span.contains command.edit.span = true ∧ command.edit.span.start < span.stop := by
  cases command with
  | replace own text =>
    have inside := (Span.contains_iff _ _).mp belongs.2
    exact ⟨belongs.2,Nat.lt_of_lt_of_le belongs.1 inside.2⟩
  | insert offset text => exact ⟨(Span.contains_iff _ _).mpr ⟨belongs.1,Nat.le_of_lt belongs.2⟩,belongs.2⟩

namespace RewriteLog

/-- The edits of those commands that `goal` sends to place `i`, in the order they were recorded.
Commands are told apart by their positions in the log. -/
def sentTo (log : RewriteLog) (goal : Nat → Option Nat) (i : Nat) : List Edit :=
  (log.zipIdx.filter fun entry => goal entry.2 == some i).map (·.1.edit)

/-- Markers that take the commands of a log: one for each span, with the edits sent to it. Every command
is sent to one marker at most, and one that belongs to a span to the marker of this span. -/
structure Distributed (log : RewriteLog) (spans : List Span) (markers : List Marker) : Prop where
  onePerSpan : markers.map (·.span) = spans
  sent : ∃ goal : Nat → Option Nat,
    (∀ i marker, markers[i]? = some marker → marker.edits = log.sentTo goal i) ∧
    ∀ k command i span, log[k]? = some command → spans[i]? = some span → command.BelongsTo span →
      goal k = some i
  inside : ∀ marker ∈ markers, ∀ edit ∈ marker.edits, marker.span.contains edit.span = true

variable {log : RewriteLog} {spans : List Span}

/-- The marker that takes an edit, if the edit lies in its span. -/
def goal? (spans : List Span) (edit : Edit) : Option Nat :=
  spans[route spans edit]?.bind fun span => if span.contains edit.span then some (route spans edit) else none

theorem goal?_eq_some_iff (edit : Edit) (i : Nat) (span : Span) (here : spans[i]? = some span) :
    goal? spans edit = some i ↔ route spans edit = i ∧ span.contains edit.span = true := by
  simp only [goal?,Option.bind_eq_some_iff,Option.ite_none_right_eq_some,Option.some.injEq]
  constructor
  · rintro ⟨other,there,inside,rfl⟩
    rw [here,Option.some.injEq] at there
    exact ⟨rfl,there ▸ inside⟩
  · rintro ⟨rfl,inside⟩
    exact ⟨span,here,inside,rfl⟩

/-- Of at most two ascending spans the first ends at or before the start of a command in the second. -/
theorem route_of_belongsTo (few : spans.length ≤ 2)
    (ascending : spans.Pairwise fun first second => first.stop ≤ second.start)
    {command : Rewrite} {i : Nat} {span : Span} (here : spans[i]? = some span)
    (belongs : command.BelongsTo span) : route spans command.edit = i := by
  obtain ⟨contained,early⟩ := belongs.contains
  have low := ((Span.contains_iff _ _).mp contained).1
  match spans,i with
  | [],_ => cases here
  | [_],0 => rfl
  | [_],_ + 1 => cases here
  | [first,second],0 =>
    cases here
    simp [route,Nat.not_le.mpr early]
  | [first,second],1 =>
    cases here
    have apart := (List.pairwise_cons.mp ascending).1 span (by simp)
    simp [route,Nat.le_trans apart low]
  | [_,_],_ + 2 => cases here
  | _ :: _ :: _ :: _,_ => simp at few

theorem map_span_markers (log : RewriteLog) (spans : List Span) : (markers log spans).map (·.span) = spans := by
  apply List.ext_getElem?
  intro i
  simp only [markers,List.getElem?_map,List.getElem?_mapIdx,Option.map_map,Function.comp_def,Option.map_id']

theorem edits_markers {i : Nat} {marker : Marker} (found : (markers log spans)[i]? = some marker) :
    marker.edits = log.sentTo (fun k => log[k]?.bind fun command => goal? spans command.edit) i := by
  simp only [markers,List.getElem?_mapIdx,Option.map_eq_some_iff] at found
  obtain ⟨span,here,rfl⟩ := found
  have same : ∀ entry ∈ log.zipIdx, (route spans entry.1.edit == i && span.contains entry.1.edit.span) =
      ((log[entry.2]?.bind fun command => goal? spans command.edit) == some i) := by
    intro entry member
    rw [List.mem_zipIdx_iff_getElem?.mp member,Option.bind_some,Bool.eq_iff_iff,beq_iff_eq,
      goal?_eq_some_iff _ _ _ here,Bool.and_eq_true,beq_iff_eq]
  rw [sentTo,← List.filter_congr same]
  conv_lhs => rw [← List.zipIdx_map_fst 0 log,List.map_map,List.filter_map]
  rfl

theorem inside_markers {marker : Marker} (member : marker ∈ markers log spans) :
    ∀ edit ∈ marker.edits, marker.span.contains edit.span = true ∧ edit ∈ log.map Rewrite.edit := by
  obtain ⟨i,within,rfl⟩ := List.getElem_of_mem member
  intro edit own
  simp only [markers,List.getElem_mapIdx,List.mem_filter,Bool.and_eq_true] at own ⊢
  exact ⟨own.2.2,own.1⟩

/-- Commands that split no character and do not overlap leave a request for markers without defects. -/
theorem perform_markers {snapshot : Snapshot} (ordered : ∀ span ∈ spans, span.start ≤ span.stop)
    (ascending : spans.Pairwise fun first second => first.stop ≤ second.start)
    (lasting : ∀ command ∈ log, command.edit.Ordered)
    (bounds : ∀ span ∈ spans, span.stop ≤ snapshot.text.size)
    (aligned : ∀ edit ∈ (markers log spans).flatMap (·.edits),
      snapshot.text.isBoundary edit.span.start = true ∧ snapshot.text.isBoundary edit.span.stop = true)
    (apart : (((markers log spans).flatMap (·.edits)).map (·.span)).Pairwise
      fun first second => ¬first.Overlap second) :
    ∃ outcome, snapshot.perform (markers log spans) = .ok outcome := by
  have order : ∀ marker ∈ markers log spans, marker.span ∈ spans := fun marker member => by
    rw [← map_span_markers log spans]
    exact List.mem_map_of_mem member
  have truthful : (Request.ofMarkers snapshot.text (markers log spans)).Truthful
      (snapshot.perform (markers log spans)) := by
    refine Snapshot.perform_truthful (fun marker member => ordered _ (order marker member)) ?_
    intro marker member edit own
    obtain ⟨command,recorded,rfl⟩ := List.mem_map.mp (inside_markers member edit own).2
    exact lasting command recorded
  cases done : snapshot.perform (markers log spans) with
  | ok outcome => exact ⟨outcome,rfl⟩
  | error error =>
    rw [done] at truthful
    rcases truthful with ⟨asked,far⟩ | ⟨asked,atEnd,within⟩ | ⟨two,overlap⟩ | ⟨member,own,beside⟩ | ⟨two,overlap⟩
    · rcases List.mem_append.mp asked with marked | edited
      · rw [map_span_markers] at marked
        exact absurd (bounds _ marked) (Nat.not_le.mpr far)
      · obtain ⟨edit,own,rfl⟩ := List.mem_map.mp edited
        exact absurd (snapshot.text.le_size_of_isBoundary _ (aligned edit own).2) (Nat.not_le.mpr far)
    · obtain ⟨edit,own,rfl⟩ := List.mem_map.mp asked
      rcases atEnd with rfl | rfl
      · exact Bool.noConfusion (within.symm.trans (aligned edit own).1)
      · exact Bool.noConfusion (within.symm.trans (aligned edit own).2)
    · exact absurd overlap (Request.not_overlap_of_two apart two)
    · exact Bool.noConfusion (beside.symm.trans (inside_markers member _ own).1)
    · have touching : ((markers log spans).map (·.span)).Pairwise fun first second => ¬first.Overlap second := by
        rw [map_span_markers]
        exact ascending.imp fun apart (overlap : Span.Overlap _ _) => Nat.not_lt.mpr apart overlap.2
      exact absurd overlap (Request.not_overlap_of_two touching two)

/-- The commands of a log are distributed over at most two ascending spans without loss and without
doubles, and what was handed out can be performed if it splits no character and does not overlap. -/
theorem markers_distributed (log : RewriteLog) (spans : List Span) (few : spans.length ≤ 2)
    (ordered : ∀ span ∈ spans, span.start ≤ span.stop)
    (ascending : spans.Pairwise fun first second => first.stop ≤ second.start)
    (lasting : ∀ command ∈ log, command.edit.Ordered) :
    Distributed log spans (markers log spans) ∧
    ∀ snapshot : Snapshot, (∀ span ∈ spans, span.stop ≤ snapshot.text.size) →
      (∀ edit ∈ (markers log spans).flatMap (·.edits),
        snapshot.text.isBoundary edit.span.start = true ∧ snapshot.text.isBoundary edit.span.stop = true) →
      (((markers log spans).flatMap (·.edits)).map (·.span)).Pairwise
        (fun first second => ¬first.Overlap second) →
      ∃ outcome, snapshot.perform (markers log spans) = .ok outcome := by
  refine ⟨⟨map_span_markers log spans,⟨_,fun i marker => edits_markers,?_⟩,?_⟩,?_⟩
  · intro k command i span recorded here belongs
    rw [recorded,Option.bind_some,goal?_eq_some_iff _ _ _ here]
    exact ⟨route_of_belongsTo few ascending here belongs,belongs.contains.1⟩
  · exact fun marker member edit own => (inside_markers member edit own).1
  · exact fun snapshot bounds aligned apart =>
      perform_markers ordered ascending lasting bounds aligned apart

/-- Inserts at both ends of two spans that touch, in front of what is replaced, and again behind both. -/
def atTheEnds : RewriteLog :=
  [.insert 3 ['x'],.replace ⟨0,2⟩ [],.insert 2 ['y'],.replace ⟨2,3⟩ ['z'],.insert 0 ['v'],.insert 2 ['y'],
    .replace ⟨1,3⟩ []]

theorem markers_distributed_atTheEnds :
    Distributed atTheEnds [⟨0,2⟩,⟨2,3⟩] (markers atTheEnds [⟨0,2⟩,⟨2,3⟩]) ∧
    markers atTheEnds [⟨0,2⟩,⟨2,3⟩] = [⟨⟨0,2⟩,[.delete ⟨0,2⟩,.insert 0 ['v']]⟩,
      ⟨⟨2,3⟩,[.insert 3 ['x'],.insert 2 ['y'],⟨⟨2,3⟩,['z']⟩,.insert 2 ['y']]⟩] ∧
    ∃ outcome, Snapshot.perform ⟨['é','b'],.lf⟩ (markers atTheEnds [⟨0,2⟩,⟨2,3⟩]) = .ok outcome := by
  obtain ⟨distributed,performs⟩ := markers_distributed atTheEnds [⟨0,2⟩,⟨2,3⟩] (by decide) (by decide)
    (by decide) (by decide)
  exact ⟨distributed,by decide,performs ⟨['é','b'],.lf⟩ (by decide) (by decide)
    (by unfold Span.Overlap; decide)⟩

end RewriteLog
end Transplant
