import Transplant.Edit.Apply
import Transplant.Text.Line

/-! Snapshots of a text, and markers: spans that carry edits and are followed through them. -/
namespace Transplant

/-- A text with the line break it is written with. -/
structure Snapshot where
  text : Text
  lineBreak : LineBreak
deriving DecidableEq, Repr, Inhabited

namespace Snapshot

def ofText (text : Text) : Snapshot := ⟨text,.first text⟩

def slice (snapshot : Snapshot) (span : Span) : Except EditError Text :=
  if snapshot.text.size < span.stop then .error (.outOfBounds span snapshot.text.size)
  else match snapshot.text.slice? span with
    | some text => .ok text
    | none => .error (.notBoundary span.start)

end Snapshot

structure Marker where
  span : Span
  edits : List Edit
deriving DecidableEq, Repr, Inhabited

namespace Marker

def checkBounds (size : Nat) (span : Span) : Except EditError Unit :=
  if size < span.stop then .error (.outOfBounds span size) else .ok ()

def checkApart : List Span → Except EditError Unit
  | first :: second :: rest =>
    if second.start < first.stop then .error (.overlappingMarkers first second)
    else checkApart (second :: rest)
  | _ => .ok ()

def checkInside (marker : Marker) (edit : Edit) : Except EditError Unit :=
  if marker.span.contains edit.span then .ok () else .error (.outsideMarker marker.span edit.span)

def check (text : Text) (markers : List Marker) : Except EditError Unit := do
  let spans := (markers.map (·.span)).mergeSort Span.atMost
  spans.forM (checkBounds text.size)
  checkApart spans
  markers.forM fun marker => marker.edits.forM marker.checkInside

def growth (edits : List Edit) : Int := edits.foldr (fun edit total => edit.delta + total) 0

/-- Where a marker lies after all edits: the edits of other markers before it move it, its own
edits change its length. -/
def moved (marker : Marker) (others : List Marker) : Span :=
  let earlier := (others.flatMap (·.edits)).filter (·.span.stop ≤ marker.span.start)
  let start := ((marker.span.start : Int) + growth earlier).toNat
  ⟨start,start + ((marker.span.length : Int) + growth marker.edits).toNat⟩

end Marker

/-- A snapshot after its edits and the markers' spans in it. -/
structure EditOutcome where
  snapshot : Snapshot
  spans : List Span
deriving DecidableEq, Repr

/-- Makes the edits of all markers at once. Markers keep apart and hold only edits inside them. -/
def Snapshot.perform (snapshot : Snapshot) (markers : List Marker) : Except EditError EditOutcome := do
  Marker.check snapshot.text markers
  let text ← Edit.apply snapshot.text (markers.flatMap (·.edits))
  return ⟨⟨text,snapshot.lineBreak⟩,
    markers.mapIdx fun i marker => marker.moved (markers.eraseIdx i)⟩

end Transplant
