import Transplant.Text.Basic

/-! Edits of a text and the ways in which a list of them can be wrong. -/
namespace Transplant

structure Edit where
  span : Span
  replacement : Text
deriving DecidableEq, Repr, Inhabited

namespace Edit

def insert (offset : Nat) (text : Text) : Edit := ⟨.empty offset,text⟩

def delete (span : Span) : Edit := ⟨span,[]⟩

/-- How many bytes longer the edit makes the text. -/
def delta (edit : Edit) : Int := (edit.replacement.size : Int) - (edit.span.length : Int)

end Edit

inductive EditError where
  | outOfBounds (span : Span) (size : Nat)
  | notBoundary (offset : Nat)
  | overlappingEdits (first second : Span)
  | outsideMarker (marker edit : Span)
  | overlappingMarkers (first second : Span)
deriving DecidableEq, Repr

def EditError.message : EditError → String
  | outOfBounds span size => s!"edit range {span.render} is out of bounds for text length {size}"
  | notBoundary offset => s!"offset {offset} is not a UTF-8 character boundary"
  | overlappingEdits first second => s!"overlapping edits: {first.render} overlaps {second.render}"
  | outsideMarker marker edit =>
    s!"edit {edit.render} lies outside of its range marker {marker.render}"
  | overlappingMarkers first second => s!"range markers {first.render} and {second.render} overlap"

end Transplant
