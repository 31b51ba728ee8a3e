import Transplant.Edit.Basic

/-! Bringing a list of edits into its normal form and applying it.
All edits of a list speak about the unedited text. In normal form they ascend, lie on character
boundaries and are kept apart by at least one untouched byte. -/
namespace Transplant.Edit

/-- Edits by their spans; edits with equal spans stay in the order they were given. -/
def sorted (edits : List Edit) : List Edit :=
  edits.mergeSort fun first second => first.span.atMost second.span

def check (text : Text) (edit : Edit) : Except EditError Unit :=
  if text.size < edit.span.stop then .error (.outOfBounds edit.span text.size)
  else if !text.isBoundary edit.span.start then .error (.notBoundary edit.span.start)
  else if !text.isBoundary edit.span.stop then .error (.notBoundary edit.span.stop)
  else .ok ()

/-- Neighbours in span order overlap when the first ends inside the second, or both replace the
same bytes. -/
def overlaps (first second : Edit) : Bool :=
  second.span.start < first.span.stop || (!first.span.isEmpty && first.span == second.span)

def checkApart : List Edit → Except EditError Unit
  | first :: second :: rest =>
    if overlaps first second then .error (.overlappingEdits first.span second.span)
    else checkApart (second :: rest)
  | _ => .ok ()

/-- Joins an edit with the one that begins where it ends. -/
def joinNext (edit : Edit) : List Edit → List Edit
  | [] => [edit]
  | next :: rest =>
    if edit.span.stop = next.span.start then
      ⟨⟨edit.span.start,next.span.stop⟩,edit.replacement ++ next.replacement⟩ :: rest
    else edit :: next :: rest

def coalesce (edits : List Edit) : List Edit := edits.foldr joinNext []

def normalize (text : Text) (edits : List Edit) : Except EditError (List Edit) := do
  let edits := sorted edits
  edits.forM (check text)
  checkApart edits
  return coalesce edits

/-- Applies edits in normal form, the last one first, so that no offset has moved when its edit
is made. -/
def applyNormal (text : Text) (edits : List Edit) : Text :=
  edits.foldr (fun edit text => text.replace edit.span edit.replacement) text

def apply (text : Text) (edits : List Edit) : Except EditError Text := do
  return applyNormal text (← normalize text edits)

end Transplant.Edit
