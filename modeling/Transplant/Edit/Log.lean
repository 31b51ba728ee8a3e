import Transplant.Edit.Marker

/-! Edits recorded against a text before it is known which parts of it will be kept. -/
namespace Transplant

inductive Rewrite where
  | replace (span : Span) (text : Text)
  | insert (offset : Nat) (text : Text)
deriving DecidableEq, Repr

def Rewrite.edit : Rewrite → Edit
  | replace span text => ⟨span,text⟩
  | insert offset text => .insert offset text

abbrev RewriteLog := List Rewrite

namespace RewriteLog

/-- The kept span an edit belongs to: the second of several from the end of the first one on. -/
def route (spans : List Span) (edit : Edit) : Nat :=
  match spans with
  | first :: _ :: _ => if first.stop ≤ edit.span.start then 1 else 0
  | _ => 0

/-- One marker per kept span, each with the edits that lie in it; other edits touch text that is
not kept and are left out. -/
def markers (log : RewriteLog) (spans : List Span) : List Marker :=
  let edits := log.map Rewrite.edit
  spans.mapIdx fun i span =>
    ⟨span,edits.filter fun edit => route spans edit == i && span.contains edit.span⟩

end RewriteLog
end Transplant
