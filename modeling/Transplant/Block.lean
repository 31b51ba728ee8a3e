import Transplant.Edit.Marker
import Transplant.Text.Indent

/-! Cutting blocks of lines out of a snapshot. -/
namespace Transplant.Block

/-- The lines of a span without the indentation they share, joined by the snapshot's own break.
The first line begins at a statement and is kept as it is. -/
def extract (layout : Layout) (snapshot : Snapshot) (span : Span) : Except EditError Text := do
  let text ← snapshot.slice span
  return (text.lines |> Text.trimIndentation layout false) |> Text.join snapshot.lineBreak.text

def extractAll (layout : Layout) (snapshot : Snapshot) (spans : List Span) :
    Except EditError (List Text) :=
  spans.mapM (extract layout snapshot)

end Transplant.Block
