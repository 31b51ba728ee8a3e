import Transplant.Text.Blank

/-! Indentation measured in columns, and its removal from a block of lines. -/
namespace Transplant

/-- How wide a tab shows and how many columns make one level of indentation. -/
structure Layout where
  tabWidth : Nat
  indentWidth : Nat
deriving DecidableEq, Repr, Inhabited

def Layout.standard : Layout := ⟨4,4⟩

namespace Text

/-- A tab reaches to the next multiple of the tab width, and nowhere when that width is zero. -/
def tabColumns (tabWidth column : Nat) : Nat :=
  if tabWidth = 0 then 0 else tabWidth - column % tabWidth

def columnsFrom (tabWidth column : Nat) : Text → Nat
  | ' ' :: rest => columnsFrom tabWidth (column + 1) rest
  | '\t' :: rest => columnsFrom tabWidth (column + tabColumns tabWidth column) rest
  | _ => column

def indentColumns (tabWidth : Nat) (line : Text) : Nat := columnsFrom tabWidth 0 line

/-- Removes indentation up to column `columns` from a line that stands at column `column`. A tab
that reaches beyond leaves the columns beyond as spaces. -/
def trimFrom (tabWidth columns column : Nat) : Text → Text
  | [] => []
  | c :: rest =>
    if columns ≤ column then c :: rest
    else
      let width := if c = ' ' then some 1 else if c = '\t' then some (tabColumns tabWidth column) else none
      match width with
      | none => c :: rest
      | some width =>
        if columns < column + width then List.replicate (column + width - columns) ' ' ++ rest
        else trimFrom tabWidth columns (column + width) rest

def trimIndent (tabWidth columns : Nat) (line : Text) : Text := trimFrom tabWidth columns 0 line

/-- The whole levels of indentation that all lines with content share; level width zero counts
every column. -/
def sharedColumns (layout : Layout) (lines : List Text) : Nat :=
  let columns := ((lines.filter (!isBlank ·)).map (indentColumns layout.tabWidth)).min?.getD 0
  if layout.indentWidth = 0 then columns else columns - columns % layout.indentWidth

def shiftLeft (layout : Layout) (lines : List Text) : List Text :=
  let columns := sharedColumns layout lines
  lines.map fun line => if isBlank line then [] else trimIndent layout.tabWidth columns line

/-- Removes the shared indentation and empties blank lines. The first line takes part only when
`considerFirst` is set: a block cut from the middle of a line has no indentation there. -/
def trimIndentation (layout : Layout) (considerFirst : Bool) : List Text → List Text
  | [] => []
  | line :: lines =>
    if considerFirst then shiftLeft layout (line :: lines) else line :: shiftLeft layout lines

end Text
end Transplant
