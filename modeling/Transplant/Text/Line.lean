import Transplant.Text.Basic

/-! Line breaks, the lines of a text, and the table that turns byte offsets into positions.
A break is a line feed, a carriage return, or the two together in that order. -/
namespace Transplant

inductive LineBreak where
  | lf
  | crLf
  | cr
deriving DecidableEq, Repr, Inhabited

namespace LineBreak

def text : LineBreak → Text
  | lf => ['\n']
  | crLf => ['\r','\n']
  | cr => ['\r']

/-- The break that ends the first line; a text of one line counts as broken by line feeds. -/
def first : Text → LineBreak
  | [] => lf
  | '\n' :: _ => lf
  | '\r' :: '\n' :: _ => crLf
  | '\r' :: _ => cr
  | _ :: rest => first rest

end LineBreak

namespace Text

private def startLine (c : Char) : List Text → List Text
  | [] => [[c]]
  | line :: lines => (c :: line) :: lines

/-- The lines of a text. A break at its end opens no further line. -/
def lines : Text → List Text
  | [] => [[]]
  | '\n' :: [] => [[]]
  | '\n' :: rest => [] :: lines rest
  | '\r' :: '\n' :: [] => [[]]
  | '\r' :: '\n' :: rest => [] :: lines rest
  | '\r' :: [] => [[]]
  | '\r' :: rest => [] :: lines rest
  | c :: rest => startLine c (lines rest)

def join (separator : Text) : List Text → Text
  | [] => []
  | [line] => line
  | line :: lines => line ++ separator ++ join separator lines

end Text

/-- A line counted from zero and a byte within it. -/
structure Position where
  line : Nat
  column : Nat
deriving DecidableEq, Repr, Inhabited

structure LineTable where
  lines : List Span
  size : Nat
deriving DecidableEq, Repr, Inhabited

namespace LineTable

/-- The spans of the lines, breaks left out, of a text that continues at byte `here` the line
begun at byte `start`. -/
def spansFrom (start here : Nat) : Text → List Span
  | [] => [⟨start,here⟩]
  | '\n' :: rest => ⟨start,here⟩ :: spansFrom (here + 1) (here + 1) rest
  | '\r' :: '\n' :: rest => ⟨start,here⟩ :: spansFrom (here + 2) (here + 2) rest
  | '\r' :: rest => ⟨start,here⟩ :: spansFrom (here + 1) (here + 1) rest
  | c :: rest => spansFrom start (here + c.utf8Size) rest

def ofText (text : Text) : LineTable := ⟨spansFrom 0 0 text,text.size⟩

/-- The position of an offset: past the end it is that of the end, inside a break that of the
end of the line before it. -/
def position (table : LineTable) (offset : Nat) : Position :=
  let offset := min offset table.size
  let upTo := table.lines.takeWhile (·.start ≤ offset)
  match upTo.getLast? with
  | some line => ⟨upTo.length - 1,min offset line.stop - line.start⟩
  | none => ⟨0,0⟩

/-- Offsets are words of 32 bits, so a column past the last word counts again from zero. -/
def offset? (table : LineTable) (position : Position) : Option Nat := do
  let line ← table.lines[position.line]?
  let offset := (line.start + position.column) % UInt32.size
  if offset ≤ line.stop then some offset else none

end LineTable
end Transplant
