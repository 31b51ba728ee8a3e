import Transplant.Span

/-! Texts as lists of characters, measured and cut in UTF-8 bytes.
A byte offset is a boundary when some characters of the text fill exactly the bytes before it;
only boundaries can be cut at, so a slice exists exactly between two boundaries. -/
namespace Transplant

abbrev Text := List Char

namespace Text

def size : Text → Nat
  | [] => 0
  | c :: rest => c.utf8Size + size rest

/-- Cuts before the first character that ends after byte `offset`. -/
def cut : Text → Nat → Text × Text
  | [],_ => ([],[])
  | c :: rest,offset =>
    if c.utf8Size ≤ offset then
      let (head,tail) := cut rest (offset - c.utf8Size)
      (c :: head,tail)
    else ([],c :: rest)

def before (text : Text) (offset : Nat) : Text := (cut text offset).1

def after (text : Text) (offset : Nat) : Text := (cut text offset).2

def isBoundary (text : Text) (offset : Nat) : Bool := size (before text offset) == offset

def slice? (text : Text) (span : Span) : Option Text :=
  if span.start ≤ span.stop && isBoundary text span.start && isBoundary text span.stop then
    some (after (before text span.stop) span.start)
  else none

/-- The text with the bytes of `span` exchanged for `replacement`. -/
def replace (text : Text) (span : Span) (replacement : Text) : Text :=
  before text span.start ++ replacement ++ after text span.stop

theorem size_append (left right : Text) : size (left ++ right) = size left + size right := by
  induction left with
  | nil => simp [size]
  | cons c left ih => simp [size,ih,Nat.add_assoc]

theorem before_append_after (text : Text) (offset : Nat) :
    before text offset ++ after text offset = text := by
  induction text generalizing offset with
  | nil => rfl
  | cons c rest ih =>
    simp only [before,after,cut] at ih ⊢
    split
    · simp [ih]
    · rfl

theorem size_before_le (text : Text) (offset : Nat) : size (before text offset) ≤ offset := by
  induction text generalizing offset with
  | nil => simp [before,cut,size]
  | cons c rest ih =>
    simp only [before,cut] at ih ⊢
    split
    · rename_i fits
      have tail := ih (offset - c.utf8Size)
      simp only [size]
      omega
    · simp [size]

theorem cut_append (left right : Text) : cut (left ++ right) (size left) = (left,right) := by
  induction left with
  | nil =>
    cases right with
    | nil => rfl
    | cons c right =>
      have positive := c.utf8Size_pos
      simp [cut,size,show ¬ c.utf8Size ≤ 0 by omega]
  | cons c left ih => simp [cut,size,ih]

theorem isBoundary_iff (text : Text) (offset : Nat) :
    isBoundary text offset = true ↔ ∃ left right, text = left ++ right ∧ size left = offset := by
  constructor
  · intro boundary
    exact ⟨_,_,(before_append_after text offset).symm,by simpa [isBoundary] using boundary⟩
  · rintro ⟨left,right,rfl,rfl⟩
    simp [isBoundary,before,cut_append]

end Text
end Transplant
