import Transplant.Proofs.Text.Positions

/-! Columns that may be any word. The sum of a line's start and a column is a word too, and a column
that takes it past the last word is answered with an offset in front of the line. -/
namespace Transplant

namespace LineTable

variable {table : LineTable} {place : Position} {line : Span} {offset : Nat}

/-- The line of the position exists and reaches to the offset, which lies as many bytes behind the start
of the line as the column says. -/
def StandsFor (table : LineTable) (place : Position) (offset : Nat) : Prop :=
  ∃ line, table.lines[place.line]? = some line ∧ offset = line.start + place.column ∧ offset ≤ line.stop

theorem standsFor_iff (found : table.lines[place.line]? = some line) (offset : Nat) :
    table.StandsFor place offset ↔ offset = line.start + place.column ∧ offset ≤ line.stop := by
  constructor
  · rintro ⟨other,listed,known⟩
    obtain rfl := Option.some.inj (found.symm.trans listed)
    exact known
  · exact fun known => ⟨line,found,known⟩

theorem offset?_iff_of_missing (missing : table.lines[place.line]? = none) (offset : Nat) :
    table.offset? place = some offset ↔ table.StandsFor place offset := by
  have unanswered : table.offset? place = none := by rw [offset?,missing]; rfl
  constructor
  · intro answered
    rw [unanswered] at answered
    cases answered
  · rintro ⟨line,found,_⟩
    rw [missing] at found
    cases found

theorem offset?_iff_of_small (found : table.lines[place.line]? = some line)
    (small : line.start + place.column < UInt32.size) (offset : Nat) :
    table.offset? place = some offset ↔ table.StandsFor place offset := by
  rw [offset?_found found small,standsFor_iff found]
  constructor
  · intro answered
    split at answered
    · rename_i reaches
      obtain rfl := Option.some.inj answered
      exact ⟨rfl,reaches⟩
    · cases answered
  · rintro ⟨rfl,reaches⟩
    rw [if_pos reaches]

/-- Past the last word the sum is small again, smaller than the start of the line, so that it passes for
an offset the line reaches to. -/
theorem offset?_of_large (found : table.lines[place.line]? = some line) (order : line.start ≤ line.stop)
    (word : place.column < UInt32.size) (large : UInt32.size ≤ line.start + place.column) :
    ∃ offset, table.offset? place = some offset ∧ offset < line.start := by
  have wrapped : (line.start + place.column) % UInt32.size < line.start := by
    simp only [UInt32.size] at word large ⊢
    omega
  refine ⟨_,?_,wrapped⟩
  rw [offset?,found]
  simp only [bind,Option.bind,if_pos (Nat.le_trans (Nat.le_of_lt wrapped) order)]

end LineTable

namespace Text

open LineTable

/-- A position with any words for its line and its column is answered with the offset it stands for, and
with none when it stands for none, exactly when the start of the line and the column add up to a word.
When they do not, an offset in front of the line is answered, for which the position does not stand. -/
theorem offset?_exact_iff (text : Text) (line column : UInt32) :
    let table := ofText text
    let place : Position := ⟨line.toNat,column.toNat⟩
    ((∀ offset, table.offset? place = some offset ↔ table.StandsFor place offset) ↔
      ∀ row, table.lines[place.line]? = some row → row.start + place.column < UInt32.size) ∧
    ∀ row, table.lines[place.line]? = some row → UInt32.size ≤ row.start + place.column →
      ∃ offset, table.offset? place = some offset ∧ offset < row.start ∧ ¬table.StandsFor place offset := by
  intro table place
  have ordered := (ofText_ruled text).ordered
  have before : ∀ row, table.lines[place.line]? = some row → UInt32.size ≤ row.start + place.column →
      ∃ offset, table.offset? place = some offset ∧ offset < row.start ∧ ¬table.StandsFor place offset := by
    intro row found large
    obtain ⟨offset,answered,early⟩ :=
      offset?_of_large found (ordered row (List.mem_of_getElem? found)) column.toNat_lt large
    refine ⟨offset,answered,early,fun stands => ?_⟩
    have sum := ((standsFor_iff found offset).mp stands).1
    omega
  refine ⟨⟨?_,?_⟩,before⟩
  · intro exact row found
    apply Nat.lt_of_not_le
    intro large
    obtain ⟨offset,answered,_,wrong⟩ := before row found large
    exact wrong ((exact offset).mp answered)
  · intro small offset
    cases found : table.lines[place.line]? with
    | none => exact offset?_iff_of_missing found offset
    | some row => exact offset?_iff_of_small found (small row found) offset

theorem offset?_exact_mixed :
    let table := ofText mixed
    (∀ offset, table.offset? ⟨1,3⟩ = some offset ↔ table.StandsFor ⟨1,3⟩ offset) ∧
    ∃ offset, table.offset? ⟨1,4294967295⟩ = some offset ∧ offset < 3 ∧
      ¬table.StandsFor ⟨1,4294967295⟩ offset := by
  have lines : (ofText mixed).lines[1]? = some ⟨3,6⟩ := by decide +kernel
  refine ⟨(offset?_exact_iff mixed 1 3).1.mpr fun row found => ?_,
    (offset?_exact_iff mixed 1 4294967295).2 ⟨3,6⟩ lines (by decide)⟩
  obtain rfl := Option.some.inj (lines.symm.trans found)
  decide

/-- The second line of a text that is nothing but a line feed is empty and begins at byte one. The last
word for its column is answered with the start of the text. -/
theorem offset?_wrapped :
    (ofText ['\n']).lines[1]? = some ⟨1,1⟩ ∧ (ofText ['\n']).offset? ⟨1,4294967295⟩ = some 0 ∧
      ¬(ofText ['\n']).StandsFor ⟨1,4294967295⟩ 0 := by
  have line : (ofText ['\n']).lines[1]? = some ⟨1,1⟩ := by decide
  refine ⟨line,by decide,fun stands => ?_⟩
  obtain ⟨row,found,sum,_⟩ := stands
  obtain rfl := Option.some.inj (line.symm.trans found)
  simp at sum

end Text
end Transplant
