import Transplant.Proofs.Text.Rows

/-! Rows joined by one break and read back as lines. No break runs together with what stands beside it, so
the lines are the rows, but for a last one of nothing: the break in front of it ends the text. -/
namespace Transplant

namespace Text

variable {row : Text} {rows : List Text}

theorem join_head_ne (inLine : InLine row) (others : List Text) :
    (join LineBreak.cr.text (row :: others)).head? ≠ some '\n' := by
  rw [join_cons]
  cases row with
  | nil => cases others <;> simp [LineBreak.text]
  | cons c row => simpa using (not_line_end (inLine_cons.mp inLine).1).1

theorem rows_join (lineBreak : LineBreak) {first : Text} {others : List Text}
    (inLine : ∀ row ∈ first :: others, InLine row) :
    Rows (join lineBreak.text (first :: others)) first (others.map (lineBreak,·)) := by
  induction others generalizing first with
  | nil => exact .last (inLine first (List.mem_singleton_self first))
  | cons next others ih =>
    obtain ⟨own,behind⟩ := List.forall_mem_cons.mp inLine
    rw [join_cons,List.flatMap_cons,List.append_assoc,← join_cons,List.map_cons]
    apply Rows.broken own _ (ih behind)
    rintro rfl
    exact join_head_ne (List.forall_mem_cons.mp behind).1 others

theorem lines_join (lineBreak : LineBreak) (some : rows ≠ []) (inLine : ∀ row ∈ rows, InLine row) :
    lines (join lineBreak.text rows) = withoutEmptyEnd rows := by
  obtain ⟨first,others,rfl⟩ := List.exists_cons_of_ne_nil some
  have listed := (rows_join lineBreak inLine).lines_eq
  simpa [Function.comp_def] using listed

theorem withoutEmptyEnd_eq_self_iff (some : rows ≠ []) :
    withoutEmptyEnd rows = rows ↔ (rows.getLast? = Option.some [] → rows.length = 1) := by
  have length := List.length_pos_iff.mpr some
  rw [withoutEmptyEnd]
  split
  · rename_i ends
    refine iff_of_false ?_ (fun alone => ?_)
    · intro same
      have shorter := congrArg List.length same
      rw [List.length_dropLast] at shorter
      omega
    · have := alone ends.2
      omega
  · rename_i kept
    refine iff_of_true rfl (fun last => ?_)
    have : ¬1 < rows.length := fun several => kept ⟨several,last⟩
    omega

/-- Reading lines undoes joining them. Rows without line ends, joined by a break of any kind, are read
back exactly when the last of them is not empty or is the only one. The lines of any text, joined and
read again, are the same less a last one of nothing behind others. -/
theorem lines_restored (lineBreak : LineBreak) :
    (∀ rows : List Text, rows ≠ [] → (∀ row ∈ rows, InLine row) →
      (lines (join lineBreak.text rows) = rows ↔ (rows.getLast? = some [] → rows.length = 1))) ∧
    ∀ text : Text, lines (join lineBreak.text (lines text)) = withoutEmptyEnd (lines text) := by
  constructor
  · intro rows some inLine
    rw [lines_join lineBreak some inLine]
    exact withoutEmptyEnd_eq_self_iff some
  · intro text
    obtain ⟨line,others,parted⟩ := lines_nonempty text
    exact lines_join lineBreak (by rw [parted]; exact List.cons_ne_nil line others) (lines_inLine text)

/-- An empty row between two others, joined by carriage returns. -/
theorem lines_restored_spaced :
    (∀ row ∈ [['a'],[],['b']], InLine row) ∧ [['a'],[],['b']].getLast? ≠ some [] ∧
    lines "a\r\rb".toList = [['a'],[],['b']] ∧ lines (join LineBreak.cr.text (lines "a\n\r\n".toList)) = [['a']] := by
  have inLine : ∀ row ∈ [['a'],[],['b']], InLine row := by decide
  obtain ⟨restored,again⟩ := lines_restored .cr
  refine ⟨inLine,by decide,?_,(again _).trans (by decide)⟩
  exact (restored [['a'],[],['b']] (by decide) inLine).mpr (by decide)

end Text
end Transplant
