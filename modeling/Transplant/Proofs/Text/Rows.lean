import Mathlib.Data.List.Chain
import Transplant.Proofs.Block

/-! The rows of a text. The table of its lines, the list of its lines and its first break all come from
the same cut of the text into rows and the breaks between them. -/
namespace Transplant

open Java (isLineEnd)

namespace Text

/-- The text is its first row and the others, each with the break in front of it. A carriage return
and a line feed behind it are one break. -/
inductive Rows : Text → Text → List (LineBreak × Text) → Prop
  | last {row : Text} (inLine : InLine row) : Rows row row []
  | broken {row rest next : Text} {lineBreak : LineBreak} {others : List (LineBreak × Text)}
      (inLine : InLine row) (whole : lineBreak = .cr → rest.head? ≠ some '\n')
      (behind : Rows rest next others) :
      Rows (row ++ (lineBreak.text ++ rest)) row ((lineBreak,next) :: others)

/-- The spans of rows that lie one behind the other from byte `start` on. -/
def spansOf (start : Nat) (row : Text) : List (LineBreak × Text) → List Span
  | [] => [⟨start,start + row.size⟩]
  | (lineBreak,next) :: others =>
    ⟨start,start + row.size⟩ :: spansOf (start + row.size + lineBreak.text.size) next others

/-- The rows without a last one of nothing, unless this is the only one. -/
def withoutEmptyEnd (rows : List Text) : List Text :=
  if 1 < rows.length ∧ rows.getLast? = some [] then rows.dropLast else rows

variable {c : Char} {text row rest first : Text} {others : List (LineBreak × Text)}

/-- A text is nothing, a break before the rest of it, or a character of a line. -/
theorem breaks_induct {motive : Text → Prop} (nil : motive [])
    (broken : ∀ (lineBreak : LineBreak) (rest : Text),
      (lineBreak = .cr → rest.head? ≠ some '\n') → motive rest → motive (lineBreak.text ++ rest))
    (plain : ∀ c rest, isLineEnd c = false → motive rest → motive (c :: rest)) (text : Text) :
    motive text := by
  induction text using lines_induct with
  | nil => exact nil
  | ended lineBreak => simpa using broken lineBreak [] (fun _ => nofun) nil
  | broken lineBreak rest _ whole ih => exact broken lineBreak rest whole ih
  | plain c rest inLine ih => exact plain c rest inLine ih

theorem Rows.cons (inLine : isLineEnd c = false) (rows : Rows text first others) :
    Rows (c :: text) (c :: first) others := by
  cases rows with
  | last own => exact .last (inLine_cons.mpr ⟨inLine,own⟩)
  | broken own whole behind => exact .broken (inLine_cons.mpr ⟨inLine,own⟩) whole behind

theorem exists_rows (text : Text) : ∃ first others, Rows text first others := by
  induction text using breaks_induct with
  | nil => exact ⟨[],[],.last rfl⟩
  | broken lineBreak rest whole ih =>
    obtain ⟨first,others,rows⟩ := ih
    exact ⟨[],(lineBreak,first) :: others,Rows.broken (show InLine [] from rfl) whole rows⟩
  | plain c rest inLine ih =>
    obtain ⟨first,others,rows⟩ := ih
    exact ⟨c :: first,others,rows.cons inLine⟩

section Scanners

theorem not_line_end (inLine : isLineEnd c = false) : c ≠ '\n' ∧ c ≠ '\r' := by
  simpa [isLineEnd] using inLine

theorem spansFrom_row (inLine : InLine row) (start here : Nat) (rest : Text) :
    LineTable.spansFrom start here (row ++ rest) = LineTable.spansFrom start (here + row.size) rest := by
  induction row generalizing here with
  | nil => rfl
  | cons c row ih =>
    obtain ⟨plain,inLine⟩ := inLine_cons.mp inLine
    obtain ⟨feed,back⟩ := not_line_end plain
    rw [List.cons_append,LineTable.spansFrom,ih inLine,size,Nat.add_assoc]
    all_goals simp [feed,back]

theorem spansFrom_break (lineBreak : LineBreak) (whole : lineBreak = .cr → rest.head? ≠ some '\n')
    (start here : Nat) : LineTable.spansFrom start here (lineBreak.text ++ rest) = ⟨start,here⟩ ::
      LineTable.spansFrom (here + lineBreak.text.size) (here + lineBreak.text.size) rest := by
  cases lineBreak with
  | lf => rfl
  | crLf => rfl
  | cr =>
    have other : rest.head? ≠ some '\n' := whole rfl
    rw [LineBreak.text,List.cons_append,List.nil_append,LineTable.spansFrom]
    · rfl
    · rintro rest rfl
      exact other rfl

theorem first_row (inLine : InLine row) (rest : Text) : LineBreak.first (row ++ rest) = LineBreak.first rest := by
  induction row with
  | nil => rfl
  | cons c row ih =>
    obtain ⟨plain,inLine⟩ := inLine_cons.mp inLine
    obtain ⟨feed,back⟩ := not_line_end plain
    rw [List.cons_append,LineBreak.first,ih inLine]
    all_goals simp [feed,back]

theorem first_break (lineBreak : LineBreak) (whole : lineBreak = .cr → rest.head? ≠ some '\n') :
    LineBreak.first (lineBreak.text ++ rest) = lineBreak := by
  cases lineBreak with
  | lf => rfl
  | crLf => rfl
  | cr =>
    have other : rest.head? ≠ some '\n' := whole rfl
    rw [LineBreak.text,List.cons_append,List.nil_append,LineBreak.first]
    rintro rest rfl
    exact other rfl

theorem lines_row (inLine : InLine row) (rest : Text) : lines (row ++ rest) = (lines rest).modifyHead (row ++ ·) := by
  obtain ⟨line,others,parted⟩ := lines_nonempty rest
  induction row with
  | nil => simp [parted]
  | cons c row ih =>
    obtain ⟨plain,inLine⟩ := inLine_cons.mp inLine
    have behind := ih inLine
    rw [parted,List.modifyHead_cons] at behind
    rw [List.cons_append,lines_plain plain behind,parted,List.modifyHead_cons,List.cons_append]

end Scanners

namespace Rows

theorem inLine (rows : Rows text first others) : ∀ row ∈ first :: others.map (·.2), InLine row := by
  induction rows with
  | last inLine => exact List.forall_mem_singleton.mpr inLine
  | broken inLine _ _ ih => exact List.forall_mem_cons.mpr ⟨inLine,ih⟩

theorem laid (rows : Rows text first others) :
    text = first ++ others.flatMap fun row => row.1.text ++ row.2 := by
  induction rows with
  | last => simp
  | broken _ _ _ ih => rw [List.flatMap_cons,List.append_assoc,← ih]

theorem of_nil (rows : Rows [] first others) : first = [] ∧ others = [] := by
  generalize empty : ([] : Text) = text at rows
  cases rows with
  | last => exact ⟨rfl,rfl⟩
  | @broken row rest _ lineBreak =>
    have none := (List.append_eq_nil_iff.mp (List.append_eq_nil_iff.mp empty.symm).2).1
    cases lineBreak <;> cases none

theorem spansFrom (rows : Rows text first others) (start : Nat) :
    LineTable.spansFrom start start text = spansOf start first others := by
  induction rows generalizing start with
  | @last row inLine =>
    have passed := spansFrom_row inLine start start []
    rwa [List.append_nil] at passed
  | broken inLine whole _ ih => rw [spansFrom_row inLine,spansFrom_break _ whole,ih,spansOf]

/-- A line is cut out of the text as its row. -/
theorem slices (rows : Rows text first others) (front : Text) :
    (spansOf front.size first others).map (front ++ text).slice? = (first :: others.map (·.2)).map some := by
  induction rows generalizing front with
  | @last row _ =>
    have own := slice?_append front row []
    rw [List.append_nil] at own
    simp [spansOf,own]
  | @broken row rest next lineBreak others _ _ _ ih =>
    have behind := ih (front ++ (row ++ lineBreak.text))
    rw [size_append,size_append,← Nat.add_assoc] at behind
    have own := slice?_append front row (lineBreak.text ++ rest)
    simp only [List.append_assoc] at behind
    rw [spansOf,List.map_cons,own,behind]
    rfl

/-- Between two lines stands the break of the second one. -/
theorem breaks (rows : Rows text first others) (front : Text) :
    let spans := spansOf front.size first others
    List.zipWith (fun line next => (front ++ text).slice? ⟨line.stop,next.start⟩) spans spans.tail =
      others.map fun row => some row.1.text := by
  induction rows generalizing front with
  | last => rfl
  | @broken row rest next lineBreak others _ _ _ ih =>
    have behind := ih (front ++ (row ++ lineBreak.text))
    have own := slice?_append (front ++ row) lineBreak.text rest
    rw [size_append,size_append,← Nat.add_assoc] at behind
    simp only [size_append,List.append_assoc] at behind own
    obtain ⟨line,lines,start,listed⟩ : ∃ line lines, line.start = front.size + row.size + lineBreak.text.size ∧
        spansOf (front.size + row.size + lineBreak.text.size) next others = line :: lines := by
      cases others <;> exact ⟨_,_,rfl,rfl⟩
    rw [listed] at behind
    simp only [spansOf,listed,List.tail_cons,List.zipWith_cons_cons,start,own,List.map_cons]
    exact congrArg _ behind

/-- The list of lines leaves out a last row of nothing behind a break. -/
theorem lines_eq (rows : Rows text first others) : lines text = withoutEmptyEnd (first :: others.map (·.2)) := by
  induction rows with
  | @last row inLine =>
    have own := lines_row inLine []
    rw [List.append_nil] at own
    rw [own]
    simp [lines,withoutEmptyEnd]
  | @broken row rest next lineBreak others inLine whole behind ih =>
    rw [lines_row inLine]
    by_cases ended : rest = []
    · subst ended
      obtain ⟨rfl,rfl⟩ := behind.of_nil
      rw [List.append_nil,lines_break]
      simp [withoutEmptyEnd]
    · rw [lines_broken lineBreak ended whole,ih]
      simp only [List.modifyHead_cons,List.append_nil,List.map_cons,withoutEmptyEnd]
      cases others with
      | cons => simp [apply_ite (row :: ·)]
      | nil =>
        cases behind
        simp [ended]

theorem first_eq (rows : Rows text first others) :
    LineBreak.first text = (others.head?.map (·.1)).getD .lf := by
  cases rows with
  | last inLine =>
    have passed := first_row inLine []
    rwa [List.append_nil] at passed
  | broken inLine whole => rw [first_row inLine,first_break _ whole]; rfl

/-- No line feed stands behind a carriage return that is a break of its own. -/
theorem whole (rows : Rows text first others) :
    others.IsChain fun row next => ¬(row.1 = .cr ∧ row.2 = [] ∧ next.1 = .lf) := by
  induction rows with
  | last => exact .nil
  | @broken _ _ next lineBreak others _ whole behind ih =>
    refine List.isChain_cons.mpr ⟨?_,ih⟩
    rintro ⟨other,behindNext⟩ listed ⟨rfl,rfl,rfl⟩
    obtain ⟨others,rfl⟩ := List.head?_eq_some_iff.mp listed
    exact whole rfl (by simp [behind.laid,LineBreak.text])

end Rows

/-- The table of the lines, their list and the first break of a text agree. The text is rows without
line ends and the breaks between them; the spans of the table cut out these rows, and between them the
breaks; the list holds the rows, less a last one of nothing; the first break is the one in front of the
second row. -/
theorem lines_agree (text : Text) : ∃ (first : Text) (others : List (LineBreak × Text)),
    let rows := first :: others.map (·.2)
    let spans := (LineTable.ofText text).lines
    spans.map text.slice? = rows.map some ∧ (∀ row ∈ rows, InLine row) ∧
    List.zipWith (fun line next => text.slice? ⟨line.stop,next.start⟩) spans spans.tail =
      others.map (fun row => some row.1.text) ∧
    text = first ++ others.flatMap (fun row => row.1.text ++ row.2) ∧
    others.IsChain (fun row next => ¬(row.1 = .cr ∧ row.2 = [] ∧ next.1 = .lf)) ∧
    text.lines = withoutEmptyEnd rows ∧
    LineBreak.first text = (others.head?.map (·.1)).getD .lf := by
  obtain ⟨first,others,rows⟩ := exists_rows text
  have spans : (LineTable.ofText text).lines = spansOf 0 first others := rows.spansFrom 0
  have slices := rows.slices []
  have breaks := rows.breaks []
  rw [size_nil,← spans,List.nil_append] at slices breaks
  exact ⟨first,others,slices,rows.inLine,breaks,rows.laid,rows.whole,rows.lines_eq,rows.first_eq⟩

/-- Lines that end in different ways, the second one with a character of two bytes. -/
def mixed : Text := "a\r\nbé\rc\n".toList

theorem lines_agree_mixed : ∃ (first : Text) (others : List (LineBreak × Text)),
    first :: others.map (·.2) = [['a'],['b','é'],['c'],[]] ∧ InLine ['b','é'] ∧
    mixed.lines = [['a'],['b','é'],['c']] ∧ LineBreak.first mixed = (others.head?.map (·.1)).getD .lf := by
  obtain ⟨first,others,slices,inLine,_,_,_,listed,start⟩ := lines_agree mixed
  have evaluated : (LineTable.ofText mixed).lines.map mixed.slice? = [['a'],['b','é'],['c'],[]].map some := by
    decide +kernel
  have rows := (List.map_inj_right fun _ _ => Option.some.inj).mp (slices.symm.trans evaluated)
  rw [rows] at listed
  refine ⟨first,others,rows,inLine _ ?_,listed.trans (by decide),start⟩
  rw [rows]
  decide

end Text
end Transplant
