import Mathlib.Data.List.Forall2
import Mathlib.Data.Nat.ModEq
import Transplant.Text.Indent

/-! What the removal of shared indentation does to the columns of a line. A tab reaches to the next
tab stop, so its width depends on the column it begins at: what stands behind the removed columns
moves with them unless it holds a tab and the tab stops move as well. -/
namespace Transplant.Text

variable {tabWidth columns column shift : Nat} {line rest : Text}

/-- The indentation of a line, the first character of which stands at column `column`, holds a tab
that begins at column `columns` or behind. -/
def tabBehind (tabWidth columns column : Nat) : Text → Bool
  | ' ' :: rest => tabBehind tabWidth columns (column + 1) rest
  | '\t' :: rest =>
    decide (columns ≤ column) ||
      tabBehind tabWidth columns (column + tabColumns tabWidth column) rest
  | _ => false

/-- The lines that are measured and shifted. -/
def considered (considerFirst : Bool) (lines : List Text) : List Text :=
  if considerFirst then lines else lines.tail

theorem columnsFrom_replicate (tabWidth column count : Nat) (rest : Text) :
    columnsFrom tabWidth column (List.replicate count ' ' ++ rest) =
      columnsFrom tabWidth (column + count) rest := by
  induction count generalizing column with
  | zero => rfl
  | succ count ih =>
    rw [List.replicate_succ,List.cons_append,columnsFrom,ih,Nat.add_right_comm,Nat.add_assoc]

theorem dvd_tabStop (positive : tabWidth ≠ 0) (column : Nat) :
    tabWidth ∣ column + tabColumns tabWidth column := by
  have below := Nat.mod_lt column (Nat.pos_of_ne_zero positive)
  have parts := Nat.div_add_mod column tabWidth
  refine ⟨column / tabWidth + 1,?_⟩
  rw [tabColumns,if_neg positive,Nat.mul_add,Nat.mul_one]
  omega

/-- Moved by whole tab stops, an indentation is as wide as before. -/
theorem columnsFrom_add (whole : tabWidth = 0 ∨ tabWidth ∣ shift) (column : Nat) (line : Text) :
    columnsFrom tabWidth (column + shift) line = columnsFrom tabWidth column line + shift := by
  fun_induction columnsFrom tabWidth column line with
  | case1 column rest ih => rw [columnsFrom,Nat.add_right_comm,ih]
  | case2 column rest ih =>
    have same : tabColumns tabWidth (column + shift) = tabColumns tabWidth column := by
      rcases whole with rfl | ⟨count,rfl⟩
      · rfl
      · simp only [tabColumns,Nat.add_mul_mod_self_left]
    rw [columnsFrom,same,Nat.add_right_comm,ih]
  | case3 column line noSpace noTab => rw [columnsFrom] <;> assumption

/-- How far behind a tab stop an indentation with a tab ends does not depend on where it begins. -/
theorem columnsFrom_mod (positive : tabWidth ≠ 0)
    (tab : tabBehind tabWidth columns column line = true) (start : Nat) :
    columnsFrom tabWidth start line % tabWidth = columnsFrom tabWidth column line % tabWidth := by
  fun_induction columnsFrom tabWidth column line generalizing start with
  | case1 column rest ih => exact ih (by simpa only [tabBehind] using tab) (start + 1)
  | case2 column rest ih =>
    rw [columnsFrom]
    have low := columnsFrom_add (.inr (dvd_tabStop positive column)) 0 rest
    have high := columnsFrom_add (.inr (dvd_tabStop positive start)) 0 rest
    rw [Nat.zero_add] at low high
    obtain ⟨first,firstStop⟩ := dvd_tabStop positive column
    obtain ⟨second,secondStop⟩ := dvd_tabStop positive start
    rw [low,high,firstStop,secondStop,Nat.add_mul_mod_self_left,Nat.add_mul_mod_self_left]
  | case3 column line noSpace noTab => rw [tabBehind] at tab <;> simp_all

/-- Without a tab an indentation is as wide from any column. -/
theorem columnsFrom_of_noTab (reached : columns ≤ column)
    (noTab : tabBehind tabWidth columns column line = false) (start : Nat) :
    columnsFrom tabWidth start line + column = columnsFrom tabWidth column line + start := by
  fun_induction columnsFrom tabWidth column line generalizing start with
  | case1 column rest ih =>
    have moved := ih (by omega) (by simpa only [tabBehind] using noTab) (start + 1)
    rw [columnsFrom]
    omega
  | case2 column rest ih => simp [tabBehind,reached] at noTab
  | case3 column line noSpace noTab =>
    rw [columnsFrom,Nat.add_comm] <;> assumption

/-- What stands behind the removed columns is as wide without them, unless it holds a tab and they
are not whole tab stops. -/
theorem columnsFrom_sub_iff (tabWidth : Nat) (reached : columns ≤ column) (line : Text) :
    columnsFrom tabWidth (column - columns) line + columns = columnsFrom tabWidth column line ↔
      tabWidth = 0 ∨ tabWidth ∣ columns ∨ tabBehind tabWidth columns column line = false := by
  obtain ⟨start,rfl⟩ := Nat.exists_eq_add_of_le' reached
  rw [Nat.add_sub_cancel]
  by_cases whole : tabWidth = 0 ∨ tabWidth ∣ columns
  · rw [columnsFrom_add whole,← or_assoc]
    exact iff_of_true rfl (.inl whole)
  · obtain ⟨positive,notWhole⟩ := not_or.mp whole
    simp only [positive,notWhole,false_or]
    constructor
    · intro same
      by_contra tab
      rw [Bool.not_eq_false] at tab
      have ends := columnsFrom_mod positive tab start
      rw [← same] at ends
      have apart := (Nat.modEq_iff_dvd' (Nat.le_add_right _ columns)).mp ends
      rw [Nat.add_sub_cancel_left] at apart
      exact notWhole apart
    · intro noTab
      have moved := columnsFrom_of_noTab reached noTab start
      omega

/-- A blank or a tab in front of the removed columns' end only moves what follows it. -/
theorem columnsFrom_cons {c : Char} {shown : Nat} (before : column < columns) (rest : Text)
    (width : (if c = ' ' then some 1 else if c = '\t' then some (tabColumns tabWidth column)
      else none) = some shown) :
    columnsFrom tabWidth column (c :: rest) = columnsFrom tabWidth (column + shown) rest ∧
      tabBehind tabWidth columns column (c :: rest) =
        tabBehind tabWidth columns (column + shown) rest := by
  split at width
  next blank =>
    subst blank
    obtain rfl := Option.some.inj width
    exact ⟨rfl,rfl⟩
  next =>
    split at width
    next tab =>
      subst tab
      obtain rfl := Option.some.inj width
      exact ⟨rfl,by simp [tabBehind,before]⟩
    next => cases width

/-- What is left of a line is `columns` columns to the left of where it was, unless a tab stands
behind the removed columns and these are not whole tab stops. -/
theorem columnsFrom_trimFrom_iff (notBehind : column ≤ columns)
    (deep : columns ≤ columnsFrom tabWidth column line) :
    columnsFrom tabWidth 0 (trimFrom tabWidth columns column line) + columns =
        columnsFrom tabWidth column line ↔
      tabWidth = 0 ∨ tabWidth ∣ columns ∨ tabBehind tabWidth columns column line = false := by
  fun_induction trimFrom tabWidth columns column line with
  | case1 column =>
    simp only [columnsFrom] at deep ⊢
    simp only [tabBehind,or_true,iff_true]
    omega
  | case2 column c rest there =>
    obtain rfl := Nat.le_antisymm notBehind there
    have moved := columnsFrom_sub_iff tabWidth (Nat.le_refl column) (c :: rest)
    rwa [Nat.sub_self] at moved
  | case3 column c rest before width content =>
    rw [columnsFrom] at deep
    · exact absurd deep before
    all_goals
      rintro _ ⟨⟩
      simp [width] at content
  | case4 column c rest before width shown width_eq across =>
    obtain ⟨same,behind⟩ := columnsFrom_cons (Nat.lt_of_not_le before) rest width_eq
    rw [columnsFrom_replicate,Nat.zero_add,same,behind]
    exact columnsFrom_sub_iff tabWidth (Nat.le_of_lt across) rest
  | case5 column c rest before width shown width_eq within ih =>
    obtain ⟨same,behind⟩ := columnsFrom_cons (Nat.lt_of_not_le before) rest width_eq
    rw [same] at deep ⊢
    rw [behind]
    exact ih (Nat.le_of_not_lt within) deep

theorem sharedColumns_le (layout : Layout) {lines : List Text} (member : line ∈ lines)
    (content : isBlank line = false) :
    sharedColumns layout lines ≤ indentColumns layout.tabWidth line := by
  have listed : indentColumns layout.tabWidth line ∈
      (lines.filter (!isBlank ·)).map (indentColumns layout.tabWidth) :=
    List.mem_map_of_mem (List.mem_filter.mpr ⟨member,by simp [content]⟩)
  obtain ⟨least,least_eq⟩ := Option.isSome_iff_exists.mp (List.isSome_min?_of_mem listed)
  have below : least ≤ indentColumns layout.tabWidth line :=
    (List.min?_eq_some_iff.mp least_eq).2 _ listed
  rw [sharedColumns,least_eq]
  dsimp only [Option.getD_some]
  split <;> omega

theorem dvd_sharedColumns (layout : Layout) (lines : List Text) :
    layout.indentWidth = 0 ∨ layout.indentWidth ∣ sharedColumns layout lines := by
  rcases Nat.eq_zero_or_pos layout.indentWidth with none | positive
  · exact .inl none
  · rw [sharedColumns,if_neg (Nat.ne_of_gt positive)]
    exact .inr (Nat.dvd_sub_mod _)

theorem considered_trimIndentation (layout : Layout) (considerFirst : Bool) (lines : List Text) :
    considered considerFirst (trimIndentation layout considerFirst lines) =
      shiftLeft layout (considered considerFirst lines) := by
  cases lines with
  | nil => cases considerFirst <;> rfl
  | cons line lines => cases considerFirst <;> rfl

/-- The lines move by whole levels of indentation that all of them have. A line with content stands
that many columns to the left afterwards, unless its indentation holds a tab behind the removed
columns and these are not whole tab stops: such a tab reaches to another stop than before. -/
theorem trimIndentation_shifts (layout : Layout) (considerFirst : Bool) (lines : List Text) :
    let columns := sharedColumns layout (considered considerFirst lines)
    (layout.indentWidth = 0 ∨ layout.indentWidth ∣ columns) ∧
      (∀ line ∈ considered considerFirst lines, isBlank line = false →
        columns ≤ indentColumns layout.tabWidth line) ∧
      List.Forall₂ (fun line moved => isBlank line = false →
          (indentColumns layout.tabWidth moved + columns = indentColumns layout.tabWidth line ↔
            layout.tabWidth = 0 ∨ layout.tabWidth ∣ columns ∨
              tabBehind layout.tabWidth columns 0 line = false))
        (considered considerFirst lines)
        (considered considerFirst (trimIndentation layout considerFirst lines)) := by
  intro columns
  refine ⟨dvd_sharedColumns layout _,fun line member => sharedColumns_le layout member,?_⟩
  rw [considered_trimIndentation,shiftLeft,List.forall₂_map_right_iff,List.forall₂_same]
  intro line member content
  rw [if_neg (by simp [content])]
  exact columnsFrom_trimFrom_iff (Nat.zero_le _) (sharedColumns_le layout member content)

/-- With tab stops at every eighth column and levels of four columns, a tab behind the first level
still reaches to the eighth column when this level is gone: the two lines end up eight columns apart
where four were between them. -/
theorem trimIndentation_apart :
    ¬ ∃ columns, 4 ∣ columns ∧
      List.Forall₂ (fun line moved => isBlank line = false →
          columns ≤ indentColumns 8 line ∧ indentColumns 8 moved + columns = indentColumns 8 line)
        ["    y();".toList,"    \tz();".toList]
        (trimIndentation ⟨8,4⟩ true ["    y();".toList,"    \tz();".toList]) := by
  have moved : trimIndentation ⟨8,4⟩ true ["    y();".toList,"    \tz();".toList] =
      ["y();".toList,"\tz();".toList] := by decide +kernel
  rintro ⟨columns,_,shifted⟩
  rw [moved,List.forall₂_cons,List.forall₂_cons] at shifted
  obtain ⟨first,second,_⟩ := shifted
  have four : 0 + columns = 4 := (first (by decide +kernel)).2
  have eight : 8 + columns = 8 := (second (by decide +kernel)).2
  omega

end Transplant.Text
