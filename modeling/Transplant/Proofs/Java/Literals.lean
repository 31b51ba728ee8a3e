import Transplant.Proofs.Block
import Transplant.Proofs.Java.Parts

/-! Where literals end. A quote closes a literal and a line end stops it unless a backslash escapes them, so
a literal leaves its line only behind an escaped line end. -/
namespace Transplant.Java

open Text (InLine)

/-- A backslash at the end escapes the next character unless it is escaped itself. -/
def escapes (front : Text) : Bool := front.foldl (fun escaped c => c == '\\' && !escaped) false

/-- A literal that goes on like this is not closed: every quote is escaped. -/
def Unclosed (quote : Char) (shown : Text) : Prop :=
  ∀ inner more, shown = inner ++ quote :: more → escapes inner = true

/-- Every quote and every line end is escaped, but for a quote at the end. -/
def Guarded (quote : Char) (taken : Text) : Prop :=
  ∀ inner c more, taken = inner ++ c :: more → c = quote ∨ isLineEnd c = true →
    escapes inner = true ∨ c = quote ∧ more = []

/-- What a literal takes behind its opening quote, and what it leaves. It is closed by a quote that is not
escaped, or the text ends, or a line end follows that is not escaped. -/
structure Quoted (quote : Char) (taken left : Text) : Prop where
  guarded : Guarded quote taken
  ended : (∃ inner, taken = inner ++ [quote] ∧ escapes inner = false) ∨ left = [] ∨
    Breaks left ∧ escapes taken = false

variable {c quote : Char} {rest shown taken left text : Text}

theorem escapes_escaped (c : Char) (rest : Text) : escapes ('\\' :: c :: rest) = escapes rest := by
  simp [escapes]

theorem escapes_plain (plain : c ≠ '\\') (rest : Text) : escapes (c :: rest) = escapes rest := by
  rw [escapes,List.foldl_cons,beq_eq_false_iff_ne.mpr plain,Bool.false_and]
  rfl

theorem Guarded.nil (quote : Char) : Guarded quote [] := by
  intro inner c more same
  cases inner <;> cases same

theorem Guarded.cons (other : c ≠ quote) (inLine : isLineEnd c = false)
    (behind : ∀ inner d more, taken = inner ++ d :: more → d = quote ∨ isLineEnd d = true →
      escapes (c :: inner) = true ∨ d = quote ∧ more = []) : Guarded quote (c :: taken) := by
  intro inner d more same stops
  obtain ⟨rfl,first⟩ | ⟨inner,rfl,later⟩ := List.cons_eq_append_iff.mp same
  · obtain ⟨rfl,_⟩ := List.cons.inj first
    rcases stops with same | ended
    · exact absurd same other
    · exact absurd (inLine.symm.trans ended) nofun
  · exact behind inner d more later stops

namespace Quoted

theorem nothing (breaks : Breaks left) : Quoted quote [] left where
  guarded := .nil quote
  ended := .inr (.inr ⟨breaks,rfl⟩)

theorem close (quote : Char) (left : Text) : Quoted quote [quote] left where
  guarded := by
    intro inner c more same _
    obtain ⟨rfl,first⟩ | ⟨inner,rfl,later⟩ := List.cons_eq_append_iff.mp same
    · obtain ⟨rfl,rfl⟩ := List.cons.inj first
      exact .inr ⟨rfl,rfl⟩
    · cases inner <;> cases later
  ended := .inl ⟨[],rfl,rfl⟩

theorem escape (other : '\\' ≠ quote) (quoted : Quoted quote taken left) (c : Char) :
    Quoted quote ('\\' :: c :: taken) left where
  guarded := by
    apply Guarded.cons other (by decide)
    intro inner d more same stops
    obtain ⟨rfl,_⟩ | ⟨inner,rfl,later⟩ := List.cons_eq_append_iff.mp same
    · exact .inl rfl
    · rw [escapes_escaped]
      exact quoted.guarded inner d more later stops
  ended := by
    rw [escapes_escaped]
    apply quoted.ended.imp_left
    rintro ⟨inner,rfl,closes⟩
    exact ⟨'\\' :: c :: inner,rfl,(escapes_escaped c inner).trans closes⟩

theorem plain (single : c ≠ '\\') (other : c ≠ quote) (inLine : isLineEnd c = false)
    (quoted : Quoted quote taken left) : Quoted quote (c :: taken) left where
  guarded := by
    apply Guarded.cons other inLine
    intro inner
    rw [escapes_plain single]
    exact quoted.guarded inner
  ended := by
    rw [escapes_plain single]
    apply quoted.ended.imp_left
    rintro ⟨inner,rfl,closes⟩
    exact ⟨c :: inner,rfl,(escapes_plain single inner).trans closes⟩

end Quoted

theorem scanQuoted_quoted (other : '\\' ≠ quote) (text : Text) :
    Quoted quote (scanQuoted quote text).1 (scanQuoted quote text).2 := by
  fun_induction scanQuoted quote text with
  | case1 =>
    apply Quoted.nothing
    intro d first
    cases first
  | case2 c rest taken left same ih =>
    rw [same] at ih
    exact ih.escape other c
  | case3 c rest escaped ended =>
    apply Quoted.nothing
    rintro d ⟨⟩
    exact ended
  | case4 rest => exact .close quote rest
  | case5 c rest escaped inLine differs taken left same ih =>
    rw [same] at ih
    by_cases single : c = '\\'
    · subst single
      cases rest with
      | nil =>
        -- A backslash that ends the text escapes nothing.
        cases same
        refine ⟨Guarded.cons other (by decide) fun inner d more same => ?_,.inr (.inl rfl)⟩
        cases inner <;> cases same
      | cons d rest => exact absurd rfl (escaped d rest rfl)
    · exact ih.plain single differs (by simpa using inLine)

namespace Quoted

/-- A literal that is not closed in its line and does not leave it takes all of it. -/
theorem eq_shown (quoted : Quoted quote taken left) (whole : taken ++ left = shown ++ rest) (inLine : InLine shown)
    (breaks : Breaks rest) (unclosed : Unclosed quote shown) (stays : InLine taken) : taken = shown := by
  rcases List.append_eq_append_iff.mp whole with ⟨more,rfl,rfl⟩ | ⟨more,rfl,rfl⟩
  · cases more with
    | nil => exact (List.append_nil taken).symm
    | cons d more =>
      rcases quoted.ended with ⟨inner,rfl,closes⟩ | none | ⟨stopped,_⟩
      · have escaped := unclosed inner (d :: more) (by simp)
        exact absurd (closes.symm.trans escaped) nofun
      · cases none
      · have here := (Text.inLine_cons.mp (Text.inLine_append.mp inLine).2).1
        exact absurd rfl (stopped.head_ne here)
  · cases more with
    | nil => exact List.append_nil shown
    | cons d more =>
      have here := (Text.inLine_cons.mp (Text.inLine_append.mp stays).2).1
      exact absurd rfl (breaks.head_ne here)

theorem inLine_iff (quoted : Quoted quote taken left) (whole : taken ++ left = shown ++ rest) (inLine : InLine shown)
    (breaks : Breaks rest) (quoteInLine : isLineEnd quote = false) :
    InLine taken ↔ ¬(Unclosed quote shown ∧ escapes shown = true ∧ rest ≠ []) := by
  constructor
  · rintro stays ⟨unclosed,escaped,more⟩
    obtain rfl := quoted.eq_shown whole inLine breaks unclosed stays
    obtain rfl := List.append_cancel_left whole
    rcases quoted.ended with ⟨inner,rfl,closes⟩ | none | ⟨_,plain⟩
    · exact absurd (closes.symm.trans (unclosed inner [] rfl)) nofun
    · exact more none
    · exact absurd (plain.symm.trans escaped) nofun
  · intro closed
    rcases List.append_eq_append_iff.mp whole with ⟨more,rfl,rfl⟩ | ⟨more,rfl,rfl⟩
    · exact (Text.inLine_append.mp inLine).1
    · cases more with
      | nil => rwa [List.append_nil]
      | cons d more =>
        have escaped := quoted.guarded shown d more rfl (.inr (breaks d rfl))
        refine absurd ⟨?_,escaped.resolve_right ?_,List.cons_ne_nil _ _⟩ closed
        · rintro inner behind rfl
          have inside := quoted.guarded inner quote (behind ++ d :: more) (by simp) (.inl rfl)
          exact inside.resolve_right (by simp)
        · rintro ⟨rfl,_⟩
          exact absurd rfl (breaks.head_ne quoteInLine)

end Quoted

theorem exists_line (text : Text) : ∃ shown rest, text = shown ++ rest ∧ InLine shown ∧ Breaks rest := by
  induction text with
  | nil => exact ⟨[],[],rfl,rfl,nofun⟩
  | cons c text ih =>
    cases ended : isLineEnd c with
    | true => exact ⟨[],c :: text,rfl,rfl,by rintro d ⟨⟩; exact ended⟩
    | false =>
      obtain ⟨shown,rest,rfl,inLine,breaks⟩ := ih
      exact ⟨c :: shown,rest,rfl,Text.inLine_cons.mpr ⟨ended,inLine⟩,breaks⟩

theorem mem_tokens {placed : PlacedToken} (member : placed ∈ tokens text) : ∃ front c taken left,
    text = front ++ c :: (taken ++ left) ∧ Text.size front = placed.span.start ∧
      placed.token.text.toList = c :: taken ∧ scanToken c (taken ++ left) = (placed.token.kind,taken,left) := by
  obtain ⟨list,others,parted⟩ := List.append_of_mem member
  obtain ⟨here,behind,scanned,cut⟩ := Scanned.of_tokensFrom parted
  obtain ⟨front,rfl,size,_⟩ := scanned.alone
  obtain ⟨blanks,c,taken,left,kind,rfl,_,read,rfl,_⟩ := tokensFrom_parts cut.symm
  refine ⟨front ++ blanks,c,taken,left,by simp,?_,String.toList_ofList,read⟩
  rw [Text.size_append,← size,Nat.zero_add]

theorem scanToken_literal (literal : (scanToken c text).1 = .string ∨ (scanToken c text).1 = .char) :
    (c = '"' ∨ c = '\'') ∧ (scanToken c text).2 = scanQuoted c text := by
  have other : ∀ symbol ∈ symbols, symbol.2 ≠ .string ∧ symbol.2 ≠ .char := by decide
  by_cases opened : c = '"' ∨ c = '\''
  · refine ⟨opened,?_⟩
    rcases opened with rfl | rfl <;> rfl
  · obtain ⟨double,single⟩ := not_or.mp opened
    rw [scanToken,if_neg double,if_neg single] at literal
    split at literal
    · simp at literal
    split at literal
    · simp at literal
    split at literal
    · rename_i found
      exact absurd literal (not_or.mpr (other _ (List.mem_of_find?_eq_some found)))
    · simp at literal

/-- A literal stays in its line exactly unless the line leaves it open and ends with a backslash that escapes
the line end. When it stays and is not closed, it takes the line as far as it goes. -/
theorem literals_inLine_iff {placed : PlacedToken} (member : placed ∈ tokens text)
    (literal : placed.token.kind = .string ∨ placed.token.kind = .char) : ∃ front quote shown rest,
    text = front ++ quote :: (shown ++ rest) ∧ Text.size front = placed.span.start ∧
      (quote = '"' ∨ quote = '\'') ∧ InLine shown ∧ Breaks rest ∧
      (InLine placed.token.text.toList ↔ ¬(Unclosed quote shown ∧ escapes shown = true ∧ rest ≠ [])) ∧
      (Unclosed quote shown → InLine placed.token.text.toList → placed.token.text.toList = quote :: shown) := by
  obtain ⟨front,quote,taken,left,rfl,place,spelled,read⟩ := mem_tokens member
  obtain ⟨opened,scanned⟩ := scanToken_literal (by rwa [read])
  obtain ⟨plain,inLine⟩ : '\\' ≠ quote ∧ isLineEnd quote = false := by
    rcases opened with rfl | rfl <;> decide
  obtain ⟨shown,rest,whole,stays,breaks⟩ := exists_line (taken ++ left)
  have quoted := scanQuoted_quoted plain (taken ++ left)
  rw [← scanned,read] at quoted
  refine ⟨front,quote,shown,rest,by rw [whole],place,opened,stays,breaks,?_,?_⟩
  · rw [spelled,Text.inLine_cons,and_iff_right inLine]
    exact quoted.inLine_iff whole stays breaks inLine
  · intro unclosed own
    rw [spelled] at own ⊢
    exact congrArg _ (quoted.eq_shown whole stays breaks unclosed (Text.inLine_cons.mp own).2)

/-- A literal that its line leaves open, behind whose last backslash the next line begins. -/
def continued : Text := "\"\\\n+ b".toList

theorem literals_inLine_iff_continued : ∃ placed ∈ tokens continued, placed.token.kind = .string ∧
    placed.token.text.toList = continued ∧ ∃ front quote shown rest, continued = front ++ quote :: (shown ++ rest) ∧
      Text.size front = placed.span.start ∧ Unclosed quote shown ∧ escapes shown = true ∧ rest ≠ [] := by
  have member : ⟨⟨.string,"\"\\\n+ b"⟩,⟨0,6⟩⟩ ∈ tokens continued := by decide +kernel
  obtain ⟨front,quote,shown,rest,whole,place,_,_,_,own,_⟩ := literals_inLine_iff member (.inl rfl)
  have leaves : ¬InLine continued := by decide
  exact ⟨_,member,rfl,rfl,front,quote,shown,rest,whole,place,not_not.mp (mt own.mpr leaves)⟩

/-- So a literal can go on in the next line. -/
theorem literal_leaves_line : ¬∀ (text : Text) (placed : PlacedToken), placed ∈ tokens text →
    placed.token.kind = .string ∨ placed.token.kind = .char → InLine placed.token.text.toList := by
  intro all
  have stays := all continued ⟨⟨.string,"\"\\\n+ b"⟩,⟨0,6⟩⟩ (by decide +kernel) (.inl rfl)
  exact absurd stays (by decide)

end Transplant.Java
