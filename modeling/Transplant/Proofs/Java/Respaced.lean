import Transplant.Proofs.Java.Spacing

/-! A text whose line breaks were written anew, together with the blanks behind them. Its tokens are
the same, unless a literal runs across a break. -/
namespace Transplant.Java

/-- The second text is the first with other breaks: in place of each break and some blanks behind
it stands another break with other blanks, or at the end of the text nothing. -/
inductive Respaced : Text → Text → Prop
  | nil : Respaced [] []
  | keep {c : Char} {left right : Text} (inLine : isLineEnd c = false) (rest : Respaced left right) :
      Respaced (c :: left) (c :: right)
  | broken {c d : Char} {gap other left right : Text} (first : isLineEnd c = true)
      (second : isLineEnd d = true) (blank : gap.all Text.isSpace = true)
      (otherBlank : other.all Text.isSpace = true) (rest : Respaced left right) :
      Respaced (c :: (gap ++ left)) (d :: (other ++ right))
  | ended {c : Char} {gap : Text} (first : isLineEnd c = true)
      (blank : gap.all Text.isSpace = true) : Respaced (c :: gap) []

/-- Nothing or a line end comes next. -/
def Breaks (text : Text) : Prop := ∀ c ∈ text.head?, isLineEnd c = true

variable {c d : Char} {left right blanks : Text} {mode : Gap} {quote : Char}

theorem isLineEnd_iff : isLineEnd c = true ↔ c = '\n' ∨ c = '\r' := by
  simp [isLineEnd]

theorem isSpace_of_isLineEnd (ended : isLineEnd c = true) : Text.isSpace c = true := by
  rcases isLineEnd_iff.mp ended with rfl | rfl <;> decide

theorem Breaks.head_ne (breaks : Breaks left) (inLine : isLineEnd c = false) : left.head? ≠ some c := by
  intro first
  rw [breaks c first] at inLine
  cases inLine

namespace Respaced

/-- Either both texts go on with one character, or the line is over in both. -/
theorem head (respaced : Respaced left right) :
    (∃ c first second, isLineEnd c = false ∧ left = c :: first ∧ right = c :: second ∧
      Respaced first second) ∨ (Breaks left ∧ Breaks right) := by
  cases respaced with
  | nil => exact .inr ⟨nofun,nofun⟩
  | keep inLine rest => exact .inl ⟨_,_,_,inLine,rfl,rfl,rest⟩
  | broken first second => exact .inr ⟨by simpa [Breaks] using first,by simpa [Breaks] using second⟩
  | ended first => exact .inr ⟨by simpa [Breaks] using first,nofun⟩

theorem tail (respaced : Respaced (c :: left) right) (inLine : isLineEnd c = false) :
    ∃ rest, right = c :: rest ∧ Respaced left rest := by
  rcases respaced.head with ⟨_,_,_,_,same,rfl,rest⟩ | ⟨breaks,_⟩
  · obtain ⟨rfl,rfl⟩ := List.cons.inj same
    exact ⟨_,rfl,rest⟩
  · exact absurd rfl (breaks.head_ne inLine)

theorem tail_left (respaced : Respaced left (c :: right)) (inLine : isLineEnd c = false) :
    ∃ rest, left = c :: rest ∧ Respaced rest right := by
  rcases respaced.head with ⟨_,_,_,_,rfl,same,rest⟩ | ⟨_,breaks⟩
  · obtain ⟨rfl,rfl⟩ := List.cons.inj same
    exact ⟨_,rfl,rest⟩
  · exact absurd rfl (breaks.head_ne inLine)

theorem eq_nil (respaced : Respaced [] right) : right = [] := by
  cases respaced
  rfl

theorem head_iff (respaced : Respaced left right) (inLine : isLineEnd c = false) :
    left.head? = some c ↔ right.head? = some c := by
  rcases respaced.head with ⟨_,_,_,_,rfl,rfl,_⟩ | ⟨first,second⟩
  · exact Iff.rfl
  · exact iff_of_false (first.head_ne inLine) (second.head_ne inLine)

end Respaced

/-- Whether a comment opens or a block comment closes with `c` in front of this text. -/
def Turns (mode : Gap) (c : Char) (text : Text) : Prop :=
  (mode = .blank ∧ c = '/' ∧ (text.head? = some '/' ∨ text.head? = some '*')) ∨
    (mode = .blockComment ∧ c = '*' ∧ text.head? = some '/')

theorem scanGap_plain (plain : ¬Turns mode c left) : (scanGap mode (c :: left)).2 =
    if mode = .blank && !Text.isSpace c then c :: left
    else (scanGap (if mode = .lineComment && isLineEnd c then .blank else mode) left).2 := by
  unfold Turns at plain
  rw [scanGap]
  · split <;> simp_all
  all_goals
    rintro rest rfl rfl rfl
    simp at plain

theorem not_turns (space : Text.isSpace c = true) : ¬Turns mode c left := by
  rintro (⟨_,rfl,_⟩ | ⟨_,rfl,_⟩) <;> exact absurd space (by decide)

/-- Blanks in a gap are passed over, and only a line comment ends at one. -/
theorem scanGap_blanks (outside : mode ≠ .lineComment) (blank : blanks.all Text.isSpace = true)
    (text : Text) : (scanGap mode (blanks ++ text)).2 = (scanGap mode text).2 := by
  induction blanks with
  | nil => rfl
  | cons c blanks ih =>
    obtain ⟨space,blank⟩ := (Bool.and_eq_true _ _).mp blank
    rw [← ih blank,List.cons_append,scanGap_plain (not_turns space)]
    simp [space,outside]

theorem scanGap_break (mode : Gap) (ended : isLineEnd c = true) (blank : blanks.all Text.isSpace = true)
    (text : Text) : (scanGap mode (c :: (blanks ++ text))).2 =
      (scanGap (if mode = .lineComment then .blank else mode) text).2 := by
  have space := isSpace_of_isLineEnd ended
  have outside : (if mode = .lineComment then Gap.blank else mode) ≠ .lineComment := by
    split
    · exact nofun
    · assumption
  rw [← scanGap_blanks outside blank text,scanGap_plain (not_turns space)]
  simp [space,ended]

/-- A literal does not go on where nothing or a line end comes next. -/
theorem scanQuoted_breaks (breaks : Breaks left) : scanQuoted quote left = ([],left) := by
  cases left with
  | nil => rfl
  | cons c rest =>
    have ended := breaks c rfl
    have plain : c ≠ '\\' := by
      rcases isLineEnd_iff.mp ended with rfl | rfl <;> decide
    simp [scanQuoted,plain,ended]

namespace Respaced

/-- A gap ends at the same place in both texts. -/
theorem scanGap (respaced : Respaced left right) (mode : Gap) :
    Respaced (scanGap mode left).2 (scanGap mode right).2 := by
  induction length : left.length using Nat.strongRecOn generalizing left right mode with
  | ind count ih =>
    cases respaced with
    | nil => cases mode <;> exact .nil
    | ended first blank =>
      have passed := scanGap_break mode first blank []
      rw [List.append_nil] at passed
      rw [passed]
      cases mode <;> exact .nil
    | broken first second blank otherBlank rest =>
      rw [scanGap_break mode first blank,scanGap_break mode second otherBlank]
      simp only [List.length_cons,List.length_append] at length
      exact ih _ (by omega) rest _ rfl
    | @keep c left right inLine rest =>
      simp only [List.length_cons] at length
      by_cases turns : Turns mode c left
      · -- The comment's two characters stand side by side in both texts.
        rcases turns with ⟨rfl,rfl,next | next⟩ | ⟨rfl,rfl,next⟩
        all_goals
          obtain ⟨left,rfl⟩ := List.head?_eq_some_iff.mp next
          obtain ⟨right,rfl,inner⟩ := rest.tail (by decide)
          have later := ih left.length (by simp only [List.length_cons] at length; omega) inner
          exact later _ rfl
      · have others : ¬Turns mode c right := by
          unfold Turns at turns ⊢
          rwa [← rest.head_iff (by decide),← rest.head_iff (by decide)]
        rw [scanGap_plain turns,scanGap_plain others]
        split
        · exact .keep inLine rest
        · exact ih _ (by omega) rest _ rfl

theorem scanWhile (respaced : Respaced left right) {keep : Char → Bool}
    (inLine : ∀ c, isLineEnd c = true → keep c = false) :
    (scanWhile keep left).1 = (scanWhile keep right).1 ∧
      Respaced (scanWhile keep left).2 (scanWhile keep right).2 := by
  simp only [Java.scanWhile]
  induction respaced with
  | nil => exact ⟨rfl,.nil⟩
  | @keep c _ _ plain rest ih =>
    cases kept : keep c with
    | true => simpa [kept] using ih
    | false => simpa [kept] using Respaced.keep plain rest
  | broken first second blank otherBlank rest =>
    simpa [inLine _ first,inLine _ second] using Respaced.broken first second blank otherBlank rest
  | ended first blank => simpa [inLine _ first] using Respaced.ended first blank

theorem scanNumber (respaced : Respaced left right) :
    (scanNumber left).1 = (scanNumber right).1 ∧ Respaced (scanNumber left).2 (scanNumber right).2 := by
  have parts : ∀ c, isLineEnd c = true → isNumberPart c = false := by
    intro c ended
    rcases isLineEnd_iff.mp ended with rfl | rfl <;> decide
  have digits : ∀ c, isLineEnd c = true → c.isDigit = false := by
    intro c ended
    rcases isLineEnd_iff.mp ended with rfl | rfl <;> decide
  obtain ⟨whole,behind⟩ := respaced.scanWhile parts
  by_cases point : ∃ c rest, (Java.scanWhile isNumberPart left).2 = '.' :: c :: rest ∧ c.isDigit = true
  · obtain ⟨c,rest,same,digit⟩ := point
    have inLine : isLineEnd c = false := by
      cases ended : isLineEnd c with
      | false => rfl
      | true => rw [digits c ended] at digit; cases digit
    rw [same] at behind
    obtain ⟨_,other,digits⟩ := behind.tail (by decide)
    obtain ⟨_,rfl,_⟩ := digits.tail inLine
    obtain ⟨fraction,rest⟩ := digits.scanWhile parts
    rw [scanNumber_fraction same digit,scanNumber_fraction other digit,whole,fraction]
    exact ⟨rfl,rest⟩
  · have plain : ∀ c rest, (Java.scanWhile isNumberPart left).2 = '.' :: c :: rest → c.isDigit = false := by
      intro c rest same
      simpa using fun digit => point ⟨c,rest,same,digit⟩
    have others : ∀ c rest, (Java.scanWhile isNumberPart right).2 = '.' :: c :: rest →
        c.isDigit = false := by
      intro c rest same
      cases ended : isLineEnd c with
      | true => exact digits c ended
      | false =>
        rw [same] at behind
        obtain ⟨_,first,digits⟩ := behind.tail_left (by decide)
        obtain ⟨_,rfl,_⟩ := digits.tail_left ended
        exact plain c _ first
    rw [scanNumber_whole plain,scanNumber_whole others]
    exact ⟨whole,behind⟩

/-- Punctuation is read alike, as none has a line end in it. -/
theorem spelled (respaced : Respaced left right) (spelling : Text)
    (inLine : spelling.any isLineEnd = false) :
    spelling.isPrefixOf left = spelling.isPrefixOf right ∧
      (spelling.isPrefixOf left = true →
        left.take spelling.length = right.take spelling.length ∧
        Respaced (left.drop spelling.length) (right.drop spelling.length)) := by
  induction spelling generalizing left right with
  | nil => exact ⟨by simp,fun _ => ⟨by simp,respaced⟩⟩
  | cons c spelling ih =>
    obtain ⟨plain,inLine⟩ := (Bool.or_eq_false_iff).mp inLine
    rcases respaced.head with ⟨d,first,second,_,rfl,rfl,rest⟩ | ⟨first,second⟩
    · obtain ⟨same,behind⟩ := ih rest inLine
      simp only [List.isPrefixOf,same,List.length_cons,List.take_succ_cons,List.drop_succ_cons,
        Bool.and_eq_true,List.cons.injEq,true_and]
      exact fun found => behind (same.trans found.2)
    · have lacks {text : Text} (breaks : Breaks text) : (c :: spelling).isPrefixOf text = false := by
        cases text with
        | nil => rfl
        | cons d text =>
          have other : c ≠ d := by
            rintro rfl
            exact breaks.head_ne plain rfl
          simp [List.isPrefixOf,other]
      simp [lacks first,lacks second]

/-- A literal that stays in its line ends at the same place in both texts. -/
theorem scanQuoted (respaced : Respaced left right)
    (unbroken : (scanQuoted quote left).1.any isLineEnd = false) :
    (scanQuoted quote left).1 = (scanQuoted quote right).1 ∧
      Respaced (scanQuoted quote left).2 (scanQuoted quote right).2 := by
  induction length : left.length using Nat.strongRecOn generalizing left right with
  | ind count ih =>
    rcases respaced.head with ⟨c,first,second,inLine,rfl,rfl,rest⟩ | ⟨first,second⟩
    · by_cases escape : c = '\\' ∧ first ≠ []
      · obtain ⟨rfl,some⟩ := escape
        obtain ⟨e,first,rfl⟩ := List.exists_cons_of_ne_nil some
        simp only [Java.scanQuoted,List.any_cons,Bool.or_eq_false_iff] at unbroken
        obtain ⟨second,rfl,inner⟩ := rest.tail unbroken.2.1
        obtain ⟨same,behind⟩ := ih first.length (by simp only [List.length_cons] at length; omega)
          inner unbroken.2.2 rfl
        simpa only [Java.scanQuoted,same,true_and] using behind
      · have step {text : Text} (plain : ¬(c = '\\' ∧ text ≠ [])) : Java.scanQuoted quote (c :: text) =
            if c = quote then ([c],text)
            else (c :: (Java.scanQuoted quote text).1,(Java.scanQuoted quote text).2) := by
          rw [Java.scanQuoted]
          · simp [inLine]
          · rintro d text rfl rfl
            simp at plain
        have others : ¬(c = '\\' ∧ second ≠ []) := by
          rintro ⟨rfl,some⟩
          refine escape ⟨rfl,?_⟩
          rintro rfl
          exact some rest.eq_nil
        rw [step escape] at unbroken
        rw [step escape,step others]
        split
        · exact ⟨rfl,rest⟩
        · rename_i inside
          rw [if_neg inside] at unbroken
          obtain ⟨same,behind⟩ := ih first.length (by simp only [List.length_cons] at length; omega)
            rest (by simpa [inLine] using unbroken) rfl
          exact ⟨by rw [same],behind⟩
    · rw [scanQuoted_breaks first,scanQuoted_breaks second]
      exact ⟨rfl,respaced⟩

theorem scanToken (respaced : Respaced left right) (inLine : isLineEnd c = false)
    (unbroken : (scanToken c left).1 = .string ∨ (scanToken c left).1 = .char →
      (scanToken c left).2.1.any isLineEnd = false) :
    (scanToken c left).1 = (scanToken c right).1 ∧ (scanToken c left).2.1 = (scanToken c right).2.1 ∧
      Respaced (scanToken c left).2.2 (scanToken c right).2.2 := by
  simp only [Java.scanToken] at unbroken ⊢
  split
  · rename_i quote
    rw [if_pos quote] at unbroken
    exact ⟨rfl,respaced.scanQuoted (unbroken (.inl rfl))⟩
  rename_i plain
  rw [if_neg plain] at unbroken
  split
  · rename_i quote
    rw [if_pos quote] at unbroken
    exact ⟨rfl,respaced.scanQuoted (unbroken (.inr rfl))⟩
  split
  · exact ⟨rfl,respaced.scanNumber⟩
  split
  · refine ⟨rfl,respaced.scanWhile fun c ended => ?_⟩
    rcases isLineEnd_iff.mp ended with rfl | rfl <;> decide
  · have whole := Respaced.keep inLine respaced
    have inside : ∀ symbol ∈ symbols, symbol.1.any isLineEnd = false := by decide
    have same : (symbols.find? fun symbol => symbol.1.isPrefixOf (c :: left)) =
        symbols.find? fun symbol => symbol.1.isPrefixOf (c :: right) :=
      List.find?_congr fun symbol member => (whole.spelled symbol.1 (inside symbol member)).1
    rw [same]
    cases found : symbols.find? fun symbol => symbol.1.isPrefixOf (c :: right) with
    | none => exact ⟨rfl,rfl,respaced⟩
    | some symbol =>
      have member := List.mem_of_find?_eq_some found
      obtain ⟨agree,taken⟩ := whole.spelled symbol.1 (inside symbol member)
      have spelled := List.find?_some found
      obtain ⟨first,behind⟩ := taken (agree.trans spelled)
      obtain ⟨size,length⟩ : ∃ size, symbol.1.length = size + 1 :=
        Nat.exists_eq_succ_of_ne_zero (by
          have nonempty : ∀ symbol ∈ symbols, symbol.1.length ≠ 0 := by decide
          exact nonempty symbol member)
      simp only [length,List.take_succ_cons,List.drop_succ_cons,List.cons.injEq,true_and,
        Nat.add_sub_cancel] at first behind ⊢
      exact ⟨first,behind⟩

end Respaced

/-- A token that is no literal, or a literal that stays in its line. -/
def Token.Unbroken (token : Token) : Prop :=
  token.kind = .string ∨ token.kind = .char → token.text.toList.any isLineEnd = false

instance (token : Token) : Decidable token.Unbroken := inferInstanceAs (Decidable (_ → _))

/-- What stands behind a gap is no blank. -/
theorem scanGap_shown (behind : (scanGap mode left).2 = c :: right) : Text.isSpace c = false := by
  fun_induction scanGap mode left generalizing c right with
  | case1 | case2 | case3 | case4 | case5 | case6 => simp_all

/-- One token is read behind a gap, or there is none left. -/
theorem tokensFrom_none (start : Nat) (behind : (scanGap .blank left).2 = []) :
    tokensFrom start left = [] := by
  rw [tokensFrom]
  split
  · rfl
  · simp_all

theorem tokensFrom_some (start : Nat) (behind : (scanGap .blank left).2 = c :: right) :
    ∃ span, tokensFrom start left =
      ⟨⟨(scanToken c right).1,String.ofList (c :: (scanToken c right).2.1)⟩,span⟩ ::
        tokensFrom span.stop (scanToken c right).2.2 := by
  have passed : scanGap .blank left = ((scanGap .blank left).1,
      c :: ((scanToken c right).2.1 ++ (scanToken c right).2.2)) := by
    rw [scanToken_append,← behind]
  have read : scanToken c ((scanToken c right).2.1 ++ (scanToken c right).2.2) =
      scanToken c right := by
    rw [scanToken_append]
  exact ⟨_,tokensFrom_cons start passed read⟩

/-- Writing the breaks anew keeps all tokens when no literal runs across one. -/
theorem Respaced.tokensFrom (respaced : Respaced left right) (start there : Nat)
    (unbroken : ∀ token ∈ tokensFrom start left, token.token.Unbroken) :
    (tokensFrom start left).map (·.token) = (tokensFrom there right).map (·.token) := by
  induction length : left.length using Nat.strongRecOn generalizing left right start there with
  | ind count ih =>
    have behind := respaced.scanGap .blank
    cases rest : (Java.scanGap .blank left).2 with
    | nil =>
      rw [rest] at behind
      rw [tokensFrom_none start rest,tokensFrom_none there behind.eq_nil]
    | cons c first =>
      have inLine : isLineEnd c = false := by
        cases ended : isLineEnd c with
        | false => rfl
        | true => rw [← scanGap_shown rest,isSpace_of_isLineEnd ended]
      rw [rest] at behind
      obtain ⟨second,other,inner⟩ := behind.tail inLine
      obtain ⟨span,read⟩ := tokensFrom_some start rest
      obtain ⟨place,again⟩ := tokensFrom_some there other
      rw [read] at unbroken ⊢
      rw [again]
      obtain ⟨own,others⟩ := List.forall_mem_cons.mp unbroken
      obtain ⟨kind,taken,rests⟩ := inner.scanToken inLine fun literal => by
        have text := own literal
        rw [String.toList_ofList,List.any_cons,Bool.or_eq_false_iff] at text
        exact text.2
      have shorter : (Java.scanToken c first).2.2.length < count := by
        have whole := congrArg List.length (scanGap_append .blank left)
        have part := congrArg List.length (scanToken_append c first)
        rw [rest] at whole
        simp only [List.length_append,List.length_cons] at whole part
        omega
      simp only [List.map_cons,kind,taken]
      rw [ih _ shorter rests span.stop place.stop others rfl]

end Transplant.Java
