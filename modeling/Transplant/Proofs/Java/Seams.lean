import Transplant.Proofs.Java.Shown
import Transplant.Proofs.Java.Whole

/-! Putting a text in the place of a word. Tokens are cut out of each part as before when no token runs into the
next one at the two seams: in front of the new text and behind it. -/
namespace Transplant.Java

open Token (Kind)
open ExprLevel (openers leadingOp)

variable {c : Char} {rest : Text} {token first : Token}

/-! What is known of a token from how it is cut out. -/

theorem isIdentPart_of_isNumberPart (part : isNumberPart c = true) : isIdentPart c = true := by
  simp only [isNumberPart,Char.isAlphanum,Bool.or_eq_true] at part
  rcases part with (alpha | digit) | underscore
  · exact isIdentPart_of_isIdentStart (by simp [isIdentStart,Text.isAlphabetic_of_isAlpha c alpha])
  · have := isDigit_range digit
    simp [isIdentPart,Text.isAlphanumeric,show c.toNat < 128 by omega,Char.isAlphanum,digit]
  · simp [isIdentPart,underscore]

theorem scanNumber_isNumber (text : Text) : isNumber (scanNumber text).1 = true := by
  have front : ∀ c ∈ text.takeWhile isNumberPart, isNumberPart c = true := List.all_eq_true.mp List.all_takeWhile
  by_cases point : ∃ c rest, (scanWhile isNumberPart text).2 = '.' :: c :: rest ∧ c.isDigit = true
  · obtain ⟨c,rest,same,digit⟩ := point
    have part : isNumberPart c = true := by simp [isNumberPart,Char.isAlphanum,digit]
    have stop : isNumberPart '.' = false := by decide
    rw [scanNumber_fraction same digit]
    simp [isNumber,scanWhile,List.dropWhile_append_of_pos front,part,stop,digit,List.all_takeWhile]
  · have plain : ∀ c rest, (scanWhile isNumberPart text).2 = '.' :: c :: rest → c.isDigit = false := by
      intro c rest same
      simpa using fun digit => point ⟨c,rest,same,digit⟩
    have ended := @List.dropWhile_append_of_pos _ isNumberPart _ [] front
    rw [List.append_nil,List.dropWhile_nil] at ended
    rw [scanNumber_whole plain,scanWhile,isNumber,ended]

theorem scanToken_number (number : (scanToken c rest).1 = .number) :
    c.isDigit = true ∧ isNumber (scanToken c rest).2.1 = true := by
  have other : ∀ symbol ∈ symbols, symbol.2 ≠ .number := by decide
  simp only [scanToken] at number ⊢
  split at number
  · cases number
  rename_i doubled
  split at number
  · cases number
  rename_i quoted
  split at number
  · rename_i digit
    simp only [if_neg doubled,if_neg quoted,if_pos digit]
    exact ⟨digit,scanNumber_isNumber rest⟩
  split at number
  · cases number
  split at number
  · rename_i found
    exact absurd number (other _ (List.mem_of_find?_eq_some found))
  · cases number

/-- Nothing begins with the second character of longer punctuation but the two signs, nor with that of a comment. -/
theorem scanToken_second (second : c ∈ ['=','&','|','/','*']) (text : Text) :
    (scanToken c text).1 ∉ openers ∧ leadingOp (scanToken c text).1 = none := by
  have plain : c ≠ '"' ∧ c ≠ '\'' ∧ c.isDigit = false ∧ isIdentStart c = false := by
    simp only [List.mem_cons,List.not_mem_nil,or_false] at second
    rcases second with rfl | rfl | rfl | rfl | rfl <;> decide
  have other : ∀ symbol ∈ symbols, symbol.1.head? ∈ ['=','&','|','/','*'].map some →
      symbol.2 ∉ openers ∧ leadingOp symbol.2 = none := by decide
  have spelled : ∀ symbol ∈ symbols, symbol.1 ≠ [] := by decide
  obtain ⟨string,char,digit,word⟩ := plain
  rw [scanToken,if_neg string,if_neg char,if_neg (by simp [digit]),if_neg (by simp [word])]
  split
  · rename_i spelling kind found
    have listed := List.mem_of_find?_eq_some found
    obtain ⟨d,taken,same⟩ := List.exists_cons_of_ne_nil (spelled _ listed)
    have front := List.find?_some found
    simp only at same front
    rw [same,List.isPrefixOf_iff_prefix] at front
    refine other _ listed ?_
    rw [same,(List.cons_prefix_cons.mp front).1]
    exact List.mem_map_of_mem second
  · exact ⟨show Kind.unknown ∉ openers by decide,rfl⟩

namespace Token.CutBefore

theorem plain (cut : token.CutBefore rest) : token.Plain := by
  obtain ⟨c,taken,spelled,_,read⟩ := cut
  have plain := scanToken_plain c (taken ++ rest)
  rw [read] at plain
  simp only [← spelled,String.ofList_toList] at plain
  exact plain

/-- Behind a word, no character follows that belongs to it. -/
theorem stops (cut : token.CutBefore rest) (word : token.kind = .ident) : ∀ d ∈ rest.head?, isIdentPart d = false := by
  obtain ⟨c,taken,_,_,read⟩ := cut
  obtain ⟨begins,_⟩ := scanToken_word c (taken ++ rest) (by rw [read]; exact word)
  rw [scanToken_start begins] at read
  have left : (taken ++ rest).dropWhile isIdentPart = rest := congrArg (·.2.2) read
  have never := List.head?_dropWhile_not isIdentPart (taken ++ rest)
  rw [left] at never
  intro d same
  rwa [show rest.head? = some d from same] at never

/-- Punctuation stands in front of anything that does not make it longer. -/
theorem of_symbol (listed : (token.text.toList,token.kind) ∈ symbols)
    (alone : ∀ d ∈ rest.head?, ∀ longer ∈ symbols, longer.1 ≠ token.text.toList ++ [d])
    (divides : token.text.toList = ['/'] → ∀ d ∈ rest.head?, d ≠ '/' ∧ d ≠ '*') : token.CutBefore rest := by
  have some : ∀ symbol ∈ symbols, symbol.1 ≠ [] := by decide
  obtain ⟨c,taken,spelled⟩ := List.exists_cons_of_ne_nil (some _ listed)
  exact ⟨c,taken,spelled,scanToken_symbol listed spelled alone divides⟩

/-- In front of an expression, a sign is read with the same sign behind it, and other punctuation alone. -/
theorem ahead (listed : (token.text.toList,token.kind) ∈ symbols) (cut : first.CutBefore rest)
    (opens : first.kind ∈ openers ∨ (leadingOp first.kind).isSome = true)
    (apart : ∀ sign ∈ ['+','-'], token.text.toList = [sign] → first.text.toList.head? ≠ some sign) :
    token.CutBefore (first.text.toList ++ rest) := by
  have longer : ∀ longer ∈ symbols, ∀ symbol ∈ symbols, longer.1.dropLast = symbol.1 →
      longer.1.getLast? ∈ ['=','&','|'].map some ∨
        longer.1.getLast? ∈ ['+','-'].map some ∧ symbol.1 = longer.1.getLast?.toList := by decide +kernel
  obtain ⟨c,taken,spelled,_,read⟩ := cut
  have other (second : c ∈ ['=','&','|','/','*']) : False := by
    obtain ⟨opener,leading⟩ := scanToken_second second (taken ++ rest)
    rw [read] at opener leading
    simp [opener,leading] at opens
  rw [spelled]
  refine of_symbol listed ?_ ?_
  · rintro d ⟨⟩ symbol member same
    have ends := longer symbol member _ listed (by rw [same,List.dropLast_concat])
    rw [same,List.getLast?_concat] at ends
    rcases ends with second | ⟨sign,alone⟩
    · exact other (List.mem_append_left ['/','*'] (show c ∈ ['=','&','|'] by simpa using second))
    · exact apart c (by simpa using sign) alone (by rw [spelled]; rfl)
  · rintro _ d ⟨⟩
    exact ⟨fun slash => other (by simp [slash]),fun star => other (by simp [star])⟩

end Token.CutBefore

/-- A token that closes an expression runs into nothing but a word, and a number into a point with a digit behind. -/
theorem Token.Closes.cutBefore (closes : token.Closes) (cut : token.CutBefore [])
    (apart : ∀ d ∈ rest.head?, isIdentPart d = false) (point : ∀ d more, rest = '.' :: d :: more → d.isDigit = false) :
    token.CutBefore rest := by
  have kinds : ∀ kind ∈ enders, kind = .ident ∨ kind = .number ∨ ∃ symbol ∈ symbols, symbol.2 = kind := by decide
  have longest : ∀ symbol ∈ symbols, symbol.2 ∈ enders → symbol.1 ≠ ['/'] ∧
      ∀ longer ∈ symbols, longer.1.dropLast ≠ symbol.1 := by decide
  obtain ⟨c,taken,spelled,passed,read⟩ := id cut
  rw [List.append_nil] at read passed
  rcases closes with ender | ⟨quoted,whole⟩
  · rcases kinds _ ender with word | number | ⟨symbol,listed,same⟩
    · obtain ⟨start,parts⟩ := scanToken_word c taken (by rw [read]; exact word)
      rw [read] at parts
      exact ⟨c,taken,spelled,word ▸ scanToken_stops start parts apart⟩
    · obtain ⟨digit,isNumber⟩ := scanToken_number (by rw [read]; exact number)
      rw [read] at isNumber
      refine ⟨c,taken,spelled,number ▸ scanToken_digit digit isNumber (fun d first => ?_) point⟩
      exact Bool.eq_false_iff.mpr fun part => absurd (isIdentPart_of_isNumberPart part) (by simp [apart d first])
    · have text := cut.plain symbol listed same
      obtain ⟨divides,longest⟩ := longest symbol listed (same ▸ ender)
      rw [← text] at divides longest
      refine .of_symbol ?_ (fun d _ longer member ends => ?_) fun slash => absurd slash divides
      · rw [text,← same]
        exact listed
      · exact longest longer member (by rw [ends,List.dropLast_concat])
  · obtain ⟨kind,text⟩ := token
    simp only at quoted spelled
    rcases quoted with rfl | rfl
    · simp only [Token.isWhole,spelled,Bool.and_eq_true] at whole
      obtain rfl := eq_of_beq whole.1
      exact ⟨_,taken,spelled,scanToken_string whole.2 rest⟩
    · simp only [Token.isWhole,spelled,Bool.and_eq_true] at whole
      obtain rfl := eq_of_beq whole.1
      exact ⟨_,taken,spelled,scanToken_char whole.2 rest⟩

/-- Where a digit stands behind a point, the second token is a number. -/
theorem tokensFrom_point {text : Text} (start : Nat) (digit : c.isDigit = true) : ∃ second others,
    (tokensFrom start ('.' :: c :: text)).map (·.token) = .dot :: second :: others ∧ second.kind = .number := by
  have listed : (['.'],Kind.dot) ∈ symbols := by decide
  have longest : ∀ longer ∈ symbols, longer.1.dropLast ≠ ['.'] := by decide
  obtain ⟨passed,read⟩ := @scanToken_symbol '.' [] _ (c :: text) listed rfl
    (fun d _ longer member same => longest longer member (by rw [same,List.dropLast_concat])) fun slash => by cases slash
  have number : (scanToken c text).1 = .number := by
    have other (mark : Char) (never : mark.isDigit = false) : c ≠ mark := by
      rintro rfl
      rw [digit] at never
      cases never
    rw [scanToken,if_neg (other '"' (by decide)),if_neg (other '\'' (by decide)),if_pos digit]
  have begins : (scanGap .blank (c :: text)).2 = c :: text := by
    rw [scanGap_none (isDigit_not_space digit) (by rintro rfl; cases digit)]
  obtain ⟨span,behind⟩ := tokensFrom_some (start + Text.size [] + Text.size ['.']) begins
  have cut := tokensFrom_cons start passed read
  simp only [List.nil_append,behind] at cut
  exact ⟨_,_,congrArg (List.map (·.token)) cut,number⟩

section

variable {pre name post text : Text} {front back list : List PlacedToken} {start stop : Nat}

/-- Where a token stands in a text, the tokens before it are cut out of what is in front of it, a gap aside. -/
theorem parts_of_token
    (whole : tokens (pre ++ (name ++ post)) = front ++ ⟨token,⟨pre.size,pre.size + Text.size name⟩⟩ :: back) :
    ∃ part gap, pre = part ++ gap ∧ Scanned 0 (part ++ (gap ++ (name ++ post))) front part.size (gap ++ (name ++ post)) ∧
      scanGap .blank (gap ++ (name ++ post)) = (gap,name ++ post) ∧ token.text.toList = name ∧ token.CutBefore post ∧
      back = tokensFrom (pre.size + Text.size name) post := by
  generalize place : (⟨pre.size,pre.size + Text.size name⟩ : Span) = span at whole
  obtain ⟨here,left,scanned,cut⟩ := Scanned.of_tokensFrom whole
  obtain ⟨part,parted,size,_⟩ := scanned.alone
  obtain ⟨there,rest,first,behind⟩ := Scanned.of_tokensFrom (show tokensFrom here left = [⟨token,span⟩] ++ back from cut.symm)
  cases first with
  | @cons _ _ gap _ _ _ _ passed own others =>
    cases others
    obtain ⟨begins,ends⟩ := Span.mk.inj place
    rw [Nat.zero_add] at size
    subst size
    rw [parted] at scanned
    have same : pre ++ (name ++ post) = (part ++ gap) ++ (token.text.toList ++ rest) := by rw [parted,List.append_assoc]
    obtain ⟨front,left⟩ := Text.append_inj_of_size same (by rw [Text.size_append]; omega)
    obtain ⟨rfl,rfl⟩ := Text.append_inj_of_size left (by omega)
    exact ⟨part,gap,front,scanned,passed,rfl,own,by rw [behind,ends]⟩

/-- A text that begins and ends with a token takes the place of a token in another text. The tokens are those of both. -/
theorem tokens_replaced {inside : Text}
    (whole : tokens (pre ++ (name ++ post)) = front ++ ⟨token,⟨pre.size,pre.size + Text.size name⟩⟩ :: back)
    (scanned : Scanned start (inside ++ post) list stop post) (begins : ∃ first ∈ list.head?, first.span.start = start)
    (ahead : ∀ last ∈ front.getLast?, last.token.kind ≠ .dot ∧
      (last.span.stop = pre.size → last.token.CutBefore (inside ++ post))) :
    (tokens (pre ++ (inside ++ post))).map (·.token) =
      front.map (·.token) ++ (list.map (·.token) ++ back.map (·.token)) := by
  obtain ⟨part,gap,rfl,before,passed,rfl,cut,rfl⟩ := parts_of_token whole
  have point : gap ≠ ['.'] := by
    rintro rfl
    rw [List.singleton_append,scanGap_none (by decide) (by decide)] at passed
    cases passed
  -- The new text in front of what is behind the token.
  obtain ⟨_,_,more,same,first⟩ := scanned.first begins
  have nothing : scanGap .blank (inside ++ post) = ([],inside ++ post) := same ▸ first.nothing
  have gapAgain : scanGap .blank (gap ++ (inside ++ post)) = (gap,inside ++ post) := by
    have same := scanGap_before .blank (gap ++ (token.text.toList ++ post)) (fun none => ?_) nothing
    · rwa [passed] at same
    · rw [passed] at none
      exact absurd (List.append_eq_nil_iff.mp none).1 cut.spelled
  -- What was in front of the token in front of both.
  have ends : ∀ last ∈ front.getLast?, last.token.CutBefore (gap ++ (inside ++ post)) := by
    intro last ended
    obtain ⟨stop,cut⟩ := before.last last ended
    by_cases none : gap = []
    · subst none
      exact (ahead last ended).2 (by rw [stop,List.append_nil])
    · exact cut.resumes (.behind none fun alone => absurd alone point)
  obtain ⟨first,parted,_,further,_⟩ := before.before ends fun last ended dot => absurd dot (ahead last ended).1
  obtain rfl := List.append_cancel_right parted
  calc (tokens (part ++ gap ++ (inside ++ post))).map (·.token)
      = front.map (·.token) ++ (tokens (gap ++ (inside ++ post))).map (·.token) := by
        rw [List.append_assoc,tokens,further.tokensFrom,List.map_append,tokens,tokensFrom_anywhere 0]
    _ = front.map (·.token) ++ (tokens (inside ++ post)).map (·.token) := by
        rw [tokens_behind (show (scanGap .blank (gap ++ (inside ++ post))).2 = (scanGap .blank (inside ++ post)).2 by
          rw [gapAgain,nothing])]
    _ = front.map (·.token) ++ (list.map (·.token) ++
          (tokensFrom ((part ++ gap).size + Text.size token.text.toList) post).map (·.token)) := by
        rw [tokens,tokensFrom_anywhere 0 start,scanned.tokensFrom,List.map_append,tokensFrom_anywhere stop]

end

end Transplant.Java
