import Mathlib.Data.List.Infix
import Transplant.Proofs.Java.Respaced

/-! Cutting parts of a text into tokens. Where a token ends is decided by the two characters behind it, so
a token is cut out of a part of the text as it is out of the whole one, and pieces are cut out of their
text when each three neighbours are. -/
namespace Transplant.Java

open Token (Kind)

variable {c d : Char} {text rest other : Text} {kind : Kind} {quote : Char}

/-- The text begins with what the first two characters of the other one begin with. -/
def Near (other rest : Text) : Prop := other.take 2 <+: rest.take 2

namespace Near

theorem of_isPrefix (front : other <+: rest) : Near other rest := List.IsPrefix.take front 2

theorem of_append (enough : 2 ≤ rest.length) (more : Text) : Near (rest ++ more) rest := by
  rw [Near,List.take_append_of_le_length enough]

theorem behind (near : Near other rest) (front : Text) : Near (front ++ other) (front ++ rest) := by
  have part : other.take (2 - front.length) <+: rest.take (2 - front.length) := by
    have shorter := List.IsPrefix.take near (2 - front.length)
    rwa [List.take_take,List.take_take,Nat.min_eq_left (Nat.sub_le _ _)] at shorter
  rw [Near,List.take_append,List.take_append]
  exact (List.prefix_append_right_inj _).mpr part

theorem cases (near : Near other rest) : other = [] ∨ ∃ d more behind, other = d :: more ∧ rest = d :: behind ∧
    (more = [] ∨ ∃ e, more.head? = some e ∧ behind.head? = some e) := by
  match other,rest,near with
  | [],_,_ => exact .inl rfl
  | [d],e :: behind,near =>
    obtain rfl : d = e := by simpa [Near] using near
    exact .inr ⟨d,[],behind,rfl,rfl,.inl rfl⟩
  | d :: e :: more,f :: behind,near =>
    obtain ⟨rfl,second⟩ : d = f ∧ [e] <+: behind.take 1 := by simpa [Near,List.cons_prefix_cons] using near
    obtain ⟨g,behind,rfl⟩ := List.exists_cons_of_ne_nil (l := behind) (by rintro rfl; simp at second)
    obtain rfl : e = g := by simpa using second
    exact .inr ⟨d,_,_,rfl,rfl,.inr ⟨e,rfl,rfl⟩⟩

theorem head (near : Near other rest) : ∀ d ∈ other.head?, d ∈ rest.head? := by
  rcases near.cases with rfl | ⟨d,more,behind,rfl,rfl,_⟩
  · exact nofun
  · exact fun _ same => same

theorem second {c d e : Char} {more : Text} (near : Near (d :: e :: more) (c :: rest)) : ∃ behind, rest = e :: behind := by
  obtain none | ⟨_,_,behind,same,parted,next⟩ := near.cases
  · cases none
  · cases same
    cases parted
    obtain ⟨_,first,again⟩ := next.resolve_left (List.cons_ne_nil _ _)
    cases first
    obtain ⟨more,rfl⟩ := List.head?_eq_some_iff.mp again
    exact ⟨more,rfl⟩

end Near

/-- What is passed over in front of a character that is no blank and opens no comment. -/
theorem scanGap_nothing_iff : scanGap .blank (c :: rest) = ([],c :: rest) ↔
    Text.isSpace c = false ∧ ¬Turns .blank c rest := by
  constructor
  · intro nothing
    refine ⟨scanGap_shown (congrArg Prod.snd nothing),?_⟩
    rintro (⟨_,rfl,next | next⟩ | ⟨other,_⟩)
    · obtain ⟨rest,rfl⟩ := List.head?_eq_some_iff.mp next
      simp [scanGap] at nothing
    · obtain ⟨rest,rfl⟩ := List.head?_eq_some_iff.mp next
      simp [scanGap] at nothing
    · cases other
  · rintro ⟨shown,plain⟩
    have behind := scanGap_plain plain
    have whole := scanGap_append .blank (c :: rest)
    rw [if_pos (by simp [shown])] at behind
    rw [behind,List.append_left_eq_self] at whole
    exact Prod.ext whole behind

/-- A block comment takes the next character along. -/
theorem scanGap_inside (none : (scanGap .blockComment text).1 = []) : text = [] := by
  cases text with
  | nil => rfl
  | cons c rest =>
    unfold scanGap at none
    split at none <;> simp_all

/-- A gap ends where it ends before another text that begins with no gap. -/
theorem scanGap_before (mode : Gap) (text : Text) (ended : (scanGap mode text).2 = [] → other = [])
    (nothing : scanGap .blank other = ([],other)) :
    scanGap mode ((scanGap mode text).1 ++ other) = ((scanGap mode text).1,other) := by
  fun_induction scanGap mode text with
  | case1 rest gap left same ih =>
    rw [same] at ih
    simp [scanGap,ih ended]
  | case2 rest gap left same ih =>
    rw [same] at ih
    simp [scanGap,ih ended]
  | case3 rest gap left same ih =>
    rw [same] at ih
    simp [scanGap,ih ended]
  | case4 mode c rest opened doubled closed stopped =>
    obtain ⟨rfl,_⟩ : mode = .blank ∧ Text.isSpace c = false := by simpa using stopped
    exact nothing
  | case5 mode c rest opened doubled closed next going gap left same ih =>
    have whole := scanGap_append next rest
    rw [same] at ih whole
    rw [List.cons_append,scanGap]
    · rw [if_neg going,show scanGap _ (gap ++ other) = (gap,other) from ih ended]
    · rintro more rfl rfl _
      exact going (by decide)
    · rintro more rfl rfl _
      exact going (by decide)
    · -- A comment that closes with `c` does so in front of what followed, too.
      rintro more rfl rfl parted
      cases gap with
      | nil =>
        obtain rfl := scanGap_inside (congrArg Prod.fst same)
        rw [ended (by simpa using whole)] at parted
        cases parted
      | cons d gap =>
        obtain ⟨rfl,_⟩ := List.cons.inj parted
        exact closed _ rfl rfl whole.symm
  | case6 mode =>
    rw [ended rfl]
    cases mode <;> rfl

/-- Behind a gap no other one begins. -/
theorem scanGap_again {mode : Gap} (behind : (scanGap mode text).2 = c :: rest) :
    scanGap .blank (c :: rest) = ([],c :: rest) := by
  fun_induction scanGap mode text with
  | case1 | case2 | case3 | case5 | case6 => simp_all
  | case4 mode d left opened doubled closed ended =>
    obtain ⟨rfl,shown⟩ : mode = .blank ∧ Text.isSpace d = false := by simpa using ended
    obtain ⟨rfl,rfl⟩ := List.cons.inj behind
    refine scanGap_nothing_iff.mpr ⟨shown,?_⟩
    rintro (⟨_,rfl,next | next⟩ | ⟨other,_⟩)
    · obtain ⟨_,rfl⟩ := List.head?_eq_some_iff.mp next
      exact opened _ rfl rfl rfl
    · obtain ⟨_,rfl⟩ := List.head?_eq_some_iff.mp next
      exact doubled _ rfl rfl rfl
    · cases other

/-- A gap ends where it ends before another text that goes on in the same way. -/
theorem scanGap_near (mode : Gap) (text : Text) (near : Near other (scanGap mode text).2) :
    scanGap mode ((scanGap mode text).1 ++ other) = ((scanGap mode text).1,other) := by
  rcases near.cases with rfl | ⟨d,more,rest,rfl,behind,_⟩
  · exact scanGap_before mode text (fun _ => rfl) rfl
  refine scanGap_before mode text (fun ended => by rw [ended] at behind; cases behind) ?_
  obtain ⟨shown,plain⟩ := scanGap_nothing_iff.mp (scanGap_again behind)
  rw [behind] at near
  have same (mark : Char) (next : more.head? = some mark) : rest.head? = some mark := by
    obtain ⟨_,rfl⟩ := List.head?_eq_some_iff.mp next
    obtain ⟨_,rfl⟩ := near.second
    rfl
  refine scanGap_nothing_iff.mpr ⟨shown,?_⟩
  rintro (⟨_,rfl,next | next⟩ | ⟨other,_⟩)
  · exact plain (.inl ⟨rfl,rfl,.inl (same _ next)⟩)
  · exact plain (.inl ⟨rfl,rfl,.inr (same _ next)⟩)
  · cases other

/-- The text goes on as the other one as far as a token in front of it looks: it may end, a line end stands for
a line end, and other characters are the same ones, behind a point the second one as well. -/
structure Resumes (other rest : Text) : Prop where
  eq_nil : rest = [] → other = []
  breaks : Breaks rest → Breaks other
  head : ∀ c ∈ other.head?, isLineEnd c = false → c ∈ rest.head?
  point : ∀ c more, other = '.' :: c :: more → ∃ behind, rest = '.' :: c :: behind

namespace Resumes

theorem of_near (near : Near other rest) : Resumes other rest where
  eq_nil := by
    rintro rfl
    rcases near.cases with rfl | ⟨_,_,_,_,none,_⟩
    · rfl
    · cases none
  breaks breaks d first := breaks d (near.head d first)
  head d first _ := near.head d first
  point c more same := by
    subst same
    obtain ⟨left,first⟩ := List.head?_eq_some_iff.mp (near.head '.' rfl)
    rw [first] at near
    obtain ⟨behind,rfl⟩ := near.second
    exact ⟨behind,first⟩

/-- A line end ends what anything else may end. -/
theorem of_breaks (breaks : Breaks other) (some : rest ≠ []) : Resumes other rest where
  eq_nil none := absurd none some
  breaks _ := breaks
  head c first inLine := absurd first (breaks.head_ne inLine)
  point c more same := by
    subst same
    exact absurd (breaks '.' rfl) (by decide)

/-- Behind the same characters anything may follow, and behind a point alone what begins alike. -/
theorem behind {front : Text} (some : front ≠ []) (point : front = ['.'] → ∀ c ∈ other.head?, c ∈ rest.head?) :
    Resumes (front ++ other) (front ++ rest) := by
  obtain ⟨c,front,rfl⟩ := List.exists_cons_of_ne_nil some
  refine ⟨nofun,id,fun d first _ => first,fun d more same => ?_⟩
  rw [List.cons_append] at same
  obtain ⟨rfl,next⟩ := List.cons.inj same
  cases front with
  | nil =>
    obtain rfl : other = d :: more := next
    obtain ⟨left,rfl⟩ := List.head?_eq_some_iff.mp (point rfl d rfl)
    exact ⟨left,rfl⟩
  | cons e front =>
    rw [List.cons_append] at next
    obtain ⟨rfl,_⟩ := List.cons.inj next
    exact ⟨_,rfl⟩

end Resumes

theorem scanQuoted_resumes (plain : quote ≠ '\\') (resumes : Resumes other (scanQuoted quote text).2) :
    scanQuoted quote ((scanQuoted quote text).1 ++ other) = ((scanQuoted quote text).1,other) := by
  fun_induction scanQuoted quote text with
  | case1 =>
    rw [resumes.eq_nil rfl]
    rfl
  | case2 c rest taken left same ih =>
    rw [same] at ih
    simp [scanQuoted,ih resumes]
  | case3 c rest escaped ended => exact scanQuoted_breaks (resumes.breaks (by simpa [Breaks] using ended))
  | case4 rest escaped inLine =>
    simp [scanQuoted,plain,inLine]
  | case5 c rest escaped inLine further taken left same ih =>
    rw [same] at ih
    have next := ih resumes
    rw [List.cons_append,scanQuoted]
    · rw [if_neg inLine,if_neg further,next]
    · rintro e behind rfl again
      -- A backslash is taken alone only at the end of the text.
      have none : rest = [] := by
        cases rest with
        | nil => rfl
        | cons next rest => exact (escaped next rest rfl rfl).elim
      rw [none,scanQuoted] at same
      obtain ⟨rfl,rfl⟩ := Prod.mk.inj same
      rw [resumes.eq_nil rfl] at again
      cases again

theorem scanWhile_resumes {keep : Char → Bool} (inLine : ∀ c, isLineEnd c = true → keep c = false)
    (resumes : Resumes other (scanWhile keep text).2) :
    scanWhile keep ((scanWhile keep text).1 ++ other) = ((scanWhile keep text).1,other) := by
  refine scanWhile_stops List.all_takeWhile fun d first => ?_
  cases broken : isLineEnd d with
  | true => exact inLine d broken
  | false =>
    have behind := resumes.head d first broken
    cases ended : text.dropWhile keep with
    | nil => simp [scanWhile,ended] at behind
    | cons e rest =>
      obtain rfl : e = d := by simpa [scanWhile,ended] using behind
      simpa [ended] using List.head?_dropWhile_not keep text

theorem scanNumber_resumes (resumes : Resumes other (scanNumber text).2) :
    scanNumber ((scanNumber text).1 ++ other) = ((scanNumber text).1,other) := by
  have inLine : ∀ c, isLineEnd c = true → isNumberPart c = false := by
    intro c ended
    rcases isLineEnd_iff.mp ended with rfl | rfl <;> decide
  by_cases point : ∃ c rest, (scanWhile isNumberPart text).2 = '.' :: c :: rest ∧ c.isDigit = true
  · obtain ⟨c,rest,same,digit⟩ := point
    rw [scanNumber_fraction same digit] at resumes ⊢
    have part : isNumberPart c = true := by simp [isNumberPart,Char.isAlphanum,digit]
    obtain ⟨fraction,first⟩ : ∃ fraction, (scanWhile isNumberPart (c :: rest)).1 = c :: fraction :=
      ⟨rest.takeWhile isNumberPart,by simp [scanWhile,part]⟩
    have behind := scanWhile_resumes inLine resumes
    rw [first,List.cons_append] at behind
    rw [first]
    have whole : scanWhile isNumberPart ((scanWhile isNumberPart text).1 ++ '.' :: c :: (fraction ++ other)) =
        ((scanWhile isNumberPart text).1,'.' :: c :: (fraction ++ other)) :=
      scanWhile_stops List.all_takeWhile (by simp [isNumberPart])
    rw [List.append_assoc,List.cons_append,List.cons_append,scanNumber_fraction (congrArg Prod.snd whole) digit,whole,
      behind]
  · have plain : ∀ c rest, (scanWhile isNumberPart text).2 = '.' :: c :: rest → c.isDigit = false := by
      intro c rest same
      simpa using fun digit => point ⟨c,rest,same,digit⟩
    rw [scanNumber_whole plain] at resumes ⊢
    have whole := scanWhile_resumes inLine resumes
    rw [scanNumber_whole,whole]
    rw [whole]
    rintro d more rfl
    obtain ⟨rest,same⟩ := resumes.point d more rfl
    exact plain d rest same

/-- Punctuation has two characters at most, so no more than one behind what was taken. -/
theorem prefix_of_resumes {spelling taken : Text} (short : spelling.length ≤ 2) (inLine : spelling.any isLineEnd = false)
    (resumes : Resumes other rest) (front : spelling <+: c :: (taken ++ other)) : spelling <+: c :: (taken ++ rest) := by
  match spelling,short with
  | [],_ => exact List.nil_prefix
  | [d],_ => exact List.cons_prefix_cons.mpr ⟨(List.cons_prefix_cons.mp front).1,List.nil_prefix⟩
  | [d,e],_ =>
    obtain ⟨rfl,second⟩ := List.cons_prefix_cons.mp front
    refine List.cons_prefix_cons.mpr ⟨rfl,?_⟩
    cases taken with
    | nil =>
      obtain ⟨behind,same⟩ := second
      have first : e ∈ other.head? := by rw [← show e :: behind = other from same]; rfl
      obtain ⟨more,same⟩ := List.head?_eq_some_iff.mp (resumes.head e first (by simp_all))
      simp [same]
    | cons f taken => simpa [List.cons_prefix_cons] using second

/-- A token ends where it ends before another text that goes on in the same way or with a line end. -/
theorem scanToken_resumes (c : Char) (text : Text) (resumes : Resumes other (scanToken c text).2.2) :
    scanToken c ((scanToken c text).2.1 ++ other) = ((scanToken c text).1,(scanToken c text).2.1,other) := by
  have short : ∀ symbol ∈ symbols, symbol.1.length ≤ 2 ∧ symbol.1 ≠ [] := by decide
  have inLine : ∀ symbol ∈ symbols, symbol.1.any isLineEnd = false := by decide
  by_cases doubled : c = '"'
  · simp only [scanToken,if_pos doubled] at resumes ⊢
    rw [scanQuoted_resumes (by rw [doubled]; decide) resumes]
  by_cases single : c = '\''
  · simp only [scanToken,if_neg doubled,if_pos single] at resumes ⊢
    rw [scanQuoted_resumes (by rw [single]; decide) resumes]
  by_cases digit : c.isDigit = true
  · simp only [scanToken,if_neg doubled,if_neg single,if_pos digit] at resumes ⊢
    rw [scanNumber_resumes resumes]
  by_cases word : isIdentStart c = true
  · have parts : ∀ c, isLineEnd c = true → isIdentPart c = false := by
      intro c ended
      rcases isLineEnd_iff.mp ended with rfl | rfl <;> decide
    simp only [scanToken,if_neg doubled,if_neg single,if_neg digit,if_pos word] at resumes ⊢
    rw [scanWhile_resumes parts resumes]
  simp only [scanToken,if_neg doubled,if_neg single,if_neg digit,if_neg word] at resumes ⊢
  cases found : symbols.find? fun symbol => symbol.1.isPrefixOf (c :: text) with
  | none =>
    simp only [found] at resumes ⊢
    have still : (symbols.find? fun symbol => symbol.1.isPrefixOf (c :: ([] ++ other))) = none := by
      rw [List.find?_eq_none] at found ⊢
      intro symbol member front
      refine found symbol member (List.isPrefixOf_iff_prefix.mpr ?_)
      exact prefix_of_resumes (short symbol member).1 (inLine symbol member) resumes (List.isPrefixOf_iff_prefix.mp front)
    rw [still]
    rfl
  | some symbol =>
    obtain ⟨front,before,behind,parted,others⟩ := List.find?_eq_some_iff_append.mp found
    have inside (earlier : Text × Kind) (member : earlier ∈ before) : earlier ∈ symbols := by simp [parted,member]
    have bound := short symbol (by simp [parted])
    obtain ⟨d,taken,spelled⟩ := List.exists_cons_of_ne_nil bound.2
    obtain ⟨rest,whole⟩ := List.isPrefixOf_iff_prefix.mp front
    rw [spelled,List.cons_append] at whole
    obtain ⟨rfl,rfl⟩ := List.cons.inj whole
    simp only [found,spelled,List.length_cons,Nat.add_sub_cancel,List.take_left,List.drop_left] at resumes ⊢
    have still : (symbols.find? fun symbol => symbol.1.isPrefixOf (d :: (taken ++ other))) = some symbol := by
      refine List.find?_eq_some_iff_append.mpr ⟨?_,before,behind,parted,fun earlier member => ?_⟩
      · rw [spelled,List.isPrefixOf_iff_prefix,List.cons_prefix_cons]
        exact ⟨rfl,List.prefix_append _ _⟩
      · have lacks := others earlier member
        rw [Bool.not_eq_true',← Bool.not_eq_true,List.isPrefixOf_iff_prefix] at lacks ⊢
        have known := inside earlier member
        exact fun also => lacks (prefix_of_resumes (short earlier known).1 (inLine earlier known) resumes also)
    rw [still]
    simp [spelled]

/-- Where no gap begins in front of a token, none begins before another text that goes on like this. -/
theorem scanGap_resumes {taken : Text} (nothing : scanGap .blank (c :: (taken ++ rest)) = ([],c :: (taken ++ rest)))
    (resumes : Resumes other rest) : scanGap .blank (c :: (taken ++ other)) = ([],c :: (taken ++ other)) := by
  obtain ⟨shown,plain⟩ := scanGap_nothing_iff.mp nothing
  have same (mark : Char) (inLine : isLineEnd mark = false) (next : (taken ++ other).head? = some mark) :
      (taken ++ rest).head? = some mark := by
    cases taken with
    | nil => exact resumes.head mark next inLine
    | cons => exact next
  refine scanGap_nothing_iff.mpr ⟨shown,?_⟩
  rintro (⟨_,rfl,next | next⟩ | ⟨other,_⟩)
  · exact plain (.inl ⟨rfl,rfl,.inl (same _ (by decide) next)⟩)
  · exact plain (.inl ⟨rfl,rfl,.inr (same _ (by decide) next)⟩)
  · cases other

theorem tokensFrom_nil (start : Nat) : tokensFrom start [] = [] := tokensFrom_none start (by rfl)

/-- How the first token is cut out of a text that has one. -/
theorem tokensFrom_parts {start : Nat} {first : PlacedToken} {others : List PlacedToken}
    (cut : tokensFrom start text = first :: others) : ∃ blanks c taken rest kind,
    text = blanks ++ c :: (taken ++ rest) ∧
      scanGap .blank (blanks ++ c :: (taken ++ rest)) = (blanks,c :: (taken ++ rest)) ∧
      scanToken c (taken ++ rest) = (kind,taken,rest) ∧
      first = ⟨⟨kind,String.ofList (c :: taken)⟩,
        ⟨start + Text.size blanks,start + Text.size blanks + Text.size (c :: taken)⟩⟩ ∧
      others = tokensFrom (start + Text.size blanks + Text.size (c :: taken)) rest := by
  have whole := scanGap_append .blank text
  rw [tokensFrom] at cut
  split at cut
  · cases cut
  · rename_i blanks c left gap
    obtain ⟨rfl,rfl⟩ := List.cons.inj cut
    have part := scanToken_append c left
    rw [gap] at whole
    refine ⟨blanks,c,(scanToken c left).2.1,(scanToken c left).2.2,(scanToken c left).1,?_,?_,?_,rfl,rfl⟩
    · rw [part]
      exact whole.symm
    · rw [part,show blanks ++ c :: left = text from whole,gap]
    · rw [part]

/-- The token, further on in a text. -/
def PlacedToken.later (count : Nat) (token : PlacedToken) : PlacedToken :=
  { token with span := token.span.map (· + count) }

/-- A text that begins later is cut into the same tokens, each as much later. -/
theorem tokensFrom_later (start count : Nat) (text : Text) :
    tokensFrom (start + count) text = (tokensFrom start text).map (.later count) := by
  induction length : text.length using Nat.strongRecOn generalizing text start with
  | ind size ih =>
    cases cut : tokensFrom start text with
    | nil =>
      cases behind : (scanGap .blank text).2 with
      | nil => exact tokensFrom_none _ behind
      | cons c rest =>
        obtain ⟨span,read⟩ := tokensFrom_some start behind
        rw [cut] at read
        cases read
    | cons first others =>
      obtain ⟨blanks,c,taken,rest,kind,rfl,passed,read,rfl,rfl⟩ := tokensFrom_parts cut
      simp only [List.length_append,List.length_cons] at length
      rw [tokensFrom_cons (start + count) passed read,List.map_cons,← ih rest.length (by omega) _ rest rfl]
      simp only [PlacedToken.later,Span.map,Nat.add_right_comm start count,Nat.add_right_comm _ count]

/-- What a text is cut into does not depend on where it begins. -/
theorem tokensFrom_anywhere (start there : Nat) (text : Text) :
    (tokensFrom start text).map (·.token) = (tokensFrom there text).map (·.token) := by
  have first := tokensFrom_later 0 start text
  have second := tokensFrom_later 0 there text
  rw [Nat.zero_add] at first second
  rw [first,second,List.map_map,List.map_map]
  rfl

/-- The token is cut out where it stands in front of the text. -/
def Token.CutBefore (token : Token) (rest : Text) : Prop := ∃ c taken, token.text.toList = c :: taken ∧
  scanGap .blank (c :: (taken ++ rest)) = ([],c :: (taken ++ rest)) ∧
    scanToken c (taken ++ rest) = (token.kind,taken,rest)

namespace Token.CutBefore

variable {token : Token}

theorem resumes (cut : token.CutBefore rest) (resumes : Resumes other rest) : token.CutBefore other := by
  obtain ⟨c,taken,spelled,passed,read⟩ := cut
  have again := scanToken_resumes c (taken ++ rest) (by rw [read]; exact resumes)
  rw [read] at again
  exact ⟨c,taken,spelled,scanGap_resumes passed resumes,again⟩

theorem spelled (cut : token.CutBefore rest) : token.text.toList ≠ [] := by
  obtain ⟨c,taken,spelled,_⟩ := cut
  exact spelled ▸ List.cons_ne_nil c taken

theorem nothing (cut : token.CutBefore rest) :
    scanGap .blank (token.text.toList ++ rest) = ([],token.text.toList ++ rest) := by
  obtain ⟨c,taken,spelled,passed,_⟩ := cut
  rw [spelled]
  exact passed

/-- Only a point is spelled with a point alone. -/
theorem point (cut : token.CutBefore rest) (spelled : token.text.toList = ['.']) : token.kind = .dot := by
  obtain ⟨c,taken,same,_,read⟩ := cut
  obtain ⟨rfl,rfl⟩ := List.cons.inj (same.symm.trans spelled)
  have kind : (scanToken '.' ([] ++ rest)).1 = .dot := by simp [scanToken,isIdentStart,symbols,Text.isAlphabetic]
  rw [← kind,read]

end Token.CutBefore

/-- The tokens are cut off from a text that begins at byte `start`, and what is left of it begins at byte `stop`. -/
inductive Scanned : Nat → Text → List PlacedToken → Nat → Text → Prop
  | nil (start : Nat) (rest : Text) : Scanned start rest [] start rest
  | cons {start stop : Nat} {gap more rest : Text} {token : Token} {others : List PlacedToken}
      (passed : scanGap .blank (gap ++ (token.text.toList ++ more)) = (gap,token.text.toList ++ more))
      (cut : token.CutBefore more)
      (behind : Scanned (start + gap.size + Text.size token.text.toList) more others stop rest) :
      Scanned start (gap ++ (token.text.toList ++ more))
        (⟨token,⟨start + gap.size,start + gap.size + Text.size token.text.toList⟩⟩ :: others) stop rest

namespace Scanned

variable {start stop : Nat} {list others : List PlacedToken}

theorem tokensFrom (scanned : Scanned start text list stop rest) :
    tokensFrom start text = list ++ Java.tokensFrom stop rest := by
  induction scanned with
  | nil => rfl
  | @cons start stop gap more rest token others passed cut behind ih =>
    obtain ⟨c,taken,spelled,_,read⟩ := cut
    rw [spelled,List.cons_append] at passed
    rw [spelled] at ih ⊢
    rw [List.cons_append,tokensFrom_cons start passed read,ih,← spelled,String.ofList_toList]
    rfl

theorem of_tokensFrom (cut : Java.tokensFrom start text = list ++ others) :
    ∃ stop rest, Scanned start text list stop rest ∧ others = Java.tokensFrom stop rest := by
  induction list generalizing start text with
  | nil => exact ⟨start,text,.nil start text,cut.symm⟩
  | cons first list ih =>
    obtain ⟨gap,c,taken,more,kind,rfl,passed,read,rfl,behind⟩ := tokensFrom_parts cut
    obtain ⟨stop,rest,scanned,left⟩ := ih behind.symm
    have spelled : (String.ofList (c :: taken)).toList = c :: taken := String.toList_ofList
    refine ⟨stop,rest,?_,left⟩
    have all := @Scanned.cons start stop gap more rest ⟨kind,String.ofList (c :: taken)⟩ list
    simp only [spelled] at all
    exact all passed ⟨c,taken,spelled,scanGap_again (congrArg Prod.snd passed),read⟩ scanned

theorem last (scanned : Scanned start text list stop rest) :
    ∀ last ∈ list.getLast?, last.span.stop = stop ∧ last.token.CutBefore rest := by
  induction scanned with
  | nil => nofun
  | @cons start stop gap more rest token others passed cut behind ih =>
    cases behind with
    | nil =>
      rintro last ⟨⟩
      exact ⟨rfl,cut⟩
    | cons => exact ih

/-- The last token stands in front of what is left. -/
theorem last_suffix (scanned : Scanned start text list stop rest) :
    ∀ last ∈ list.getLast?, last.token.text.toList ++ rest <:+ text := by
  induction scanned with
  | nil => nofun
  | @cons start stop gap more rest token others passed cut behind ih =>
    cases behind with
    | nil =>
      rintro last ⟨⟩
      exact List.suffix_append gap _
    | cons =>
      intro last ended
      exact (ih last ended).trans ((List.suffix_append _ _).trans (List.suffix_append _ _))

/-- Where the first token begins the text, it is cut out in front of the others. -/
theorem first (scanned : Scanned start text list stop rest) (begins : ∃ first ∈ list.head?, first.span.start = start) :
    ∃ first ∈ list.head?, ∃ more, text = first.token.text.toList ++ more ∧ first.token.CutBefore more := by
  obtain ⟨first,head,same⟩ := begins
  cases scanned with
  | nil => cases head
  | @cons _ _ gap more _ _ _ _ cut =>
    refine ⟨first,head,more,?_⟩
    obtain rfl := Option.some.inj head
    obtain rfl : gap = [] := Text.eq_nil_of_size _ (Nat.left_eq_add.mp same.symm)
    exact ⟨rfl,cut⟩

theorem length_lt (scanned : Scanned start text list stop rest) (some : list ≠ []) : rest.length < text.length := by
  induction scanned with
  | nil => exact absurd rfl some
  | @cons start stop gap more rest token others passed cut behind ih =>
    have here := List.length_pos_iff.mpr cut.spelled
    simp only [List.length_append]
    cases behind with
    | nil => omega
    | cons =>
      have := ih (List.cons_ne_nil _ _)
      omega

/-- In front of another text that the last token does not run into, the same tokens are cut off. -/
theorem before (scanned : Scanned start text list stop rest) (ends : ∀ last ∈ list.getLast?, last.token.CutBefore other)
    (point : ∀ last ∈ list.getLast?, last.token.kind = .dot → ∀ c ∈ other.head?, c ∈ rest.head?) :
    ∃ front, text = front ++ rest ∧ start + front.size = stop ∧ Scanned start (front ++ other) list stop other ∧
      (list ≠ [] → Resumes (front ++ other) (front ++ rest)) := by
  induction scanned with
  | nil start rest => exact ⟨[],rfl,rfl,.nil start other,fun some => absurd rfl some⟩
  | @cons start stop gap more rest token others passed cut behind ih =>
    obtain ⟨front,size,parted,cutAgain,again⟩ : ∃ front, start + gap.size + Text.size token.text.toList + front.size = stop ∧
        more = front ++ rest ∧ token.CutBefore (front ++ other) ∧
        Scanned (start + gap.size + Text.size token.text.toList) (front ++ other) others stop other := by
      cases others with
      | nil =>
        cases behind
        exact ⟨[],rfl,rfl,ends _ rfl,.nil _ other⟩
      | cons next others =>
        obtain ⟨front,parted,size,again,resumes⟩ := ih ends point
        exact ⟨front,size,parted,cut.resumes (parted ▸ resumes (List.cons_ne_nil _ _)),again⟩
    subst parted
    have text (rest : Text) : gap ++ (token.text.toList ++ (front ++ rest)) = gap ++ (token.text.toList ++ front) ++ rest := by
      simp
    refine ⟨gap ++ (token.text.toList ++ front),text rest,?_,?_,fun _ => ?_⟩
    · rw [Text.size_append,Text.size_append,← size]
      omega
    · have gapAgain := scanGap_before .blank (gap ++ (token.text.toList ++ (front ++ rest)))
        (by rw [passed]; simp [cut.spelled]) cutAgain.nothing
      rw [passed] at gapAgain
      exact text other ▸ Scanned.cons gapAgain cutAgain again
    · refine .behind (by simp [cut.spelled]) fun alone => ?_
      have spelled := cut.spelled
      -- A point alone is the last token.
      obtain ⟨rfl,same,rfl⟩ : gap = [] ∧ token.text.toList = ['.'] ∧ front = [] := by
        have count := congrArg List.length alone
        have here := List.length_pos_iff.mpr spelled
        simp only [List.length_append,List.length_singleton] at count
        obtain rfl := List.length_eq_zero_iff.mp (show gap.length = 0 by omega)
        obtain rfl := List.length_eq_zero_iff.mp (show front.length = 0 by omega)
        exact ⟨rfl,by simpa using alone,rfl⟩
      cases others with
      | nil => exact point _ rfl (cut.point same)
      | cons => exact absurd (behind.length_lt (List.cons_ne_nil _ _)) (Nat.lt_irrefl _)

/-- The tokens that are cut off are the tokens of what they are cut off from the text. -/
theorem alone (scanned : Scanned start text list stop rest) : ∃ front, text = front ++ rest ∧ start + front.size = stop ∧
    Scanned start front list stop [] := by
  have nothing : Resumes [] rest := .of_near (.of_isPrefix List.nil_prefix)
  obtain ⟨front,parted,size,again,_⟩ := scanned.before (fun last ended => (scanned.last last ended).2.resumes nothing)
    fun _ _ _ => nofun
  exact ⟨front,parted,size,List.append_nil front ▸ again⟩

end Scanned

/-- The slice from the start of a token to the end of another one is cut into these two and the tokens between. -/
theorem scanned_between (text : Text) {i j : Nat} (order : i < j) (inside : j ≤ (tokens text).length) :
    Scanned (offset text (2 * i + 1)) (text.between (offset text (2 * i + 1)) (offset text (2 * j)))
      (((tokens text).drop i).take (j - i)) (offset text (2 * j)) [] := by
  obtain ⟨first,found⟩ : ∃ first, (tokens text)[i]? = some first := ⟨_,List.getElem?_eq_getElem (by omega)⟩
  obtain ⟨last,ended⟩ : ∃ last, (tokens text)[j - 1]? = some last := ⟨_,List.getElem?_eq_getElem (by omega)⟩
  have start := congrArg Span.start (token_span found)
  have stop := congrArg Span.stop (token_span ended)
  rw [show 2 * (j - 1) + 2 = 2 * j by omega] at stop
  obtain ⟨here,left,ahead,behind⟩ := Scanned.of_tokensFrom (List.take_append_drop i (tokens text)).symm
  generalize list : ((tokens text).drop i).take (j - i) = between
  have parted : between ++ ((tokens text).drop i).drop (j - i) = tokensFrom here left := by
    rw [← list,List.take_append_drop,behind]
  obtain ⟨there,rest,scanned,_⟩ := Scanned.of_tokensFrom parted.symm
  have ends : between.getLast? = some last := by
    rw [← list,List.getLast?_take,if_neg (by omega),List.getElem?_drop,show i + (j - i - 1) = j - 1 by omega,ended]
    rfl
  have begins : between.head? = some first := by
    rw [← list,List.head?_take,if_neg (by omega),List.head?_drop,found]
  obtain ⟨front,whole,size,_⟩ := ahead.alone
  have reach : there = offset text (2 * j) := (scanned.last last ends).1.symm.trans stop
  cases scanned with
  | nil => cases begins
  | @cons _ _ gap more _ token others passed cut scanned =>
    obtain rfl := Option.some.inj begins
    have begins : here + gap.size = offset text (2 * i + 1) := start
    have again := @Scanned.cons (here + gap.size) there [] more rest token others cut.nothing cut scanned
    obtain ⟨part,same,long,alone⟩ := again.alone
    have slice := Text.between_append (front ++ gap) part rest
    rw [Text.size_append,List.append_assoc,← same,List.nil_append,← whole] at slice
    rw [show front.size = here by omega,long,begins,reach] at slice
    rw [begins,reach] at alone
    rw [slice,begins]
    exact alone

/-- Between the start of a token and the end of another one stand these two and the tokens between. -/
theorem tokens_between (text : Text) {i j : Nat} (order : i < j) (inside : j ≤ (tokens text).length) :
    (tokens (text.between (offset text (2 * i + 1)) (offset text (2 * j)))).map (·.token) =
      (((tokens text).map (·.token)).drop i).take (j - i) := by
  have cut := (scanned_between text order inside).tokensFrom
  rw [tokensFrom_nil,List.append_nil] at cut
  rw [tokens,tokensFrom_anywhere 0 (offset text (2 * i + 1)),cut,List.map_take,List.map_drop]

/-! Tokens that are written one behind the other, some with a blank behind them. -/

/-- A token with what is written behind it. -/
abbrev Piece := Token × Text

def written (pieces : List Piece) : Text := pieces.flatMap fun piece => piece.1.text.toList ++ piece.2

/-- The first token is cut out where the text of the pieces begins. -/
def Leads (pieces : List Piece) : Prop :=
  ∀ piece ∈ pieces.head?, (tokens (written pieces)).head? = some ⟨piece.1,⟨0,Text.size piece.1.text.toList⟩⟩

/-- No token runs together with those behind it: each is cut out of the text of itself and the two next to it. -/
def Apart (pieces : List Piece) : Prop := ∀ behind, behind <:+ pieces → Leads (behind.take 3)

theorem Apart.tail {piece : Piece} {pieces : List Piece} (apart : Apart (piece :: pieces)) : Apart pieces :=
  fun behind inside => apart behind (inside.trans (List.suffix_cons _ _))

theorem written_append (front behind : List Piece) : written (front ++ behind) = written front ++ written behind :=
  List.flatMap_append

theorem written_cons (piece : Piece) (pieces : List Piece) :
    written (piece :: pieces) = piece.1.text.toList ++ (piece.2 ++ written pieces) := by
  simp [written]

/-- How the first token is cut out. -/
theorem Leads.cut {piece : Piece} {pieces : List Piece} (leads : Leads (piece :: pieces)) :
    piece.1.CutBefore (piece.2 ++ written pieces) := by
  obtain ⟨others,cut⟩ := List.head?_eq_some_iff.mp (leads piece rfl)
  obtain ⟨blanks,c,taken,rest,kind,parted,passed,read,same,_⟩ := tokensFrom_parts cut
  have spelled := congrArg (·.token.text.toList) same
  have start := congrArg (·.span.start) same
  simp only [String.toList_ofList,Nat.zero_add] at spelled start
  obtain rfl := Text.eq_nil_of_size _ start.symm
  rw [written_cons,spelled] at parted
  obtain rfl := List.append_cancel_left (List.cons.inj parted).2
  refine ⟨c,taken,spelled,passed,?_⟩
  rw [show piece.1.kind = kind from congrArg (·.token.kind) same]
  exact read

theorem Apart.spelled {pieces : List Piece} (apart : Apart pieces) : ∀ piece ∈ pieces, piece.1.text.toList ≠ [] := by
  induction pieces with
  | nil => nofun
  | cons piece pieces ih =>
    exact List.forall_mem_cons.mpr ⟨(apart _ (List.suffix_refl _)).cut.spelled,ih apart.tail⟩

theorem length_written {pieces : List Piece} (spelled : ∀ piece ∈ pieces, piece.1.text.toList ≠ []) :
    pieces.length ≤ (written pieces).length := by
  induction pieces with
  | nil => exact Nat.zero_le _
  | cons piece pieces ih =>
    obtain ⟨first,others⟩ := List.forall_mem_cons.mp spelled
    have some := List.length_pos_iff.mpr first
    have behind := ih others
    rw [written_cons,List.length_cons,List.length_append,List.length_append]
    omega

/-- Nothing but blanks. -/
def Blanks (gap : Text) : Prop := ∀ c ∈ gap, c = ' '

/-- What is passed over at the front does not matter. -/
theorem tokens_behind (behind : (scanGap .blank other).2 = (scanGap .blank text).2) :
    (tokens other).map (·.token) = (tokens text).map (·.token) := by
  cases found : (scanGap .blank text).2 with
  | nil => rw [tokens,tokens,tokensFrom_none _ found,tokensFrom_none _ (behind.trans found)]
  | cons c rest =>
    obtain ⟨span,read⟩ := tokensFrom_some 0 found
    obtain ⟨place,again⟩ := tokensFrom_some 0 (behind.trans found)
    rw [tokens,tokens,read,again,List.map_cons,List.map_cons,tokensFrom_anywhere span.stop place.stop]

/-- Space in front of a text is passed over. -/
theorem tokens_space {gap : Text} (space : gap.all Text.isSpace = true) (text : Text) :
    (tokens (gap ++ text)).map (·.token) = (tokens text).map (·.token) :=
  tokens_behind (scanGap_blanks (show Gap.blank ≠ .lineComment by decide) space text)

theorem tokens_blanks {gap : Text} (blanks : Blanks gap) (text : Text) :
    (tokens (gap ++ text)).map (·.token) = (tokens text).map (·.token) := by
  refine tokens_space (List.all_eq_true.mpr fun c inside => ?_) text
  rw [blanks c inside]
  decide

/-- Tokens that do not run together are cut out of their text again. -/
theorem Apart.read_back {pieces : List Piece} (apart : Apart pieces) (gaps : ∀ piece ∈ pieces, Blanks piece.2) :
    (tokens (written pieces)).map (·.token) = pieces.map (·.1) := by
  induction pieces with
  | nil => rw [written,List.flatMap_nil,tokens,tokensFrom_nil]; rfl
  | cons piece pieces ih =>
    have first := apart _ (List.suffix_refl _)
    rw [List.take_succ_cons] at first
    obtain ⟨c,taken,spelled,passed,read⟩ := first.cut
    obtain ⟨blank,others⟩ := List.forall_mem_cons.mp gaps
    -- Two tokens have two characters, and what stands behind these does not matter.
    have near : Near (piece.2 ++ written pieces) (piece.2 ++ written (pieces.take 2)) := by
      refine .behind ?_ _
      rcases Nat.lt_or_ge pieces.length 2 with few | many
      · rw [List.take_of_length_le (Nat.le_of_lt few)]
        exact .of_isPrefix (List.prefix_refl _)
      · have enough := length_written fun (other : Piece) (inside : other ∈ pieces.take 2) =>
          apart.tail.spelled other (List.mem_of_mem_take inside)
        rw [List.length_take,Nat.min_eq_left many] at enough
        have parted := written_append (pieces.take 2) (pieces.drop 2)
        rw [List.take_append_drop] at parted
        rw [parted]
        exact .of_append enough _
    have gap := scanGap_near .blank (c :: (taken ++ (piece.2 ++ written (pieces.take 2))))
      (by rw [passed]; exact near.behind (c :: taken))
    have token := scanToken_resumes c (taken ++ (piece.2 ++ written (pieces.take 2))) (by rw [read]; exact .of_near near)
    rw [passed,List.nil_append,List.cons_append] at gap
    rw [read] at token
    rw [written_cons,spelled,tokens,List.cons_append,tokensFrom_cons 0 gap token,List.map_cons,List.map_cons,
      tokensFrom_anywhere _ 0]
    have rest := tokens_blanks blank (written pieces)
    rw [ih apart.tail others] at rest
    simp only [tokens] at rest
    rw [rest,← spelled,String.ofList_toList]

end Transplant.Java
