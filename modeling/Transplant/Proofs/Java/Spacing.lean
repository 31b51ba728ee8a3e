import Mathlib.Data.List.Find
import Transplant.Proofs.Java.Boundaries

/-! Cutting a text whose tokens are kept spacedFrom by single blanks. Every token that is complete in
itself is cut out as it was written. -/
namespace Transplant.Java

/-- Whether this is what follows the opening quote of a literal, up to the quote that closes it. -/
def isQuoted (quote : Char) : Text → Bool
  | [] => false
  | '\\' :: _ :: rest => isQuoted quote rest
  | c :: rest => !isLineEnd c && if c = quote then rest.isEmpty else isQuoted quote rest

/-- Whether this continues a number behind its first digit. -/
def isNumber (text : Text) : Bool :=
  match text.dropWhile isNumberPart with
  | [] => true
  | '.' :: c :: fraction => c.isDigit && fraction.all isNumberPart
  | _ => false

/-- Whether a token is complete in itself: a word or a number, a literal with both its quotes, or
punctuation. -/
def Token.isWhole (token : Token) : Bool :=
  match token.kind,token.text.toList with
  | .ident,c :: rest => isIdentStart c && rest.all isIdentPart
  | .number,c :: rest => c.isDigit && isNumber rest
  | .string,c :: rest => c == '"' && isQuoted '"' rest
  | .char,c :: rest => c == '\'' && isQuoted '\'' rest
  | kind,text => symbols.contains (text,kind)

/-- Tokens that can be cut out of a text again. -/
def Whole (words : List Token) : Prop := ∀ token ∈ words, token.isWhole = true

/-- The text of tokens with a blank between any two of them. -/
def spaced (words : List Token) : Text := [' '].intercalate (words.map fun token => token.text.toList)

/-- The tokens one behind the other, each one byte behind the one before. -/
def spacedFrom (start : Nat) : List Token → List PlacedToken
  | [] => []
  | token :: rest =>
    let stop := start + Text.size token.text.toList
    ⟨token,⟨start,stop⟩⟩ :: spacedFrom (stop + 1) rest

/-- The blanks of all scripts. -/
def spaceCodes : List Nat :=
  [9,10,11,12,13,0x20,0x85,0xA0,0x1680,0x2000,0x2001,0x2002,0x2003,0x2004,0x2005,0x2006,0x2007,0x2008,0x2009,0x200A,
    0x2028,0x2029,0x202F,0x205F,0x3000]

/-- What may follow a token: nothing, or a blank. -/
def Blank (gap : Text) : Prop := ∀ c ∈ gap.head?, c = ' '

namespace Whole

variable {token : Token} {front behind : List Token}

theorem append (first : Whole front) (second : Whole behind) : Whole (front ++ behind) :=
  List.forall_mem_append.mpr ⟨first,second⟩

theorem cons (first : token.isWhole = true) (second : Whole behind) : Whole (token :: behind) :=
  List.forall_mem_cons.mpr ⟨first,second⟩

theorem one (first : token.isWhole = true) : Whole [token] := cons first nofun

theorem tail (whole : Whole (token :: behind)) : Whole behind := (List.forall_mem_cons.mp whole).2

end Whole

section Scanning

variable {c : Char} {taken gap : Text}

theorem mem_spaceCodes (space : Text.isSpace c = true) : c.toNat ∈ spaceCodes := by
  simp [Text.isSpace,spaceCodes] at space ⊢
  omega

theorem isSpace_eq_false (visible : ∀ code ∈ spaceCodes, c.toNat ≠ code) : Text.isSpace c = false :=
  Bool.eq_false_iff.mpr fun space => visible _ (mem_spaceCodes space) rfl

theorem isIdentStart_not_space (start : isIdentStart c = true) : Text.isSpace c = false := by
  have none : ∀ code ∈ spaceCodes, isIdentStart (Char.ofNat code) = false := by decide +kernel
  refine isSpace_eq_false fun code member same => ?_
  have never := none code member
  rw [← same,Char.ofNat_toNat,start] at never
  cases never

theorem isDigit_range (digit : c.isDigit = true) : 48 ≤ c.toNat ∧ c.toNat ≤ 57 := by
  simp only [Char.isDigit,Bool.and_eq_true,decide_eq_true_eq] at digit
  exact digit

theorem isDigit_not_space (digit : c.isDigit = true) : Text.isSpace c = false := by
  have range := isDigit_range digit
  refine isSpace_eq_false fun code member same => ?_
  have outside : ∀ code ∈ spaceCodes, code < 48 ∨ 57 < code := by decide
  have := outside code member
  omega

theorem isDigit_not_identStart (digit : c.isDigit = true) : isIdentStart c = false := by
  have none : ∀ code ∈ List.range' 48 10, isIdentStart (Char.ofNat code) = false := by decide
  have range := isDigit_range digit
  have never := none c.toNat (List.mem_range'_1.mpr (by omega))
  rwa [Char.ofNat_toNat] at never

theorem scanWhile_stops {keep : Char → Bool} (kept : taken.all keep = true)
    (stops : ∀ c ∈ gap.head?, keep c = false) : scanWhile keep (taken ++ gap) = (taken,gap) := by
  have all := List.all_eq_true.mp kept
  rw [scanWhile,List.takeWhile_append_of_pos all,List.dropWhile_append_of_pos all]
  cases gap with
  | nil => simp
  | cons c rest => simp [stops c rfl]

theorem Blank.stops {keep : Char → Bool} (blank : Blank gap) (stop : keep ' ' = false) :
    ∀ c ∈ gap.head?, keep c = false := fun c first => by rwa [blank c first]

theorem scanQuoted_closed {quote : Char} (inLine : isLineEnd quote = false) (other : quote ≠ '\\')
    (closed : isQuoted quote taken = true) : scanQuoted quote (taken ++ gap) = (taken,gap) := by
  fun_induction isQuoted quote taken with
  | case1 => cases closed
  | case2 c rest ih => simp [scanQuoted,ih closed]
  | case3 c rest escaped ih =>
    obtain ⟨plain,closed⟩ := (Bool.and_eq_true _ _).mp closed
    have plain : isLineEnd c = false := by simpa using plain
    by_cases last : c = quote
    · rw [if_pos last] at closed
      obtain rfl := List.isEmpty_iff.mp closed
      obtain rfl := last
      simp [scanQuoted,inLine,other]
    · rw [if_neg last] at closed
      have single : c ≠ '\\' := by
        rintro rfl
        cases rest with
        | nil => exact last (by simp [isQuoted] at closed; exact closed.2)
        | cons next rest => exact escaped next rest rfl rfl
      simp [scanQuoted,single,plain,last,ih closed]

theorem scanNumber_fraction {text rest : Text} (point : (scanWhile isNumberPart text).2 = '.' :: c :: rest)
    (digit : c.isDigit = true) : scanNumber text =
      ((scanWhile isNumberPart text).1 ++ '.' :: (scanWhile isNumberPart (c :: rest)).1,
        (scanWhile isNumberPart (c :: rest)).2) := by
  simp only [scanNumber,point,digit,if_true]

theorem scanNumber_whole {text : Text} (plain : ∀ c rest, (scanWhile isNumberPart text).2 = '.' :: c :: rest →
    c.isDigit = false) : scanNumber text = scanWhile isNumberPart text := by
  simp only [scanNumber]
  split
  · rename_i c rest point
    rw [if_neg (by simp [plain c rest point]),← point]
  · rfl

/-- A number is cut out up to where neither a character of it nor a point with a digit behind follows. -/
theorem scanNumber_stops (number : isNumber taken = true) (stops : ∀ d ∈ gap.head?, isNumberPart d = false)
    (clear : ∀ d more, gap = '.' :: d :: more → d.isDigit = false) : scanNumber (taken ++ gap) = (taken,gap) := by
  have point : isNumberPart '.' = false := by decide
  have whole := List.takeWhile_append_dropWhile (p := isNumberPart) (l := taken)
  have kept : (taken.takeWhile isNumberPart).all isNumberPart = true := List.all_takeWhile
  simp only [isNumber] at number
  split at number
  · rename_i ended
    rw [ended,List.append_nil] at whole
    rw [whole] at kept
    rw [scanNumber_whole,scanWhile_stops kept stops]
    intro d more same
    rw [scanWhile_stops kept stops] at same
    exact clear d more same
  · rename_i c fraction ended
    obtain ⟨digit,parts⟩ := (Bool.and_eq_true _ _).mp number
    rw [ended] at whole
    have first : isNumberPart c = true := by simp [isNumberPart,Char.isAlphanum,digit]
    have front : scanWhile isNumberPart (taken ++ gap) = (taken.takeWhile isNumberPart,'.' :: c :: (fraction ++ gap)) := by
      have stops : ∀ next ∈ ('.' :: c :: (fraction ++ gap)).head?, isNumberPart next = false := by simp [point]
      rw [← scanWhile_stops kept stops,← List.cons_append,← List.cons_append,← List.append_assoc,whole]
    have behind : scanWhile isNumberPart (c :: (fraction ++ gap)) = (c :: fraction,gap) :=
      @scanWhile_stops (c :: fraction) gap _ (by simp [first,parts]) stops
    rw [scanNumber_fraction (congrArg Prod.snd front) digit,front,behind]
    exact Prod.ext whole rfl
  · cases number

theorem scanGap_none {rest : Text} (shown : Text.isSpace c = false) (slash : c ≠ '/') :
    scanGap .blank (c :: rest) = ([],c :: rest) := by simp [scanGap,shown,slash]

/-- Punctuation is cut out where no character follows that makes it longer punctuation or a comment. -/
theorem scanToken_symbol {symbol : Text × Token.Kind} {rest : Text} (listed : symbol ∈ symbols)
    (spelled : symbol.1 = c :: taken) (alone : ∀ d ∈ rest.head?, ∀ longer ∈ symbols, longer.1 ≠ symbol.1 ++ [d])
    (divides : symbol.1 = ['/'] → ∀ d ∈ rest.head?, d ≠ '/' ∧ d ≠ '*') :
    scanGap .blank (c :: (taken ++ rest)) = ([],c :: (taken ++ rest)) ∧
      scanToken c (taken ++ rest) = (symbol.2,taken,rest) := by
  have plain : ∀ symbol ∈ symbols, (symbol.1.head?.map fun c =>
      (Text.isSpace c,c == '"',c == '\'',c.isDigit,isIdentStart c)) = some (false,false,false,false,false) := by decide
  have single : ∀ symbol ∈ symbols, symbols.find? (·.1.isPrefixOf symbol.1) = some symbol := by decide
  have short : ∀ symbol ∈ symbols, symbol.1.length ≤ 2 := by decide
  have slashes : ∀ symbol ∈ symbols, symbol.1.head? = some '/' → symbol.1 = ['/'] ∨ symbol.1 = ['/','='] := by decide
  have first := plain symbol listed
  rw [spelled,List.head?_cons,Option.map_some,Option.some.injEq] at first
  simp only [Prod.mk.injEq,beq_eq_false_iff_ne] at first
  obtain ⟨shown,string,char,digit,word⟩ := first
  have same : ∀ other ∈ symbols, other.1.isPrefixOf (c :: (taken ++ rest)) = other.1.isPrefixOf symbol.1 := by
    intro other member
    refine Bool.eq_iff_iff.mpr ?_
    rw [List.isPrefixOf_iff_prefix,List.isPrefixOf_iff_prefix,← List.cons_append,← spelled]
    refine ⟨fun front => ?_,fun front => front.trans (List.prefix_append _ _)⟩
    rcases List.prefix_or_prefix_of_prefix front (List.prefix_append symbol.1 rest) with shorter | ⟨more,longer⟩
    · exact shorter
    · rw [← longer] at front ⊢
      cases more with
      | nil => simp
      | cons d more =>
        have bound := short other member
        rw [← longer,spelled] at bound
        simp only [List.length_append,List.length_cons] at bound
        obtain rfl := List.length_eq_zero_iff.mp (show more.length = 0 by omega)
        obtain ⟨behind,rfl⟩ := (List.prefix_append_right_inj _).mp front
        exact absurd longer.symm (alone d rfl other member)
  constructor
  · by_cases slash : c = '/'
    · subst slash
      rcases slashes symbol listed (by rw [spelled]; rfl) with one | two
      · obtain rfl : taken = [] := (List.cons.inj (spelled.symm.trans one)).2
        cases rest with
        | nil => rfl
        | cons d rest =>
          obtain ⟨line,block⟩ := divides one d rfl
          simp [scanGap,line,block,shown]
      · obtain rfl : taken = ['='] := (List.cons.inj (spelled.symm.trans two)).2
        rfl
    · exact scanGap_none shown slash
  · have found : symbols.find? (·.1.isPrefixOf (c :: (taken ++ rest))) = some symbol := by
      rw [← single symbol listed]
      exact List.find?_congr same
    obtain ⟨spelling,kind⟩ := symbol
    cases spelled
    rw [scanToken,if_neg string,if_neg char,if_neg (by simp [digit]),if_neg (by simp [word]),found]
    simp

/-- These characters are cut out as one token of the kind wherever a blank or the end follows. -/
def CutOut (kind : Token.Kind) (c : Char) (taken : Text) : Prop := ∀ gap, Blank gap →
  scanGap .blank (c :: (taken ++ gap)) = ([],c :: (taken ++ gap)) ∧ scanToken c (taken ++ gap) = (kind,taken,gap)

/-- Punctuation is not taken for longer punctuation or a comment, as a blank follows. -/
theorem cutOut_symbol : ∀ symbol ∈ symbols, ∃ c taken, symbol.1 = c :: taken ∧ CutOut symbol.2 c taken := by
  have spelled : ∀ symbol ∈ symbols, symbol.1 ≠ [] := by decide
  have apart : ∀ longer ∈ symbols, longer.1.getLast? ≠ some ' ' := by decide
  intro symbol listed
  obtain ⟨c,taken,same⟩ := List.exists_cons_of_ne_nil (spelled symbol listed)
  refine ⟨c,taken,same,fun gap blank => scanToken_symbol listed same (fun d first longer member ends => ?_) fun _ d first => ?_⟩
  · rw [blank d first] at ends
    exact apart longer member (by rw [ends,List.getLast?_concat])
  · rw [blank d first]
    decide

theorem isIdentPart_of_isIdentStart (start : isIdentStart c = true) : isIdentPart c = true := by
  simp only [isIdentStart,isIdentPart,Bool.or_eq_true] at start ⊢
  refine start.imp_left (Or.imp_left fun alphabetic => ?_)
  simp only [Text.isAlphabetic,Text.isAlphanumeric] at alphabetic ⊢
  split at alphabetic
  · simp_all [Char.isAlphanum]
  · simp_all

theorem scanToken_start (start : isIdentStart c = true) (rest : Text) :
    scanToken c rest = (.ident,scanWhile isIdentPart rest) := by
  have digit : c.isDigit = false := by
    cases is : c.isDigit with
    | false => rfl
    | true => rw [isDigit_not_identStart is] at start; cases start
  have other (mark : Char) (never : isIdentStart mark = false) : c ≠ mark := by
    rintro rfl
    rw [start] at never
    cases never
  rw [scanToken,if_neg (other '"' (by decide)),if_neg (other '\'' (by decide)),if_neg (by simp [digit]),if_pos start]

/-- A word is cut out up to where no further character belongs to it. -/
theorem scanToken_stops (start : isIdentStart c = true) (rest : taken.all isIdentPart = true)
    (stops : ∀ d ∈ gap.head?, isIdentPart d = false) :
    scanGap .blank (c :: (taken ++ gap)) = ([],c :: (taken ++ gap)) ∧ scanToken c (taken ++ gap) = (.ident,taken,gap) := by
  have slash : c ≠ '/' := by
    rintro rfl
    exact absurd start (by decide)
  exact ⟨scanGap_none (isIdentStart_not_space start) slash,by rw [scanToken_start start,scanWhile_stops rest stops]⟩

theorem cutOut_word (start : isIdentStart c = true) (rest : taken.all isIdentPart = true) :
    CutOut .ident c taken := fun _ blank => scanToken_stops start rest (blank.stops (by decide))

/-- A number is cut out up to where no further character belongs to it. -/
theorem scanToken_digit (digit : c.isDigit = true) (number : isNumber taken = true)
    (stops : ∀ d ∈ gap.head?, isNumberPart d = false) (clear : ∀ d more, gap = '.' :: d :: more → d.isDigit = false) :
    scanGap .blank (c :: (taken ++ gap)) = ([],c :: (taken ++ gap)) ∧ scanToken c (taken ++ gap) = (.number,taken,gap) := by
  have other (mark : Char) (never : mark.isDigit = false) : c ≠ mark := by
    rintro rfl
    rw [digit] at never
    cases never
  refine ⟨scanGap_none (isDigit_not_space digit) (other '/' (by decide)),?_⟩
  rw [scanToken,if_neg (other '"' (by decide)),if_neg (other '\'' (by decide)),if_pos digit,
    scanNumber_stops number stops clear]

theorem cutOut_number (digit : c.isDigit = true) (number : isNumber taken = true) : CutOut .number c taken :=
  fun _ blank => scanToken_digit digit number (blank.stops (by decide))
    fun d more same => absurd (blank '.' (by rw [same]; rfl)) (by decide)

/-- A literal with both its quotes is cut out in front of anything. -/
theorem scanToken_string (closed : isQuoted '"' taken = true) (gap : Text) :
    scanGap .blank ('"' :: (taken ++ gap)) = ([],'"' :: (taken ++ gap)) ∧ scanToken '"' (taken ++ gap) = (.string,taken,gap) :=
  ⟨rfl,by rw [scanToken,if_pos rfl,scanQuoted_closed (by decide) (by decide) closed]⟩

theorem scanToken_char (closed : isQuoted '\'' taken = true) (gap : Text) :
    scanGap .blank ('\'' :: (taken ++ gap)) = ([],'\'' :: (taken ++ gap)) ∧
      scanToken '\'' (taken ++ gap) = (.char,taken,gap) :=
  ⟨rfl,by rw [scanToken,if_neg (by decide),if_pos rfl,scanQuoted_closed (by decide) (by decide) closed]⟩

theorem Token.isWhole.cutOut {token : Token} (whole : token.isWhole = true) :
    ∃ c taken, token.text.toList = c :: taken ∧ CutOut token.kind c taken := by
  obtain ⟨kind,text⟩ := token
  simp only [Token.isWhole] at whole
  split at whole
  · rename_i c rest spelled
    obtain ⟨start,parts⟩ := (Bool.and_eq_true _ _).mp whole
    exact ⟨c,rest,spelled,cutOut_word start parts⟩
  · rename_i c rest spelled
    obtain ⟨digit,number⟩ := (Bool.and_eq_true _ _).mp whole
    exact ⟨c,rest,spelled,cutOut_number digit number⟩
  · rename_i c rest spelled
    obtain ⟨quote,closed⟩ := (Bool.and_eq_true _ _).mp whole
    obtain rfl := eq_of_beq quote
    exact ⟨_,rest,spelled,fun gap _ => scanToken_string closed gap⟩
  · rename_i c rest spelled
    obtain ⟨quote,closed⟩ := (Bool.and_eq_true _ _).mp whole
    obtain rfl := eq_of_beq quote
    exact ⟨_,rest,spelled,fun gap _ => scanToken_char closed gap⟩
  · exact cutOut_symbol _ (List.contains_iff_mem.mp whole)

end Scanning

/-- What follows a token in a text of tokens with blanks between. -/
def gapBefore : List Token → Text
  | [] => []
  | token :: rest => ' ' :: spaced (token :: rest)

theorem spaced_cons (token : Token) (rest : List Token) :
    spaced (token :: rest) = token.text.toList ++ gapBefore rest := by
  cases rest with
  | nil => simp [spaced,gapBefore,List.intercalate]
  | cons next rest => simp [spaced,gapBefore,List.intercalate]

theorem gapBefore_blank (rest : List Token) : Blank (gapBefore rest) := by
  cases rest with
  | nil => exact nofun
  | cons next rest => simp [Blank,gapBefore]

theorem scanGap_space (text : Text) :
    scanGap .blank (' ' :: text) = (' ' :: (scanGap .blank text).1,(scanGap .blank text).2) := by
  simp [scanGap,Text.isSpace]

/-- One token is cut out behind what is passed over. -/
theorem tokensFrom_cons {text blanks taken gap : Text} {c : Char} {kind : Token.Kind} (start : Nat)
    (passed : scanGap .blank text = (blanks,c :: (taken ++ gap)))
    (read : scanToken c (taken ++ gap) = (kind,taken,gap)) :
    let first := start + Text.size blanks
    let stop := first + Text.size (c :: taken)
    tokensFrom start text = ⟨⟨kind,String.ofList (c :: taken)⟩,⟨first,stop⟩⟩ :: tokensFrom stop gap := by
  rw [tokensFrom]
  split
  · rename_i none
    rw [passed] at none
    cases none
  · rename_i known
    rw [passed] at known
    cases known
    rw [read]

theorem tokensFrom_spaced (words : List Token) (whole : Whole words) (start : Nat) :
    tokensFrom start (spaced words) = spacedFrom start words ∧
      tokensFrom start (gapBefore words) = spacedFrom (start + 1) words := by
  induction words generalizing start with
  | nil => simp [spaced,gapBefore,tokensFrom,scanGap,spacedFrom]
  | cons token rest ih =>
    obtain ⟨c,taken,spelled,cut⟩ := Token.isWhole.cutOut (whole _ List.mem_cons_self)
    obtain ⟨passed,read⟩ := cut _ (gapBefore_blank rest)
    have same : String.ofList (c :: taken) = token.text := by rw [← spelled,String.ofList_toList]
    have text : spaced (token :: rest) = c :: (taken ++ gapBefore rest) := by rw [spaced_cons,spelled,List.cons_append]
    have behind (front : Nat) {blanks text : Text}
        (known : scanGap .blank text = (blanks,c :: (taken ++ gapBefore rest))) :
        tokensFrom front text = spacedFrom (front + Text.size blanks) (token :: rest) := by
      have others := (ih whole.tail (front + Text.size blanks + Text.size (c :: taken))).2
      rw [tokensFrom_cons front known read,others,spacedFrom,spelled,same]
    have blank : scanGap .blank (' ' :: spaced (token :: rest)) = ([' '],c :: (taken ++ gapBefore rest)) := by
      rw [scanGap_space,text,passed]
    refine ⟨?_,behind start blank⟩
    rw [text]
    exact behind start passed

theorem spacedFrom_tokens (words : List Token) (start : Nat) : (spacedFrom start words).map (·.token) = words := by
  induction words generalizing start with
  | nil => rfl
  | cons token rest ih => rw [spacedFrom,List.map_cons,ih]

/-- A text of tokens with blanks between is cut into just these. -/
theorem tokens_spaced {words : List Token} (whole : Whole words) :
    (tokens (spaced words)).map (·.token) = words := by
  rw [tokens,(tokensFrom_spaced words whole 0).1,spacedFrom_tokens]

/-- Such a text begins with its first token and ends with its last one. -/
theorem spacedFrom_stop (words : List Token) (start : Nat) (last : PlacedToken)
    (found : (spacedFrom start words).getLast? = some last) : last.span.stop = start + Text.size (spaced words) := by
  induction words generalizing start with
  | nil => cases found
  | cons token rest ih =>
    rw [spaced_cons,Text.size_append]
    cases rest with
    | nil =>
      cases found
      rfl
    | cons next rest =>
      have behind := ih (start + Text.size token.text.toList + 1) (by simpa [spacedFrom] using found)
      rw [behind,gapBefore,Text.size]
      change _ = start + (_ + (1 + _))
      omega

theorem offset_spaced {words : List Token} (whole : Whole words) (some : words ≠ []) :
    offset (spaced words) 1 = 0 ∧ offset (spaced words) (2 * words.length) = Text.size (spaced words) := by
  have cut : tokens (spaced words) = spacedFrom 0 words := (tokensFrom_spaced words whole 0).1
  have count : (tokens (spaced words)).length = words.length := by
    rw [← congrArg List.length (tokens_spaced whole),List.length_map]
  have positive := List.length_pos_iff.mpr some
  constructor
  · obtain ⟨first,rest,rfl⟩ := List.exists_cons_of_ne_nil some
    have found : (tokens (spaced (first :: rest)))[0]? = .some ⟨first,⟨0,0 + Text.size first.text.toList⟩⟩ := by
      rw [cut]
      rfl
    exact (congrArg Span.start (token_span found)).symm
  · obtain ⟨last,found⟩ : ∃ last, (tokens (spaced words))[words.length - 1]? = .some last :=
      ⟨_,List.getElem?_eq_getElem (by omega)⟩
    have stop := spacedFrom_stop words 0 last (by rw [← cut,List.getLast?_eq_getElem?,count,found])
    have place : last.span.stop = offset (spaced words) (2 * (words.length - 1) + 2) :=
      congrArg Span.stop (token_span found)
    rw [show 2 * words.length = 2 * (words.length - 1) + 2 by omega,← place,stop,Nat.zero_add]

end Transplant.Java
