import Mathlib.Data.List.Find
import Transplant.Proofs.Java.Behind
import Transplant.Proofs.Java.Placement

/-! Reading the text of a type again. The tokens come back that the type takes up, as long as none of them
runs together with the next one where no blank is kept between them. -/
namespace Transplant.Java

open Token (Kind)

/-- Marks that types are written with. None of them begins a longer one together with another of them, other
than the last two with themselves. -/
def typeMarks : List (Char × Kind) :=
  [('.',.dot),(',',.comma),('?',.question),('<',.less),('>',.greater),('[',.bracketOpen),(']',.bracketClose),
    ('@',.atSign),('(',.parenOpen),(')',.parenClose),('{',.braceOpen),('}',.braceClose),(':',.colon),(';',.semicolon),
    ('^',.caret),('&',.amp),('|',.pipe)]

/-- Words and marks only. -/
def Worded (own : List Token) : Prop := ∀ token ∈ own, token.kind ∈ .ident :: typeMarks.map (·.2)

/-- Neither two words nor two ampersands or bars stand side by side. -/
def Separated (own : List Token) : Prop :=
  own.IsChain fun first second => first.kind = second.kind → first.kind ∉ [Kind.ident,.amp,.pipe]

instance (own : List Token) : Decidable (Worded own) := inferInstanceAs (Decidable (∀ _ ∈ _, _))

instance (own : List Token) : Decidable (Separated own) := inferInstanceAs (Decidable (List.IsChain _ _))

/-- The token begins with the character, as a word or as a mark. -/
inductive Token.Begins (token : Token) (c : Char) : Prop where
  | word (kind : token.kind = .ident) (taken : Text) (spelled : token.text.toList = c :: taken)
      (start : isIdentStart c = true) (parts : taken.all isIdentPart = true)
  | mark (listed : (c,token.kind) ∈ typeMarks) (spelled : token.text.toList = [c])

theorem Token.Begins.spelled {token : Token} {c : Char} (begins : token.Begins c) :
    ∃ taken, token.text.toList = c :: taken := by
  cases begins with
  | word _ taken spelled => exact ⟨taken,spelled⟩
  | mark _ spelled => exact ⟨[],spelled⟩

theorem Token.Begins.not_assign {token : Token} {c : Char} (begins : token.Begins c) : c ≠ '=' := by
  have other : ∀ mark ∈ typeMarks, mark.1 ≠ '=' := by decide
  cases begins with
  | word _ _ _ start _ => rintro rfl; exact absurd start (by decide)
  | mark listed _ => exact other _ listed

/-- A word goes on only with a word. -/
theorem Token.Begins.not_part {token : Token} {c : Char} (begins : token.Begins c) (other : token.kind ≠ .ident) :
    isIdentPart c = false := by
  have apart : ∀ mark ∈ typeMarks, isIdentPart mark.1 = false := by decide
  cases begins with
  | word kind _ _ _ _ => exact absurd kind other
  | mark listed _ => exact apart _ listed

theorem Token.Begins.same_kind {token : Token} {c : Char} {kind : Kind} (begins : token.Begins c)
    (listed : (c,kind) ∈ typeMarks) : token.kind = kind := by
  have single : ∀ first ∈ typeMarks, ∀ second ∈ typeMarks, first.1 = second.1 → first.2 = second.2 := by decide
  have other : ∀ mark ∈ typeMarks, isIdentStart mark.1 = false := by decide
  cases begins with
  | word _ _ _ start _ => rw [other _ listed] at start; cases start
  | mark own _ => exact single _ own _ listed rfl

theorem scanToken_word (c : Char) (text : Text) :
    (scanToken c text).1 = .ident → isIdentStart c = true ∧ (scanToken c text).2.1.all isIdentPart = true := by
  have other : ∀ symbol ∈ symbols, symbol.2 ≠ .ident := by decide
  intro word
  simp only [scanToken] at word ⊢
  split at word
  · cases word
  rename_i doubled
  split at word
  · cases word
  rename_i quoted
  split at word
  · cases word
  rename_i digit
  split at word
  · rename_i start
    simp only [if_neg doubled,if_neg quoted,if_neg digit,if_pos start,scanWhile,List.all_takeWhile]
    exact ⟨start,trivial⟩
  split at word
  · rename_i found
    exact absurd word (other _ (List.mem_of_find?_eq_some found))
  · cases word

theorem tokens_begin (text : Text) : ∀ token ∈ (tokens text).map (·.token),
    token.kind ∈ .ident :: typeMarks.map (·.2) → ∃ c, token.Begins c := by
  have marked : ∀ mark ∈ typeMarks, ([mark.1],mark.2) ∈ symbols := by decide
  refine @tokens_each (fun token => token.kind ∈ .ident :: typeMarks.map (·.2) → ∃ c, token.Begins c) ?_ text
  intro c rest kind
  rcases List.mem_cons.mp kind with word | mark
  · obtain ⟨start,parts⟩ := scanToken_word c rest word
    exact ⟨c,.word word _ (String.toList_ofList ..) start parts⟩
  · obtain ⟨mark,listed,same⟩ := List.mem_map.mp mark
    have spelled := (scanToken_plain c rest).text (marked mark listed) same.symm
    exact ⟨mark.1,.mark (by rw [← same]; exact listed) spelled⟩

/-- A mark is not taken for a longer one, where nothing follows that would make it one. -/
theorem scanToken_mark {mark : Char × Kind} (listed : mark ∈ typeMarks) {following : Text}
    (clear : ∀ d ∈ following.head?, d ≠ '=' ∧ (d = mark.1 → d ≠ '&' ∧ d ≠ '|')) :
    scanGap .blank (mark.1 :: following) = ([],mark.1 :: following) ∧
      scanToken mark.1 following = (mark.2,[],following) := by
  have marked : ∀ mark ∈ typeMarks, ([mark.1],mark.2) ∈ symbols ∧ mark.1 ≠ '/' := by decide
  have double : ∀ mark ∈ typeMarks, ∀ symbol ∈ symbols, symbol.1.length = 2 → symbol.1.head? = some mark.1 →
      symbol.1[1]? = some '=' ∨ symbol.1[1]? = some mark.1 ∧ (mark.1 = '&' ∨ mark.1 = '|') := by decide
  obtain ⟨symbol,slash⟩ := marked mark listed
  refine @scanToken_symbol mark.1 [] ([mark.1],mark.2) following symbol rfl (fun d first longer member same => ?_)
    fun alone => absurd (List.cons.inj alone).1 slash
  obtain ⟨assign,again⟩ := clear d first
  have second := double mark listed longer member (by simp [same]) (by simp [same])
  simp only [same,List.cons_append,List.nil_append,List.getElem?_cons_succ,List.getElem?_cons_zero,Option.some.injEq] at second
  rcases second with ended | ⟨ended,which⟩
  · exact assign ended
  · obtain ⟨amp,bar⟩ := again ended
    rw [ended] at amp bar
    exact which.elim amp bar

/-- A blank follows a token or what the next one begins with. -/
theorem follows_of_begins {gap : Text} {rest : List Piece} (blanks : Blanks gap)
    (begins : ∀ next ∈ rest.head?, ∃ c, next.1.Begins c) :
    ∀ d ∈ (gap ++ written rest).head?, d = ' ' ∨ ∃ next ∈ rest.head?, next.1.Begins d := by
  intro d follow
  cases gap with
  | cons e more => exact .inl (Option.some.inj follow ▸ blanks e List.mem_cons_self)
  | nil =>
    cases rest with
    | nil => simp [written] at follow
    | cons next more =>
      obtain ⟨e,begun⟩ := begins next rfl
      obtain ⟨taken,spelled⟩ := begun.spelled
      rw [List.nil_append,written_cons,spelled,List.cons_append,List.head?_cons] at follow
      exact .inr ⟨next,rfl,Option.some.inj follow ▸ begun⟩

/-- Tokens that may stand side by side are cut out where they begin. -/
theorem leads_of_separated {pieces : List Piece} (begins : ∀ piece ∈ pieces, ∃ c, piece.1.Begins c)
    (gaps : ∀ piece ∈ pieces, Blanks piece.2) (separated : Separated (pieces.map (·.1))) : Leads pieces := by
  intro piece first
  obtain ⟨rest,rfl⟩ := List.head?_eq_some_iff.mp first
  have follows := follows_of_begins (gaps piece List.mem_cons_self) fun next behind =>
    begins next (List.mem_cons_of_mem _ (List.mem_of_mem_head? behind))
  have next : ∀ next ∈ rest.head?, piece.1.kind = next.1.kind → piece.1.kind ∉ [Kind.ident,.amp,.pipe] := by
    intro next behind
    refine (List.isChain_cons.mp separated).1 next.1 ?_
    rw [List.head?_map,behind]
    rfl
  obtain ⟨c,begun⟩ := begins piece List.mem_cons_self
  obtain ⟨taken,spelled,passed,read⟩ : ∃ taken, piece.1.text.toList = c :: taken ∧
      scanGap .blank (c :: (taken ++ (piece.2 ++ written rest))) = ([],c :: (taken ++ (piece.2 ++ written rest))) ∧
      scanToken c (taken ++ (piece.2 ++ written rest)) = (piece.1.kind,taken,piece.2 ++ written rest) := by
    have double : ∀ mark ∈ typeMarks, mark.1 = '&' ∨ mark.1 = '|' → mark.2 ∈ [Kind.ident,.amp,.pipe] := by decide
    cases begun with
    | word kind taken spelled start parts =>
      refine ⟨taken,spelled,?_⟩
      rw [kind]
      refine scanToken_stops start parts fun d follow => ?_
      rcases follows d follow with rfl | ⟨other,behind,begun⟩
      · decide
      · refine begun.not_part fun same => next other behind (kind.trans same.symm) (by simp [kind])
    | mark listed spelled =>
      refine ⟨[],spelled,scanToken_mark listed fun d follow => ?_⟩
      rcases follows d follow with rfl | ⟨other,behind,begun⟩
      · exact ⟨by decide,fun _ => by decide⟩
      · refine ⟨begun.not_assign,fun same => ?_⟩
        subst same
        have apart := next other behind (begun.same_kind listed).symm
        exact ⟨fun amp => apart (double _ listed (.inl amp)),fun bar => apart (double _ listed (.inr bar))⟩
  have cut := tokensFrom_cons 0 passed read
  rw [written_cons,spelled,tokens,List.cons_append,cut,List.head?_cons]
  simp [← spelled,String.ofList_toList,Text.size]

theorem apart_of_separated {pieces : List Piece} (begins : ∀ piece ∈ pieces, ∃ c, piece.1.Begins c)
    (gaps : ∀ piece ∈ pieces, Blanks piece.2) (separated : Separated (pieces.map (·.1))) : Apart pieces := by
  intro behind inside
  have listed : ∀ piece ∈ behind.take 3, piece ∈ pieces := fun _ member => inside.subset (List.mem_of_mem_take member)
  refine leads_of_separated (fun piece member => begins piece (listed piece member))
    (fun piece member => gaps piece (listed piece member)) ?_
  rw [Separated,List.map_take]
  exact (separated.suffix (inside.map _)).take 3

theorem Token.Begins.shown {token : Token} {c : Char} (begins : token.Begins c) (rest : Text) :
    scanGap .blank (c :: rest) = ([],c :: rest) := by
  have plain : ∀ mark ∈ typeMarks, Text.isSpace mark.1 = false ∧ mark.1 ≠ '/' := by decide
  cases begins with
  | word _ _ _ start _ => exact scanGap_none (isIdentStart_not_space start) (by rintro rfl; exact absurd start (by decide))
  | mark listed _ => exact scanGap_none (plain _ listed).1 (plain _ listed).2

/-- The first token is cut out as it was written, and the others out of what is left. -/
theorem read_back_cons {piece : Piece} {rest : List Piece} {c : Char} (begins : piece.1.Begins c)
    (blanks : Blanks piece.2)
    (same : (tokens (written (piece :: rest))).map (·.token) = piece.1 :: rest.map (·.1)) :
    (∃ taken, piece.1.text.toList = c :: taken ∧
      scanToken c (taken ++ (piece.2 ++ written rest)) = (piece.1.kind,taken,piece.2 ++ written rest)) ∧
      (tokens (written rest)).map (·.token) = rest.map (·.1) := by
  obtain ⟨taken,spelled⟩ := begins.spelled
  obtain ⟨first,others,cut,token,behind⟩ := List.map_eq_cons_iff.mp same
  obtain ⟨gap,d,own,left,kind,parted,passed,read,rfl,rfl⟩ := tokensFrom_parts cut
  have text : d :: own = c :: taken := by rw [← spelled,← token,String.toList_ofList]
  obtain ⟨rfl,rfl⟩ := List.cons.inj text
  rw [← parted,written_cons,spelled,List.cons_append,begins.shown] at passed
  have whole := (Prod.mk.inj passed).2
  obtain rfl := List.append_cancel_left (List.cons.inj whole).2
  refine ⟨⟨own,spelled,?_⟩,?_⟩
  · rw [show piece.1.kind = kind by rw [← token]]
    exact read
  · rw [← tokens_blanks blanks,← behind,tokens,tokensFrom_anywhere 0]

/-- Two words or two ampersands without a blank are not cut out as two tokens. -/
theorem Token.Begins.apart {token next : Token} {c d : Char} {taken left : Text} (begun : token.Begins c)
    (start : next.Begins d) (alike : token.kind = next.kind) (spelled : token.text.toList = c :: taken)
    (read : scanToken c (taken ++ d :: left) = (token.kind,taken,d :: left)) : token.kind ∉ [Kind.ident,.amp] := by
  have words : ∀ mark ∈ typeMarks, mark.2 ≠ .ident := by decide
  intro run
  cases begun with
  | word kind _ _ first _ =>
    cases start with
    | word _ _ _ start _ =>
      -- The second word would have been taken along.
      rw [scanToken_start first,scanWhile] at read
      have stop := List.head?_dropWhile_not isIdentPart (taken ++ d :: left)
      rw [(Prod.mk.inj (Prod.mk.inj read).2).2] at stop
      simp [isIdentPart_of_isIdentStart start] at stop
    | mark listed _ => exact words _ listed (alike.symm.trans kind)
  | mark listed alone =>
    rcases List.mem_cons.mp run with word | run
    · exact words _ listed word
    have amp := List.mem_singleton.mp run
    have second : (d,next.kind) ∈ typeMarks := by
      cases start with
      | word kind _ _ _ _ => exact absurd (alike.trans kind) (words _ listed)
      | mark listed _ => exact listed
    have ampersand : ∀ mark ∈ typeMarks, mark.2 = .amp → mark.1 = '&' := by decide
    obtain rfl : c = '&' := ampersand _ listed amp
    obtain rfl : d = '&' := ampersand _ second (alike.symm.trans amp)
    obtain rfl : taken = [] := (List.cons.inj (spelled.symm.trans alone)).2
    have doubled : Kind.ampAmp = token.kind := congrArg Prod.fst read
    rw [amp] at doubled
    cases doubled

/-- Tokens that come back do not stand side by side where they would run together. -/
theorem separated_of_read_back {pieces : List Piece} (begins : ∀ piece ∈ pieces, ∃ c, piece.1.Begins c)
    (gaps : ∀ piece ∈ pieces, Blanks piece.2) (spaced : pieces.IsChain Spaced)
    (single : ¬ Doubled (pieces.map (·.1)))
    (same : (tokens (written pieces)).map (·.token) = pieces.map (·.1)) : Separated (pieces.map (·.1)) := by
  induction pieces with
  | nil => exact .nil
  | cons piece rest ih =>
    obtain ⟨first,others⟩ := List.forall_mem_cons.mp begins
    obtain ⟨blank,blanks⟩ := List.forall_mem_cons.mp gaps
    obtain ⟨c,begun⟩ := first
    obtain ⟨⟨taken,spelled,read⟩,behind⟩ := read_back_cons begun blank same
    have fewer : ¬ Doubled (rest.map (·.1)) := fun doubled => single (doubled.trans (List.suffix_cons _ _).isInfix)
    refine (ih others blanks spaced.tail fewer behind).cons fun token listed alike run => ?_
    rw [List.head?_map] at listed
    obtain ⟨next,found,rfl⟩ := Option.map_eq_some_iff.mp listed
    obtain ⟨more,rfl⟩ := List.head?_eq_some_iff.mp found
    have noBar : piece.1.kind ≠ .pipe := fun bar => single
      ⟨[],more.map (·.1.kind),by simp [bar,← show piece.1.kind = next.1.kind from alike]⟩
    have close : piece.2 = [] := by
      by_contra gap
      rcases spaced.rel gap with comma | bar | bar
      · rw [comma] at run
        cases run with | tail _ run => cases run with | tail _ run => cases run with | tail _ run => cases run
      · exact noBar bar
      · exact noBar (alike.trans bar)
    obtain ⟨d,start⟩ := others next List.mem_cons_self
    obtain ⟨after,behind⟩ := start.spelled
    rw [close,List.nil_append,written_cons,behind,List.cons_append] at read
    have apart := begun.apart start alike spelled read
    simp only [List.mem_cons,List.not_mem_nil,or_false] at run apart
    exact run.elim (fun word => apart (.inl word)) fun run => run.elim (fun amp => apart (.inr amp)) noBar

/-- The tokens of such a type come back just when they may stand side by side. -/
theorem Spells.read_back_iff {own : List Token} {text lead : Text} {pieces : List Piece}
    (spells : Spells own text lead pieces) (begins : ∀ token ∈ own, ∃ c, token.Begins c) (single : ¬ Doubled own) :
    (tokens text).map (·.token) = own ↔ Separated own := by
  obtain ⟨rfl,rfl,clear,gaps,spaced⟩ := spells
  rw [List.forall_mem_map] at begins
  rw [tokens_blanks clear]
  exact ⟨separated_of_read_back begins gaps spaced single,
    fun separated => (apart_of_separated begins gaps separated).read_back gaps⟩

/-- The tokens that are cut out of a type's text are the type's own. -/
def TypeRef.Returns (type : TypeRef) (own : List Token) : Prop := (tokens type.text.toList).map (·.token) = own

/-- What a type takes up of a text are the tokens that it stands in. -/
theorem TypeRef.Stands.slice {text : Text} {type : TypeRef} {i j : Nat}
    (stands : type.Stands ((tokens text).map (·.token)) i j) :
    ∃ slice, text.slice? (type.span.map (offset text)) = some slice ∧
      (tokens slice).map (·.token) = ((tokens text).map (·.token)).extract i j := by
  have inside := stands.inside
  rw [List.length_map] at inside
  have order := stands.order
  refine ⟨_,Text.slice?_eq_some text _ ?_ (offset_isBoundary _ _) (offset_isBoundary _ _),?_⟩
  · rw [stands.span]
    exact offset_mono text (Nat.le_max_left _ _) (by simp only [Span.upTo]; omega)
  · rw [stands.span,List.extract_eq_take_drop]
    rcases Nat.lt_or_eq_of_le order with some | rfl
    · rw [Span.upTo_eq (by omega)]
      exact tokens_between text some inside
    · rw [show Span.upTo (2 * i + 1) (2 * i) = .empty (2 * i + 1) by simp [Span.upTo,Span.empty]]
      simp only [Span.map,Span.empty,Text.between_self text _ (offset_isBoundary _ _),Nat.sub_self,List.take_zero]
      rw [tokens,tokensFrom_nil]
      rfl

/-- The text of a type writes the tokens that the type takes up, in their order and with nothing but blanks
between them. They come back from it when none of them runs together with those behind it; words and marks
come back just when neither two words nor two ampersands stand side by side. -/
theorem types_return (text : Text) (type : TypeRef) (listed : type ∈ (parse text).typeRefs) :
    ∃ slice, text.slice? type.span = some slice ∧
      (¬ Doubled ((tokens slice).map (·.token)) → ∃ lead pieces,
        Spells ((tokens slice).map (·.token)) type.text.toList lead pieces ∧
        (Apart pieces → type.Returns ((tokens slice).map (·.token))) ∧
        (Worded ((tokens slice).map (·.token)) →
          (type.Returns ((tokens slice).map (·.token)) ↔ Separated ((tokens slice).map (·.token))))) := by
  obtain ⟨file,_,ran,_,known⟩ := Reads.compilationUnit_types (tokens_plain text) (Nat.zero_le _)
  rw [parse_read,ran,CompilationUnit.typeRefs_mapSpans] at listed
  obtain ⟨type,own,rfl⟩ := List.mem_map.mp listed
  obtain ⟨i,j,stands⟩ := known type own
  obtain ⟨slice,cut,same⟩ := stands.slice
  refine ⟨slice,cut,fun single => ?_⟩
  have text := stands.text
  rw [← same] at text
  obtain ⟨lead,pieces,spells⟩ := text.resolve_left single
  refine ⟨lead,pieces,spells,fun apart => ?_,fun worded => ?_⟩
  · have back := apart.read_back spells.gaps
    rwa [spells.own,← tokens_blanks spells.lead,← spells.text] at back
  · exact spells.read_back_iff (fun token member => tokens_begin slice token member (worded token member)) single

/-- No two words stand side by side in this type. -/
theorem types_return_nested : ∃ type ∈ (parse "class A { Map<String, List<?>[]> f; }".toList).typeRefs,
    type.text = "Map<String, List<?>[]>" ∧
      ∃ slice, Text.slice? "class A { Map<String, List<?>[]> f; }".toList type.span = some slice ∧
        type.Returns ((tokens slice).map (·.token)) := by
  have read : (parse "class A { Map<String, List<?>[]> f; }".toList).typeRefs =
      [⟨"Map<String, List<?>[]>",⟨10,32⟩⟩] := by
    decide +kernel
  have listed := read ▸ List.mem_singleton_self (⟨"Map<String, List<?>[]>",⟨10,32⟩⟩ : TypeRef)
  obtain ⟨slice,cut,given⟩ := types_return _ _ listed
  have part : Text.slice? "class A { Map<String, List<?>[]> f; }".toList ⟨10,32⟩ =
      some "Map<String, List<?>[]>".toList := by
    decide +kernel
  obtain rfl := Option.some.inj (cut.symm.trans part)
  have own : (tokens "Map<String, List<?>[]>".toList).map (·.token) =
      [⟨.ident,"Map"⟩,⟨.less,"<"⟩,⟨.ident,"String"⟩,⟨.comma,","⟩,⟨.ident,"List"⟩,⟨.less,"<"⟩,⟨.question,"?"⟩,
        ⟨.greater,">"⟩,⟨.bracketOpen,"["⟩,⟨.bracketClose,"]"⟩,⟨.greater,">"⟩] := by
    decide +kernel
  obtain ⟨_,_,_,_,whole⟩ := given (by rw [own]; decide)
  exact ⟨_,listed,rfl,_,cut,(whole (by rw [own]; decide)).mpr (by rw [own]; decide)⟩

/-- The bound of a wildcard is written together with the word in front of it. -/
theorem bound_not_returned : ∃ type ∈ (parse "class A { List<? extends T> f; }".toList).typeRefs,
    type.text = "List<?extendsT>" ∧
      ∃ slice, Text.slice? "class A { List<? extends T> f; }".toList type.span = some slice ∧
        slice = "List<? extends T>".toList ∧ ¬ type.Returns ((tokens slice).map (·.token)) := by
  have read : (parse "class A { List<? extends T> f; }".toList).typeRefs = [⟨"List<?extendsT>",⟨10,27⟩⟩] := by
    decide +kernel
  have listed := read ▸ List.mem_singleton_self (⟨"List<?extendsT>",⟨10,27⟩⟩ : TypeRef)
  refine ⟨_,listed,rfl,"List<? extends T>".toList,by decide +kernel,rfl,?_⟩
  have own : (tokens "List<? extends T>".toList).map (·.token) =
      [⟨.ident,"List"⟩,⟨.less,"<"⟩,⟨.question,"?"⟩,⟨.ident,"extends"⟩,⟨.ident,"T"⟩,⟨.greater,">"⟩] := by
    decide +kernel
  have again : (tokens "List<?extendsT>".toList).map (·.token) =
      [⟨.ident,"List"⟩,⟨.less,"<"⟩,⟨.question,"?"⟩,⟨.ident,"extendsT"⟩,⟨.greater,">"⟩] := by
    decide +kernel
  rw [TypeRef.Returns,own,again]
  decide

end Transplant.Java
