import Transplant.Proofs.Block
import Transplant.Proofs.Java.Parts

/-! Tokens tile their text: in front of, between and behind them stand blanks and comments only, and the
gaps and the tokens in turn are the whole text. Written on lines of their own, the same tokens are cut out
again. -/
namespace Transplant.Java

open Text (InLine)

/-- Blanks and comments. A line comment stands before a line end, and a block comment goes as far as the
first mark that closes it; only where nothing follows, a comment may run to the end. -/
inductive Silent (ended : Bool) : Text → Prop
  | nil : Silent ended []
  | blank {c : Char} {rest : Text} (space : Text.isSpace c = true) (behind : Silent ended rest) :
      Silent ended (c :: rest)
  | line {body rest : Text} (inLine : InLine body) (stops : Breaks rest) (last : rest = [] → ended = true)
      (behind : Silent ended rest) : Silent ended ('/' :: '/' :: (body ++ rest))
  | block {body rest : Text} (within : ¬['*','/'] <:+: body) (behind : Silent ended rest) :
      Silent ended ('/' :: '*' :: (body ++ '*' :: '/' :: rest))
  | unclosed {body : Text} (within : ¬['*','/'] <:+: body) (last : ended = true) :
      Silent ended ('/' :: '*' :: body)

/-- What a gap begins with before it is in this state. -/
def Gap.opening : Gap → Text
  | .blank => []
  | .lineComment => ['/','/']
  | .blockComment => ['/','*']

/-- The spans in front of, between and behind tokens, from byte `here` to byte `stop`. -/
def gapsFrom (here stop : Nat) : List PlacedToken → List Span
  | [] => [⟨here,stop⟩]
  | token :: rest => ⟨here,token.span.start⟩ :: gapsFrom token.span.stop stop rest

variable {c : Char} {ended : Bool} {gap text : Text} {here : Nat}

theorem Silent.inLine (silent : Silent ended ('/' :: '/' :: gap)) (plain : isLineEnd c = false) :
    Silent ended ('/' :: '/' :: c :: gap) := by
  cases silent with
  | blank space => cases space
  | line inLine stops last behind => exact .line (Text.inLine_cons.mpr ⟨plain,inLine⟩) stops last behind

theorem Silent.inBlock (silent : Silent ended ('/' :: '*' :: gap)) (plain : c = '*' → gap.head? ≠ some '/') :
    Silent ended ('/' :: '*' :: c :: gap) := by
  have still (body rest : Text) (parted : gap = body ++ rest) (within : ¬['*','/'] <:+: body) :
      ¬['*','/'] <:+: c :: body := by
    rw [List.infix_cons_iff,List.cons_prefix_cons]
    rintro (⟨rfl,⟨more,same⟩⟩ | inside)
    · exact plain rfl (by rw [parted,← same]; rfl)
    · exact within inside
  cases silent with
  | blank space => cases space
  | block within behind => exact .block (still _ _ rfl within) behind
  | unclosed within last => exact .unclosed (still _ [] (List.append_nil _).symm within) last

/-- A gap is blanks and comments, which may end with the text when no token follows. -/
theorem scanGap_silent (mode : Gap) (text : Text) :
    Silent (scanGap mode text).2.isEmpty (mode.opening ++ (scanGap mode text).1) := by
  fun_induction scanGap mode text with
  | case1 rest gap left same ih | case2 rest gap left same ih =>
    rw [same] at ih
    exact ih
  | case3 rest gap left same ih =>
    rw [same] at ih
    exact @Silent.block _ [] _ (by decide) ih
  | case4 mode c rest opened doubled closed stopped =>
    obtain ⟨rfl,_⟩ : mode = .blank ∧ Text.isSpace c = false := by simpa using stopped
    exact .nil
  | case5 mode c rest opened doubled closed next going gap left same ih =>
    have whole := scanGap_append next rest
    rw [same] at ih whole
    cases mode with
    | blank => exact .blank (by simpa using going) ih
    | lineComment =>
      by_cases broken : isLineEnd c = true
      · have behind : Silent left.isEmpty gap := by simpa [next,broken,Gap.opening] using ih
        refine @Silent.line _ [] _ rfl ?_ (fun ended => absurd ended (List.cons_ne_nil c gap)) (.blank (isSpace_of_isLineEnd broken) behind)
        simpa [Breaks] using broken
      · rw [Bool.not_eq_true] at broken
        exact Silent.inLine (by simpa [next,broken,Gap.opening] using ih) broken
    | blockComment =>
      refine Silent.inBlock (by simpa [next,Gap.opening] using ih) ?_
      rintro rfl first
      obtain ⟨more,rfl⟩ := List.head?_eq_some_iff.mp first
      exact closed (more ++ left) rfl rfl whole.symm
  | case6 mode =>
    cases mode with
    | blank => exact .nil
    | lineComment => exact @Silent.line _ [] _ rfl (by simp [Breaks]) (fun _ => rfl) .nil
    | blockComment => exact .unclosed (by decide) rfl

theorem Placed.apart {tokens : List PlacedToken} (placed : Placed text here tokens) :
    (∀ token ∈ tokens, here ≤ token.span.start) ∧
      tokens.Pairwise fun first second => first.span.start < second.span.start ∧ first.span.stop ≤ second.span.start := by
  induction tokens generalizing here with
  | nil => exact ⟨nofun,.nil⟩
  | cons token rest ih =>
    obtain ⟨after,length,_,_,_,behind⟩ := placed
    obtain ⟨later,others⟩ := ih behind
    refine ⟨List.forall_mem_cons.mpr ⟨after,fun next member => ?_⟩,.cons (fun next member => ?_) others⟩
    · have := later next member
      omega
    · have := later next member
      omega

theorem scanGap_of_tokensFrom (start : Nat) (cut : tokensFrom start text = []) : scanGap .blank text = (text,[]) := by
  have whole := scanGap_append .blank text
  cases behind : (scanGap .blank text).2 with
  | nil =>
    rw [behind,List.append_nil] at whole
    exact Prod.ext whole behind
  | cons c rest =>
    obtain ⟨span,read⟩ := tokensFrom_some start behind
    rw [cut] at read
    cases read

/-- What stands between the tokens of a text, and the text put together from both. -/
theorem tokensFrom_gaps (front text : Text) : ∃ gaps last,
    (gapsFrom front.size (front ++ text).size (tokensFrom front.size text)).map (front ++ text).slice? =
      (gaps ++ [last]).map some ∧
    (∀ gap ∈ gaps, Silent false gap) ∧ Silent true last ∧
    text = (List.zipWith (fun gap token => gap ++ token.token.text.toList) gaps
      (tokensFrom front.size text)).flatten ++ last := by
  induction length : text.length using Nat.strongRecOn generalizing front text with
  | ind count ih =>
    have silent := scanGap_silent .blank text
    cases cut : tokensFrom front.size text with
    | nil =>
      have own := Text.slice?_append front text []
      rw [List.append_nil] at own
      rw [scanGap_of_tokensFrom _ cut] at silent
      exact ⟨[],text,by simp [gapsFrom,Text.size_append,own],nofun,silent,rfl⟩
    | cons first others =>
      obtain ⟨blanks,c,taken,rest,kind,rfl,passed,read,rfl,rfl⟩ := tokensFrom_parts cut
      rw [passed] at silent
      simp only [List.length_append,List.length_cons] at length
      obtain ⟨gaps,last,slices,inner,ended,whole⟩ := ih rest.length (by omega) (front ++ (blanks ++ c :: taken)) rest rfl
      have own := Text.slice?_append front blanks (c :: (taken ++ rest))
      have reach : (front ++ (blanks ++ c :: taken)).size = front.size + blanks.size + Text.size (c :: taken) := by
        rw [Text.size_append,Text.size_append,Nat.add_assoc]
      have parted : front ++ (blanks ++ c :: taken) ++ rest = front ++ (blanks ++ c :: (taken ++ rest)) := by simp
      rw [reach,parted] at slices
      rw [reach] at whole
      refine ⟨blanks :: gaps,last,?_,List.forall_mem_cons.mpr ⟨silent,inner⟩,ended,?_⟩
      · rw [gapsFrom,List.map_cons,own,slices]
        rfl
      · rw [List.zipWith_cons_cons,List.flatten_cons,String.toList_ofList,List.append_assoc,← whole]
        simp

/-- Tokens tile the text. Each takes up some bytes between two characters and is spelled as the text is
there, they stand one behind the other, and in front of, between and behind them are blanks and comments.
The gaps and the tokens in turn are the text. -/
theorem tokens_tile (text : Text) :
    (∀ token ∈ tokens text, token.span.start < token.span.stop ∧ text.isBoundary token.span.start = true ∧
      text.isBoundary token.span.stop = true ∧ text.slice? token.span = some token.token.text.toList) ∧
    ((tokens text).Pairwise fun first second =>
      first.span.start < second.span.start ∧ first.span.stop ≤ second.span.start) ∧
    ∃ gaps last, (gapsFrom 0 text.size (tokens text)).map text.slice? = (gaps ++ [last]).map some ∧
      (∀ gap ∈ gaps, Silent false gap) ∧ Silent true last ∧
      text = (List.zipWith (fun gap token => gap ++ token.token.text.toList) gaps (tokens text)).flatten ++ last := by
  refine ⟨fun token member => ?_,(tokens_placed text).apart.2,tokensFrom_gaps [] text⟩
  obtain ⟨k,found⟩ := List.mem_iff_getElem?.mp member
  have length := offset_lt text (List.getElem?_eq_some_iff.mp found).1
  have slice := slice?_token found
  rw [token_span found] at slice ⊢
  exact ⟨length,offset_isBoundary text _,offset_isBoundary text _,slice⟩

/-- A token behind a comment to the end of a line, and before one that is not closed. -/
def commented : Text := "é//x\r+ /* y".toList

theorem tokens_tile_commented :
    (⟨⟨.plus,"+"⟩,⟨6,7⟩⟩ ∈ tokens commented ∧ commented.slice? ⟨6,7⟩ = some ['+']) ∧
    (gapsFrom 0 commented.size (tokens commented)).map commented.slice? =
      [some [],some "//x\r".toList,some " /* y".toList] ∧
    Silent false "//x\r".toList ∧ Silent true " /* y".toList := by
  obtain ⟨placed,_,gaps,last,slices,silent,ended,_⟩ := tokens_tile commented
  have evaluated : (gapsFrom 0 commented.size (tokens commented)).map commented.slice? =
      ([[],"//x\r".toList] ++ [" /* y".toList]).map some := by decide +kernel
  have both := (List.map_inj_right fun _ _ => Option.some.inj).mp (slices.symm.trans evaluated)
  obtain ⟨rfl,same⟩ := List.append_inj' both rfl
  obtain rfl := List.singleton_inj.mp same
  have member : ⟨⟨.plus,"+"⟩,⟨6,7⟩⟩ ∈ tokens commented := by decide +kernel
  obtain ⟨_,_,_,slice⟩ := placed _ member
  exact ⟨⟨member,slice⟩,evaluated,silent _ (by simp),ended⟩

/-- The text of tokens, each but the first on a new line. -/
def rejoined (words : List Token) : Text := ['\n'].intercalate (words.map fun token => token.text.toList)

/-- What follows a token there. -/
def lineBehind : List Token → Text
  | [] => []
  | token :: rest => '\n' :: rejoined (token :: rest)

theorem rejoined_cons (token : Token) (rest : List Token) :
    rejoined (token :: rest) = token.text.toList ++ lineBehind rest := by
  cases rest <;> simp [rejoined,lineBehind,List.intercalate]

theorem tokens_lineBehind (words : List Token) :
    (tokens (lineBehind words)).map (·.token) = (tokens (rejoined words)).map (·.token) := by
  cases words with
  | nil => rfl
  | cons token rest => exact tokens_space (show ['\n'].all Text.isSpace = true by decide) _

theorem tokensFrom_rejoined (start : Nat) (text : Text) :
    (tokens (rejoined ((tokensFrom start text).map (·.token)))).map (·.token) = (tokensFrom start text).map (·.token) := by
  induction length : text.length using Nat.strongRecOn generalizing start text with
  | ind count ih =>
    cases cut : tokensFrom start text with
    | nil => rw [List.map_nil,rejoined,List.map_nil,List.intercalate_nil,tokens,tokensFrom_nil,List.map_nil]
    | cons first others =>
      obtain ⟨blanks,c,taken,rest,kind,rfl,passed,read,rfl,rfl⟩ := tokensFrom_parts cut
      simp only [List.length_append,List.length_cons] at length
      generalize place : start + Text.size blanks + Text.size (c :: taken) = stop
      have behind := ih rest.length (by omega) stop rest rfl
      -- A line feed stands behind the token only if there is more text, so no literal is left open before it.
      have resumes : Resumes (lineBehind ((tokensFrom stop rest).map (·.token))) rest := by
        cases more : tokensFrom stop rest with
        | nil => exact .of_near (.of_isPrefix (List.nil_prefix))
        | cons =>
          refine .of_breaks (by simp [Breaks,lineBehind,isLineEnd]) ?_
          rintro rfl
          rw [tokensFrom_nil] at more
          cases more
      have nothing := scanGap_resumes (scanGap_again (congrArg Prod.snd passed)) resumes
      have token := scanToken_resumes c (taken ++ rest) (by rw [read]; exact resumes)
      rw [read] at token
      rw [List.map_cons,rejoined_cons,String.toList_ofList,List.cons_append,tokens,tokensFrom_cons 0 nothing token,
        List.map_cons,tokensFrom_anywhere _ 0]
      exact congrArg _ ((tokens_lineBehind _).trans behind)

/-- Cutting a text into tokens does not depend on how they are spaced: on lines of their own they are the same. -/
theorem tokens_rejoined (text : Text) :
    (tokens (['\n'].intercalate ((tokens text).map fun token => token.token.text.toList))).map (·.token) =
      (tokens text).map (·.token) := by
  have again := tokensFrom_rejoined 0 text
  rw [rejoined,List.map_map] at again
  exact again

/-- Neither two signs nor the literal that is left open run into what stands behind them. -/
example : rejoined ((tokens "a >>=1.5+ ++.\"b\\".toList).map (·.token)) =
    "a\n>\n>=\n1.5\n+\n++\n.\n\"b\\".toList := by decide +kernel

end Transplant.Java
