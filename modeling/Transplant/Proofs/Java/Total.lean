import Transplant.Proofs.Java.Loops
import Transplant.Proofs.Java.Placement
import Transplant.Proofs.Java.Respaced

/-! Reading is total. A text is cut into gaps and tokens up to its end, and its file is read up to the
last token. -/
namespace Transplant.Java

open Token (Kind)

/-- The text from byte `start` on is gaps and tokens in turn. The last gap ends with the text. -/
inductive Lexed : Nat → Text → List PlacedToken → Prop where
  | gap {start : Nat} {gap : Text} (passed : scanGap .blank gap = (gap,[])) : Lexed start gap []
  | token {start : Nat} {gap spelling rest : Text} {kind : Kind} {others : List PlacedToken}
      (passed : scanGap .blank gap = (gap,[])) (some : spelling ≠ [])
      (behind : Lexed (start + gap.size + spelling.size) rest others) :
      Lexed start (gap ++ (spelling ++ rest)) (⟨⟨kind,String.ofList spelling⟩,
        ⟨start + gap.size,start + gap.size + spelling.size⟩⟩ :: others)

/-- What was passed over as a gap is a gap also without what follows. -/
theorem scanGap_alone (mode : Gap) (text : Text) :
    scanGap mode (scanGap mode text).1 = ((scanGap mode text).1,[]) := by
  fun_induction scanGap mode text with
  | case1 | case2 | case3 | case4 | case6 => simp_all [scanGap]
  | case5 mode c rest opened doubled closed next going gap behind same ih =>
    have whole := scanGap_append next rest
    rw [same] at ih whole
    -- A comment that opens or closes with `c` would do so in front of what follows, too.
    rw [scanGap]
    · rw [if_neg going,show scanGap _ gap = (gap,[]) from ih]
    · rintro more rfl rfl rfl
      exact opened (more ++ behind) rfl rfl whole.symm
    · rintro more rfl rfl rfl
      exact doubled (more ++ behind) rfl rfl whole.symm
    · rintro more rfl rfl rfl
      exact closed (more ++ behind) rfl rfl whole.symm

/-- Cutting a text into tokens comes to its end. -/
theorem tokensFrom_lexed (start : Nat) (text : Text) : Lexed start text (tokensFrom start text) := by
  induction length : text.length using Nat.strongRecOn generalizing start text with
  | ind count ih =>
    have whole := scanGap_append .blank text
    have alone := scanGap_alone .blank text
    rw [tokensFrom]
    split
    · rename_i blanks gap
      rw [gap] at whole alone
      rw [List.append_nil] at whole
      exact whole ▸ .gap alone
    · rename_i blanks c rest gap
      have part := scanToken_append c rest
      rw [gap] at whole alone
      have shorter : (scanToken c rest).2.2.length < count := by
        have all := congrArg List.length whole
        have some := congrArg List.length part
        simp only [List.length_append,List.length_cons] at all some
        omega
      have parted : text = blanks ++ ((c :: (scanToken c rest).2.1) ++ (scanToken c rest).2.2) := by
        rw [List.cons_append,part]
        exact whole.symm
      rw [parted]
      exact .token alone (List.cons_ne_nil c _) (ih _ shorter _ _ rfl)

/-- Each token takes up some bytes of the text. -/
theorem Lexed.inside {start : Nat} {text : Text} {list : List PlacedToken} (lexed : Lexed start text list) :
    ∀ token ∈ list, start ≤ token.span.start ∧ token.span.start < token.span.stop ∧
      token.span.stop ≤ start + text.size := by
  induction lexed with
  | gap => nofun
  | @token start gap spelling rest kind others passed some behind ih =>
    have lasting : 0 < Text.size spelling := by
      obtain ⟨c,more,rfl⟩ := List.exists_cons_of_ne_nil some
      have positive := c.utf8Size_pos
      simp only [Text.size]
      omega
    rw [Text.size_append,Text.size_append]
    refine List.forall_mem_cons.mpr
      ⟨⟨Nat.le_add_right _ _,Nat.lt_add_of_pos_right lasting,?_⟩,fun token member => ?_⟩
    · simp only
      omega
    · obtain ⟨after,length,stop⟩ := ih token member
      exact ⟨by omega,length,by omega⟩

/-- From token `i` on something was found and a token passed, or the reader is back where it began. -/
def Attempted {α : Type} (i : Nat) : Option α → Nat → Prop
  | some _,j => i < j
  | none,j => j = i

section

open Reads

variable {tokens : List Token} {i : Nat}

theorem localVariables_attempt : Reads tokens StmtLevel.localVariables i (Attempted i) := by
  refine StmtLevel.localVariables_reads.mono fun found j given _ => ?_
  rcases given with ⟨rfl,same⟩ | ⟨s,rfl,read⟩
  · exact same
  · exact read.before

theorem element_attempt : Reads tokens StmtLevel.element i (Attempted i) := by
  refine assume fun inside => get (bind skipVariableModifiers fun _ k passed _ => ?_)
  refine bind typeRef fun found l typed _ => get ?_
  split
  · rename_i type name colon rest parted
    refine ite (fun _ => ?_) fun _ => set inside (pure rfl)
    have far : l + 1 < tokens.length := (List.getElem?_eq_some_iff.mp (Cursor.on_rest_two parted).2).1
    have low := passed.le
    rcases typed with ⟨none,_⟩ | ⟨_,_,_,order,_⟩
    · cases none
    · refine bind expect fun name m known _ => ?_
      have next : l ≤ m ∧ m ≤ l + 1 := by rcases known with ⟨_,_,_,_,rfl⟩ | ⟨_,_,rfl⟩ <;> omega
      exact skip 1 (by omega) (pure (show i < m + 1 by omega))
  · exact set inside (pure rfl)

/-- Where no type begins, nothing is read. Else what is known of the members of its body is known of the type. -/
theorem typeDecl_of_members (all : List Member → Prop) (members : ∀ name b, i < b →
      Reads tokens (Parser.gathered [.braceClose] (Parser.member name)) b fun list c => b ≤ c ∧ all list) :
    Reads tokens Parser.typeDecl i fun found j => (found = none ∧ j = i) ∨
      ∃ decl, found = some decl ∧ i < j ∧ all decl.members := by
  refine assume fun inside => get (bind modifiers fun flags k low _ => get ?_)
  split
  · exact set inside (pure (.inl ⟨rfl,rfl⟩))
  · rename_i kind words known
    obtain ⟨here,worded⟩ := MemberLevel.typeKind?_some known
    refine bind (skipBy fun _ => words) fun _ l first _ => bind expectOn fun name m second _ => ?_
    refine bind (skipWhile _) fun _ n ⟨third,_⟩ _ => bind expectOn fun brace a fourth _ => ?_
    -- The body begins at the brace, or behind the constants of an enumeration.
    have finish (b : Nat) (before : i < b) : Reads tokens (do
        let members ← Parser.gathered [.braceClose] (Parser.member name.text)
        discard (Parser.expect .braceClose)
        let body ← Parser.spanFrom brace.span.start
        return some (TypeDecl.mk kind flags name (.upTo (Cursor.on tokens i).nextStart body.stop) body members)) b
        fun found j => (found = none ∧ j = i) ∨ ∃ decl, found = some decl ∧ i < j ∧ all decl.members := by
      refine bind (members name.text b before) fun list c ⟨on,own⟩ _ => ?_
      exact bind expectOn.discard fun _ d behind _ => spanFrom (pure (.inr ⟨_,rfl,by omega,own⟩))
    refine ite (fun _ => ?_) fun _ => finish a (by omega)
    exact bind (Looped.constants.reads a) fun _ b runs _ => finish b (Nat.lt_of_lt_of_le (by omega) runs.inside.1)

theorem typeDecl_attempt : Reads tokens Parser.typeDecl i (Attempted i) := by
  refine (typeDecl_of_members (fun _ => True) fun name b _ => ?_).mono fun _ _ given _ => ?_
  · exact ((Looped.members name).reads b).mono fun _ _ runs _ => ⟨runs.inside.1,trivial⟩
  · rcases given with ⟨rfl,same⟩ | ⟨_,rfl,before,_⟩
    · exact same
    · exact before

/-- A loop that stops at no kind of token is left only where no token is left. -/
theorem gathered_ends {α : Type} {item : Parser (Option α)} (each : ∀ i, Reads tokens item i fun _ j => i ≤ j)
    (list : List α) : Reads tokens ((Loop.gathered [] item).turn list) i fun turn j =>
      ∀ out, turn = .done out → j = tokens.length := by
  refine assume fun inside => get (ite (fun ended => pure fun _ _ => ?_) fun going => ?_)
  · simp only [Cursor.seesAny,List.any_nil,Bool.or_false,Cursor.on_atEnd_iff] at ended
    omega
  · simp only [Bool.or_eq_true,not_or,Cursor.on_atEnd_iff] at going
    refine bind (each i) fun a k on _ => get (ite (fun same => ?_) fun _ => pure (by simp))
    cases (show k = i from same)
    exact skip 1 (Nat.lt_of_not_le going.1) (pure (by simp))

/-- A file is read up to the end of the tokens. -/
theorem compilationUnit_ends : Reads tokens Parser.compilationUnit i fun _ j => j = tokens.length := by
  refine bind packageDecl_fits fun package k _ _ => bind (Looped.imports.reads k) fun imports l _ inside => ?_
  refine bind (Looped.types.reads l) fun types m runs _ => nextStart (pure ?_)
  exact runs.leave (fun list _ => gathered_ends (fun _ => typeDecl_fits.mono fun _ _ given _ => given.1) list) inside

end

/-- Every loop is left and every circle of readers comes to its end, wherever in the tokens it begins.
What is read on trial is taken back when it fails, and then something else is read there or nothing. -/
structure Total (tokens : List Token) : Prop where
  loops : ∀ loop held reader, Looped loop held reader → loop.read held = reader ∧ loop.Ends tokens
  exprs : Recursion (ExprReaders.Alike tokens) ExprLevel.next Parser.exprReaders
  stmts : Recursion (Alike tokens) StmtLevel.stmt Parser.stmt
  members : Recursion (MemberLevel.OwnersAlike tokens) MemberLevel.member Parser.member
  locals : ∀ i, Reads tokens StmtLevel.localVariables i (Attempted i)
  elements : ∀ i, Reads tokens StmtLevel.element i (Attempted i)
  types : ∀ i, Reads tokens Parser.typeDecl i (Attempted i)
  passes : ∀ i, Reads tokens Parser.stmt i fun _ j => i < j ∨ (j = i ∧ Ended tokens i)

theorem reading_total (tokens : List Token) : Total tokens where
  loops _ _ _ looped := ⟨looped.read_eq,looped.advances.ends⟩
  exprs := ExprLevel.recursion
  stmts := StmtLevel.recursion
  members := MemberLevel.recursion
  locals _ := localVariables_attempt
  elements _ := element_attempt
  types _ := typeDecl_attempt
  passes _ := Parser.stmt_reads.mono fun _ _ given _ => given.symm.imp_left fun ⟨_,_,read⟩ => read.before

/-- Each text is cut into tokens up to its end, and its file is read up to the last of them. -/
theorem parse_total (text : Text) :
    Lexed 0 text (tokens text) ∧
    (∀ token ∈ tokens text, token.span.start < token.span.stop ∧ token.span.stop ≤ text.size) ∧
    Total ((tokens text).map (·.token)) ∧
    ∃ file, Parser.compilationUnit (.on ((tokens text).map (·.token)) 0) =
        (file,.on ((tokens text).map (·.token)) (tokens text).length) ∧
      parse text = file.mapSpans (Span.map (offset text)) := by
  have lexed : Lexed 0 text (tokens text) := tokensFrom_lexed 0 text
  refine ⟨lexed,fun token member => ?_,reading_total _,?_⟩
  · simpa using (lexed.inside token member).2
  · obtain ⟨file,_,ran,_,rfl⟩ := compilationUnit_ends (Nat.zero_le ((tokens text).map (·.token)).length)
    rw [List.length_map] at ran
    have start : Cursor.on ((tokens text).map (·.token)) 0 = ⟨0,(tokens text).map (·.token)⟩ := rfl
    refine ⟨file,ran,?_⟩
    rw [start] at ran
    simp only [parse,readText,ran,byteSpan_boundaries]

/-- A class that breaks off in a call is read up to where the text ends. -/
example : (Parser.compilationUnit (.on ((tokens "class A \x7b void f() \x7b foo(".toList).map (·.token)) 0)).2 =
    ⟨10,[]⟩ := by decide +kernel

end Transplant.Java
