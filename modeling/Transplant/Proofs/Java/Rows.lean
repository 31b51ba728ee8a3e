import Transplant.Proofs.Java.Fits

/-! The statements of a block come one behind the other: each takes up whole tokens, and the block
around them begins before the first and ends behind the last, also where its braces are missing. -/
namespace Transplant.Java

open Token (Kind)
open Reads

/-- Spans of whole tokens, one behind the other, from some token to before another one. -/
inductive Row : List Span → Nat → Nat → Prop where
  | nil {i j : Nat} (order : i ≤ j) : Row [] i j
  | cons {span : Span} {rest : List Span} {i k l j : Nat} (low : i ≤ k) (before : k < l)
      (place : span = ⟨2 * k + 1,2 * l⟩) (others : Row rest l j) : Row (span :: rest) i j

/-- A row of spans inside another span. -/
structure Covers (tokens : List Token) (around : Span) (parts : List Span) : Prop where
  fits : Fits tokens.length around
  row : ∃ i j, j ≤ tokens.length ∧ around.start ≤ 2 * i + 1 ∧ 2 * j ≤ around.stop ∧ Row parts i j

def Block.Rowed (tokens : List Token) (b : Block) : Prop :=
  Covers tokens b.span (b.statements.map Stmt.span)

/-- Spans that fit, and blocks with their statements in a row. -/
structure Sits (tokens : List Token) (spans : List Span) (blocks : List Block) : Prop where
  spans : AllFit tokens.length spans
  blocks : ∀ b ∈ blocks, b.Rowed tokens

variable {tokens : List Token} {i j k l m : Nat}

section

variable {span : Span} {spans more : List Span} {blocks others : List Block}

theorem Row.le (row : Row spans i j) : i ≤ j := by
  induction row with
  | nil order => exact order
  | cons low before _ _ ih => exact Nat.le_trans low (Nat.le_trans (Nat.le_of_lt before) ih)

theorem Row.earlier (row : Row spans k j) (low : i ≤ k) : Row spans i j := by
  cases row with
  | nil order => exact .nil (Nat.le_trans low order)
  | cons first before place rest => exact .cons (Nat.le_trans low first) before place rest

theorem Sits.nil : Sits tokens [] [] := ⟨.nil,nofun⟩

theorem AllFit.sits (fit : AllFit tokens.length spans) : Sits tokens spans [] := ⟨fit,nofun⟩

theorem Sits.cons (first : Fits tokens.length span) (rest : Sits tokens spans blocks) :
    Sits tokens (span :: spans) blocks := ⟨.cons first rest.spans,rest.blocks⟩

theorem Sits.append (first : Sits tokens spans blocks) (rest : Sits tokens more others) :
    Sits tokens (spans ++ more) (blocks ++ others) :=
  ⟨first.spans.append rest.spans,List.forall_mem_append.mpr ⟨first.blocks,rest.blocks⟩⟩

theorem AllFit.before (first : AllFit tokens.length spans) (rest : Sits tokens more blocks) :
    Sits tokens (spans ++ more) blocks := first.sits.append rest

end

def Stmt.Fit (tokens : List Token) (s : Stmt) : Prop := Sits tokens s.spans s.blocks

def Block.Fit (tokens : List Token) (b : Block) : Prop := Sits tokens b.spans b.blocks

def Catch.Fit (tokens : List Token) (clause : Catch) : Prop := Sits tokens clause.spans clause.blocks

def Param.Fit (tokens : List Token) (param : Param) : Prop := AllFit tokens.length param.spans

theorem Block.Fit.span {b : Block} (fit : b.Fit tokens) : Fits tokens.length b.span :=
  fit.spans _ b.span_mem_spans

theorem Block.Fit.of_statements {statements : List Stmt} {span : Span}
    (covers : Covers tokens span (statements.map Stmt.span))
    (inside : Sits tokens (Stmt.spansAll statements) (Stmt.blocksAll statements)) :
    Block.Fit tokens ⟨statements,span⟩ :=
  ⟨.cons covers.fits inside.spans,List.forall_mem_cons.mpr ⟨covers,inside.blocks⟩⟩

/-- A declared variable reaches from its type to its name. -/
theorem Param.fit_of_parts {type : TypeRef} {name : Ident} (typed : Fits tokens.length type.span)
    (named : Fits tokens.length name.span) :
    Param.Fit tokens ⟨type,name,.upTo type.span.start name.span.stop⟩ :=
  .cons (.upTo typed.start_known named.known) (.cons typed (.one named))

namespace StmtLevel

theorem terminated_fits {start : Nat} {make : Span → Stmt} (begun : start ≤ 2 * tokens.length + 1)
    (made : ∀ span, Fits tokens.length span → (make span).Fit tokens) :
    Reads tokens (terminated start make) i fun s _ => s.Fit tokens := by
  refine eat (fun seen => ?_) fun _ => bind (skipOutside _ _) fun _ k _ _ => ?_
  · have := seen.lt
    exact spanFrom (pure (made _ (.upTo begun (by omega))))
  · refine bind eaten.discard fun _ j _ bound => spanFrom (pure ?_)
    exact .cons (.upTo begun (by omega)) .nil

theorem declarators_fits (turns : Nat) : Reads tokens (declarators turns) i fun list _ =>
    AllFit tokens.length (list.flatMap Declarator.spans) := by
  induction turns generalizing i with
  | zero => exact pure .nil
  | succ turns ih =>
    refine bind expect_fits fun name k named _ => bind dimensions.discard fun _ l _ _ => ?_
    have finish (initializer : Option Expr) (m : Nat)
        (read : AllFit tokens.length (Expr.spansOption initializer)) : Reads tokens (do
          let declarator := ⟨name,initializer,← Parser.spanFrom name.span.start⟩
          if ← Parser.eat .comma then return declarator :: (← declarators turns)
          else return [declarator]) m fun list _ =>
            AllFit tokens.length (list.flatMap Declarator.spans) := by
      refine assume fun bound => spanFrom ?_
      have first : AllFit tokens.length
          (Declarator.spans ⟨name,initializer,.upTo name.span.start (2 * m)⟩) :=
        .cons (.upTo named.start_known (by omega)) (.cons named read)
      refine eat (fun _ => bind ih fun rest j others _ => pure ?_) fun _ => pure ?_
      · exact first.append others
      · exact first.append .nil
    refine eat (fun _ => ?_) fun _ => finish none l .nil
    exact bind Parser.initializer_fits fun e m read _ => finish (some e) m read

theorem localVariables_fits : Reads tokens localVariables i fun found _ =>
    ∀ s, found = some s → s.Fit tokens := by
  refine assume fun inside => get (bind skipVariableModifiers fun _ k _ _ => get ?_)
  refine ite (fun _ => set inside (pure nofun)) fun _ => bind typeRef_fits fun found l given _ => ?_
  cases found with
  | none => exact set inside (pure nofun)
  | some type =>
    refine get (ite (fun _ => ?_) fun _ => set inside (pure nofun))
    refine bind (bounded fun turns _ => declarators_fits turns) fun list m read _ => ?_
    refine bind (terminated_fits (show 2 * i + 1 ≤ _ by omega) fun span fits => ?_) fun s _ made _ => pure ?_
    · exact .cons fits (.cons (given type rfl) read.sits)
    · exact fun _ same => Option.some.inj same ▸ made

/-- What a reader of the statements from token `i` on gives fits. -/
def Fit (tokens : List Token) (inner : Parser (Option Stmt)) (i : Nat) : Prop :=
  ∀ k, i ≤ k → Reads tokens inner k fun found _ => ∀ s, found = some s → s.Fit tokens

variable {inner : Parser (Option Stmt)}

theorem Fit.later (fit : Fit tokens inner i) (order : i ≤ k) : Fit tokens inner k :=
  fun l low => fit l (Nat.le_trans order low)

theorem block_fits (sound : Sound tokens inner m) (fit : Fit tokens inner m)
    (low : m ≤ i ∨ (m = i + 1 ∧ Seen tokens i .braceOpen)) :
    Reads tokens (block inner) i fun b j => b.Fit tokens ∧ b.span.stop = 2 * j := by
  refine bind (expect.and expect_fits) fun brace k ⟨known,opening⟩ _ => ?_
  -- Where the brace is missing, the block begins behind the token before.
  have inside : m ≤ k ∧ brace.span.start ≤ 2 * k := by
    rcases known with ⟨_,_,_,rfl,rfl⟩ | ⟨unseen,rfl,rfl⟩
    · exact ⟨by omega,show 2 * i + 1 ≤ _ by omega⟩
    · exact ⟨low.resolve_right fun given => unseen given.2,Nat.le_refl _⟩
  refine bind (gathered (fun list k j => Row (list.map Stmt.span) k j ∧
    Sits tokens (Stmt.spansAll list) (Stmt.blocksAll list)) (fun k => ⟨.nil (Nat.le_refl k),.nil⟩)
    fun l later unread going => ((sound l (by omega)).and (fit l (by omega))).mono
      fun found m given _ => ?_) fun statements l ⟨row,all⟩ _ => ?_
  · obtain ⟨⟨_,short | closing⟩ | ⟨s,rfl,read⟩,fits⟩ := given
    · omega
    · exact absurd closing (going _ (by simp))
    · have before := read.before
      refine ⟨Nat.le_of_lt before,fun list j rest => ?_⟩
      rw [if_neg (by omega)] at rest
      exact ⟨.cons (Nat.le_refl l) before read.span rest.1,(fits s rfl).append rest.2⟩
  · refine bind expectOn.discard fun _ j ⟨_,last⟩ bound => spanFrom (pure ?_)
    have far := row.le
    have stop : (Span.upTo brace.span.start (2 * j)).stop = 2 * j := by
      rw [Span.upTo_eq (by omega)]
    refine ⟨.of_statements ⟨.upTo opening.start_known (by omega),k,l,by omega,?_,?_,row⟩ all,stop⟩
    · exact Nat.le_succ_of_le inside.2
    · omega

theorem substatement_fits (fit : Fit tokens inner i) :
    Reads tokens (substatement inner) i fun s _ => s.Fit tokens := by
  have nothing (j : Nat) : Reads tokens (do return Stmt.empty (.empty (← Parser.lastStop))) j
      fun s _ => s.Fit tokens :=
    assume fun bound => lastStop (pure (AllFit.one (.empty (by omega))).sits)
  refine get (bind (fit i (Nat.le_refl i)) fun found j given _ => ?_)
  cases found with
  | none => exact nothing j
  | some s => exact get (ite (fun _ => nothing j) fun _ => pure (given s rfl))

theorem parenCondition_fits : Reads tokens parenCondition i fun e _ => e.Fit tokens :=
  bind expectOn.discard fun _ _ _ _ => bind Parser.expr_fits fun _ _ read _ =>
    bind expectOn.discard fun _ _ _ _ => pure read

theorem ifElse_fits {start : Nat} (begun : start ≤ 2 * tokens.length + 1) (sound : Sound tokens inner i)
    (fit : Fit tokens inner i) : Reads tokens (ifElse inner start) i fun s _ => s.Fit tokens := by
  refine bind (parenCondition_reads.and parenCondition_fits) fun condition k ⟨first,asked⟩ _ => ?_
  have low := (first []).le
  refine bind ((substatement_reads (sound.later low)).and (substatement_fits (fit.later low)))
    fun yes l ⟨second,taken⟩ _ => ?_
  have middle := (second .start).le
  have finish (no : Option Stmt) (j : Nat) (third : Sits tokens (Stmt.spansOption no) (Stmt.blocksOption no)) :
      Reads tokens (do return .ifElse condition yes no (← Parser.spanFrom start)) j
        fun (s : Stmt) _ => s.Fit tokens := by
    refine assume fun bound => spanFrom (pure ?_)
    exact .cons (.upTo begun (by omega)) (AllFit.before asked (taken.append third))
  refine eatWord (fun _ => ?_) fun _ => finish none l .nil
  exact bind (substatement_fits (fit.later (by omega))) fun no j third _ => finish (some no) j third

theorem whileLoop_fits {start : Nat} (begun : start ≤ 2 * tokens.length + 1) (fit : Fit tokens inner i) :
    Reads tokens (whileLoop inner start) i fun s _ => s.Fit tokens := by
  refine bind (parenCondition_reads.and parenCondition_fits) fun condition k ⟨first,asked⟩ _ => ?_
  refine bind (substatement_fits (fit.later (first []).le)) fun body j repeated bound => spanFrom (pure ?_)
  exact .cons (.upTo begun (by omega)) (AllFit.before asked repeated)

theorem element_fits : Reads tokens element i fun found _ =>
    ∀ param, found = some param → param.Fit tokens := by
  refine assume fun inside => get (bind skipVariableModifiers fun _ k _ _ => ?_)
  refine bind typeRef_fits fun found l typed _ => get ?_
  split
  · rename_i type first second rest parted
    have colon := (List.getElem?_eq_some_iff.mp (Cursor.on_rest_two parted).2).1
    refine ite (fun _ => ?_) fun _ => set inside (pure nofun)
    refine bind (expect.and expect_fits) fun ident m ⟨known,named⟩ _ => ?_
    have on : m ≤ l + 1 := by rcases known with ⟨_,_,_,_,rfl⟩ | ⟨_,_,rfl⟩ <;> omega
    refine skip 1 (by omega) (pure fun _ same => ?_)
    exact Option.some.inj same ▸ Param.fit_of_parts (typed type rfl) named
  · exact set inside (pure nofun)

theorem sits_exprs (values : List Expr) (read : Expr.FitAll tokens values) :
    Sits tokens (Stmt.spansAll (values.map fun value => .expr value value.span))
      (Stmt.blocksAll (values.map fun value => .expr value value.span)) := by
  induction values with
  | nil => exact .nil
  | cons e rest ih =>
    have parted := List.forall_mem_append.mp read
    have first : e.Fit tokens := parted.1
    exact Sits.append (.cons first.span (AllFit.sits first)) (ih parted.2)

theorem loopInit_fits : Reads tokens loopInit i fun list _ =>
    Sits tokens (Stmt.spansAll list) (Stmt.blocksAll list) := by
  refine bind localVariables_fits fun found k given _ => ?_
  cases found with
  | none =>
    refine bind (ExprLevel.separated_fits _ fun _ => Parser.expr_fits) fun values l read _ => ?_
    exact bind expectOn.discard fun _ j _ _ => pure (sits_exprs values read)
  | some s => exact pure ((given s rfl).append .nil)

theorem forLoop_fits {start : Nat} (begun : start ≤ 2 * tokens.length + 1) (fit : Fit tokens inner i) :
    Reads tokens (forLoop inner start) i fun s _ => s.Fit tokens := by
  refine bind expectOn.discard fun _ k ⟨_,opened⟩ _ => ?_
  refine bind (element_reads.and element_fits) fun found l ⟨place,given⟩ _ => ?_
  cases found with
  | none =>
    have here : k ≤ l := by
      rcases place with ⟨_,rfl⟩ | ⟨_,other,_⟩
      · exact Nat.le_refl l
      · cases other
    refine bind (loopInit_reads.and loopInit_fits) fun init m ⟨first,begins⟩ _ => ?_
    have low := (first .start).le
    have finish (condition : Option Expr) (n : Nat) (on : m ≤ n)
        (asked : AllFit tokens.length (Expr.spansOption condition)) : Reads tokens (do
          discard (Parser.expect .semicolon)
          let update ← Parser.separated [.parenClose] Parser.expr
          discard (Parser.expect .parenClose)
          let body ← substatement inner
          return .forLoop init condition update body (← Parser.spanFrom start)) n
          fun (s : Stmt) _ => s.Fit tokens := by
      refine bind expectOn.discard fun _ a ⟨_,ended⟩ _ => ?_
      refine bind ((Parser.exprs_reads _).and (ExprLevel.separated_fits _ fun _ => Parser.expr_fits))
        fun update b ⟨third,stepped⟩ _ => bind expectOn.discard fun _ c ⟨_,closed⟩ _ => ?_
      have middle := (third []).le
      refine bind (substatement_fits (fit.later (by omega))) fun body j inside bound => spanFrom (pure ?_)
      exact .cons (.upTo begun (by omega)) (begins.append (asked.before (AllFit.before stepped inside)))
    exact sees (fun _ => finish none m (Nat.le_refl m) .nil) fun _ =>
      bind (Parser.expr_reads.and Parser.expr_fits) fun e n ⟨read,asked⟩ _ => finish (some e) n read.le asked
  | some param =>
    have here : k ≤ l := by
      rcases place with ⟨other,_⟩ | ⟨_,_,walked⟩
      · cases other
      · exact walked.le
    refine bind (Parser.expr_reads.and Parser.expr_fits) fun iterable m ⟨read,asked⟩ _ => ?_
    refine bind expectOn.discard fun _ n ⟨_,closed⟩ _ => ?_
    have low := read.le
    refine bind (substatement_fits (fit.later (by omega))) fun body j inside bound => spanFrom (pure ?_)
    exact .cons (.upTo begun (by omega)) (AllFit.before (given param rfl) (AllFit.before asked inside))

theorem caughtType_fits (type : TypeRef) (typed : Fits tokens.length type.span) :
    Reads tokens (caughtType type) i fun next j => i ≤ j ∧ Fits tokens.length (next.getD type).span := by
  refine eat (fun _ => ?_) fun _ => pure ⟨Nat.le_refl i,typed⟩
  refine bind (typeRef.and typeRef_fits) fun found j ⟨place,given⟩ _ => ?_
  cases found with
  | none =>
    rcases place with ⟨_,_,rfl⟩ | ⟨_,other,_⟩
    · exact pure ⟨Nat.le_succ i,typed⟩
    · cases other
  | some other =>
    rcases place with ⟨none,_⟩ | ⟨_,_,_,order,_⟩
    · cases none
    · exact pure ⟨by omega,.upTo typed.start_known (given other rfl).known⟩

theorem catchClause_fits (sound : Sound tokens inner i) (fit : Fit tokens inner i) :
    Reads tokens (catchClause inner) i fun found _ =>
      ∀ clause, found = some clause → clause.Fit tokens := by
  refine assume fun inside => nextStart (eatWord (fun _ => ?_) fun _ => pure nofun)
  refine bind expectOn.discard fun _ k ⟨_,opened⟩ _ => bind skipVariableModifiers fun _ l passed _ => ?_
  refine bind (typeRefOrEmpty.and typeRefOrEmpty_fits) fun type m ⟨⟨on,_⟩,typed⟩ _ => ?_
  refine bind (repeated (fun (type : TypeRef) j => m ≤ j ∧ Fits tokens.length type.span) type
    ⟨Nat.le_refl m,typed⟩ fun type n ⟨low,typed⟩ => ?_) fun type n ⟨further,typed⟩ _ => ?_
  · exact (caughtType_fits type typed).mono fun _ _ ⟨after,fits⟩ _ => ⟨Nat.le_trans low after,fits⟩
  refine bind (expectOn.and expect_fits) fun name a ⟨after,named⟩ _ => ?_
  refine bind expectOn.discard fun _ b ⟨_,closed⟩ _ => ?_
  have passed := passed.le
  have low : i ≤ b := by omega
  refine bind (block_fits (sound.later low) (fit.later low) (.inl (Nat.le_refl b))) fun body j ⟨read,_⟩ _ => ?_
  refine pure fun _ same => Option.some.inj same ▸ ?_
  exact .cons (.upTo (show 2 * i + 1 ≤ _ by omega) read.span.known)
    (AllFit.before (Param.fit_of_parts typed named) read)

theorem tryCatch_fits {start : Nat} (begun : start ≤ 2 * tokens.length + 1) (sound : Sound tokens inner i)
    (fit : Fit tokens inner i) : Reads tokens (tryCatch inner start) i fun s _ => s.Fit tokens := by
  refine bind (skipNested _ _) fun _ k on _ => ?_
  refine bind ((block_reads (sound.later on) (.inl (Nat.le_refl k))).and
    (block_fits (sound.later on) (fit.later on) (.inl (Nat.le_refl k)))) fun body l ⟨first,tried,_⟩ _ => ?_
  have low := (first.walked .start).le
  have far : i ≤ l := Nat.le_trans on low
  refine bind (many (fun clauses l m => l ≤ m ∧
    Sits tokens (Catch.spansAll clauses) (Catch.blocksAll clauses)) (fun m => ⟨Nat.le_refl m,.nil⟩)
    fun m further => ((catchClause_reads (sound.later (Nat.le_trans far further))).and
      (catchClause_fits (sound.later (Nat.le_trans far further)) (fit.later (Nat.le_trans far further)))).mono
      fun found n ⟨⟨after,ended,_⟩,given⟩ _ => ⟨after,ended,?_⟩) fun clauses m ⟨after,caught⟩ _ => ?_
  · rintro clause rfl rest j ⟨behind,others⟩
    exact ⟨Nat.le_trans after behind,(given clause rfl).append others⟩
  · have finish (cleanup : Option Block) (j : Nat)
        (last : Sits tokens (Block.spansOption cleanup) (Block.blocksOption cleanup)) : Reads tokens (do
          return .tryCatch body clauses cleanup (← Parser.spanFrom start)) j
          fun (s : Stmt) _ => s.Fit tokens := by
      refine assume fun bound => spanFrom (pure ?_)
      exact .cons (.upTo begun (by omega)) (tried.append (caught.append last))
    refine eatWord (fun _ => ?_) fun _ => finish none m .nil
    have late : i ≤ m + 1 := by omega
    exact bind (block_fits (sound.later late) (fit.later late) (.inl (Nat.le_refl _)))
      fun cleanup j ⟨last,_⟩ _ => finish (some cleanup) j last

theorem jump_fits {start : Nat} {make : Span → Stmt} (begun : start ≤ 2 * tokens.length + 1)
    (made : ∀ span, Fits tokens.length span → (make span).Fit tokens) :
    Reads tokens (jump start make) i fun s _ => s.Fit tokens := by
  refine bind eaten.discard fun _ k _ _ => bind expectOn.discard fun _ j _ bound => ?_
  exact spanFrom (pure (made _ (.upTo begun (by omega))))

theorem stmt_fits (sound : Sound tokens inner (i + 1)) (fit : Fit tokens inner (i + 1)) :
    Reads tokens (stmt inner) i fun found _ => ∀ s, found = some s → s.Fit tokens := by
  have found {read : Parser Stmt} (k : Nat) (given : Reads tokens read k fun s _ => s.Fit tokens) :
      Reads tokens (do return some (← read)) k fun found _ => ∀ s, found = some s → s.Fit tokens :=
    bind given fun s _ read _ => pure fun _ same => Option.some.inj same ▸ read
  refine assume fun inside => get (ite (fun _ => pure nofun) fun _ => ?_)
  have begun : 2 * i + 1 ≤ 2 * tokens.length + 1 := by omega
  have plain (make : Span → Stmt) (same : ∀ span, (make span).spans = [span] ∧ (make span).blocks = [])
      (span : Span) (fits : Fits tokens.length span) : (make span).Fit tokens := by
    unfold Stmt.Fit
    rw [(same span).1,(same span).2]
    exact (AllFit.one fits).sits
  refine eat (fun seen => pure fun _ same => ?_) fun _ => sees (fun brace => ?_) fun _ => ?_
  · have := seen.lt
    exact Option.some.inj same ▸ (AllFit.one ⟨Nat.le_succ _,show 2 * i + 2 ≤ _ by omega⟩).sits
  · exact bind (block_fits sound fit (.inr ⟨rfl,brace⟩)) fun body _ ⟨read,_⟩ _ =>
      pure fun _ same => Option.some.inj same ▸ read
  refine eatWord (fun _ => ?_) fun _ => eatWord (fun _ => ?_) fun _ => ?_
  · have finish (value : Option Expr) (k : Nat) (read : AllFit tokens.length (Expr.spansOption value)) :
        Reads tokens (do return some (← terminated (2 * i + 1) (.returns value))) k
          fun found _ => ∀ s, found = some s → s.Fit tokens :=
      found k (terminated_fits begun fun _ fits => .cons fits read.sits)
    exact sees (fun _ => finish none _ .nil) fun _ =>
      bind Parser.expr_fits fun e k read _ => finish (some e) k read
  · refine bind Parser.expr_fits fun e k read _ => found k (terminated_fits begun fun _ fits => ?_)
    exact .cons fits (AllFit.sits read)
  refine eatWord (fun _ => found _ (ifElse_fits begun sound fit)) fun _ => ?_
  refine eatWord (fun _ => found _ (whileLoop_fits begun fit)) fun _ => ?_
  refine eatWord (fun _ => found _ (forLoop_fits begun fit)) fun _ => ?_
  refine eatWord (fun _ => found _ (tryCatch_fits begun sound fit)) fun _ => ?_
  refine eatWord (fun _ => found _ (jump_fits begun (plain .breaks fun _ => ⟨rfl,rfl⟩))) fun _ => ?_
  refine eatWord (fun _ => found _ (jump_fits begun (plain .continues fun _ => ⟨rfl,rfl⟩))) fun _ => ?_
  refine bind (passUnsupported_reads sound) ?_
  rintro _ j (⟨rfl,_⟩ | ⟨rfl,_⟩) bound
  · exact spanFrom (pure fun _ same =>
      Option.some.inj same ▸ plain .unsupported (fun _ => ⟨rfl,rfl⟩) _ (.upTo begun (by omega)))
  · refine bind localVariables_fits fun found? k given _ => ?_
    cases found? with
    | some s => exact pure fun _ same => Option.some.inj same ▸ given s rfl
    | none =>
      refine bind Parser.expr_fits fun e l read _ => found l (terminated_fits begun fun span fits => ?_)
      exact .cons (.upTo read.span.start_known fits.known) (AllFit.sits read)

/-- As many levels as there are tokens left reach every statement. -/
theorem reader_fits (depth : Nat) (enough : tokens.length < i + depth) : Fit tokens (reader depth) i := by
  induction depth generalizing i with
  | zero =>
    intro k low
    exact assume fun inside => absurd inside (by omega)
  | succ depth ih =>
    intro k low
    have deeper : tokens.length < k + 1 + depth := by omega
    exact stmt_fits (reader_reads depth deeper) (ih deeper)

end StmtLevel

theorem Parser.stmt_fits : Reads tokens Parser.stmt i fun found _ => ∀ s, found = some s → s.Fit tokens :=
  Reads.bounded fun turns enough => StmtLevel.reader_fits turns enough i (Nat.le_refl i)

theorem Parser.block_fits : Reads tokens Parser.block i fun b j => b.Fit tokens ∧ b.span.stop = 2 * j :=
  StmtLevel.block_fits (fun _ _ => Parser.stmt_reads) (fun _ _ => Parser.stmt_fits) (.inl (Nat.zero_le i))

end Transplant.Java
