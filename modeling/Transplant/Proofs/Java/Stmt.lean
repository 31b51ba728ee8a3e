import Transplant.Proofs.Body.Stmt
import Transplant.Proofs.Java.Expr

/-! Reading statements. A statement takes up at least one token, its span runs from its first token
to its last, and the visits on the way through it stand among its tokens one behind the other.
Nothing is read only at the end of the tokens and before a closing brace. -/
namespace Transplant.Java

open Token (Kind)
open Reads

variable {tokens : List Token} {i j k l m : Nat}

/-- The statement is what stands from token `i` to before token `j`. A returned value is all that is read
from behind the word `return` on, up to the semicolon. -/
structure Stmt.Read (tokens : List Token) (i : Nat) (s : Stmt) (j : Nat) : Prop where
  before : i < j
  span : s.span = ⟨2 * i + 1,2 * j⟩
  walked : ∀ isLast sight, Spelled tokens (s.walk isLast sight) i j
  returned : ∀ value, s.value? = some value → SeenWord tokens i "return" ∧
    ∀ e, value = some e → ∃ k, i + 1 < k ∧ Seen tokens k .semicolon ∧ j = k + 1 ∧
      Expr.Read tokens (i + 1) e k ∧ Parser.expr (.on tokens (i + 1)) = (e,.on tokens k)

/-- There is nothing to read: the tokens or the block end here. -/
def Ended (tokens : List Token) (i : Nat) : Prop :=
  tokens.length ≤ i ∨ Seen tokens i .braceClose

/-- What a reader of statements answers. -/
def Stmt.Found (tokens : List Token) (i : Nat) (found : Option Stmt) (j : Nat) : Prop :=
  (j = i ∧ Ended tokens i) ∨ ∃ s, found = some s ∧ Stmt.Read tokens i s j

/-- Statements one directly behind the other. -/
inductive Stmt.Sequence (tokens : List Token) : List Stmt → Nat → Nat → Prop where
  | nil (i : Nat) : Sequence tokens [] i i
  | cons {s : Stmt} {rest : List Stmt} {i m j : Nat} (first : Stmt.Read tokens i s m)
      (others : Sequence tokens rest m j) : Sequence tokens (s :: rest) i j

/-- The block is what stands from token `i` to before token `j`. Its braces may be missing. -/
structure Block.Read (tokens : List Token) (i : Nat) (b : Block) (j : Nat) : Prop where
  start : 2 * i ≤ b.span.start ∧ b.span.start ≤ 2 * i + 1
  parts : ∃ k l, Spelled tokens [] i k ∧ Stmt.Sequence tokens b.statements k l ∧ Spelled tokens [] l j
  braced : Seen tokens i .braceOpen → i < j ∧ b.span = ⟨2 * i + 1,2 * j⟩

namespace Stmt

/-- A statement that begins with a keyword, ends with its last token and returns nothing. -/
theorem Read.of_word {s : Stmt} (before : i < j) (span : s.span = .upTo (2 * i + 1) (2 * j))
    (walked : ∀ isLast sight, Spelled tokens (s.walk isLast sight) i j) (other : s.value? = none) :
    Read tokens i s j := by
  refine ⟨before,?_,walked,fun value given => by rw [other] at given; cases given⟩
  rw [span]
  exact Span.upTo_eq (by omega)

theorem read_unsupported (before : i < j) :
    Read tokens i (.unsupported (.upTo (2 * i + 1) (2 * j))) j :=
  .of_word before rfl (fun _ _ => .one (.unsupported _ (Nat.le_of_lt before))) rfl

theorem Sequence.walkAll {list : List Stmt} (sequence : Sequence tokens list i j) (sight : Sight) :
    Spelled tokens (Stmt.walkAll sight list) i j := by
  induction sequence generalizing sight with
  | nil i => exact .nil i
  | cons first _ ih => exact (first.walked false sight).append (ih _)

theorem Sequence.walkTop {list : List Stmt} (sequence : Sequence tokens list i j) (sight : Sight) :
    Spelled tokens (Stmt.walkTop sight list) i j := by
  induction sequence generalizing sight with
  | nil i => exact .nil i
  | @cons s rest i m j first others ih =>
    cases rest with
    | nil =>
      cases others
      exact first.walked true sight
    | cons second rest => exact (first.walked false sight).append (ih _)

end Stmt

theorem Block.Read.walked {b : Block} (read : Read tokens i b j) (sight : Sight) :
    Spelled tokens (b.walk sight) i j := by
  obtain ⟨k,l,opened,sequence,closed⟩ := read.parts
  cases b
  simpa [Block.walk] using (opened.append (sequence.walkAll sight)).append closed

/-- What is met in a body, with its braces. -/
theorem Block.Read.visited {b : Block} (read : Read tokens i b j) : Spelled tokens b.visits i j := by
  obtain ⟨k,l,opened,sequence,closed⟩ := read.parts
  simpa [Block.visits] using (opened.append (sequence.walkTop .start)).append closed

/-- A declared name stands at its token or, when it is missing, between two tokens. -/
theorem declare_spelled {name : Ident} (known : Expected tokens .ident i name j) (declared : Local)
    (same : declared.name = name) : Spelled tokens [.declare declared] i j := by
  rcases known with ⟨token,found,kind,rfl,rfl⟩ | ⟨unseen,rfl,rfl⟩
  · exact .one (.declare declared ⟨token,found,by simp [same,Token.isWord,kind]⟩ (by rw [same]))
  · exact .one (.unnamed declared unseen (by rw [same]) (by rw [same]))

namespace StmtLevel

/-- Ends a statement of which all but the semicolon is read. -/
theorem terminated_reads {make : Span → Stmt} (order : i ≤ k)
    (ended : Seen tokens k .semicolon → Stmt.Read tokens i (make (.upTo (2 * i + 1) (2 * (k + 1)))) (k + 1)) :
    Reads tokens (terminated (2 * i + 1) make) k fun s j =>
      k ≤ j ∧ ((j = i ∧ Ended tokens i) ∨ Stmt.Read tokens i s j) := by
  refine eat (fun seen => spanFrom (pure ⟨Nat.le_succ k,.inr (ended seen)⟩)) fun unseen => ?_
  refine bind (skipOutside _ _) fun _ l ⟨on,stuck⟩ _ => ?_
  refine bind eaten.discard fun _ j ⟨_,last⟩ _ => spanFrom (pure ?_)
  have low : l ≤ j := by rcases last with ⟨_,_,rfl⟩ | ⟨_,_,rfl⟩ <;> omega
  refine ⟨Nat.le_trans on low,?_⟩
  rcases Nat.lt_or_ge i j with before | same
  · exact .inr (Stmt.read_unsupported before)
  · obtain ⟨rfl,rfl,rfl⟩ : k = i ∧ l = k ∧ j = k := by omega
    refine .inl ⟨rfl,?_⟩
    rcases stuck rfl with short | ⟨kind,member,seen⟩
    · exact .inl short
    · simp only [List.mem_cons,List.not_mem_nil,or_false] at member
      rcases member with rfl | rfl
      · exact absurd seen unseen
      · exact .inr seen

theorem declarators_reads (turns : Nat) : Reads tokens (declarators turns) i fun list j =>
    ∀ sight type, Spelled tokens (Declarator.walkAll sight type list) i j := by
  induction turns generalizing i with
  | zero => exact pure fun _ _ => .nil i
  | succ turns ih =>
    refine bind expect fun name k known _ => bind dimensions.discard fun _ l ⟨_,depth⟩ _ => ?_
    have finish (initializer : Option Expr) (m : Nat)
        (read : Expr.ReadAll tokens initializer.toList l m) : Reads tokens (do
          let declarator := ⟨name,initializer,← Parser.spanFrom name.span.start⟩
          if ← Parser.eat .comma then return declarator :: (← declarators turns)
          else return [declarator]) m fun list j =>
            ∀ sight type, Spelled tokens (Declarator.walkAll sight type list) i j := by
      refine spanFrom ?_
      have front (declared : Local) (same : declared.name = name) (visible : Locals) :
          Spelled tokens (.declare declared :: Expr.walkOption visible initializer) i m := by
        have both := ((declare_spelled known declared same).append depth).append (read visible)
        cases initializer <;> simpa [Expr.walkAll,Expr.walkOption] using both
      refine eat (fun comma => bind ih fun rest j others _ => pure ?_) fun _ => pure ?_
      · intro sight type
        have parted := (front ⟨type,name,.upTo name.span.start (2 * m)⟩ rfl sight.visible).andQuiet (comma.quiet (by decide))
        simpa [Declarator.walkAll] using parted.append (others (sight.declare name) type)
      · intro sight type
        simpa [Declarator.walkAll] using front ⟨type,name,_⟩ rfl sight.visible
    refine eat (fun seen => ?_) fun _ => finish none l (.nil l)
    refine bind Parser.initializer_reads fun e m read _ => finish (some e) m fun visible => ?_
    exact .quiet (seen.quiet (by decide)) (Expr.ReadAll.cons e [] _ m m read (.nil m) visible)

theorem localVariables_reads : Reads tokens localVariables i fun found j =>
    (found = none ∧ j = i) ∨ ∃ s, found = some s ∧ Stmt.Read tokens i s j := by
  refine assume fun inside => get (bind skipVariableModifiers fun _ k passed _ => get ?_)
  refine ite (fun _ => set inside (pure (.inl ⟨rfl,rfl⟩))) fun _ => bind typeRef fun found l typed _ => ?_
  rcases typed with ⟨rfl,_⟩ | ⟨type,rfl,_,order,span⟩
  · exact set inside (pure (.inl ⟨rfl,rfl⟩))
  · refine get (ite (fun _ => ?_) fun _ => set inside (pure (.inl ⟨rfl,rfl⟩)))
    refine bind (bounded fun turns _ => declarators_reads turns) fun list m read _ => ?_
    have typed : Spelled tokens [.type type.span] i l :=
      passed.append (.one (.type _ (Nat.le_of_lt order) (by rw [span]) (by simp [span])))
    have low := passed.le
    have high := (read ⟨[],0⟩ type).le
    refine bind (terminated_reads (i := i) (by omega) fun semicolon => ?_) fun s j ⟨on,ended⟩ _ => pure (.inr ⟨s,rfl,?_⟩)
    · refine .of_word (by omega) rfl (fun _ sight => ?_) rfl
      exact (typed.append (read sight type)).andQuiet (semicolon.quiet (by decide))
    · rcases ended with ⟨rfl,_⟩ | read
      · omega
      · exact read

/-- A reader of the statements from token `i` on does what `Stmt.Found` says. -/
def Sound (tokens : List Token) (inner : Parser (Option Stmt)) (i : Nat) : Prop :=
  ∀ k, i ≤ k → Reads tokens inner k (Stmt.Found tokens k)

variable {inner : Parser (Option Stmt)}

theorem Sound.later (sound : Sound tokens inner i) (order : i ≤ k) : Sound tokens inner k :=
  fun l low => sound l (Nat.le_trans order low)

theorem block_reads (sound : Sound tokens inner m) (low : m ≤ i ∨ (m = i + 1 ∧ Seen tokens i .braceOpen)) :
    Reads tokens (block inner) i (Block.Read tokens i) := by
  refine bind expect fun brace k known _ => ?_
  have inside : m ≤ k := by
    rcases known with ⟨_,_,_,_,rfl⟩ | ⟨unseen,_,rfl⟩
    · omega
    · exact low.resolve_right fun given => unseen given.2
  have opened : Spelled tokens [] i k := by
    rcases known with ⟨token,found,kind,_,rfl⟩ | ⟨_,_,rfl⟩
    · exact .quiet (.symbol token found (by simp [kind])) (.nil _)
    · exact .nil _
  refine bind (gathered (Stmt.Sequence tokens) Stmt.Sequence.nil fun l low unread going =>
    (sound l (Nat.le_trans inside low)).mono fun found m given _ => ?_) fun statements l sequence _ => ?_
  · rcases given with ⟨_,short | closing⟩ | ⟨s,rfl,read⟩
    · omega
    · exact absurd closing (going _ (by simp))
    · have before := read.before
      refine ⟨Nat.le_of_lt before,fun list j rest => ?_⟩
      rw [if_neg (by omega)] at rest
      exact .cons read rest
  · refine bind (expectSymbol (by decide)) fun _ j closed _ => spanFrom (pure ⟨?_,⟨k,l,opened,sequence,closed⟩,?_⟩)
    · rcases known with ⟨_,_,_,rfl,_⟩ | ⟨_,rfl,_⟩ <;> simp only [Span.upTo_start] <;> omega
    · intro seen
      rcases known with ⟨_,_,_,rfl,rfl⟩ | ⟨unseen,_⟩
      · have := (sequence.walkAll .start).le
        have := closed.le
        exact ⟨by omega,Span.upTo_eq (show 2 * i + 1 ≤ 2 * j by omega)⟩
      · exact absurd seen unseen

theorem substatement_reads (sound : Sound tokens inner i) : Reads tokens (substatement inner) i fun s j =>
    ∀ sight, Spelled tokens (s.walk false sight) i j := by
  refine get (bind (sound i (Nat.le_refl i)) fun found j given _ => ?_)
  rcases given with ⟨rfl,_⟩ | ⟨s,rfl,read⟩
  · cases found with
    | none => exact lastStop (pure fun _ => .nil j)
    | some s => exact get (ite (fun _ => lastStop (pure fun _ => .nil j)) fun other => absurd rfl other)
  · refine get (ite (fun same => ?_) fun _ => pure (read.walked false))
    exact absurd (show j = i from same) (by have := read.before; omega)

theorem parenCondition_reads : Reads tokens parenCondition i fun e j =>
    ∀ visible, Spelled tokens (e.walk visible .read) i j := by
  refine bind (expectSymbol (by decide)) fun _ k opened _ => bind Parser.expr_reads fun e l read _ => ?_
  refine bind (expectSymbol (by decide)) fun _ j closed _ => pure fun visible => ?_
  simpa using (opened.append (read.walked visible .read)).append closed

theorem ifElse_reads (word : SeenWord tokens i "if") (sound : Sound tokens inner (i + 1)) :
    Reads tokens (ifElse inner (2 * i + 1)) (i + 1) (Stmt.Read tokens i) := by
  refine bind parenCondition_reads fun condition k first _ => ?_
  have low := (first []).le
  refine bind (substatement_reads (sound.later low)) fun yes l second _ => ?_
  have middle := (second .start).le
  have finish (no : Option Stmt) (j : Nat) (third : ∀ sight, Spelled tokens (Stmt.walkOption sight no) l j) :
      Reads tokens (do return .ifElse condition yes no (← Parser.spanFrom (2 * i + 1))) j
        (Stmt.Read tokens i) := by
    have high := (third .start).le
    refine spanFrom (pure (.of_word (by omega) rfl (fun _ sight => ?_) rfl))
    exact .quiet (.word "if" word (by decide))
      (((first sight.visible).append (second sight)).append (third (yes.after sight)))
  refine eatWord (fun other => ?_) fun _ => finish none l fun _ => .nil l
  refine bind (substatement_reads (sound.later (by omega))) fun no j third _ => finish (some no) j fun sight => ?_
  exact .quiet (.word "else" other (by decide)) (third sight)

theorem whileLoop_reads (word : SeenWord tokens i "while") (sound : Sound tokens inner (i + 1)) :
    Reads tokens (whileLoop inner (2 * i + 1)) (i + 1) (Stmt.Read tokens i) := by
  refine bind parenCondition_reads fun condition k first _ => ?_
  have low := (first []).le
  refine bind (substatement_reads (sound.later low)) fun body j second _ => spanFrom (pure ?_)
  have high := (second .start).le
  refine .of_word (by omega) rfl (fun _ sight => ?_) rfl
  exact .quiet (.word "while" word (by decide)) ((first sight.visible).append (second sight))

theorem element_reads : Reads tokens element i fun found j =>
    (found = none ∧ j = i) ∨ ∃ param, found = some param ∧ Spelled tokens param.visits i j := by
  refine assume fun inside => get (bind skipVariableModifiers fun _ k passed _ => ?_)
  refine bind typeRef fun found l typed _ => get ?_
  split
  · rename_i type first second rest parted
    obtain ⟨name,colon⟩ := Cursor.on_rest_two parted
    refine ite (fun both => ?_) fun _ => set inside (pure (.inl ⟨rfl,rfl⟩))
    simp only [Bool.and_eq_true,decide_eq_true_eq] at both
    rcases typed with ⟨none,_⟩ | ⟨_,same,_,order,span⟩
    · cases none
    · cases same
      refine bind expect fun ident m known _ => ?_
      have named := declare_spelled known
      rcases known with ⟨_,_,_,rfl,rfl⟩ | ⟨unseen,_⟩
      · refine skip 1 (List.getElem?_eq_some_iff.mp colon).1 (pure (.inr ⟨_,rfl,?_⟩))
        have front := passed.append (.one (.type type.span (Nat.le_of_lt order) (by rw [span]) (by simp [span])))
        exact (front.append (named _ rfl)).andQuiet (.symbol second colon (by simp [both.2]))
      · exact absurd ⟨first,name,both.1⟩ unseen
  · exact set inside (pure (.inl ⟨rfl,rfl⟩))

theorem walkAll_exprs (sight : Sight) (values : List Expr) :
    Stmt.walkAll sight (values.map fun value => .expr value value.span) =
      Expr.walkAll sight.visible values := by
  induction values with
  | nil => rfl
  | cons e rest ih => simp only [List.map_cons,Stmt.walkAll,Stmt.walk,Stmt.after,Expr.walkAll,ih]

theorem loopInit_reads : Reads tokens loopInit i fun list j =>
    ∀ sight, Spelled tokens (Stmt.walkAll sight list) i j := by
  refine bind localVariables_reads fun found k given _ => ?_
  rcases given with ⟨rfl,rfl⟩ | ⟨s,rfl,read⟩
  · refine bind (Parser.exprs_reads _) fun values l read _ => ?_
    refine bind (expectSymbol (by decide)) fun _ j ended _ => pure fun sight => ?_
    rw [walkAll_exprs]
    exact read.andQuiet ended sight.visible
  · refine pure fun sight => ?_
    simpa [Stmt.walkAll] using read.walked false sight

theorem forLoop_reads (word : SeenWord tokens i "for") (sound : Sound tokens inner (i + 1)) :
    Reads tokens (forLoop inner (2 * i + 1)) (i + 1) (Stmt.Read tokens i) := by
  have begun : Spelled tokens [] i (i + 1) := .quiet (.word "for" word (by decide)) (.nil _)
  refine bind (expectSymbol (by decide)) fun _ k opened _ => ?_
  refine bind element_reads fun found l given _ => ?_
  rcases given with ⟨rfl,rfl⟩ | ⟨param,rfl,named⟩
  · refine bind loopInit_reads fun init m first _ => ?_
    have finish (condition : Option Expr) (n : Nat)
        (second : Expr.ReadAll tokens condition.toList m n) : Reads tokens (do
          discard (Parser.expect .semicolon)
          let update ← Parser.separated [.parenClose] Parser.expr
          discard (Parser.expect .parenClose)
          let body ← substatement inner
          return .forLoop init condition update body (← Parser.spanFrom (2 * i + 1))) n
          (Stmt.Read tokens i) := by
      refine bind (expectSymbol (by decide)) fun _ a ended _ => ?_
      refine bind (Parser.exprs_reads _) fun update b third _ => bind (expectSymbol (by decide)) fun _ c closed _ => ?_
      have head (sight : Sight) := (begun.append opened).append (first sight)
      have tail (visible : Locals) := (second.andQuiet ended visible).append (third.andQuiet closed visible)
      have low := opened.le
      have middle := (first .start).le
      have high := (tail []).le
      refine bind (substatement_reads (sound.later (by omega))) fun body j fourth _ => spanFrom (pure ?_)
      have last := (fourth .start).le
      refine .of_word (by omega) rfl (fun _ sight => ?_) rfl
      have whole := ((head sight).append (tail (Stmt.afterAll sight init).visible)).append (fourth (Stmt.afterAll sight init))
      cases condition <;> simpa [Stmt.walk,Expr.walkAll,Expr.walkOption] using whole
    exact sees (fun _ => finish none m (.nil m)) fun _ => bind Parser.expr_reads fun e n second _ =>
      finish (some e) n (Expr.ReadAll.cons e [] m n n second (.nil n))
  · refine bind Parser.expr_reads fun iterable m second _ => ?_
    refine bind (expectSymbol (by decide)) fun _ n closed _ => ?_
    have low := opened.le
    have middle := named.le
    have high := second.le
    have last := closed.le
    refine bind (substatement_reads (sound.later (by omega))) fun body j third _ => spanFrom (pure ?_)
    have behind := (third .start).le
    refine .of_word (by omega) rfl (fun _ sight => ?_) rfl
    have front := ((begun.append opened).append named).append (second.walked sight.visible .read)
    simpa [Stmt.walk] using (front.append closed).append (third (sight.declare param.name))

/-- The alternatives of a caught type stand from its first token to before some symbols. -/
theorem caughtType_reads (type : TypeRef) (k : Nat) (on : i ≤ k ∧ ∃ m, i ≤ m ∧ type.span.start = 2 * i + 1 ∧
    (2 * m ≤ type.span.stop ∧ type.span.stop ≤ 2 * m + 1) ∧ Spelled tokens [] m k) :
    Reads tokens (caughtType type) k fun next j =>
      i ≤ j ∧ ∃ m, i ≤ m ∧ (next.getD type).span.start = 2 * i + 1 ∧
        (2 * m ≤ (next.getD type).span.stop ∧ (next.getD type).span.stop ≤ 2 * m + 1) ∧ Spelled tokens [] m j := by
  obtain ⟨low,m,inside,start,stop,quiet⟩ := on
  refine eat (fun seen => ?_) fun _ => pure ⟨low,m,inside,start,stop,quiet⟩
  refine bind typeRef fun found j given _ => ?_
  rcases given with ⟨rfl,_,rfl⟩ | ⟨other,rfl,_,order,span⟩
  · exact pure ⟨by omega,m,inside,start,stop,quiet.andQuiet (seen.quiet (by decide))⟩
  · refine pure ⟨by omega,j,by omega,by rw [← start]; rfl,?_,.nil j⟩
    simp only [Option.getD_some,Span.upTo,span]
    omega

theorem catchClause_reads (sound : Sound tokens inner i) : Reads tokens (catchClause inner) i fun found j =>
    i ≤ j ∧ (found = none → j = i) ∧ ∀ clause, found = some clause →
      ∀ sight, Spelled tokens (clause.walk sight) i j := by
  refine nextStart (eatWord (fun word => ?_) fun _ => pure ⟨Nat.le_refl i,fun _ => rfl,nofun⟩)
  refine bind (expectSymbol (by decide)) fun _ k opened _ => bind skipVariableModifiers fun _ l passed _ => ?_
  refine bind typeRefOrEmpty fun type m ⟨on,typeStart,typeStop,typeEnd⟩ _ => ?_
  refine bind (repeated (fun (type : TypeRef) j => l ≤ j ∧ ∃ m, l ≤ m ∧ type.span.start = 2 * l + 1 ∧
    (2 * m ≤ type.span.stop ∧ type.span.stop ≤ 2 * m + 1) ∧ Spelled tokens [] m j) type
    ⟨on,m,on,typeStart,⟨typeStop,typeEnd⟩,.nil m⟩
    caughtType_reads) fun type n ⟨_,typed,inside,start,stop,quiet⟩ _ => ?_
  refine bind expect fun name a known _ => bind (expectSymbol (by decide)) fun _ b closed _ => ?_
  have front (declared : Local) (same : declared.name = name) :
      Spelled tokens [.type type.span,.declare declared] i b := by
    have begun := (Spelled.quiet (.word "catch" word (by decide)) opened).append passed
    have whole := ((begun.append (.one (.type type.span inside start stop))).append quiet).append
      (declare_spelled known declared same)
    simpa using whole.append closed
  have low := (front ⟨type,name,name.span⟩ rfl).le
  refine bind (block_reads (sound.later low) (.inl (Nat.le_refl _))) fun body j read _ => pure ⟨?_,nofun,?_⟩
  · have := (read.walked .start).le
    omega
  · intro clause same sight
    cases same
    exact (front _ rfl).append (read.walked _)

theorem tryCatch_reads (sound : Sound tokens inner (i + 1)) :
    Reads tokens (tryCatch inner (2 * i + 1)) (i + 1) (Stmt.Read tokens i) := by
  refine bind (skipNested _ _) fun _ k skipped _ => ?_
  refine bind (block_reads (sound.later skipped) (.inl (Nat.le_refl _))) fun body l first _ => ?_
  have low := (first.walked .start).le
  refine bind (many (fun clauses k j => ∀ sight, Spelled tokens (Catch.walkAll sight clauses) k j)
    (fun k _ => .nil k) fun m on => (catchClause_reads (sound.later (by omega))).mono
      fun found n ⟨further,ended,given⟩ _ => ⟨further,ended,?_⟩) fun clauses m second _ => ?_
  · rintro clause rfl rest j others sight
    exact (given clause rfl sight).append (others (clause.after sight))
  · have middle := (second .start).le
    have finish (cleanup : Option Block) (j : Nat)
        (third : ∀ sight, Spelled tokens (Block.walkOption sight cleanup) m j) : Reads tokens (do
          return .tryCatch body clauses cleanup (← Parser.spanFrom (2 * i + 1))) j
          (Stmt.Read tokens i) := by
      have high := (third .start).le
      refine spanFrom (pure (.of_word (by omega) rfl (fun _ sight => ?_) rfl))
      have begun : Marks tokens (.resources ⟨2 * i + 1,body.span.start⟩) i k :=
        .resources _ (by omega) rfl first.start
      simpa [Stmt.walk,Span.upTo_start] using Spelled.mark begun
        (((first.walked sight).append (second _)).append (third (Catch.afterAll (body.after sight) clauses)))
    refine eatWord (fun other => ?_) fun _ => finish none m fun _ => .nil m
    refine bind (block_reads (sound.later (by omega)) (.inl (Nat.le_refl _))) fun cleanup j third _ => finish (some cleanup) j fun sight => ?_
    exact .quiet (.word "finally" other (by decide)) (third.walked sight)

theorem passUnsupported_reads (sound : Sound tokens inner (i + 1)) :
    Reads tokens (passUnsupported inner) i fun passed j =>
      (passed = true ∧ i < j) ∨ (passed = false ∧ j = i) := by
  have nested : Reads tokens (do
      Parser.skipNested .parenOpen .parenClose
      Parser.skipNested .braceOpen .braceClose
      return true) (i + 1) fun passed j => (passed = true ∧ i < j) ∨ (passed = false ∧ j = i) :=
    bind (skipNested _ _) fun _ k _ _ => bind (skipNested _ _) fun _ j _ _ => pure (.inl ⟨rfl,by omega⟩)
  refine eatWord (fun _ => nested) fun _ => eatWord (fun _ => nested) fun _ => eatWord (fun _ => ?_) fun _ => ?_
  · refine bind (substatement_reads sound).discard fun _ k ⟨_,read⟩ _ => ?_
    have low := (read .start).le
    have finish (l : Nat) (on : k ≤ l) : Reads tokens (do discard (Parser.expect .semicolon); return true) l
        fun passed j => (passed = true ∧ i < j) ∨ (passed = false ∧ j = i) := by
      refine bind (expectSymbol (by decide)) fun _ j ended _ => pure (.inl ⟨rfl,?_⟩)
      have := ended.le
      omega
    refine eatWord (fun _ => ?_) fun _ => finish k (Nat.le_refl k)
    exact bind (skipNested _ _) fun _ l further _ => finish l (by omega)
  · refine get (ite (fun type => ?_) fun _ => ite (fun word => ?_) fun _ => ite (fun label => ?_) fun _ => ?_)
    · simp only [Bool.and_eq_true,List.any_eq_true,Cursor.on_seesWord_iff] at type
      obtain ⟨⟨word,_,seen⟩,_⟩ := type
      refine bind (skipWhile _) fun _ k ⟨_,on⟩ _ => bind (skipNested _ _) fun _ j further _ => pure ?_
      have := on .ident seen.ident rfl
      exact .inl ⟨rfl,by omega⟩
    · have seen := Cursor.on_seesWord_iff.mp word
      refine bind (skipOutside _ _) fun _ k ⟨on,stuck⟩ _ => bind (expectSymbol (by decide)) fun _ j ended _ => pure ?_
      have := ended.le
      refine .inl ⟨rfl,?_⟩
      by_contra same
      rcases stuck (by omega) with short | ⟨kind,member,other⟩
      · have := seen.ident.lt
        omega
      · have kind := seen.ident.unique other
        subst kind
        simp at member
    · simp only [Bool.and_eq_true,Cursor.on_sees_iff] at label
      have here := label.1.1.lt
      rw [Cursor.on_skip 1 here,Cursor.on_sees_iff] at label
      refine skip 2 label.1.2.lt (bind (substatement_reads (sound.later (Nat.le_succ _))).discard
        fun _ j ⟨_,read⟩ _ => pure (.inl ⟨rfl,?_⟩))
      have := (read .start).le
      omega
    · exact pure (.inr ⟨rfl,rfl⟩)

/-- A jump is its word, perhaps a label, and a semicolon. -/
theorem jump_reads {make : Span → Stmt} (plain : make = .breaks ∨ make = .continues)
    (word : SeenWord tokens i "break" ∨ SeenWord tokens i "continue") :
    Reads tokens (jump (2 * i + 1) make) (i + 1) (Stmt.Read tokens i) := by
  have begun : Spelled tokens [] i (i + 1) := by
    rcases word with seen | seen
    · exact .quiet (.word "break" seen (by decide)) (.nil _)
    · exact .quiet (.word "continue" seen (by decide)) (.nil _)
  refine bind eaten.discard fun _ k ⟨_,label⟩ _ => bind (expectSymbol (by decide)) fun _ j ended _ => ?_
  have labelled : Spelled tokens [] i k := by
    rcases label with ⟨_,_,rfl⟩ | ⟨_,_,rfl⟩
    · exact begun.andQuiet (.label i word rfl)
    · exact begun
  have whole : Spelled tokens [] i j := labelled.append ended
  have low := ended.le
  have high : i + 1 ≤ k := by rcases label with ⟨_,_,rfl⟩ | ⟨_,_,rfl⟩ <;> omega
  refine spanFrom (pure ?_)
  rcases plain with rfl | rfl
  · exact .of_word (by omega) rfl (fun _ _ => whole) rfl
  · exact .of_word (by omega) rfl (fun _ _ => whole) rfl

theorem return_reads (word : SeenWord tokens i "return") : Reads tokens (do
    let value ← if ← Parser.sees .semicolon then Pure.pure none else do Pure.pure (some (← Parser.expr))
    return some (← terminated (2 * i + 1) (.returns value))) (i + 1) (Stmt.Found tokens i) := by
  have finish (value : Option Expr) (k : Nat)
      (read : ∀ e, value = some e → ¬ Seen tokens (i + 1) .semicolon ∧ Expr.Read tokens (i + 1) e k ∧
        Parser.expr (.on tokens (i + 1)) = (e,.on tokens k)) (none : value = none → k = i + 1) :
      Reads tokens (do return some (← terminated (2 * i + 1) (.returns value))) k (Stmt.Found tokens i) := by
    have walked (visible : Locals) : Spelled tokens (Expr.walkOption visible value) (i + 1) k := by
      cases value with
      | none => exact none rfl ▸ .nil _
      | some e => exact (read e rfl).2.1.walked visible .read
    have low := (walked []).le
    refine bind (terminated_reads (i := i) (by omega) fun semicolon => ?_) fun s j ⟨_,ended⟩ _ => pure ?_
    · refine ⟨by omega,Span.upTo_eq (by omega),fun isLast sight => ?_,fun given same => ?_⟩
      · refine .quiet (.word "return" word (by decide)) ?_
        have behind := (walked sight.visible).andQuiet (semicolon.quiet (by decide))
        cases isLast with
        | true => exact behind
        | false => exact .mark (.leave (i + 1) _) behind
      · cases same
        refine ⟨word,fun e given => ?_⟩
        obtain ⟨unseen,known⟩ := read e given
        have other : k ≠ i + 1 := fun same => unseen (same ▸ semicolon)
        exact ⟨k,by omega,semicolon,rfl,known⟩
    · exact ended.imp id fun read => ⟨s,rfl,read⟩
  refine sees (fun _ => finish none _ nofun fun _ => rfl) fun unseen => bind (ran Parser.expr_reads) fun e k read _ => ?_
  exact finish (some e) k (fun _ same => Option.some.inj same ▸ ⟨unseen,read⟩) nofun

theorem throw_reads (word : SeenWord tokens i "throw") : Reads tokens (do
    let value ← Parser.expr
    return some (← terminated (2 * i + 1) (.throws value))) (i + 1) (Stmt.Found tokens i) := by
  refine bind Parser.expr_reads fun e k read _ => ?_
  have low := read.le
  refine bind (terminated_reads (i := i) (by omega) fun semicolon => ?_) fun s j ⟨_,ended⟩ _ => pure ?_
  · refine .of_word (by omega) rfl (fun isLast sight => .quiet (.word "throw" word (by decide)) ?_) rfl
    have behind := (read.walked sight.visible .read).andQuiet (semicolon.quiet (by decide))
    cases isLast with
    | true => exact behind
    | false => exact .mark (.leave (i + 1) _) behind
  · exact ended.imp id fun read => ⟨s,rfl,read⟩

theorem exprStmt_reads : Reads tokens (do
    let value ← Parser.expr
    return some (← terminated (2 * i + 1) fun span => .expr value (.upTo value.span.start span.stop))) i
    (Stmt.Found tokens i) := by
  refine bind Parser.expr_reads fun e k read _ => ?_
  have low := read.le
  refine bind (terminated_reads low fun semicolon => ?_) fun s j ⟨_,ended⟩ _ => pure ?_
  · refine ⟨by omega,?_,fun _ sight => ?_,nofun⟩
    · have ends : 2 * i + 1 ≤ 2 * (k + 1) := by omega
      rw [Stmt.span,read.start,Span.upTo_eq ends]
      exact Span.upTo_eq ends
    · exact (read.walked sight.visible .read).andQuiet (semicolon.quiet (by decide))
  · exact ended.imp id fun read => ⟨s,rfl,read⟩

theorem stmt_reads (sound : Sound tokens inner (i + 1)) :
    Reads tokens (stmt inner) i (Stmt.Found tokens i) := by
  have found {read : Parser Stmt} (k : Nat) (given : Reads tokens read k (Stmt.Read tokens i)) :
      Reads tokens (do return some (← read)) k (Stmt.Found tokens i) :=
    bind given fun s _ read _ => pure (.inr ⟨s,rfl,read⟩)
  refine get (ite (fun atEnd => pure (.inl ⟨rfl,.inl (Cursor.on_atEnd_iff.mp atEnd)⟩)) fun _ => ?_)
  refine eat (fun seen => pure (.inr ⟨_,rfl,?_⟩)) fun _ => sees (fun brace => ?_) fun _ => ?_
  · exact ⟨Nat.lt_succ_self i,rfl,fun _ _ => .quiet (seen.quiet (by decide)) (.nil _),nofun⟩
  · refine bind (block_reads sound (.inr ⟨rfl,brace⟩)) fun body j read _ => pure (.inr ⟨_,rfl,?_⟩)
    obtain ⟨before,span⟩ := read.braced brace
    exact ⟨before,span,fun _ sight => read.walked sight,nofun⟩
  refine eatWord (fun word => return_reads word) fun _ => eatWord (fun word => throw_reads word) fun _ => ?_
  refine eatWord (fun word => found _ (ifElse_reads word sound)) fun _ => ?_
  refine eatWord (fun word => found _ (whileLoop_reads word sound)) fun _ => ?_
  refine eatWord (fun word => found _ (forLoop_reads word sound)) fun _ => ?_
  refine eatWord (fun _ => found _ (tryCatch_reads sound)) fun _ => ?_
  refine eatWord (fun word => found _ (jump_reads (.inl rfl) (.inl word))) fun _ => ?_
  refine eatWord (fun word => found _ (jump_reads (.inr rfl) (.inr word))) fun _ => ?_
  refine bind (passUnsupported_reads sound) ?_
  rintro _ j (⟨rfl,before⟩ | ⟨rfl,rfl⟩) _
  · exact spanFrom (pure (.inr ⟨_,rfl,Stmt.read_unsupported before⟩))
  · refine bind localVariables_reads fun found k given _ => ?_
    rcases given with ⟨rfl,rfl⟩ | ⟨s,rfl,read⟩
    · exact exprStmt_reads
    · exact pure (.inr ⟨s,rfl,read⟩)

/-- As many levels as there are tokens left reach every statement. -/
theorem reader_reads (depth : Nat) (enough : tokens.length < i + depth) : Sound tokens (reader depth) i := by
  induction depth generalizing i with
  | zero =>
    intro k low
    exact assume fun inside => absurd inside (by omega)
  | succ depth ih =>
    intro k low
    exact stmt_reads (ih (by omega))

end StmtLevel

theorem Parser.stmt_reads : Reads tokens Parser.stmt i (Stmt.Found tokens i) :=
  Reads.bounded fun turns enough => StmtLevel.reader_reads turns enough i (Nat.le_refl i)

theorem Parser.block_reads : Reads tokens Parser.block i (Block.Read tokens i) :=
  StmtLevel.block_reads (fun _ _ => stmt_reads) (.inl (Nat.zero_le i))

end Transplant.Java
