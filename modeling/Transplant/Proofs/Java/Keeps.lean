import Transplant.Proofs.Java.Confined
import Transplant.Proofs.Java.Running

/-! Readers that stop at a token that can end an expression. What they read up to this token they read again
before any other tokens: that they stop there was not told by a look at the token behind. -/
namespace Transplant.Java

open Relation (ReflTransGen)
open Token (Kind)
open Java.Parser (run_bind run_pure)

variable {tokens other : List Token} {i j k : Nat} {kind : Kind} {word : String} {α β : Type}

/-- The kinds of tokens that whole expressions end with, other than quoted ones. -/
def enders : List Kind := [.ident,.number,.parenClose,.bracketClose,.braceClose,.increment,.decrement]

/-- A whole expression can end with the token. -/
def Token.Closes (token : Token) : Prop :=
  token.kind ∈ enders ∨ ((token.kind = .string ∨ token.kind = .char) ∧ token.isWhole = true)

theorem Token.Closes.apart {token : Token} (closes : token.Closes) : token.kind ≠ .dot ∧ token.kind ≠ .bracketOpen := by
  have others : ∀ kind ∈ enders, kind ≠ .dot ∧ kind ≠ .bracketOpen := by decide
  rcases closes with ender | ⟨string | char,_⟩
  · exact others _ ender
  · simp [string]
  · simp [char]

/-- Token `i` comes before token `j`, and with it the next one where two are looked at. In front of token `j`
an expression can end. -/
structure Before (tokens : List Token) (i j : Nat) : Prop where
  lt : i < j
  pair : Seen tokens i .dot ∨ Seen tokens i .bracketOpen → i + 1 < j
  last : ∃ token, tokens[j - 1]? = some token ∧ token.Closes

theorem Before.mono (before : Before tokens k j) (low : i ≤ k) : Before tokens i j where
  lt := Nat.lt_of_le_of_lt low before.lt
  pair opens := by
    rcases Nat.lt_or_eq_of_le low with earlier | rfl
    · have := before.lt
      omega
    · exact before.pair opens
  last := before.last

theorem Before.agree (before : Before tokens i j) (front : ∀ k < j, tokens[k]? = other[k]?) : Agree tokens other i where
  upTo k low := front k (Nat.lt_of_le_of_lt low before.lt)
  behind opens := front _ (before.pair opens)

theorem Seen.unpaired (seen : Seen tokens i kind) (apart : kind ≠ .dot ∧ kind ≠ .bracketOpen) :
    ¬ (Seen tokens i .dot ∨ Seen tokens i .bracketOpen) := by
  rintro (dot | bracket)
  · exact absurd (seen.unique dot) apart.1
  · exact absurd (seen.unique bracket) apart.2

theorem Before.of_closes {token : Token} (found : tokens[i]? = some token) (closes : token.Closes) :
    Before tokens i (i + 1) where
  lt := Nat.lt_succ_self i
  pair opens := absurd opens (Seen.unpaired ⟨token,found,rfl⟩ closes.apart)
  last := ⟨token,found,closes⟩

theorem Cursor.on_cons {token : Token} (found : tokens[i]? = some token) :
    Cursor.on tokens i = ⟨i,token :: tokens.drop (i + 1)⟩ := by
  obtain ⟨inside,rfl⟩ := List.getElem?_eq_some_iff.mp found
  rw [Cursor.on,List.drop_eq_getElem_cons inside]

theorem Parser.expect_found {token : Token} (found : tokens[i]? = some token) (same : token.kind = kind) :
    expect kind (.on tokens i) = (⟨token.text,⟨2 * i + 1,2 * i + 2⟩⟩,.on tokens (i + 1)) := by
  rw [Cursor.on_cons found,expect_seen _ _ same]
  rfl

theorem Parser.eat_found (seen : Seen tokens i kind) : eat kind (.on tokens i) = (true,.on tokens (i + 1)) := by
  obtain ⟨token,found,same⟩ := seen
  rw [Cursor.on_cons found,eat_seen _ _ same]
  rfl

/-- Brackets that are closed before the end are closed wherever the same tokens stand. -/
theorem nestedLength_closed {opening closing : Kind} (depth : Nat) (list more : List Token)
    (closed : nestedLength opening closing depth list < list.length)
    (alike : ∀ k < nestedLength opening closing depth list, list[k]? = more[k]?) :
    nestedLength opening closing depth more = nestedLength opening closing depth list := by
  fun_induction nestedLength opening closing depth list generalizing more with
  | case1 => simp [nestedLength]
  | case2 depth some => exact absurd closed (Nat.lt_irrefl 0)
  | case3 depth token rest next ih =>
    cases more with
    | nil => exact absurd (alike 0 (Nat.succ_pos _)) (by simp)
    | cons other more =>
      obtain rfl : token = other := by simpa using alike 0 (Nat.succ_pos _)
      rw [nestedLength,ih more (Nat.lt_of_succ_lt_succ closed) fun k before => alike (k + 1) (Nat.succ_lt_succ before)]

/-- The last token in brackets closes them. -/
theorem nestedLength_last {opening closing : Kind} (depth : Nat) (list : List Token) (some : 0 < depth)
    (closed : nestedLength opening closing depth list < list.length) :
    ∃ k, nestedLength opening closing depth list = k + 1 ∧ Seen list k closing := by
  fun_induction nestedLength opening closing depth list with
  | case1 => exact absurd some (Nat.lt_irrefl 0)
  | case2 => exact absurd closed (Nat.lt_irrefl 0)
  | case3 depth token rest next ih =>
    rcases Nat.eq_zero_or_pos next with none | more
    · have ended : token.kind = closing := by
        simp only [next] at none
        split at none
        · cases none
        · split at none
          · assumption
          · cases none
      exact ⟨0,by rw [none,nestedLength],token,rfl,ended⟩
    · obtain ⟨k,same,token,found,kind⟩ := ih more (Nat.lt_of_succ_lt_succ closed)
      exact ⟨k + 1,by rw [same],token,found,kind⟩

/-- When the reader ends as it is asked for, it does not look at the token behind, and does the same on every
sequence that begins with the same tokens. -/
def Keeps (tokens other : List Token) (read : Parser α) (i : Nat) (ends : α → Nat → Prop) : Prop :=
  Reads tokens read i fun a j => ends a j → Before tokens i j ∧
    ((∀ k < j, tokens[k]? = other[k]?) → read (.on other i) = (a,.on other j))

namespace Keeps

variable {read : Parser α} {f : α → Parser β} {ends : β → Nat → Prop}

theorem follow {mid : α → Nat → Prop} (more : Reads tokens read i mid) (first : Confined tokens other read i)
    (next : ∀ a k, mid a k → i ≤ k → Keeps tokens other (f a) k ends) :
    Keeps tokens other (read >>= f) i ends := by
  refine Reads.bind (Reads.and more first) fun a k ⟨given,on,again⟩ _ => ?_
  refine (next a k given on).mono fun b j last _ ended => ?_
  obtain ⟨before,same⟩ := last ended
  refine ⟨before.mono on,fun front => ?_⟩
  change (f (read (.on other i)).1) (read (.on other i)).2 = _
  rw [again (before.agree front)]
  exact same front

theorem bind (first : Confined tokens other read i) (next : ∀ a k, i ≤ k → Keeps tokens other (f a) k ends) :
    Keeps tokens other (read >>= f) i ends :=
  follow (first.mono fun _ _ _ _ => trivial : Reads tokens read i fun _ _ => True) first fun a k _ => next a k

/-- What comes last reads nothing more. -/
theorem last {ended : α → Nat → Prop} (first : Keeps tokens other read i ended)
    (next : ∀ a k, Reads tokens (f a) k fun b j => ends b j → j = k ∧ ended a k ∧ f a (.on other k) = (b,.on other k)) :
    Keeps tokens other (read >>= f) i ends := by
  refine Reads.bind first fun a k given _ => (next a k).mono fun b j last _ asked => ?_
  obtain ⟨rfl,ended,same⟩ := last asked
  obtain ⟨before,again⟩ := given ended
  refine ⟨before,fun front => ?_⟩
  change (f (read (.on other i)).1) (read (.on other i)).2 = _
  rw [again front]
  exact same

/-- What comes last reads more, or nothing where the other reader has ended. -/
theorem optional {ended : α → Nat → Prop} (first : Keeps tokens other read i ended) (also : Confined tokens other read i)
    (next : ∀ a k, i ≤ k → Keeps tokens other (f a) k ends ∨
      Reads tokens (f a) k fun b j => ends b j → j = k ∧ ended a k ∧ f a (.on other k) = (b,.on other k)) :
    Keeps tokens other (read >>= f) i ends := by
  intro inside
  obtain ⟨a,k,ran,bound,on,_⟩ := also inside
  -- Both lemmas are about one run.
  have only : Reads tokens read i fun b l => b = a ∧ l = k := fun _ => ⟨a,k,ran,bound,rfl,rfl⟩
  have given : Keeps tokens other read i ended := first
  rcases next a k on with more | nothing
  · exact follow only also (fun _ _ ⟨value,place⟩ _ => value ▸ place ▸ more) inside
  · refine Reads.bind (Reads.and only given) (fun b l ⟨⟨value,place⟩,kept⟩ _ => ?_) inside
    subst value place
    refine nothing.mono fun c j last _ asked => ?_
    obtain ⟨rfl,done,same⟩ := last asked
    obtain ⟨before,again⟩ := kept done
    refine ⟨before,fun front => ?_⟩
    change (f (read (.on other i)).1) (read (.on other i)).2 = _
    rw [again front]
    exact same

theorem never {read : Parser β} (given : Reads tokens read i fun b j => ¬ ends b j) : Keeps tokens other read i ends :=
  given.mono fun _ _ none _ asked => absurd asked none

theorem get {f : Cursor → Parser β} (alike : Agree tokens other i → f (.on other i) = f (.on tokens i))
    (next : Keeps tokens other (f (.on tokens i)) i ends) : Keeps tokens other (MonadState.get >>= f) i ends := by
  refine (show Reads tokens (f (.on tokens i)) i _ from next).mono fun b j last _ asked => ?_
  obtain ⟨before,same⟩ := last asked
  exact ⟨before,fun front => (congrFun (alike (before.agree front)) _).trans (same front)⟩

theorem pure {a : α} (next : Keeps tokens other (f a) i ends) : Keeps tokens other (Pure.pure a >>= f) i ends := next

theorem ite {p : Prop} [Decidable p] {first second : Parser β} (yes : p → Keeps tokens other first i ends)
    (no : ¬ p → Keeps tokens other second i ends) : Keeps tokens other (if p then first else second) i ends := by
  split
  · exact yes ‹_›
  · exact no ‹_›

theorem sees {f : Bool → Parser β} (yes : Seen tokens i kind → Keeps tokens other (f true) i ends)
    (no : ¬ Seen tokens i kind → Keeps tokens other (f false) i ends) :
    Keeps tokens other (Parser.sees kind >>= f) i ends := by
  refine get (fun agree => congrArg f agree.sees) ?_
  cases found : (Cursor.on tokens i).sees kind with
  | true => exact yes (Cursor.on_sees_iff.mp found)
  | false => exact no fun seen => by simp [Cursor.on_sees_iff.mpr seen] at found

theorem eat {f : Bool → Parser β} (yes : Seen tokens i kind → Keeps tokens other (f true) (i + 1) ends)
    (no : ¬ Seen tokens i kind → Keeps tokens other (f false) i ends) :
    Keeps tokens other (Parser.eat kind >>= f) i ends := by
  refine follow Reads.eaten Confined.eaten ?_
  rintro _ _ (⟨rfl,seen,rfl⟩ | ⟨rfl,unseen,rfl⟩) _
  · exact yes seen
  · exact no unseen

theorem eatWord {f : Bool → Parser β} (yes : Keeps tokens other (f true) (i + 1) ends)
    (no : Keeps tokens other (f false) i ends) : Keeps tokens other (Parser.eatWord word >>= f) i ends := by
  refine follow Reads.eatenWord Confined.eatenWord ?_
  rintro _ _ (⟨rfl,_,rfl⟩ | ⟨rfl,_,rfl⟩) _
  · exact yes
  · exact no

theorem nextStart {f : Nat → Parser β} (next : Keeps tokens other (f (2 * i + 1)) i ends) :
    Keeps tokens other (Parser.nextStart >>= f) i ends := get (fun _ => rfl) next

/-- The last token is passed. -/
theorem skip {f : Unit → Parser β} {token : Token} (found : tokens[i]? = some token)
    (next : Reads tokens (f ()) (i + 1) fun b j => ends b j →
      token.Closes ∧ j = i + 1 ∧ f () (.on other (i + 1)) = (b,.on other (i + 1))) :
    Keeps tokens other (Parser.skip 1 >>= f) i ends := by
  refine Reads.skip 1 (List.getElem?_eq_some_iff.mp found).1 (next.mono fun b j last bound asked => ?_)
  obtain ⟨closes,rfl,same⟩ := last asked
  refine ⟨.of_closes found closes,fun front => ?_⟩
  change f () ((Cursor.on other i).skip 1) = _
  rw [Cursor.on_skip 1 (inside_of_front front bound)]
  exact same

/-- A token is passed that is not the last one. -/
theorem passed {f : Unit → Parser β} (enough : i < tokens.length) (next : Keeps tokens other (f ()) (i + 1) ends) :
    Keeps tokens other (Parser.skip 1 >>= f) i ends := by
  refine Reads.skip 1 enough (next.mono fun b j last bound asked => ?_)
  obtain ⟨before,again⟩ := last asked
  refine ⟨before.mono (Nat.le_succ i),fun front => ?_⟩
  have inside := inside_of_front front bound
  have further := before.lt
  change f () ((Cursor.on other i).skip 1) = _
  rw [Cursor.on_skip 1 (by omega)]
  exact again front

/-- The last token is the one that is expected. -/
theorem expect {f : Ident → Parser β} (ender : kind ∈ enders)
    (seen : ∀ ident, Seen tokens i kind → Reads tokens (f ident) (i + 1) fun b j => ends b j →
      j = i + 1 ∧ f ident (.on other (i + 1)) = (b,.on other (i + 1)))
    (unseen : ¬ Seen tokens i kind → Reads tokens (f ⟨"",⟨2 * i,2 * i⟩⟩) i fun b j => ¬ ends b j) :
    Keeps tokens other (Parser.expect kind >>= f) i ends := by
  refine Reads.bind Reads.expect fun ident k known _ => ?_
  rcases known with ⟨token,found,same,text,rfl⟩ | ⟨missing,rfl,rfl⟩
  · have here : Seen tokens i kind := ⟨token,found,same⟩
    refine (seen ident here).mono fun b j last _ asked => ?_
    obtain ⟨rfl,ran⟩ := last asked
    refine ⟨.of_closes found (.inl (same ▸ ender)),fun front => ?_⟩
    change (f (Parser.expect kind (.on other i)).1) (Parser.expect kind (.on other i)).2 = _
    rw [Parser.expect_found (front i (Nat.lt_succ_self i) ▸ found) same,← text]
    exact ran
  · exact (unseen missing).mono fun b j none _ asked => absurd asked none

theorem closing {f : Unit → Parser β} (ender : kind ∈ enders)
    (seen : Seen tokens i kind → Reads tokens (f ()) (i + 1) fun b j => ends b j →
      j = i + 1 ∧ f () (.on other (i + 1)) = (b,.on other (i + 1)))
    (unseen : ¬ Seen tokens i kind → Reads tokens (f ()) i fun b j => ¬ ends b j) :
    Keeps tokens other (Functor.discard (Parser.expect kind) >>= f) i ends := expect ender (fun _ => seen) unseen

/-- The last token is eaten. -/
theorem eatLast {f : Bool → Parser β} (ender : kind ∈ enders)
    (yes : Seen tokens i kind → Reads tokens (f true) (i + 1) fun b j => ends b j →
      j = i + 1 ∧ f true (.on other (i + 1)) = (b,.on other (i + 1)))
    (no : ¬ Seen tokens i kind → Keeps tokens other (f false) i ends) :
    Keeps tokens other (Parser.eat kind >>= f) i ends := by
  have same : (Parser.eat kind >>= f) =
      Parser.sees kind >>= fun b => if b = true then Parser.skip 1 >>= fun _ => f true else f false := by
    rw [Parser.eat,bind_assoc]
    exact bind_congr fun b => by cases b <;> rfl
  rw [same]
  refine sees (fun seen => ?_) no
  obtain ⟨token,found,same⟩ := seen
  exact skip found ((yes ⟨token,found,same⟩).mono fun _ _ last _ asked => ⟨.inl (same ▸ ender),last asked⟩)

/-- Brackets are passed over up to the one that closes them. -/
theorem skipNested {opening closing : Kind} (apart : opening ≠ .dot ∧ opening ≠ .bracketOpen) (ender : closing ∈ enders)
    (seen : Seen tokens i opening) :
    Keeps tokens other (Parser.skipNested opening closing) i fun _ j => j < tokens.length := by
  refine Reads.eat (fun _ => ?_) fun unseen => absurd seen unseen
  refine (Reads.skipBy (nestedLength opening closing 1)).ran.mono fun _ j ⟨stop,_⟩ _ ended => ?_
  have next := seen.lt
  have last : Seen tokens (j - 1) closing := by
    obtain ⟨k,count,token,found,kind⟩ := nestedLength_last 1 (tokens.drop (i + 1)) Nat.one_pos
      (show nestedLength opening closing 1 _ < _ by rw [List.length_drop]; omega)
    rw [List.getElem?_drop] at found
    exact ⟨token,by rw [← found]; congr 1; omega,kind⟩
  obtain ⟨token,here,same⟩ := last
  refine ⟨⟨by omega,fun opens => absurd opens (seen.unpaired apart),token,here,.inl (same ▸ ender)⟩,fun front => ?_⟩
  have same : nestedLength opening closing 1 (other.drop (i + 1)) = nestedLength opening closing 1 (tokens.drop (i + 1)) := by
    refine nestedLength_closed 1 _ _ (by rw [List.length_drop]; omega) fun k before => ?_
    rw [List.getElem?_drop,List.getElem?_drop]
    exact front _ (by omega)
  obtain ⟨token,found,kind⟩ := seen
  have again : Seen other i opening := ⟨token,front i (by omega) ▸ found,kind⟩
  have inside := inside_of_front front (Nat.le_of_lt ended)
  rw [Parser.skipNested,Parser.run_bind,Parser.eat_found again]
  change ((),(Cursor.on other (i + 1)).skip (nestedLength opening closing 1 (other.drop (i + 1)))) = _
  rw [same,Cursor.on_skip _ (by omega),show i + 1 + nestedLength opening closing 1 (tokens.drop (i + 1)) = j by omega]

end Keeps

namespace Loop

variable {loop : Loop} {held last : loop.Held} {out : loop.Out}

/-- One turn with another one behind it. -/
def Advance (loop : Loop) (tokens : List Token) (here there : loop.Held × Nat) : Prop :=
  loop.turn here.1 (.on tokens here.2) = (.again there.1,.on tokens there.2) ∧ here.2 < there.2 ∧ there.2 ≤ tokens.length

theorem Runs.chain (runs : loop.Runs tokens held i out j) : ∃ last k,
    ReflTransGen (loop.Advance tokens) (held,i) (last,k) ∧ loop.turn last (.on tokens k) = (.done out,.on tokens j) ∧
      k ≤ j := by
  induction runs with
  | @done held i out j turned on inside => exact ⟨held,i,.refl,turned,on⟩
  | again turned further inside others ih =>
    obtain ⟨last,k,chain,ended,on⟩ := ih
    exact ⟨last,k,.head ⟨turned,further,inside⟩ chain,ended,on⟩

theorem Runs.of_chain {here : loop.Held × Nat} (chain : ReflTransGen (loop.Advance tokens) here (last,k))
    (ended : loop.turn last (.on tokens k) = (.done out,.on tokens j)) (on : k ≤ j) (inside : j ≤ tokens.length) :
    loop.Runs tokens here.1 here.2 out j := by
  induction chain using ReflTransGen.head_induction_on with
  | refl => exact .done ended on inside
  | head first _ ih => exact .again first.1 first.2.1 first.2.2 ih

theorem Advance.le {here there : loop.Held × Nat} (chain : ReflTransGen (loop.Advance tokens) here there) :
    here.2 ≤ there.2 := by
  induction chain with
  | refl => exact Nat.le_refl _
  | tail _ step ih => exact Nat.le_trans ih (Nat.le_of_lt step.2.1)

theorem Advance.elsewhere (turns : ∀ held k, Confined tokens other (loop.turn held) k) {here there : loop.Held × Nat}
    (chain : ReflTransGen (loop.Advance tokens) here there) (agree : Agree tokens other there.2) :
    ReflTransGen (loop.Advance other) here there := by
  induction chain with
  | refl => exact .refl
  | @tail mid there _ step ih =>
    obtain ⟨turned,further,inside⟩ := step
    have again := (turns mid.1 mid.2).ran (by omega) turned agree
    exact (ih (agree.mono (Nat.le_of_lt further))).tail ⟨again,further,agree.inside inside⟩

/-- The turns of a loop whose last one with another one behind it does not look further are the same before
other tokens. -/
theorem Advance.keeps (turns : ∀ held k, Confined tokens other (loop.turn held) k)
    (chain : ReflTransGen (loop.Advance tokens) (held,i) (last,j))
    (kept : ∀ mid k, ReflTransGen (loop.Advance tokens) (held,i) (mid,k) →
      Keeps tokens other (loop.turn mid) k fun turn l => turn = .again last ∧ l = j) :
    (held = last ∧ i = j) ∨ (Before tokens i j ∧
      ((∀ k < j, tokens[k]? = other[k]?) → ReflTransGen (loop.Advance other) (held,i) (last,j))) := by
  rcases ReflTransGen.cases_tail chain with same | ⟨⟨mid,k⟩,front,turned,further,inside⟩
  · exact .inl (by simpa using same.symm)
  · obtain ⟨turn,l,ran,_,closed⟩ := kept mid k front (by simp only at further inside; omega)
    rw [turned] at ran
    obtain ⟨rfl,stop⟩ := Prod.mk.inj ran
    cases congrArg Cursor.passed stop
    obtain ⟨before,again⟩ := closed ⟨rfl,rfl⟩
    refine .inr ⟨before.mono (Advance.le front),fun same => ?_⟩
    exact (Advance.elsewhere turns front (before.agree same)).tail ⟨again same,further,inside_of_front same inside⟩

section

variable {α : Type} {step : α → Parser (Option α)} {item : Parser (Option α)} {a b : α} {list all : List α}
  {here there : Cursor}

theorem repeated_done (ended : (repeated step).turn a here = (.done b,there)) : step a here = (none,there) ∧ a = b := by
  rcases ran : step a here with ⟨_ | next,after⟩
  · simp only [repeated,run_bind,ran,run_pure] at ended
    obtain ⟨same,rfl⟩ := Prod.mk.inj ended
    exact ⟨rfl,Turn.done.inj same⟩
  · simp only [repeated,run_bind,ran,run_pure] at ended
    cases (Prod.mk.inj ended).1

theorem repeated_again (turned : (repeated step).turn a here = (.again b,there)) : step a here = (some b,there) := by
  rcases ran : step a here with ⟨_ | next,after⟩
  · simp only [repeated,run_bind,ran,run_pure] at turned
    cases (Prod.mk.inj turned).1
  · simp only [repeated,run_bind,ran,run_pure] at turned
    obtain ⟨same,rfl⟩ := Prod.mk.inj turned
    rw [Turn.again.inj same]

theorem many_again (turned : (many item).turn list here = (.again all,there)) :
    ∃ a, item here = (some a,there) ∧ list ++ [a] = all := by
  rcases ran : item here with ⟨_ | next,after⟩
  · simp only [many,run_bind,ran,run_pure] at turned
    cases (Prod.mk.inj turned).1
  · simp only [many,run_bind,ran,run_pure] at turned
    obtain ⟨same,rfl⟩ := Prod.mk.inj turned
    exact ⟨next,rfl,Turn.again.inj same⟩

theorem many_done (ended : (many item).turn list here = (.done all,there)) : item here = (none,there) ∧ list = all := by
  rcases ran : item here with ⟨_ | next,after⟩
  · simp only [many,run_bind,ran,run_pure] at ended
    obtain ⟨same,rfl⟩ := Prod.mk.inj ended
    exact ⟨rfl,Turn.done.inj same⟩
  · simp only [many,run_bind,ran,run_pure] at ended
    cases (Prod.mk.inj ended).1

theorem many_ends (nothing : item here = (none,there)) : (many item).turn list here = (.done list,there) := by
  simp only [many,run_bind,nothing,run_pure]

end

end Loop

end Transplant.Java
