import Transplant.Proofs.Java.Type

/-! Readers that read alike. A level of a recursive reader calls the readers inside it only behind
the token where it begins, so levels that read alike from there on make levels that read alike. From
this it follows that enough levels are as good as endlessly many. -/
namespace Transplant.Java

open Token (Kind)

/-- From token `i` on both readers give the same result and stop before the same token, and they do
not go back. -/
def Alike {α : Type} (tokens : List Token) (read other : Parser α) (i : Nat) : Prop :=
  i ≤ tokens.length → ∃ a j, read (.on tokens i) = (a,.on tokens j) ∧
    other (.on tokens i) = (a,.on tokens j) ∧ i ≤ j ∧ j ≤ tokens.length

namespace Alike

variable {tokens : List Token} {i j k : Nat} {kind : Kind} {word : String} {α β : Type}
  {read other : Parser α} {f g : α → Parser β}

theorem shared (given : Reads tokens read i fun _ j => i ≤ j) : Alike tokens read read i := by
  intro inside
  obtain ⟨a,j,ran,bound,on⟩ := given inside
  exact ⟨a,j,ran,ran,on,bound⟩

theorem reads (alike : Alike tokens read other i) : Reads tokens read i fun _ j => i ≤ j := by
  intro inside
  obtain ⟨a,j,ran,_,on,bound⟩ := alike inside
  exact ⟨a,j,ran,bound,on⟩

/-- Behind the last token there is nothing to compare. -/
theorem beyond (far : tokens.length < i) : Alike tokens read other i :=
  fun inside => absurd far (Nat.not_lt.mpr inside)

theorem bind (first : Alike tokens read other i) (next : ∀ a j, i ≤ j → Alike tokens (f a) (g a) j) :
    Alike tokens (read >>= f) (other >>= g) i := by
  intro inside
  obtain ⟨a,j,ran,same,on,bound⟩ := first inside
  obtain ⟨b,k,ranNext,sameNext,further,boundNext⟩ := next a j on bound
  refine ⟨b,k,?_,?_,Nat.le_trans on further,boundNext⟩
  · change (f (read (.on tokens i)).1) (read (.on tokens i)).2 = _
    rw [ran]
    exact ranNext
  · change (g (other (.on tokens i)).1) (other (.on tokens i)).2 = _
    rw [same]
    exact sameNext

/-- Both begin with one reader, of which more is known, and perhaps go back to where they began. -/
theorem attempt {mid : α → Nat → Prop} (first : Reads tokens read i mid)
    (next : ∀ a j, mid a j → (i ≤ j ∧ Alike tokens (f a) (g a) j) ∨
      ∃ b, Reads tokens (f a) j (fun c k => c = b ∧ k = i) ∧ Reads tokens (g a) j (fun c k => c = b ∧ k = i)) :
    Alike tokens (read >>= f) (read >>= g) i := by
  intro inside
  obtain ⟨a,j,ran,bound,given⟩ := first inside
  have both (next : α → Parser β) : (read >>= next) (.on tokens i) = next a (.on tokens j) := by
    change (next (read (.on tokens i)).1) (read (.on tokens i)).2 = _
    rw [ran]
  rw [both,both]
  rcases next a j given with ⟨on,alike⟩ | ⟨b,back,same⟩
  · obtain ⟨b,k,ranNext,sameNext,further,boundNext⟩ := alike bound
    exact ⟨b,k,ranNext,sameNext,Nat.le_trans on further,boundNext⟩
  · obtain ⟨_,_,ranNext,_,rfl,rfl⟩ := back bound
    obtain ⟨_,_,sameNext,_,rfl,rfl⟩ := same bound
    exact ⟨_,_,ranNext,sameNext,Nat.le_refl _,inside⟩

theorem follow {mid : α → Nat → Prop} (first : Reads tokens read i mid)
    (next : ∀ a j, mid a j → i ≤ j ∧ Alike tokens (f a) (g a) j) :
    Alike tokens (read >>= f) (read >>= g) i :=
  attempt first fun a j given => .inl (next a j given)

theorem pure (a : α) : Alike tokens (Pure.pure a) (Pure.pure a) i := shared (.pure (Nat.le_refl i))

theorem discard (alike : Alike tokens read other i) :
    Alike tokens (Functor.discard read) (Functor.discard other) i :=
  bind alike fun _ _ _ => pure ()

theorem assume (given : i ≤ tokens.length → Alike tokens read other i) : Alike tokens read other i :=
  fun inside => given inside inside

theorem get {f g : Cursor → Parser β} (next : Alike tokens (f (.on tokens i)) (g (.on tokens i)) i) :
    Alike tokens (MonadState.get >>= f) (MonadState.get >>= g) i := next

theorem ite {p : Prop} [Decidable p] {first second first' second' : Parser α}
    (yes : p → Alike tokens first first' i) (no : ¬ p → Alike tokens second second' i) :
    Alike tokens (if p then first else second) (if p then first' else second') i := by
  split
  · exact yes ‹_›
  · exact no ‹_›

theorem skip {f g : Unit → Parser β} (count : Nat) (enough : i + count ≤ tokens.length)
    (next : Alike tokens (f ()) (g ()) (i + count)) :
    Alike tokens (Parser.skip count >>= f) (Parser.skip count >>= g) i :=
  follow (Reads.skip count enough (.pure rfl : Reads tokens (Pure.pure ()) _ fun _ j => j = i + count))
    fun _ _ same => same ▸ ⟨Nat.le_add_right i count,next⟩

theorem sees {f g : Bool → Parser β} (yes : Seen tokens i kind → Alike tokens (f true) (g true) i)
    (no : ¬ Seen tokens i kind → Alike tokens (f false) (g false) i) :
    Alike tokens (Parser.sees kind >>= f) (Parser.sees kind >>= g) i := by
  change Alike tokens (f ((Cursor.on tokens i).sees kind)) (g ((Cursor.on tokens i).sees kind)) i
  cases found : (Cursor.on tokens i).sees kind with
  | true => exact yes (Cursor.on_sees_iff.mp found)
  | false => exact no fun seen => by simp [Cursor.on_sees_iff.mpr seen] at found

theorem eat {f g : Bool → Parser β} (yes : Seen tokens i kind → Alike tokens (f true) (g true) (i + 1))
    (no : Alike tokens (f false) (g false) i) :
    Alike tokens (Parser.eat kind >>= f) (Parser.eat kind >>= g) i := by
  refine follow Reads.eaten ?_
  rintro _ _ (⟨rfl,seen,rfl⟩ | ⟨rfl,_,rfl⟩)
  · exact ⟨Nat.le_succ i,yes seen⟩
  · exact ⟨Nat.le_refl _,no⟩

theorem eatWord {f g : Bool → Parser β}
    (yes : SeenWord tokens i word → Alike tokens (f true) (g true) (i + 1))
    (no : Alike tokens (f false) (g false) i) :
    Alike tokens (Parser.eatWord word >>= f) (Parser.eatWord word >>= g) i := by
  refine follow Reads.eatenWord ?_
  rintro _ _ (⟨rfl,seen,rfl⟩ | ⟨rfl,_,rfl⟩)
  · exact ⟨Nat.le_succ i,yes seen⟩
  · exact ⟨Nat.le_refl _,no⟩

theorem expect : Alike tokens (Parser.expect kind) (Parser.expect kind) i := shared Reads.expectOn

theorem closing : Alike tokens (Functor.discard (Parser.expect kind)) (Functor.discard (Parser.expect kind)) i :=
  expect.discard

/-- What is expected stands there. -/
theorem expected {f g : Ident → Parser β} (seen : Seen tokens i kind)
    (next : ∀ ident, Alike tokens (f ident) (g ident) (i + 1)) :
    Alike tokens (Parser.expect kind >>= f) (Parser.expect kind >>= g) i := by
  refine follow Reads.expect ?_
  rintro ident _ (⟨_,_,_,_,rfl⟩ | ⟨unseen,_⟩)
  · exact ⟨Nat.le_succ i,next ident⟩
  · exact absurd seen unseen

theorem opened {f g : Unit → Parser β} (seen : Seen tokens i kind)
    (next : Alike tokens (f ()) (g ()) (i + 1)) :
    Alike tokens (Functor.discard (Parser.expect kind) >>= f) (Functor.discard (Parser.expect kind) >>= g) i :=
  expected seen fun _ => next

theorem nextStart {f g : Nat → Parser β} (next : Alike tokens (f (2 * i + 1)) (g (2 * i + 1)) i) :
    Alike tokens (Parser.nextStart >>= f) (Parser.nextStart >>= g) i := next

theorem spanFrom {f g : Span → Parser β} {start : Nat}
    (next : Alike tokens (f (.upTo start (2 * i))) (g (.upTo start (2 * i))) i) :
    Alike tokens (Parser.spanFrom start >>= f) (Parser.spanFrom start >>= g) i := next

/-- The readers are given more turns than there are tokens left. -/
theorem bounded {read : Nat → Parser α}
    (each : ∀ turns, tokens.length < i + turns → Alike tokens (read turns) other i) :
    Alike tokens (Parser.bounded read) other i :=
  assume fun inside => each _ (by simp only [Cursor.on,List.length_drop]; omega)

theorem symm (alike : Alike tokens read other i) : Alike tokens other read i := by
  intro inside
  obtain ⟨a,j,ran,same,on,bound⟩ := alike inside
  exact ⟨a,j,same,ran,on,bound⟩

theorem trans {third : Parser α} (first : Alike tokens read other i) (second : Alike tokens other third i) :
    Alike tokens read third i := by
  intro inside
  obtain ⟨a,j,ran,same,on,bound⟩ := first inside
  obtain ⟨_,_,again,next,_,_⟩ := second inside
  rw [same] at again
  cases again
  exact ⟨a,j,ran,next,on,bound⟩

/-! Loops whose steps read alike. -/

section Loops

variable {step step' : α → Parser (Option α)} {item item' : Parser α} {item? item?' : Parser (Option α)}
  {stops : List Kind}

theorem both {read read' : Nat → Parser α} (each : ∀ turns, Alike tokens (read turns) (read' turns) i) :
    Alike tokens (Parser.bounded read) (Parser.bounded read') i :=
  get (each _)

theorem repeated (each : ∀ a k, i ≤ k → Alike tokens (step a) (step' a) k) (a : α) :
    Alike tokens (Parser.repeated step a) (Parser.repeated step' a) i := by
  refine both fun turns => ?_
  induction turns generalizing i a with
  | zero => exact pure a
  | succ turns ih =>
    refine bind (each a i (Nat.le_refl i)) fun next k on => ?_
    cases next with
    | none => exact pure a
    | some next => exact ih (fun a l low => each a l (Nat.le_trans on low)) next

theorem many (each : ∀ k, i ≤ k → Alike tokens item? item?' k) :
    Alike tokens (Parser.many item?) (Parser.many item?') i := by
  refine both fun turns => ?_
  induction turns generalizing i with
  | zero => exact pure []
  | succ turns ih =>
    refine bind (each i (Nat.le_refl i)) fun next k on => ?_
    cases next with
    | none => exact pure []
    | some a => exact bind (ih fun l low => each l (Nat.le_trans on low)) fun _ _ _ => pure _

theorem separated (each : ∀ k, i ≤ k → Alike tokens item item' k) :
    Alike tokens (Parser.separated stops item) (Parser.separated stops item') i := by
  refine both fun turns => ?_
  induction turns generalizing i with
  | zero => exact pure []
  | succ turns ih =>
    refine get (ite (fun _ => pure []) fun _ => bind (each i (Nat.le_refl i)) fun a k on => ?_)
    refine eat (fun _ => ?_) (pure [a])
    exact bind (ih fun l low => each l (by omega)) fun _ _ _ => pure _

theorem gathered (each : ∀ k, i ≤ k → Alike tokens item? item?' k) :
    Alike tokens (Parser.gathered stops item?) (Parser.gathered stops item?') i := by
  refine both fun turns => ?_
  induction turns generalizing i with
  | zero => exact pure []
  | succ turns ih =>
    refine get (ite (fun _ => pure []) fun going => bind (each i (Nat.le_refl i)) fun a k on => get ?_)
    have rest (l : Nat) (low : i ≤ l) : Alike tokens
        (do return a.toList ++ (← Parser.gather stops item? turns))
        (do return a.toList ++ (← Parser.gather stops item?' turns)) l :=
      bind (ih fun m high => each m (Nat.le_trans low high)) fun _ _ _ => pure _
    refine ite (fun same => ?_) fun _ => rest k on
    simp only [Bool.or_eq_true,not_or,Cursor.on_atEnd_iff] at going
    cases (show k = i from same)
    exact skip 1 (Nat.lt_of_not_le going.1) (rest _ (Nat.le_succ i))

end Loops
end Alike

namespace Reads

variable {tokens : List Token} {i : Nat} {α : Type}

theorem onward {read : Parser α} (alike : Alike tokens read read i) : Reads tokens read i fun _ j => i ≤ j :=
  alike.reads

/-- A token was passed before. -/
theorem ahead {read : Parser (Option α)} (alike : Alike tokens read read (i + 1)) :
    Reads tokens read (i + 1) fun found j => i ≤ j ∧ ∀ a, found = some a → i < j :=
  (onward alike).mono fun _ _ on _ => ⟨Nat.le_of_lt on,fun _ _ => on⟩

end Reads

/-- The reader is a level of itself. A level reads at a token as the readers inside it read behind that
token, so there is no other such reader. -/
structure Recursion {Reader : Type} (alike : Reader → Reader → Nat → Prop) (level : Reader → Reader)
    (reader : Reader) : Prop where
  onward : ∀ inner other i, (∀ k, i < k → alike inner other k) → alike (level inner) (level other) i
  unfolds : ∀ i, alike reader (level reader) i
  unique : ∀ other, (∀ i, alike other (level other) i) → ∀ i, alike reader other i

section

variable {Reader : Type} {alike : Reader → Reader → Nat → Prop} {level : Reader → Reader}
  {readers : Nat → Reader} (last : Nat) (beyond : ∀ first second i, last < i → alike first second i)
  (onward : ∀ inner other i, (∀ k, i < k → alike inner other k) → alike (level inner) (level other) i)

include beyond onward

/-- More levels than there are tokens left change nothing. -/
theorem levels_alike (levels : ∀ depth, readers (depth + 1) = level (readers depth)) (first second i : Nat)
    (enough : last < i + first) (other : last < i + second) : alike (readers first) (readers second) i := by
  induction first generalizing second i with
  | zero => exact beyond _ _ i enough
  | succ first ih =>
    cases second with
    | zero => exact beyond _ _ i other
    | succ second =>
      rw [levels,levels]
      exact onward _ _ i fun k further => ih second k (by omega) (by omega)

variable (symm : ∀ first second i, alike first second i → alike second first i)
  (trans : ∀ first second third i, alike first second i → alike second third i → alike first third i)

include symm trans

theorem levels_unique {reader other : Reader} (unfolds : ∀ i, alike reader (level reader) i)
    (same : ∀ i, alike other (level other) i) (i : Nat) : alike reader other i := by
  induction left : last + 1 - i using Nat.strongRecOn generalizing i with
  | ind count ih =>
    by_cases far : last < i
    · exact beyond _ _ i far
    · have inside : alike (level reader) (level other) i := onward _ _ i fun k further => ih _ (by omega) k rfl
      exact trans _ _ _ i (trans _ _ _ i (unfolds i) inside) (symm _ _ i (same i))

/-- A reader that is as good as any number of levels that is large enough. -/
theorem Recursion.of_levels {reader : Reader} (levels : ∀ depth, readers (depth + 1) = level (readers depth))
    (bounded : ∀ other i, (∀ depth, last < i + depth → alike (readers depth) other i) → alike reader other i) :
    Recursion alike level reader := by
  have unfolds (i : Nat) : alike reader (level reader) i := by
    refine bounded _ i fun depth enough => ?_
    cases depth with
    | zero => exact beyond _ _ i enough
    | succ depth =>
      rw [levels]
      refine onward _ _ i fun k further => symm _ _ k (bounded _ k fun other high => ?_)
      exact levels_alike last beyond onward levels other depth k high (by omega)
  exact ⟨onward,unfolds,fun _ same => levels_unique last beyond onward symm trans unfolds same⟩

end
end Transplant.Java
