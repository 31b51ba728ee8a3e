import Transplant.Java.Type.Parser

/-! What readers do on a fixed sequence of tokens. A reader that starts before token `i` stops
before some token `j` of the same sequence; what it read is stated in terms of `i` and `j`. -/
namespace Transplant.Java

open Token (Kind)

/-- The cursor before token number `i`. -/
def Cursor.on (tokens : List Token) (i : Nat) : Cursor := ⟨i,tokens.drop i⟩

def Seen (tokens : List Token) (i : Nat) (kind : Kind) : Prop :=
  ∃ token, tokens[i]? = some token ∧ token.kind = kind

def SeenWord (tokens : List Token) (i : Nat) (word : String) : Prop :=
  ∃ token, tokens[i]? = some token ∧ token.isWord word = true

variable {tokens : List Token} {i j : Nat} {kind : Kind} {word : String}

theorem Seen.lt (seen : Seen tokens i kind) : i < tokens.length := by
  obtain ⟨_,found,_⟩ := seen
  exact (List.getElem?_eq_some_iff.mp found).1

theorem SeenWord.ident (seen : SeenWord tokens i word) : Seen tokens i .ident := by
  obtain ⟨token,found,same⟩ := seen
  simp only [Token.isWord,Bool.and_eq_true,beq_iff_eq] at same
  exact ⟨token,found,same.1⟩

/-- A token has one kind. -/
theorem Seen.unique {other : Kind} (first : Seen tokens i kind) (second : Seen tokens i other) :
    kind = other := by
  obtain ⟨token,found,rfl⟩ := first
  obtain ⟨same,again,rfl⟩ := second
  rw [found] at again
  rw [Option.some.inj again]

namespace Cursor

@[simp] theorem on_passed : (on tokens i).passed = i := rfl

@[simp] theorem on_nextStart : (on tokens i).nextStart = 2 * i + 1 := rfl

@[simp] theorem on_lastStop : (on tokens i).lastStop = 2 * i := rfl

@[simp] theorem on_nextSpan : (on tokens i).nextSpan = ⟨2 * i + 1,2 * i + 2⟩ := rfl

theorem on_next? : (on tokens i).next? = tokens[i]? := by simp [on,next?]

theorem on_sees_iff : (on tokens i).sees kind = true ↔ Seen tokens i kind := by
  have head : (on tokens i).next? = tokens[i]? := on_next?
  simp only [next?,on] at head
  simp only [sees,on,Seen,← head]
  cases tokens.drop i <;> simp

theorem on_seesWord_iff : (on tokens i).seesWord word = true ↔ SeenWord tokens i word := by
  have head : (on tokens i).next? = tokens[i]? := on_next?
  simp only [next?,on] at head
  simp only [seesWord,on,SeenWord,← head]
  cases tokens.drop i <;> simp

theorem on_atEnd_iff : (on tokens i).atEnd = true ↔ tokens.length ≤ i := by simp [atEnd,on]

theorem on_skip (count : Nat) (enough : i + count ≤ tokens.length) :
    (on tokens i).skip count = on tokens (i + count) := by
  simp only [skip,on,List.length_take,List.length_drop,List.drop_drop,mk.injEq,and_true]
  omega

/-- Skipping stops behind the last token. -/
theorem on_skip_min (count : Nat) (inside : i ≤ tokens.length) :
    (on tokens i).skip count = on tokens (min (i + count) tokens.length) := by
  rcases Nat.le_total (i + count) tokens.length with enough | short
  · rw [on_skip count enough,Nat.min_eq_left enough]
  · simp only [skip,on,List.length_take,List.length_drop,List.drop_drop,mk.injEq]
    rw [List.drop_eq_nil_of_le short,List.drop_eq_nil_of_le (by omega)]
    exact ⟨by omega,rfl⟩

end Cursor

/-- From token `i` on, the reader stops at some token with a result for which `post` holds. -/
def Reads {α : Type} (tokens : List Token) (read : Parser α) (i : Nat) (post : α → Nat → Prop) : Prop :=
  i ≤ tokens.length → ∃ a j, read (.on tokens i) = (a,.on tokens j) ∧ j ≤ tokens.length ∧ post a j

/-- The reader does not go back, and passes a token when it finds something. -/
def Steps {α : Type} (tokens : List Token) (read : Parser (Option α)) (i : Nat) : Prop :=
  Reads tokens read i fun found j => i ≤ j ∧ ∀ a, found = some a → i < j

/-- How many tokens a reader has passed that starts before token `i`. -/
def stopOf {α : Type} (read : Parser α) (tokens : List Token) (i : Nat) : Nat :=
  (read (.on tokens i)).2.passed

namespace Reads

variable {α β : Type} {read : Parser α} {f : α → Parser β} {post other : α → Nat → Prop}
  {mid : α → Nat → Prop} {last : β → Nat → Prop}

theorem bind (first : Reads tokens read i mid)
    (next : ∀ a j, mid a j → j ≤ tokens.length → Reads tokens (f a) j last) :
    Reads tokens (read >>= f) i last := by
  intro inside
  obtain ⟨a,j,ran,bound,given⟩ := first inside
  obtain ⟨b,k,ranNext,boundNext,result⟩ := next a j given bound bound
  refine ⟨b,k,?_,boundNext,result⟩
  change (f (read (.on tokens i)).1) (read (.on tokens i)).2 = _
  rw [ran]
  exact ranNext

theorem pure {a : α} (given : post a i) : Reads tokens (Pure.pure a) i post :=
  fun inside => ⟨a,i,rfl,inside,given⟩

theorem mono (given : Reads tokens read i post)
    (weaker : ∀ a j, post a j → j ≤ tokens.length → other a j) : Reads tokens read i other := by
  intro inside
  obtain ⟨a,j,ran,bound,result⟩ := given inside
  exact ⟨a,j,ran,bound,weaker a j result bound⟩

theorem discard (given : Reads tokens read i post) :
    Reads tokens (Functor.discard read) i fun _ j => ∃ a, post a j := by
  intro inside
  obtain ⟨a,j,ran,bound,result⟩ := given inside
  refine ⟨(),j,?_,bound,a,result⟩
  change ((),(read (.on tokens i)).2) = _
  rw [ran]

/-- The place where a reader starts lies in the sequence. -/
theorem assume (given : i ≤ tokens.length → Reads tokens read i post) : Reads tokens read i post :=
  fun inside => given inside inside

theorem get {f : Cursor → Parser β} (next : Reads tokens (f (.on tokens i)) i last) :
    Reads tokens (MonadState.get >>= f) i last := next

theorem ite {p : Prop} [Decidable p] {first second : Parser α} (yes : p → Reads tokens first i post)
    (no : ¬ p → Reads tokens second i post) : Reads tokens (if p then first else second) i post := by
  split
  · exact yes ‹_›
  · exact no ‹_›

/-- Going back to a place that was passed. -/
theorem set {f : PUnit → Parser β} {k : Nat} (inside : k ≤ tokens.length)
    (next : Reads tokens (f ⟨⟩) k last) :
    Reads tokens (MonadStateOf.set (Cursor.on tokens k) >>= f) i last := fun _ => next inside

theorem skip {f : Unit → Parser β} (count : Nat) (enough : i + count ≤ tokens.length)
    (next : Reads tokens (f ()) (i + count) last) :
    Reads tokens (Parser.skip count >>= f) i last := by
  intro _
  have ran := next enough
  change ∃ b k, f () ((Cursor.on tokens i).skip count) = (b,.on tokens k) ∧ _
  rwa [Cursor.on_skip count enough]

theorem sees {f : Bool → Parser β} (yes : Seen tokens i kind → Reads tokens (f true) i last)
    (no : ¬ Seen tokens i kind → Reads tokens (f false) i last) :
    Reads tokens (Parser.sees kind >>= f) i last := by
  change Reads tokens (f ((Cursor.on tokens i).sees kind)) i last
  cases found : (Cursor.on tokens i).sees kind with
  | true => exact yes (Cursor.on_sees_iff.mp found)
  | false => exact no fun seen => by simp [Cursor.on_sees_iff.mpr seen] at found

theorem seesWord {f : Bool → Parser β} (yes : SeenWord tokens i word → Reads tokens (f true) i last)
    (no : ¬ SeenWord tokens i word → Reads tokens (f false) i last) :
    Reads tokens (Parser.seesWord word >>= f) i last := by
  change Reads tokens (f ((Cursor.on tokens i).seesWord word)) i last
  cases found : (Cursor.on tokens i).seesWord word with
  | true => exact yes (Cursor.on_seesWord_iff.mp found)
  | false => exact no fun seen => by simp [Cursor.on_seesWord_iff.mpr seen] at found

theorem eaten : Reads tokens (Parser.eat kind) i fun b j =>
    (b = true ∧ Seen tokens i kind ∧ j = i + 1) ∨ (b = false ∧ ¬ Seen tokens i kind ∧ j = i) :=
  sees (fun seen => skip 1 seen.lt (pure (.inl ⟨rfl,seen,rfl⟩)))
    fun unseen => pure (.inr ⟨rfl,unseen,rfl⟩)

theorem eat {f : Bool → Parser β} (yes : Seen tokens i kind → Reads tokens (f true) (i + 1) last)
    (no : ¬ Seen tokens i kind → Reads tokens (f false) i last) :
    Reads tokens (Parser.eat kind >>= f) i last := by
  refine bind eaten ?_
  rintro _ _ (⟨rfl,seen,rfl⟩ | ⟨rfl,unseen,rfl⟩) _
  · exact yes seen
  · exact no unseen

theorem eatenWord : Reads tokens (Parser.eatWord word) i fun b j =>
    (b = true ∧ SeenWord tokens i word ∧ j = i + 1) ∨ (b = false ∧ ¬ SeenWord tokens i word ∧ j = i) :=
  seesWord (fun seen => skip 1 seen.ident.lt (pure (.inl ⟨rfl,seen,rfl⟩)))
    fun unseen => pure (.inr ⟨rfl,unseen,rfl⟩)

theorem eatWord {f : Bool → Parser β} (yes : SeenWord tokens i word → Reads tokens (f true) (i + 1) last)
    (no : ¬ SeenWord tokens i word → Reads tokens (f false) i last) :
    Reads tokens (Parser.eatWord word >>= f) i last := by
  refine bind eatenWord ?_
  rintro _ _ (⟨rfl,seen,rfl⟩ | ⟨rfl,unseen,rfl⟩) _
  · exact yes seen
  · exact no unseen

/-- What `expect` answers before token `i`, and where it stops. -/
def Expected (tokens : List Token) (kind : Kind) (i : Nat) (ident : Ident) (j : Nat) : Prop :=
  (∃ token, tokens[i]? = some token ∧ token.kind = kind ∧
    ident = ⟨token.text,⟨2 * i + 1,2 * i + 2⟩⟩ ∧ j = i + 1) ∨
  (¬ Seen tokens i kind ∧ ident = ⟨"",⟨2 * i,2 * i⟩⟩ ∧ j = i)

theorem expect : Reads tokens (Parser.expect kind) i (Expected tokens kind i) := by
  intro inside
  change ∃ a j, Cursor.expect kind (.on tokens i) = (a,.on tokens j) ∧ _
  cases parted : tokens.drop i with
  | nil =>
    have short := List.drop_eq_nil_iff.mp parted
    refine ⟨⟨"",⟨2 * i,2 * i⟩⟩,i,?_,inside,.inr ⟨fun seen => absurd seen.lt (by omega),rfl,rfl⟩⟩
    simp [Cursor.expect,Cursor.on,parted,Cursor.lastStop,Span.empty]
  | cons token rest =>
    have found : tokens[i]? = .some token := by rw [← List.head?_drop,parted]; rfl
    have bound := (List.getElem?_eq_some_iff.mp found).1
    by_cases same : token.kind = kind
    · refine ⟨⟨token.text,⟨2 * i + 1,2 * i + 2⟩⟩,i + 1,?_,bound,.inl ⟨token,found,same,rfl,rfl⟩⟩
      rw [← Cursor.on_skip 1 bound]
      simp [Cursor.expect,Cursor.on,parted,same,Cursor.nextSpan,Cursor.nextStart]
    · refine ⟨⟨"",⟨2 * i,2 * i⟩⟩,i,?_,inside,.inr ⟨?_,rfl,rfl⟩⟩
      · simp [Cursor.expect,Cursor.on,parted,same,Cursor.lastStop,Span.empty]
      · rintro ⟨other,again,kindly⟩
        rw [found] at again
        exact same (Option.some.inj again ▸ kindly)

theorem expectOn : Reads tokens (Parser.expect kind) i fun _ j => i ≤ j :=
  expect.mono fun _ _ known _ => by rcases known with ⟨_,_,_,_,rfl⟩ | ⟨_,_,rfl⟩ <;> omega

theorem nextStart {f : Nat → Parser β} (next : Reads tokens (f (2 * i + 1)) i last) :
    Reads tokens (Parser.nextStart >>= f) i last := next

theorem lastStop {f : Nat → Parser β} (next : Reads tokens (f (2 * i)) i last) :
    Reads tokens (Parser.lastStop >>= f) i last := next

theorem spanFrom {f : Span → Parser β} {start : Nat} (next : Reads tokens (f (.upTo start (2 * i))) i last) :
    Reads tokens (Parser.spanFrom start >>= f) i last := next

theorem passed (given : Reads tokens read i post) :
    Reads tokens read i fun a j => post a j ∧ j = stopOf read tokens i := by
  intro inside
  obtain ⟨a,j,ran,bound,result⟩ := given inside
  exact ⟨a,j,ran,bound,result,by rw [stopOf,ran]; rfl⟩

/-- What a reader gives and where it stops is what it does. -/
theorem ran (given : Reads tokens read i post) :
    Reads tokens read i fun a j => post a j ∧ read (.on tokens i) = (a,.on tokens j) := by
  intro inside
  obtain ⟨a,j,does,bound,result⟩ := given inside
  exact ⟨a,j,does,bound,result,does⟩

theorem skipBy (count : List Token → Nat) :
    Reads tokens (modify fun cursor : Cursor => cursor.skip (count cursor.rest)) i fun _ j =>
      j = min (i + count (tokens.drop i)) tokens.length :=
  fun inside => ⟨(),_,congrArg (Prod.mk ()) (Cursor.on_skip_min _ inside),Nat.min_le_right _ _,rfl⟩

theorem skipWhile (keep : Kind → Bool) : Reads tokens (Parser.skipWhile keep) i fun _ j =>
    i ≤ j ∧ ∀ kind, Seen tokens i kind → keep kind = true → i < j := by
  refine assume fun inside => (skipBy fun rest => (rest.takeWhile fun token => keep token.kind).length).mono
    fun _ j stop _ => ⟨by omega,?_⟩
  rintro _ ⟨token,found,rfl⟩ kept
  obtain ⟨here,rfl⟩ := List.getElem?_eq_some_iff.mp found
  rw [List.drop_eq_getElem_cons here,List.takeWhile_cons,if_pos kept,List.length_cons] at stop
  omega

theorem skipNested (opening closing : Kind) :
    Reads tokens (Parser.skipNested opening closing) i fun _ j => i ≤ j := by
  refine eat (fun seen => ?_) fun _ => pure (Nat.le_refl _)
  exact (skipBy _).mono fun _ _ stop _ => by have := seen.lt; omega

/-- Skipping gets on unless there is nothing left or a token that it stops at. -/
theorem skipOutside (stops : List Kind) (brackets : List (Kind × Kind)) :
    Reads tokens (Parser.skipOutside stops brackets) i fun _ j =>
      i ≤ j ∧ (j = i → tokens.length ≤ i ∨ ∃ kind ∈ stops, Seen tokens i kind) := by
  refine assume fun inside => (skipBy _).mono fun _ j stop _ => ⟨by omega,fun same => ?_⟩
  by_cases left : tokens.length ≤ i
  · exact .inl left
  · refine .inr ?_
    obtain ⟨token,rest,parted⟩ := List.exists_cons_of_ne_nil (mt List.drop_eq_nil_iff.mp left)
    have found : tokens[i]? = some token := by rw [← List.head?_drop,parted]; rfl
    by_cases stopped : stops.contains token.kind = true
    · exact ⟨token.kind,List.contains_iff_mem.mp stopped,token,found,rfl⟩
    · simp only [parted,outsideLength,stopped,Bool.false_eq_true,if_false] at stop
      omega

/-! Loops. What holds of a list of items is told from its last item to its first, as the loops put
their results together. -/

section Loops

variable {step : α → Parser (Option α)} {item : Parser α} {item? : Parser (Option α)}
  (all : List α → Nat → Nat → Prop) {stops : List Kind}

/-- There are more turns than tokens left. -/
theorem bounded {read : Nat → Parser α}
    (each : ∀ turns, tokens.length < i + turns → Reads tokens (read turns) i post) :
    Reads tokens (Parser.bounded read) i post :=
  get (assume fun inside => each _ (by simp only [Cursor.on,List.length_drop]; omega))

theorem repeated (post : α → Nat → Prop) (start : α) (first : post start i)
    (each : ∀ a k, post a k → Reads tokens (step a) k fun next m => post (next.getD a) m) :
    Reads tokens (Parser.repeated step start) i post := by
  refine bounded fun turns enough => ?_
  clear enough
  induction turns generalizing start i with
  | zero => exact pure first
  | succ turns ih =>
    refine bind (each start i first) fun next m given _ => ?_
    cases next with
    | none => exact pure given
    | some next => exact ih next given

theorem many (nil : ∀ k, all [] k k)
    (each : ∀ k, i ≤ k → Reads tokens item? k fun next m =>
      k ≤ m ∧ (next = none → m = k) ∧
        ∀ a, next = some a → ∀ list j, all list m j → all (a :: list) k j) :
    Reads tokens (Parser.many item?) i (all · i ·) := by
  refine bounded fun turns enough => ?_
  clear enough
  induction turns generalizing i with
  | zero => exact pure (nil i)
  | succ turns ih =>
    refine bind (each i (Nat.le_refl _)) fun next m ⟨on,ended,given⟩ _ => ?_
    cases next with
    | none => exact pure (ended rfl ▸ nil m)
    | some a =>
      refine bind (ih fun k low => each k (Nat.le_trans on low)) fun list j rest _ => ?_
      exact pure (given a rfl list j rest)

theorem separated {one : α → Nat → Nat → Prop} (nil : ∀ k, all [] k k)
    (cons : ∀ a list k m j, one a k m → all list m j → all (a :: list) k j)
    (comma : ∀ list k j, Seen tokens k .comma → all list (k + 1) j → all list k j)
    (each : ∀ k, Reads tokens item k (one · k ·)) :
    Reads tokens (Parser.separated stops item) i (all · i ·) := by
  refine bounded fun turns enough => ?_
  clear enough
  induction turns generalizing i with
  | zero => exact pure (nil i)
  | succ turns ih =>
    refine get ?_
    split
    · exact pure (nil i)
    · refine bind (each i) fun a m given _ => eat (fun seen => ?_) fun _ => ?_
      · refine bind ih fun list j rest _ => ?_
        exact pure (cons a list i m j given (comma list m j seen rest))
      · exact pure (cons a [] i m m given (nil m))

/-- A token that no item begins with is passed over. -/
theorem gathered (nil : ∀ k, all [] k k)
    (each : ∀ k, i ≤ k → k < tokens.length → (∀ kind ∈ stops, ¬ Seen tokens k kind) →
      Reads tokens item? k fun next m => k ≤ m ∧
        ∀ list j, all list (if m = k then k + 1 else m) j → all (next.toList ++ list) k j) :
    Reads tokens (Parser.gathered stops item?) i (all · i ·) := by
  refine bounded fun turns enough => ?_
  clear enough
  induction turns generalizing i with
  | zero => exact pure (nil i)
  | succ turns ih =>
    refine get ?_
    split
    · exact pure (nil i)
    · rename_i going
      simp only [Bool.or_eq_true,not_or,Cursor.on_atEnd_iff,Cursor.seesAny,List.any_eq_true,
        Cursor.on_sees_iff,not_exists,not_and] at going
      have unread := Nat.lt_of_not_le going.1
      refine bind (each i (Nat.le_refl _) unread going.2) fun next m ⟨on,given⟩ _ => get ?_
      have rest (k : Nat) (low : i ≤ k) (after : k = if m = i then i + 1 else m) :
          Reads tokens (do return next.toList ++ (← Parser.gather stops item? turns)) k
            (all · i ·) := by
        refine bind (ih fun k' high => each k' (Nat.le_trans low high)) fun list j behind _ => ?_
        exact pure (given list j (after ▸ behind))
      refine ite (fun same => ?_) fun other => ?_
      · cases (show m = i from same)
        exact skip 1 unread (rest _ (Nat.le_succ _) (by simp))
      · exact rest m on (by simp [show m ≠ i from other])

end Loops

end Reads
end Transplant.Java
