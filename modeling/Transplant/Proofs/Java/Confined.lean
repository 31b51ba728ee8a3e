import Transplant.Proofs.Java.Loops

/-! Reading does not depend on the tokens further on. What is read up to some token is read again out of
any other sequence that has the same tokens up to this one. -/
namespace Transplant.Java

open Token (Kind)

/-- Both sequences have the same tokens up to token `j`, or end together before it. Where token `j` could
go on with a type, the one behind it is the same, too. -/
structure Agree (tokens other : List Token) (j : Nat) : Prop where
  upTo : ∀ k ≤ j, tokens[k]? = other[k]?
  behind : Seen tokens j .dot ∨ Seen tokens j .bracketOpen → tokens[j + 1]? = other[j + 1]?

variable {tokens other : List Token} {i j : Nat} {kind : Kind} {word : String}

/-- What has the same tokens in front is as long. -/
theorem inside_of_front (front : ∀ k < j, tokens[k]? = other[k]?) (bound : j ≤ tokens.length) : j ≤ other.length := by
  rcases Nat.eq_zero_or_pos j with rfl | some
  · exact Nat.zero_le _
  · have last := front (j - 1) (by omega)
    rw [List.getElem?_eq_getElem (by omega)] at last
    have := (List.getElem?_eq_some_iff.mp last.symm).1
    omega

namespace Agree

theorem mono (agree : Agree tokens other j) (low : i ≤ j) : Agree tokens other i where
  upTo k before := agree.upTo k (Nat.le_trans before low)
  behind opens := by
    rcases Nat.lt_or_eq_of_le low with before | rfl
    · exact agree.upTo _ before
    · exact agree.behind opens

theorem inside (agree : Agree tokens other j) (bound : j ≤ tokens.length) : j ≤ other.length :=
  inside_of_front (fun k before => agree.upTo k (Nat.le_of_lt before)) bound

theorem ended (agree : Agree tokens other j) (last : tokens.length ≤ j) : other.length ≤ j := by
  have none := agree.upTo j (Nat.le_refl j)
  rw [List.getElem?_eq_none last] at none
  exact List.getElem?_eq_none_iff.mp none.symm

theorem next? (agree : Agree tokens other i) : (Cursor.on other i).next? = (Cursor.on tokens i).next? := by
  rw [Cursor.on_next?,Cursor.on_next?,agree.upTo i (Nat.le_refl i)]

theorem sees (agree : Agree tokens other i) : (Cursor.on other i).sees kind = (Cursor.on tokens i).sees kind := by
  rw [Bool.eq_iff_iff,Cursor.on_sees_iff,Cursor.on_sees_iff,Seen,Seen,agree.upTo i (Nat.le_refl i)]

theorem seesWord (agree : Agree tokens other i) :
    (Cursor.on other i).seesWord word = (Cursor.on tokens i).seesWord word := by
  rw [Bool.eq_iff_iff,Cursor.on_seesWord_iff,Cursor.on_seesWord_iff,SeenWord,SeenWord,agree.upTo i (Nat.le_refl i)]

theorem atEnd (agree : Agree tokens other i) : (Cursor.on other i).atEnd = (Cursor.on tokens i).atEnd := by
  rw [Bool.eq_iff_iff,Cursor.on_atEnd_iff,Cursor.on_atEnd_iff,← List.getElem?_eq_none_iff,← List.getElem?_eq_none_iff,
    agree.upTo i (Nat.le_refl i)]

theorem seesAny (agree : Agree tokens other i) (kinds : List Kind) :
    (Cursor.on other i).seesAny kinds = (Cursor.on tokens i).seesAny kinds := by
  exact congrArg kinds.any (funext fun _ => agree.sees)

/-- Either both sequences go on with the same two tokens, or neither goes on with a dot or an opening
bracket and another token. -/
theorem pair (agree : Agree tokens other i) : (∃ first second rest more,
    tokens.drop i = first :: second :: rest ∧ other.drop i = first :: second :: more) ∨
    ∀ first second rest, tokens.drop i = first :: second :: rest ∨ other.drop i = first :: second :: rest →
      first.kind ≠ .dot ∧ first.kind ≠ .bracketOpen := by
  have parted {list : List Token} {first second : Token} {rest : List Token}
      (same : list.drop i = first :: second :: rest) : list[i]? = some first ∧ list[i + 1]? = some second :=
    Cursor.on_rest_two same
  have join {list : List Token} {first second : Token} (one : list[i]? = some first)
      (two : list[i + 1]? = some second) : ∃ rest, list.drop i = first :: second :: rest := by
    obtain ⟨here,rfl⟩ := List.getElem?_eq_some_iff.mp one
    obtain ⟨next,rfl⟩ := List.getElem?_eq_some_iff.mp two
    exact ⟨_,by rw [List.drop_eq_getElem_cons here,List.drop_eq_getElem_cons next]⟩
  by_cases opens : Seen tokens i .dot ∨ Seen tokens i .bracketOpen
  · have next := agree.behind opens
    have here := agree.upTo i (Nat.le_refl i)
    rcases second : tokens[i + 1]? with _ | second
    · refine .inr fun first other rest same => ?_
      rcases same with same | same
      · rw [(parted same).2] at second
        cases second
      · rw [next,(parted same).2] at second
        cases second
    · obtain ⟨first,found⟩ : ∃ first, tokens[i]? = some first := by
        rcases opens with ⟨first,found,_⟩ | ⟨first,found,_⟩ <;> exact ⟨first,found⟩
      obtain ⟨rest,own⟩ := join found second
      obtain ⟨more,others⟩ := join (here ▸ found) (next ▸ second)
      exact .inl ⟨first,_,rest,more,own,others⟩
  · refine .inr fun first second rest same => ?_
    have found : tokens[i]? = some first := by
      rcases same with same | same
      · exact (parted same).1
      · rw [agree.upTo i (Nat.le_refl i)]
        exact (parted same).1
    exact ⟨fun dot => opens (.inl ⟨first,found,dot⟩),fun bracket => opens (.inr ⟨first,found,bracket⟩)⟩

end Agree

/-- What holds of what the reader gives holds of what it is known to give. -/
theorem Reads.known {α : Type} {read : Parser α} {post : α → Nat → Prop} {a : α} (given : Reads tokens read i post)
    (inside : i ≤ tokens.length) (ran : read (.on tokens i) = (a,.on tokens j)) : post a j := by
  obtain ⟨b,k,again,_,holds⟩ := given inside
  rw [ran] at again
  obtain ⟨rfl,stop⟩ := Prod.mk.inj again
  cases congrArg Cursor.passed stop
  exact holds

/-- From token `i` on the reader stops at some token, and it does the same on every other sequence that
agrees with this one up to there. -/
def Confined {α : Type} (tokens other : List Token) (read : Parser α) (i : Nat) : Prop :=
  Reads tokens read i fun a j => i ≤ j ∧ (Agree tokens other j → read (.on other i) = (a,.on other j))

namespace Confined

variable {α β : Type} {read : Parser α} {f : α → Parser β}

theorem pure (a : α) : Confined tokens other (Pure.pure a) i := Reads.pure ⟨Nat.le_refl i,fun _ => rfl⟩

/-- What begins like another reader does what this one does. -/
theorem same {first second : Parser α} (begins : first (.on tokens i) = second (.on tokens i))
    (again : Agree tokens other i → first (.on other i) = second (.on other i))
    (second : Confined tokens other second i) : Confined tokens other first i := by
  intro inside
  obtain ⟨a,j,ran,bound,on,other⟩ := second inside
  exact ⟨a,j,begins.trans ran,bound,on,fun agree => (again (agree.mono on)).trans (other agree)⟩

/-- More is known of what the first reader gives. -/
theorem follow {mid : α → Nat → Prop} (more : Reads tokens read i mid) (first : Confined tokens other read i)
    (next : ∀ a j, mid a j → i ≤ j → Confined tokens other (f a) j) : Confined tokens other (read >>= f) i := by
  refine Reads.bind (Reads.and more first) fun a j ⟨given,on,again⟩ _ => ?_
  refine (next a j given on).mono fun b k ⟨further,last⟩ _ => ⟨Nat.le_trans on further,fun agree => ?_⟩
  change (f (read (.on other i)).1) (read (.on other i)).2 = _
  rw [again (agree.mono further)]
  exact last agree

theorem bind (first : Confined tokens other read i) (next : ∀ a j, i ≤ j → Confined tokens other (f a) j) :
    Confined tokens other (read >>= f) i :=
  follow (first.mono fun _ _ _ _ => trivial : Reads tokens read i fun _ _ => True) first fun a j _ => next a j

theorem discard (first : Confined tokens other read i) : Confined tokens other (Functor.discard read) i :=
  bind first fun _ _ _ => pure ()

theorem get {f : Cursor → Parser β} (alike : Agree tokens other i → f (.on other i) = f (.on tokens i))
    (next : Confined tokens other (f (.on tokens i)) i) : Confined tokens other (MonadState.get >>= f) i :=
  @same _ _ _ _ _ (f (.on tokens i)) rfl (fun agree => congrFun (alike agree) _) next

theorem ite {p : Prop} [Decidable p] {first second : Parser α} (yes : p → Confined tokens other first i)
    (no : ¬ p → Confined tokens other second i) : Confined tokens other (if p then first else second) i := by
  split
  · exact yes ‹_›
  · exact no ‹_›

theorem skip {f : Unit → Parser β} (count : Nat) (enough : i + count ≤ tokens.length)
    (next : Confined tokens other (f ()) (i + count)) : Confined tokens other (Parser.skip count >>= f) i := by
  refine Reads.skip count enough (next.mono fun b j ⟨on,again⟩ bound => ⟨by omega,fun agree => ?_⟩)
  have inside := agree.inside bound
  change f () ((Cursor.on other i).skip count) = _
  rw [Cursor.on_skip count (by omega)]
  exact again agree

theorem sees {f : Bool → Parser β} (yes : Seen tokens i kind → Confined tokens other (f true) i)
    (no : ¬ Seen tokens i kind → Confined tokens other (f false) i) :
    Confined tokens other (Parser.sees kind >>= f) i := by
  refine get (fun agree => congrArg f agree.sees) ?_
  cases found : (Cursor.on tokens i).sees kind with
  | true => exact yes (Cursor.on_sees_iff.mp found)
  | false => exact no fun seen => by simp [Cursor.on_sees_iff.mpr seen] at found

theorem seesWord {f : Bool → Parser β} (yes : SeenWord tokens i word → Confined tokens other (f true) i)
    (no : Confined tokens other (f false) i) : Confined tokens other (Parser.seesWord word >>= f) i := by
  refine get (fun agree => congrArg f agree.seesWord) ?_
  cases found : (Cursor.on tokens i).seesWord word with
  | true => exact yes (Cursor.on_seesWord_iff.mp found)
  | false => exact no

theorem eaten : Confined tokens other (Parser.eat kind) i :=
  sees (fun seen => skip 1 seen.lt (pure true)) fun _ => pure false

theorem eat {f : Bool → Parser β} (yes : Seen tokens i kind → Confined tokens other (f true) (i + 1))
    (no : ¬ Seen tokens i kind → Confined tokens other (f false) i) : Confined tokens other (Parser.eat kind >>= f) i := by
  refine follow Reads.eaten eaten ?_
  rintro _ _ (⟨rfl,seen,rfl⟩ | ⟨rfl,unseen,rfl⟩) _
  · exact yes seen
  · exact no unseen

theorem eatenWord : Confined tokens other (Parser.eatWord word) i :=
  seesWord (fun seen => skip 1 seen.ident.lt (pure true)) (pure false)

theorem eatWord {f : Bool → Parser β} (yes : SeenWord tokens i word → Confined tokens other (f true) (i + 1))
    (no : Confined tokens other (f false) i) : Confined tokens other (Parser.eatWord word >>= f) i := by
  refine follow Reads.eatenWord eatenWord ?_
  rintro _ _ (⟨rfl,seen,rfl⟩ | ⟨rfl,_,rfl⟩) _
  · exact yes seen
  · exact no

theorem expect : Confined tokens other (Parser.expect kind) i := by
  intro inside
  obtain ⟨ident,j,ran,bound,known⟩ := (Reads.expect : Reads tokens (Parser.expect kind) i _) inside
  refine ⟨ident,j,ran,bound,by rcases known with ⟨_,_,_,_,rfl⟩ | ⟨_,_,rfl⟩ <;> omega,fun agree => ?_⟩
  have on : i ≤ j := by rcases known with ⟨_,_,_,_,rfl⟩ | ⟨_,_,rfl⟩ <;> omega
  have here := (agree.mono on).upTo i (Nat.le_refl i)
  obtain ⟨again,k,runs,_,also⟩ := (Reads.expect : Reads other (Parser.expect kind) i _)
    ((agree.mono on).inside inside)
  rw [runs]
  simp only [Reads.Expected,Seen] at known also
  rw [← here] at also
  rcases known with ⟨token,found,same,rfl,rfl⟩ | ⟨unseen,rfl,rfl⟩
  · rcases also with ⟨_,second,_,rfl,rfl⟩ | ⟨unseen,_⟩
    · cases found.symm.trans second
      rfl
    · exact absurd ⟨token,found,same⟩ unseen
  · rcases also with ⟨token,found,same,_⟩ | ⟨_,rfl,rfl⟩
    · exact absurd ⟨token,found,same⟩ unseen
    · rfl

theorem nextStart {f : Nat → Parser β} (next : Confined tokens other (f (2 * i + 1)) i) :
    Confined tokens other (Parser.nextStart >>= f) i := get (fun _ => rfl) next

theorem spanFrom {f : Span → Parser β} {start : Nat} (next : Confined tokens other (f (.upTo start (2 * i))) i) :
    Confined tokens other (Parser.spanFrom start >>= f) i :=
  get (f := fun cursor => f (.upTo start cursor.lastStop)) (fun _ => rfl) next

/-- Tokens are passed over, in a number that they and the one behind them decide, and something is made of
them. -/
theorem passing {length : List Token → Nat} (decided : ∀ list more : List Token,
    (∀ k ≤ length list, list[k]? = more[k]?) → length more = length list) (make : List Token → α) :
    Confined tokens other
      (fun cursor => (make (cursor.rest.take (length cursor.rest)),cursor.skip (length cursor.rest))) i := by
  intro inside
  refine ⟨_,_,congrArg (Prod.mk _) (Cursor.on_skip_min (length (tokens.drop i)) inside),Nat.min_le_right _ _,by omega,
    fun agree => ?_⟩
  have within := agree.inside (Nat.min_le_right _ _)
  -- Where the sequence is over before so many tokens, so is the other one.
  have short (late : tokens.length ≤ i + length (tokens.drop i)) : other.length ≤ tokens.length := by
    have ended := agree.ended (Nat.le_min.mpr ⟨late,Nat.le_refl _⟩)
    omega
  have alike : ∀ k ≤ length (tokens.drop i), (tokens.drop i)[k]? = (other.drop i)[k]? := by
    intro k before
    rw [List.getElem?_drop,List.getElem?_drop]
    rcases Nat.lt_or_ge tokens.length (i + k) with late | early
    · have := short (by omega)
      rw [List.getElem?_eq_none (by omega),List.getElem?_eq_none (by omega)]
    · exact agree.upTo _ (by omega)
  have count := decided _ _ alike
  have taken : (other.drop i).take (length (tokens.drop i)) = (tokens.drop i).take (length (tokens.drop i)) := by
    refine List.ext_getElem? fun k => ?_
    rw [List.getElem?_take,List.getElem?_take]
    split
    · exact (alike k (Nat.le_of_lt ‹_›)).symm
    · rfl
  have reach : min (i + length (tokens.drop i)) other.length = min (i + length (tokens.drop i)) tokens.length := by
    rcases Nat.le_total tokens.length (i + length (tokens.drop i)) with late | early
    · have := short late
      omega
    · omega
  change (make ((other.drop i).take (length (other.drop i))),(Cursor.on other i).skip (length (other.drop i))) = _
  rw [count,taken,Cursor.on_skip_min _ (by omega),reach]
  rfl

/-- What the reader is known to do it does before the other tokens, too. -/
theorem ran {a : α} (given : Confined tokens other read i) (inside : i ≤ tokens.length)
    (ran : read (.on tokens i) = (a,.on tokens j)) (agree : Agree tokens other j) :
    read (.on other i) = (a,.on other j) :=
  (given.known inside ran).2 agree

end Confined

theorem nestedLength_decided {opening closing : Kind} (depth : Nat) (list more : List Token)
    (alike : ∀ k ≤ nestedLength opening closing depth list, list[k]? = more[k]?) :
    nestedLength opening closing depth more = nestedLength opening closing depth list := by
  fun_induction nestedLength opening closing depth list generalizing more with
  | case1 => simp [nestedLength]
  | case2 depth some =>
    cases more with
    | nil => rw [nestedLength.eq_def]; cases depth <;> rfl
    | cons token more => exact absurd (alike 0 (Nat.le_refl 0)) (by simp)
  | case3 depth token rest next ih =>
    cases more with
    | nil => exact absurd (alike 0 (Nat.zero_le _)) (by simp)
    | cons other more =>
      obtain rfl : token = other := by simpa using alike 0 (Nat.zero_le _)
      rw [nestedLength,ih more fun k before => alike (k + 1) (Nat.succ_le_succ before)]

theorem outsideLength_decided {stops : List Kind} {brackets : List (Kind × Kind)} (inside : Option (Kind × Kind × Nat))
    (list more : List Token) (alike : ∀ k ≤ outsideLength stops brackets inside list, list[k]? = more[k]?) :
    outsideLength stops brackets inside more = outsideLength stops brackets inside list := by
  fun_induction outsideLength stops brackets inside list generalizing more with
  | case1 =>
    cases more with
    | nil => rfl
    | cons token more => exact absurd (alike 0 (Nat.le_refl 0)) (by simp)
  | case2 token rest stopped =>
    cases more with
    | nil => exact absurd (alike 0 (Nat.le_refl 0)) (by simp)
    | cons other more =>
      obtain rfl : token = other := by simpa using alike 0 (Nat.le_refl 0)
      rw [outsideLength,if_pos stopped]
  | case3 token rest going next ih =>
    cases more with
    | nil => exact absurd (alike 0 (Nat.zero_le _)) (by simp)
    | cons other more =>
      obtain rfl : token = other := by simpa using alike 0 (Nat.zero_le _)
      rw [outsideLength,if_neg going]
      exact congrArg (· + 1) (ih more fun k before => alike (k + 1) (Nat.succ_le_succ before))
  | case4 opening closing depth token rest next ih =>
    cases more with
    | nil => exact absurd (alike 0 (Nat.zero_le _)) (by simp)
    | cons other more =>
      obtain rfl : token = other := by simpa using alike 0 (Nat.zero_le _)
      rw [outsideLength,ih more fun k before => alike (k + 1) (Nat.succ_le_succ before)]

namespace Loop

variable {loop : Loop}

/-- The turns of a loop are what is read with as many turns as there are tokens, and more. -/
theorem Runs.run {held : loop.Held} {i : Nat} {out : loop.Out} {j : Nat} (runs : loop.Runs tokens held i out j)
    (turns : Nat) (enough : tokens.length < i + turns) : loop.run turns held (.on tokens i) = (out,.on tokens j) := by
  induction runs generalizing turns with
  | @done held i out j turned on inside =>
    obtain ⟨turns,rfl⟩ := Nat.exists_eq_add_one_of_ne_zero (show turns ≠ 0 by omega)
    rw [loop.unroll]
    change (loop.turn held (.on tokens i)).1.follow _ (loop.turn held (.on tokens i)).2 = _
    rw [turned]
    rfl
  | @again held next i k out j turned further inside others ih =>
    obtain ⟨turns,rfl⟩ := Nat.exists_eq_add_one_of_ne_zero (show turns ≠ 0 by omega)
    rw [loop.unroll]
    change (loop.turn held (.on tokens i)).1.follow _ (loop.turn held (.on tokens i)).2 = _
    rw [turned]
    exact ih turns (by omega)

theorem Runs.read {held : loop.Held} {out : loop.Out} (runs : loop.Runs tokens held i out j) :
    loop.read held (.on tokens i) = (out,.on tokens j) :=
  runs.run _ (by simp only [Cursor.on,List.length_drop]; have := runs.inside; omega)

/-- The turns are the same before other tokens. -/
theorem Runs.elsewhere {held : loop.Held} {out : loop.Out} (runs : loop.Runs tokens held i out j)
    (turns : ∀ held k, i ≤ k → Confined tokens other (loop.turn held) k) (agree : Agree tokens other j) :
    loop.Runs other held i out j := by
  induction runs with
  | @done held i out j turned on inside =>
    exact .done ((turns held i (Nat.le_refl i)).ran (Nat.le_trans on inside) turned agree) on (agree.inside inside)
  | @again held next i k out j turned further inside others ih =>
    have front := agree.mono others.inside.1
    have turned := (turns held i (Nat.le_refl i)).ran (by omega) turned front
    exact .again turned further (front.inside inside) (ih (fun held l low => turns held l (by omega)) agree)

end Loop

/-- A loop reads alike when its turns do. -/
theorem Confined.looped {loop : Loop} {held : loop.Held} {read : Parser loop.Out} (looped : Looped loop held read)
    (turns : ∀ held k, i ≤ k → Confined tokens other (loop.turn held) k) : Confined tokens other read i := by
  refine (looped.reads i).ran.mono fun out j ⟨runs,_⟩ _ => ⟨runs.inside.1,fun agree => ?_⟩
  rw [← looped.read_eq]
  exact (runs.elsewhere turns agree).read

namespace Confined

section

variable {α : Type} {stops : List Kind}

theorem repeated {step : α → Parser (Option α)} {a : α} {read : Parser α}
    (looped : Looped (.repeated step) a read) (each : ∀ a k, i ≤ k → Confined tokens other (step a) k) :
    Confined tokens other read i :=
  .looped looped fun a k low => bind (each a k low) fun next _ _ => by cases next <;> exact pure _

theorem many {item : Parser (Option α)} {read : Parser (List α)} (looped : Looped (.many item) [] read)
    (each : ∀ k, i ≤ k → Confined tokens other item k) : Confined tokens other read i :=
  .looped looped fun list k low => bind (each k low) fun next _ _ => by cases next <;> exact pure _

theorem separated {item : Parser α} {read : Parser (List α)} (looped : Looped (.separated stops item) [] read)
    (each : ∀ k, i ≤ k → Confined tokens other item k) : Confined tokens other read i := by
  refine .looped looped fun list k low => get (fun agree => ?_) (ite (fun _ => pure _) fun _ => ?_)
  · simp only [agree.atEnd,agree.seesAny]
    rfl
  · exact bind (each k low) fun a l _ => eat (fun _ => pure _) fun _ => pure _

end

theorem skipNested (opening closing : Kind) : Confined tokens other (Parser.skipNested opening closing) i :=
  eat (fun _ => passing (nestedLength_decided 1) fun _ => ()) fun _ => pure ()

theorem skipOutside (stops : List Kind) (brackets : List (Kind × Kind)) :
    Confined tokens other (Parser.skipOutside stops brackets) i :=
  passing (outsideLength_decided none) fun _ => ()

/-! Types. -/

/-- A reader that asks for a dot or a bracket and one more token. -/
theorem paired {α : Type} {f : Cursor → Parser (Option α)} (same : ∀ passed first second rest more,
      f ⟨passed,first :: second :: rest⟩ = f ⟨passed,first :: second :: more⟩)
    (others : ∀ passed list, (∀ first second rest, list = first :: second :: rest →
      first.kind ≠ .dot ∧ first.kind ≠ .bracketOpen) → f ⟨passed,list⟩ = Pure.pure none)
    (next : Confined tokens other (f (.on tokens i)) i) : Confined tokens other (MonadState.get >>= f) i := by
  refine get (fun agree => ?_) next
  rcases agree.pair with ⟨first,second,rest,more,own,again⟩ | plain
  · rw [Cursor.on,Cursor.on,own,again]
    exact same _ _ _ _ _
  · rw [Cursor.on,Cursor.on,others i _ fun first second rest parted => plain first second rest (.inr parted),
      others i _ fun first second rest parted => plain first second rest (.inl parted)]

theorem namePart : Confined tokens other Parser.namePart i := by
  refine paired (fun _ _ _ _ _ => rfl) (fun passed list plain => ?_) ?_
  · rcases list with _ | ⟨first,_ | ⟨second,rest⟩⟩
    · rfl
    · rfl
    · simp [(plain first second rest rfl).1]
  · split
    · rename_i dot part rest parted
      have second := (List.getElem?_eq_some_iff.mp (Cursor.on_rest_two parted).2).1
      exact ite (fun _ => skip 2 second (pure _)) fun _ => pure _
    · exact pure _

theorem qualifiedName : Confined tokens other Parser.qualifiedName i :=
  bind expect fun _ _ _ => bind (many .nameParts fun _ _ => namePart) fun _ _ _ => pure _

theorem skipAnnotation (seen : Seen tokens i .atSign) : Confined tokens other Parser.skipAnnotation i :=
  skip 1 seen.lt (sees (fun _ => bind qualifiedName.discard fun _ _ _ => skipNested _ _) fun _ => skipNested _ _)

theorem skipVariableModifiers : Confined tokens other Parser.skipVariableModifiers i := by
  refine repeated .variableModifiers fun _ k _ => sees (fun seen => ?_) fun _ => eatWord (fun _ => pure _) (pure _)
  exact bind ( skipAnnotation seen) fun _ _ _ => pure _

theorem typeArguments : Confined tokens other Parser.typeArguments i := by
  refine sees (fun _ => ?_) fun _ => pure _
  refine @passing tokens other i _ (fun list => nestedLength .less .greater 1 (list.drop 1) + 1) (fun list more alike => ?_)
    fun taken => String.join (taken.map fun token => if token.kind = .comma then ", " else token.text)
  refine congrArg (· + 1) (nestedLength_decided 1 _ _ fun k before => ?_)
  rw [List.getElem?_drop,List.getElem?_drop]
  exact alike _ (by omega)

theorem typeSegment (text : String) : Confined tokens other (Parser.typeSegment text) i := by
  refine paired (fun _ _ _ _ _ => rfl) (fun passed list plain => ?_) ?_
  · rcases list with _ | ⟨first,_ | ⟨second,rest⟩⟩
    · rfl
    · rfl
    · simp [(plain first second rest rfl).1]
  · split
    · rename_i dot part rest parted
      have second := (List.getElem?_eq_some_iff.mp (Cursor.on_rest_two parted).2).1
      exact ite (fun _ => skip 2 second (bind typeArguments fun _ _ _ => pure _)) fun _ => pure _
    · exact pure _

theorem dimensions : Confined tokens other Parser.dimensions i := by
  refine repeated .dimensions fun count k _ => paired (fun _ _ _ _ _ => rfl) (fun passed list plain => ?_) ?_
  · rcases list with _ | ⟨first,_ | ⟨second,rest⟩⟩
    · rfl
    · rfl
    · simp [(plain first second rest rfl).2]
  · split
    · rename_i left right rest parted
      have second := (List.getElem?_eq_some_iff.mp (Cursor.on_rest_two parted).2).1
      exact ite (fun _ => skip 2 second (pure _)) fun _ => pure _
    · exact pure _

theorem typeRef : Confined tokens other Parser.typeRef i := by
  refine sees (fun _ => nextStart (bind expect fun first _ _ => bind typeArguments fun _ _ _ => ?_)) fun _ => pure _
  refine bind (repeated (.typeSegments _) fun text _ _ => typeSegment text) fun _ _ _ => bind dimensions fun _ _ _ => ?_
  exact spanFrom (pure _)

theorem typeRefOrEmpty : Confined tokens other Parser.typeRefOrEmpty i := by
  refine bind typeRef fun found _ _ => ?_
  cases found with
  | some type => exact pure _
  | none => exact nextStart (pure _)

end Confined
end Transplant.Java
