import Transplant.Proofs.Java.Reading

/-! The loops of readers, turn by turn. A loop runs on any number of turns that is large enough; here
it is shown that it leaves itself before they run out, because each turn that goes on has passed a
token. -/
namespace Transplant.Java

open Token (Kind)

theorem Cursor.skip_succ (passed : Nat) (token : Token) (rest : List Token) (count : Nat) :
    Cursor.skip ⟨passed,token :: rest⟩ (count + 1) = Cursor.skip ⟨passed + 1,rest⟩ count := by
  simp only [skip,List.take_succ_cons,List.length_cons,List.drop_succ_cons,mk.injEq,and_true]
  omega

/-- How a turn of a loop ends: with what the next turn is given, or with what the loop gives. -/
inductive Turn (Held Out : Type) where
  | again (held : Held)
  | done (out : Out)

/-- Goes on with the next turn, if there is one. -/
def Turn.follow {Held Out : Type} (next : Held → Parser Out) : Turn Held Out → Parser Out
  | .again held => next held
  | .done out => pure out

/-- A loop, by what one of its turns does, and as it is run on a number of turns. -/
structure Loop where
  Held : Type
  Out : Type
  turn : Held → Parser (Turn Held Out)
  run : Nat → Held → Parser Out
  unroll : ∀ turns held, run (turns + 1) held = turn held >>= Turn.follow (run turns)

namespace Loop

/-- The loop with more turns than tokens are left. -/
def read (loop : Loop) (held : loop.Held) : Parser loop.Out :=
  Parser.bounded fun turns => loop.run turns held

variable (loop : Loop) (tokens : List Token)

/-- The turns of the loop from token `i` to where it leaves itself before token `j`. Each of them but
the last passes a token. -/
inductive Runs : loop.Held → Nat → loop.Out → Nat → Prop where
  | done {held : loop.Held} {i : Nat} {out : loop.Out} {j : Nat}
      (turned : loop.turn held (.on tokens i) = (.done out,.on tokens j)) (on : i ≤ j)
      (inside : j ≤ tokens.length) : Runs held i out j
  | again {held next : loop.Held} {i k : Nat} {out : loop.Out} {j : Nat}
      (turned : loop.turn held (.on tokens i) = (.again next,.on tokens k)) (further : i < k)
      (inside : k ≤ tokens.length) (others : Runs next k out j) : Runs held i out j

/-- Wherever it begins, the loop is run to its end. -/
def Ends : Prop := ∀ held i, i ≤ tokens.length →
  ∃ out j, loop.read held (.on tokens i) = (out,.on tokens j) ∧ loop.Runs tokens held i out j

/-- No turn goes back, and one that is followed by another passes a token. -/
def Advances : Prop := ∀ held i, Reads tokens (loop.turn held) i fun turn j =>
  i ≤ j ∧ ∀ next, turn = .again next → i < j

variable {loop tokens}

theorem Runs.inside {held : loop.Held} {i : Nat} {out : loop.Out} {j : Nat}
    (runs : loop.Runs tokens held i out j) : i ≤ j ∧ j ≤ tokens.length := by
  induction runs with
  | done _ on inside => exact ⟨on,inside⟩
  | again _ further _ _ ih => exact ⟨Nat.le_trans (Nat.le_of_lt further) ih.1,ih.2⟩

/-- As many turns as there are tokens left, and one more, are enough. -/
theorem Advances.runs (advances : loop.Advances tokens) (turns : Nat) (held : loop.Held) {i : Nat}
    (inside : i ≤ tokens.length) (enough : tokens.length < i + turns) :
    ∃ out j, loop.run turns held (.on tokens i) = (out,.on tokens j) ∧ loop.Runs tokens held i out j := by
  induction turns generalizing held i with
  | zero => omega
  | succ turns ih =>
    obtain ⟨turn,k,turned,bound,on,further⟩ := advances held i inside
    have ran : loop.run (turns + 1) held (.on tokens i) = turn.follow (loop.run turns) (.on tokens k) := by
      rw [loop.unroll]
      change (loop.turn held (.on tokens i)).1.follow _ (loop.turn held (.on tokens i)).2 = _
      rw [turned]
    rw [ran]
    cases turn with
    | done out => exact ⟨out,k,rfl,.done turned on bound⟩
    | again next =>
      have passed := further next rfl
      obtain ⟨out,j,ran,runs⟩ := ih next bound (by omega)
      exact ⟨out,j,ran,.again turned passed bound runs⟩

/-- What holds wherever a turn is the last one holds where the loop is left. -/
theorem Runs.leave {post : loop.Out → Nat → Prop} (last : ∀ held i, Reads tokens (loop.turn held) i fun turn j =>
    ∀ out, turn = .done out → post out j) {held : loop.Held} {i : Nat} {out : loop.Out} {j : Nat}
    (runs : loop.Runs tokens held i out j) (inside : i ≤ tokens.length) : post out j := by
  induction runs with
  | @done held i out j turned =>
    obtain ⟨turn,k,ran,_,given⟩ := last held i inside
    rw [turned] at ran
    obtain ⟨rfl,stop⟩ := Prod.mk.inj ran
    cases congrArg Cursor.passed stop
    exact given out rfl
  | again _ _ bound _ ih => exact ih bound

theorem Ends.reads (ends : loop.Ends tokens) (held : loop.Held) {i : Nat} :
    Reads tokens (loop.read held) i (loop.Runs tokens held i) := by
  intro inside
  obtain ⟨out,j,ran,runs⟩ := ends held i inside
  exact ⟨out,j,ran,runs.inside.2,runs⟩

theorem Advances.ends (advances : loop.Advances tokens) : loop.Ends tokens := fun held i inside =>
  advances.runs _ held inside (by simp only [Cursor.on,List.length_drop]; omega)

end Loop

namespace Parser

variable {α β : Type} (front : List α)

/-- What is read is put behind what was collected before. -/
def behind (rest : Parser (List α)) : Parser (List α) := do return front ++ (← rest)

@[simp] theorem behind_nil (rest : Parser (List α)) : behind [] rest = rest := by
  simp [behind]

theorem behind_empty : behind front (pure []) = pure front := by simp [behind]

theorem behind_bind (read : Parser β) (next : β → Parser (List α)) :
    behind front (read >>= next) = read >>= fun b => behind front (next b) := bind_assoc _ _ _

theorem behind_behind (more : List α) (rest : Parser (List α)) :
    behind front (behind more rest) = behind (front ++ more) rest := by
  funext cursor
  exact congrArg (·,_) (List.append_assoc _ _ _).symm

end Parser

namespace Loop

variable {α : Type} (stops : List Kind)

/-- A step is repeated until it answers `none`. -/
def repeated (step : α → Parser (Option α)) : Loop where
  Held := α
  Out := α
  turn a := do
    match ← step a with
    | some next => return .again next
    | none => return .done a
  run turns a := Parser.iterate step turns a
  unroll turns a := by
    rw [Parser.iterate,bind_assoc]
    exact bind_congr fun next => by cases next <;> rfl

/-- Items are collected up to the first `none`. -/
def many (item : Parser (Option α)) : Loop where
  Held := List α
  Out := List α
  turn list := do
    match ← item with
    | some a => return .again (list ++ [a])
    | none => return .done list
  run turns list := Parser.behind list (Parser.collect item turns)
  unroll turns list := by
    rw [Parser.collect,Parser.behind_bind,bind_assoc]
    refine bind_congr fun next => ?_
    cases next with
    | none => exact Parser.behind_empty list
    | some a => exact Parser.behind_behind list [a] _

/-- Items are collected as long as a comma follows, up to a token of a kind in `stops`. -/
def separated (item : Parser α) : Loop where
  Held := List α
  Out := List α
  turn list := do
    let cursor ← get
    if cursor.atEnd || cursor.seesAny stops then return .done list
    else
      let a ← item
      if ← Parser.eat .comma then return .again (list ++ [a])
      else return .done (list ++ [a])
  run turns list := Parser.behind list (Parser.separate stops item turns)
  unroll turns list := by
    rw [Parser.separate,Parser.behind_bind,bind_assoc]
    refine bind_congr fun cursor => ?_
    split
    · exact Parser.behind_empty list
    · simp only [Parser.behind_bind,bind_assoc]
      refine bind_congr fun a => bind_congr fun comma => ?_
      cases comma with
      | false => rfl
      | true => exact Parser.behind_behind list [a] _

/-- Items are collected up to a token of a kind in `stops`, and a token is passed over where there
is none. -/
def gathered (item : Parser (Option α)) : Loop where
  Held := List α
  Out := List α
  turn list := do
    let before ← get
    if before.atEnd || before.seesAny stops then return .done list
    else
      let a ← item
      if (← get).passed = before.passed then Parser.skip 1
      return .again (list ++ a.toList)
  run turns list := Parser.behind list (Parser.gather stops item turns)
  unroll turns list := by
    rw [Parser.gather,Parser.behind_bind,bind_assoc]
    refine bind_congr fun before => ?_
    split
    · exact Parser.behind_empty list
    · simp only [Parser.behind_bind,bind_assoc]
      refine bind_congr fun a => bind_congr fun after => ?_
      split
      · rw [Parser.behind_bind]
        exact bind_congr fun _ => Parser.behind_behind list a.toList _
      · exact Parser.behind_behind list a.toList _

/-- Tokens are passed over one by one, up to the first that what is held does not let pass. -/
def passing {Held : Type} (pass : Held → Token → Option Held) (length : Held → List Token → Nat)
    (nil : ∀ held, length held [] = 0) (cons : ∀ held token rest, length held (token :: rest) =
      match pass held token with
      | some next => length next rest + 1
      | none => 0) : Loop where
  Held := Held
  Out := Unit
  turn held := do
    match (← get).rest with
    | [] => return .done ()
    | token :: _ =>
      match pass held token with
      | some next =>
        Parser.skip 1
        return .again next
      | none => return .done ()
  run _ held := modify fun cursor => cursor.skip (length held cursor.rest)
  unroll _ held := by
    funext cursor
    obtain ⟨passed,rest⟩ := cursor
    cases rest with
    | nil => exact congrArg (fun count => ((),Cursor.skip ⟨passed,[]⟩ count)) (nil held)
    | cons token rest =>
      change ((),Cursor.skip ⟨passed,token :: rest⟩ (length held (token :: rest))) =
        ((match pass held token with
          | some next => do
            Parser.skip 1
            return .again next
          | none => return .done ()) >>= Turn.follow _ : Parser Unit) ⟨passed,token :: rest⟩
      rw [cons]
      cases pass held token with
      | none => rfl
      | some next => exact congrArg (Prod.mk ()) (Cursor.skip_succ passed token rest _)

/-- Tokens of the kinds that are kept are passed over. -/
def skipWhile (keep : Kind → Bool) : Loop :=
  passing (fun _ token => if keep token.kind then some () else none)
    (fun _ rest => (rest.takeWhile fun token => keep token.kind).length) (fun _ => rfl)
    fun _ token rest => by rw [List.takeWhile_cons]; split <;> rfl

/-- Tokens are passed over up to the one that closes the brackets held open. -/
def nested (opening closing : Kind) : Loop :=
  passing (fun depth token => match depth with
      | 0 => none
      | depth + 1 => some (if token.kind = opening then depth + 2
          else if token.kind = closing then depth else depth + 1))
    (nestedLength opening closing) (fun depth => by cases depth <;> rfl)
    fun depth _ _ => by cases depth <;> rfl

/-- Tokens are passed over up to one of a kind in `stops` outside of brackets. The brackets that it
stands in are held, with the number of their own kind inside. -/
def outside (brackets : List (Kind × Kind)) : Loop :=
  passing (fun inside token => match inside with
      | none =>
        if stops.contains token.kind then none
        else some ((brackets.find? (·.1 == token.kind)).map fun pair => (pair.1,pair.2,0))
      | some (opening,closing,depth) => some (
        if token.kind = opening then some (opening,closing,depth + 1)
        else if token.kind = closing then if depth = 0 then none else some (opening,closing,depth - 1)
        else some (opening,closing,depth)))
    (outsideLength stops brackets) (fun inside => by cases inside <;> rfl)
    fun inside token rest => by
      cases inside with
      | none => simp only [outsideLength]; split <;> rfl
      | some inside => rfl

variable {stops}

theorem read_many (item : Parser (Option α)) : (many item).read [] = Parser.many item := by
  simp only [read,many,Parser.behind_nil]
  rfl

theorem read_separated (item : Parser α) :
    (separated stops item).read [] = Parser.separated stops item := by
  simp only [read,separated,Parser.behind_nil]
  rfl

theorem read_gathered (item : Parser (Option α)) :
    (gathered stops item).read [] = Parser.gathered stops item := by
  simp only [read,gathered,Parser.behind_nil]
  rfl

end Loop

namespace Loop

open Reads

variable {α : Type} {tokens : List Token} {stops : List Kind} {item : Parser α}
  {item? : Parser (Option α)}

theorem advances_repeated {step : α → Parser (Option α)} (each : ∀ a i, Steps tokens (step a) i) :
    (repeated step).Advances tokens := by
  refine fun a i => bind (each a i) fun next j ⟨on,further⟩ _ => ?_
  cases next with
  | none => exact pure ⟨on,nofun⟩
  | some b => exact pure ⟨on,fun _ _ => further b rfl⟩

theorem advances_many (each : ∀ i, Steps tokens item? i) : (many item?).Advances tokens := by
  refine fun list i => bind (each i) fun next j ⟨on,further⟩ _ => ?_
  cases next with
  | none => exact pure ⟨on,nofun⟩
  | some a => exact pure ⟨on,fun _ _ => further a rfl⟩

/-- The comma is what each turn passes that goes on. -/
theorem advances_separated (each : ∀ i, Reads tokens item i fun _ j => i ≤ j) :
    (separated stops item).Advances tokens := by
  refine fun list i => get (ite (fun _ => pure ⟨Nat.le_refl i,nofun⟩) fun _ => ?_)
  refine bind (each i) fun a k on _ => eat (fun _ => ?_) fun _ => pure ⟨on,nofun⟩
  exact pure ⟨Nat.le_succ_of_le on,fun _ _ => Nat.lt_succ_of_le on⟩

/-- Where no item is found, a token is there to be passed over. -/
theorem advances_gathered (each : ∀ i, Reads tokens item? i fun _ j => i ≤ j) :
    (gathered stops item?).Advances tokens := by
  refine fun list i => get (ite (fun _ => pure ⟨Nat.le_refl i,nofun⟩) fun going => ?_)
  simp only [Bool.or_eq_true,not_or,Cursor.on_atEnd_iff] at going
  refine bind (each i) fun a k on _ => get (ite (fun same => ?_) fun other => ?_)
  · cases (show k = i from same)
    exact skip 1 (Nat.lt_of_not_le going.1) (pure ⟨Nat.le_succ i,fun _ _ => Nat.lt_succ_self i⟩)
  · exact pure ⟨on,fun _ _ => Nat.lt_of_le_of_ne on (Ne.symm other)⟩

theorem advances_passing {Held : Type} {pass : Held → Token → Option Held}
    {length : Held → List Token → Nat} (nil cons) :
    (passing pass length nil cons).Advances tokens := by
  refine fun held i => get ?_
  split
  · exact pure ⟨Nat.le_refl i,nofun⟩
  · rename_i token rest parted
    have here : i < tokens.length := by
      have some : tokens.drop i ≠ [] := by
        rw [show tokens.drop i = token :: rest from parted]
        exact List.cons_ne_nil _ _
      simpa using some
    split
    · exact skip 1 here (pure ⟨Nat.le_succ i,fun _ _ => Nat.lt_succ_self i⟩)
    · exact pure ⟨Nat.le_refl i,nofun⟩

end Loop
end Transplant.Java
