import Transplant.Proofs.Java.ConfinedExpr
import Transplant.Proofs.Java.RoundTrip

/-! Tokens that hold together. A phrase is firm when its tokens are read as its expression wherever an
expression of that rank may stand. How it is read at a level follows from how it is read at the tightest
one that reads it. -/
namespace Transplant.Java

open Relation (ReflTransGen)
open Token (Kind)
open Java.Parser (exprReaders Onward run_bind run_get eat_lacking repeated_onward)
open ExprLevel (primary postfixStep binaryStep leadingOp isCallee)

/-- Tokens, and the expression that they stand for. -/
structure Phrase where
  words : List Token
  value : Expr

namespace Expr

variable {e other : Expr}

/-! What does not depend on ranges. -/

theorem rank_of_bare (same : e.bare = other.bare) : e.rank = other.rank := by
  have rank (e : Expr) : e.bare.rank = e.rank := by
    cases e with
    | unary op leading => cases leading <;> rfl
    | _ => rfl
  rw [← rank e,same,rank]

theorem isCallee_of_bare (same : e.bare = other.bare) : isCallee e = isCallee other := by
  have callee (e : Expr) : isCallee e.bare = isCallee e := by cases e <;> rfl
  rw [← callee e,same,callee]

theorem isPrimitive_of_bare (same : e.bare = other.bare) : e.isPrimitive = other.isPrimitive := by
  have primitive (e : Expr) : e.bare.isPrimitive = e.isPrimitive := by cases e <;> rfl
  rw [← primitive e,same,primitive]

def isCreation : Expr → Bool
  | .create _ _ _ _ _ _ _ => true
  | _ => false

/-- The tokens that follow do not continue the expression that has these tokens. Brackets would give more
dimensions to the creation of an array that ends with one. -/
structure Ends (e : Expr) (words rest : List Token) : Prop where
  stops : isCallee e = true ∨ Stops 14 rest
  flat : e.isCreation = true → (∃ token ∈ words.getLast?, token.kind = .bracketClose) → Lacks .bracketOpen rest

end Expr

namespace Phrase

open Java.Expr

variable {phrase : Phrase} {least level : Nat}

def rank (phrase : Phrase) : Nat := phrase.value.rank

/-- Wherever the tokens stand in front of what ends the level, the reader takes them for the expression. -/
def Taken (phrase : Phrase) (read : Parser Expr) (level : Nat) : Prop := ∀ p, ∃ t : Expr, t.bare = phrase.value.bare ∧
  ∀ rest, Stops level rest → read ⟨p,phrase.words ++ rest⟩ = (t,⟨p + phrase.words.length,rest⟩)

/-- From what is read first, the steps of a loop come to the expression. -/
def Reached (phrase : Phrase) (first : Parser Expr) (step : Expr → Parser (Option Expr)) (follows : List Token → Prop) :
    Prop := ∀ p, ∃ t : Expr, t.bare = phrase.value.bare ∧ ∀ rest, follows rest →
  ReflTransGen (Onward step) (first ⟨p,phrase.words ++ rest⟩) (t,⟨p + phrase.words.length,rest⟩)

def Primary (phrase : Phrase) : Prop :=
  phrase.Reached (primary exprReaders) (postfixStep exprReaders) (phrase.value.Ends phrase.words)

def Operators (least : Nat) (phrase : Phrase) : Prop :=
  phrase.Reached exprReaders.unary (binaryStep exprReaders least) (ExprLevel.Behind phrase.value)

/-- The phrase is read as its expression wherever an expression of its rank may stand. -/
structure Firm (phrase : Phrase) : Prop where
  opens : Opens (13 ≤ phrase.rank) phrase.words
  plain : phrase.value.isPrimitive = false
  primary : 13 ≤ phrase.rank → phrase.Primary
  unary : 12 ≤ phrase.rank → phrase.Taken exprReaders.unary 12
  operators : ∀ least, 1 ≤ least → least + 1 ≤ phrase.rank → phrase.Operators least
  conditional : 1 ≤ phrase.rank → phrase.Taken exprReaders.conditional 1
  expr : phrase.Taken exprReaders.expr 0

/-! The levels of reading, from the tightest outwards. -/

theorem Primary.unary (opens : Opens True phrase.words) (primary : phrase.Primary) :
    phrase.Taken exprReaders.unary 12 := by
  intro p
  obtain ⟨t,same,reached⟩ := primary p
  refine ⟨t,same,fun rest stops => ?_⟩
  have chain := reached rest
    ⟨.inr (stops.mono (by decide)),fun _ _ => stops.lacks (show 12 < Kind.reach .bracketOpen by decide)⟩
  have next : (Cursor.mk p (phrase.words ++ rest)).next?.bind (leadingOp ·.kind) = none := by
    obtain ⟨token,more,words,-,plain⟩ := opens
    rw [words]
    exact plain trivial
  rw [Parser.exprReaders_unfold]
  change ExprLevel.unary exprReaders _ = _
  rw [ExprLevel.unary,run_bind,run_get]
  simp only [next]
  rw [ExprLevel.postfixed,run_bind]
  exact repeated_onward chain (ExprLevel.postfixStep_stops t (stops.mono (by decide)))

theorem Taken.operators (unary : phrase.Taken exprReaders.unary 12) : phrase.Operators least := by
  intro p
  obtain ⟨t,same,read⟩ := unary p
  exact ⟨t,same,fun rest behind => read rest behind.near ▸ .refl⟩

theorem Operators.binary (operators : phrase.Operators least) (low : least ≤ 11) (tight : least + 1 ≤ phrase.rank) :
    phrase.Taken (exprReaders.binary least) (least + 1) := by
  intro p
  obtain ⟨t,same,reached⟩ := operators p
  refine ⟨t,same,fun rest stops => ?_⟩
  have unbound : phrase.value.isInstanceOf = true → Lacks .less rest := by
    intro tested
    have rank : phrase.value.rank = 8 := by
      cases shape : phrase.value <;> rw [shape] at tested <;> first | rfl | cases tested
    refine stops.lacks (show least + 1 < 9 from ?_)
    have : phrase.rank = 8 := rank
    omega
  have chain := reached rest ⟨stops.mono (by omega),stops.mono (Nat.le_succ_of_le tight),unbound⟩
  have level : exprReaders.binary least = ExprLevel.binary exprReaders least :=
    congrFun (congrArg ExprReaders.binary Parser.exprReaders_unfold) least
  have first : exprReaders.unary = ExprLevel.unary exprReaders := congrArg ExprReaders.unary Parser.exprReaders_unfold
  rw [level,ExprLevel.binary,run_bind,← first]
  exact repeated_onward chain (ExprLevel.binaryStep_stops t stops)

theorem Taken.conditional (binary : phrase.Taken (exprReaders.binary 1) 2) : phrase.Taken exprReaders.conditional 1 := by
  intro p
  obtain ⟨t,same,read⟩ := binary p
  refine ⟨t,same,fun rest stops => ?_⟩
  have level : exprReaders.conditional = ExprLevel.conditional exprReaders :=
    congrArg ExprReaders.conditional Parser.exprReaders_unfold
  have inside : exprReaders.binary 1 = ExprLevel.binary exprReaders 1 :=
    congrFun (congrArg ExprReaders.binary Parser.exprReaders_unfold) 1
  rw [level,ExprLevel.conditional,run_bind,← inside,read rest (stops.mono (by decide)),run_bind,
    eat_lacking (stops.lacks (by decide))]
  rfl

theorem Taken.expr (conditional : phrase.Taken exprReaders.conditional 1) : phrase.Taken exprReaders.expr 0 := by
  intro p
  obtain ⟨t,same,read⟩ := conditional p
  refine ⟨t,same,fun rest stops => ?_⟩
  have level : exprReaders.expr = ExprLevel.expr exprReaders := congrArg ExprReaders.expr Parser.exprReaders_unfold
  have inside : exprReaders.conditional = ExprLevel.conditional exprReaders :=
    congrArg ExprReaders.conditional Parser.exprReaders_unfold
  have next : (Cursor.mk (p + phrase.words.length) rest).next?.bind (ExprLevel.assignOp ·.kind) = none := by
    cases rest with
    | nil => rfl
    | cons token rest => exact ExprLevel.assignOp_none (Nat.le_trans token.reach_le (stops token rfl))
  rw [level,ExprLevel.expr,run_bind,← inside,read rest (stops.mono (by decide)),run_bind,run_get]
  simp only [next]
  rfl

namespace Firm

variable (plain : phrase.value.isPrimitive = false)
include plain

theorem of_expr (opens : Opens False phrase.words) (loose : phrase.rank = 0) (expr : phrase.Taken exprReaders.expr 0) :
    phrase.Firm := by
  obtain ⟨token,rest,words,closing,-⟩ := opens
  exact ⟨⟨token,rest,words,closing,fun high => by omega⟩,plain,fun high => by omega,fun high => by omega,
    fun least some high => by omega,fun high => by omega,expr⟩

theorem of_conditional (opens : Opens False phrase.words) (loose : phrase.rank = 1)
    (conditional : phrase.Taken exprReaders.conditional 1) : phrase.Firm := by
  obtain ⟨token,rest,words,closing,-⟩ := opens
  exact ⟨⟨token,rest,words,closing,fun high => by omega⟩,plain,fun high => by omega,fun high => by omega,
    fun least some high => by omega,fun _ => conditional,conditional.expr⟩

theorem of_operators (opens : Opens False phrase.words) (low : 2 ≤ phrase.rank) (loose : phrase.rank ≤ 11)
    (operators : ∀ least, 1 ≤ least → least + 1 ≤ phrase.rank → phrase.Operators least) : phrase.Firm := by
  obtain ⟨token,rest,words,closing,-⟩ := opens
  have conditional := ((operators 1 (Nat.le_refl 1) low).binary (by decide) low).conditional
  exact ⟨⟨token,rest,words,closing,fun high => by omega⟩,plain,fun high => by omega,fun high => by omega,operators,
    fun _ => conditional,conditional.expr⟩

theorem of_unary (opens : Opens False phrase.words) (tight : phrase.rank = 12)
    (unary : phrase.Taken exprReaders.unary 12) : phrase.Firm := by
  obtain ⟨token,rest,words,closing,-⟩ := opens
  have sum : phrase.Operators 1 := unary.operators
  have conditional := (sum.binary (by decide) (by omega)).conditional
  exact ⟨⟨token,rest,words,closing,fun high => by omega⟩,plain,fun high => by omega,fun _ => unary,
    fun least _ _ => unary.operators,fun _ => conditional,conditional.expr⟩

theorem of_primary (opens : Opens True phrase.words) (tight : 13 ≤ phrase.rank) (primary : phrase.Primary) :
    phrase.Firm := by
  have unary := primary.unary opens
  have sum : phrase.Operators 1 := unary.operators
  have conditional := (sum.binary (by decide) (by omega)).conditional
  obtain ⟨token,rest,words,closing,leading⟩ := opens
  exact ⟨⟨token,rest,words,closing,fun _ => leading trivial⟩,plain,fun _ => primary,fun _ => unary,
    fun least _ _ => unary.operators,
    fun _ => conditional,conditional.expr⟩

omit plain

/-- An operand that binds tightly enough is read as one. -/
theorem binary (firm : phrase.Firm) (some : 1 ≤ least) (low : least ≤ 11) (tight : least + 1 ≤ phrase.rank) :
    phrase.Taken (exprReaders.binary least) (least + 1) := (firm.operators least some tight).binary low tight

/-- The readers of all levels read every regular expression back. -/
theorem exprReaders_reversing (bound : Nat) : Reversing exprReaders bound := by
  have all (e : Expr) (rest : List Token) : e.print.length ≤ (e.print ++ rest).length + 1 := by simp; omega
  have run {α : Type} (read : Nat → Parser α) (p : Nat) (rest : List Token) :
      Parser.bounded read ⟨p,rest⟩ = read (rest.length + 1) ⟨p,rest⟩ := rfl
  constructor
  · intro e regular _ tight p rest
    rw [show exprReaders.expr = Parser.bounded fun turns => (ExprLevel.readers turns).expr from rfl,run]
    exact (ExprLevel.readers_reversing _).expr e regular (all e rest) tight p rest
  · intro e regular _ tight p rest
    rw [show exprReaders.conditional = Parser.bounded fun turns => (ExprLevel.readers turns).conditional from rfl,run]
    exact (ExprLevel.readers_reversing _).conditional e regular (all e rest) tight p rest
  · intro least some low e regular _ tight p rest
    rw [show exprReaders.binary least = Parser.bounded fun turns => (ExprLevel.readers turns).binary least from rfl,run]
    exact (ExprLevel.readers_reversing _).binary least some low e regular (all e rest) tight p rest
  · intro e regular _ tight p rest
    rw [show exprReaders.unary = Parser.bounded fun turns => (ExprLevel.readers turns).unary from rfl,run]
    exact (ExprLevel.readers_reversing _).unary e regular (all e rest) tight p rest

/-- The tokens of a regular expression are firm. -/
theorem of_regular {e : Expr} (regular : e.Regular) : Firm ⟨e.print,e⟩ where
  opens := regular.opens
  plain := by
    have same := isPrimitive_of_bare (regular.placed_bare 0)
    rw [← same]
    exact ExprLevel.isPrimitive_placed regular 0
  primary tight p := ⟨e.placed p,regular.placed_bare p,fun rest ends =>
    ExprLevel.primary_unfolds (exprReaders_reversing _) regular (Nat.le_succ _) tight p rest ends.stops⟩
  unary tight p := ⟨e.placed p,regular.placed_bare p,fun rest =>
    (exprReaders_reversing _).unary e regular (Nat.le_refl _) tight p rest⟩
  operators least some tight p := by
    have first : exprReaders.unary = ExprLevel.unary exprReaders := congrArg ExprReaders.unary Parser.exprReaders_unfold
    refine ⟨e.placed p,regular.placed_bare p,fun rest behind => ?_⟩
    rw [first]
    exact ExprLevel.binary_unfolds (exprReaders_reversing _) regular (Nat.le_succ _) some tight p rest behind
  conditional tight p := ⟨e.placed p,regular.placed_bare p,fun rest =>
    (exprReaders_reversing _).conditional e regular (Nat.le_refl _) tight p rest⟩
  expr p := ⟨e.placed p,regular.placed_bare p,fun rest =>
    (exprReaders_reversing _).expr e regular (Nat.le_refl _) (Nat.zero_le _) p rest⟩

end Firm

end Phrase
end Transplant.Java
