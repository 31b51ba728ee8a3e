import Mathlib.Logic.Relation
import Transplant.Proofs.Java.Print

/-! Running a reader where the next tokens are known. From this follows how loops run, and how types
are read back from their tokens. -/
namespace Transplant.Java

open Relation (ReflTransGen)
open Token (Kind)

/-- The next token is not of the kind. -/
def Lacks (kind : Kind) (rest : List Token) : Prop := ∀ token ∈ rest.head?, token.kind ≠ kind

theorem Lacks.cons {kind : Kind} {token : Token} (rest : List Token) (other : token.kind ≠ kind) :
    Lacks kind (token :: rest) := by
  rintro _ ⟨⟩
  exact other

namespace Parser

variable {α β : Type}

theorem run_bind (read : Parser α) (next : α → Parser β) (cursor : Cursor) :
    (read >>= next) cursor = next (read cursor).1 (read cursor).2 := rfl

theorem run_pure (a : α) (cursor : Cursor) : (pure a : Parser α) cursor = (a,cursor) := rfl

theorem run_get (cursor : Cursor) : (get : Parser Cursor) cursor = (cursor,cursor) := rfl

theorem run_discard (read : Parser α) (cursor : Cursor) : discard read cursor = ((),(read cursor).2) := rfl

theorem run_sees (kind : Kind) (cursor : Cursor) : sees kind cursor = (cursor.sees kind,cursor) := rfl

theorem run_seesWord (word : String) (cursor : Cursor) : seesWord word cursor = (cursor.seesWord word,cursor) := rfl

theorem run_nextStart (passed : Nat) (rest : List Token) :
    nextStart ⟨passed,rest⟩ = (2 * passed + 1,⟨passed,rest⟩) := rfl

theorem run_spanFrom (start passed : Nat) (rest : List Token) :
    spanFrom start ⟨passed,rest⟩ = (.upTo start (2 * passed),⟨passed,rest⟩) := rfl

theorem run_skip (passed : Nat) (token : Token) (rest : List Token) :
    skip 1 ⟨passed,token :: rest⟩ = ((),⟨passed + 1,rest⟩) := rfl

theorem run_skip_append (passed : Nat) (front rest : List Token) :
    skip front.length ⟨passed,front ++ rest⟩ = ((),⟨passed + front.length,rest⟩) := by
  change ((),Cursor.skip _ _) = _
  simp [Cursor.skip]

variable {kind : Kind} {token : Token} {passed : Nat} {rest : List Token}

theorem eat_seen (token : Token) (kind : Kind) (same : token.kind = kind) :
    eat kind ⟨passed,token :: rest⟩ = (true,⟨passed + 1,rest⟩) := by
  have seen : (Cursor.mk passed (token :: rest)).sees kind = true := beq_iff_eq.mpr same
  rw [eat,run_bind,run_sees]
  simp only [seen,if_true]
  rfl

theorem sees_lacking (lacks : Lacks kind rest) : (Cursor.mk passed rest).sees kind = false := by
  cases rest with
  | nil => rfl
  | cons token rest => exact beq_eq_false_iff_ne.mpr (lacks token rfl)

theorem eat_lacking (lacks : Lacks kind rest) : eat kind ⟨passed,rest⟩ = (false,⟨passed,rest⟩) := by
  rw [eat,run_bind,run_sees]
  simp only [sees_lacking lacks]
  rfl

theorem expect_seen (token : Token) (kind : Kind) (same : token.kind = kind) :
    expect kind ⟨passed,token :: rest⟩ = (⟨token.text,Expr.spanning passed 1⟩,⟨passed + 1,rest⟩) := by
  change Cursor.expect kind ⟨passed,token :: rest⟩ = (⟨token.text,Expr.spanning passed 1⟩,⟨passed + 1,rest⟩)
  simp only [Cursor.expect,same,if_true]
  rfl

theorem expect_word (text : String) :
    expect .ident ⟨passed,word text :: rest⟩ = (⟨text,Expr.spanning passed 1⟩,⟨passed + 1,rest⟩) :=
  expect_seen (word text) .ident rfl

theorem eatWord_other {other : String} {text : String} (different : text ≠ other) :
    eatWord other ⟨passed,word text :: rest⟩ = (false,⟨passed,word text :: rest⟩) := by
  have unseen : (Cursor.mk passed (word text :: rest)).seesWord other = false := by
    simp [Cursor.seesWord,Token.isWord,word,different]
  rw [eatWord,run_bind,run_seesWord,unseen]
  rfl

theorem skipNested_lacking {closing : Kind} (lacks : Lacks kind rest) :
    skipNested kind closing ⟨passed,rest⟩ = ((),⟨passed,rest⟩) := by
  rw [skipNested,run_bind,eat_lacking lacks]
  rfl

theorem arrive {a : α} {here there : Nat} (same : here = there) : (a,Cursor.mk here rest) = (a,⟨there,rest⟩) := by
  rw [same]

/-- One turn of a loop, which gets on. -/
def Onward (step : α → Parser (Option α)) (here there : α × Cursor) : Prop :=
  step here.1 here.2 = (some there.1,there.2) ∧ there.2.rest.length < here.2.rest.length

theorem onward {step : α → Parser (Option α)} {a b : α} {here there : Cursor} (ran : step a here = (some b,there))
    (on : there.rest.length < here.rest.length) : Onward step (a,here) (b,there) := ⟨ran,on⟩

/-- A loop runs as long as its steps get on. -/
theorem repeated_onward {step : α → Parser (Option α)} {here there : α × Cursor}
    (onward : ReflTransGen (Onward step) here there) (ended : step there.1 there.2 = (none,there.2)) :
    repeated step here.1 here.2 = there := by
  have enough (turns : Nat) (more : here.2.rest.length < turns) : iterate step turns here.1 here.2 = there := by
    induction onward using ReflTransGen.head_induction_on generalizing turns with
    | refl =>
      obtain ⟨turns,rfl⟩ := Nat.exists_eq_add_one_of_ne_zero (Nat.ne_zero_of_lt more)
      rw [iterate,run_bind,ended]
      rfl
    | head first _ ih =>
      obtain ⟨turns,rfl⟩ := Nat.exists_eq_add_one_of_ne_zero (Nat.ne_zero_of_lt more)
      rw [iterate,run_bind,first.1]
      exact ih turns (by have := first.2; omega)
  exact enough _ (Nat.lt_succ_self _)

end Parser

theorem upTo_spanning {i count : Nat} (some : 0 < count) :
    Span.upTo (2 * i + 1) (2 * (i + count)) = Expr.spanning i count :=
  Span.upTo_eq (by omega)

/-! Types. -/

section Types

variable {p : Nat} {words arguments rest : List Token} {text : String}

theorem nestedLength_closes (depth : Nat) (closed : closes depth arguments = true) :
    nestedLength .less .greater depth (arguments ++ rest) = arguments.length := by
  fun_induction closes depth arguments with
  | case1 list =>
    obtain rfl := List.isEmpty_iff.mp closed
    simp [nestedLength]
  | case2 => cases closed
  | case3 depth token list ih => simp only [List.cons_append,nestedLength,ih closed,List.length_cons]

/-- Type arguments end with the bracket that closes them. -/
theorem typeArguments_run (closed : isTypeArguments arguments = true)
    (behind : Lacks .less rest) :
    Parser.typeArguments ⟨p,arguments ++ rest⟩ = (argumentText arguments,⟨p + arguments.length,rest⟩) := by
  cases arguments with
  | nil =>
    rw [Parser.typeArguments,Parser.run_bind,Parser.run_sees]
    simp only [List.nil_append,Parser.sees_lacking behind]
    rfl
  | cons token inner =>
    obtain ⟨opened,ends⟩ := (Bool.and_eq_true _ _).mp closed
    have seen : (Cursor.mk p (token :: inner ++ rest)).sees .less = true := opened
    have count : nestedLength .less .greater 1 ((token :: inner ++ rest).drop 1) + 1 = (token :: inner).length := by
      rw [List.cons_append,List.drop_succ_cons,List.drop_zero,nestedLength_closes 1 ends,List.length_cons]
    rw [Parser.typeArguments,Parser.run_bind,Parser.run_sees]
    simp only [seen,if_true,Parser.run_bind,Parser.run_get,count,Parser.run_skip_append,Parser.run_pure,
      List.take_left]
    rfl

theorem typeSegment_run (closed : isTypeArguments arguments = true) (behind : Lacks .less rest) (before : String) :
    Parser.typeSegment before ⟨p,.dot :: word text :: (arguments ++ rest)⟩ =
      (some (before ++ "." ++ text ++ argumentText arguments),⟨p + (arguments.length + 2),rest⟩) := by
  rw [Parser.typeSegment,Parser.run_bind,Parser.run_get]
  change (do
    Parser.skip 2
    return some (before ++ "." ++ text ++ (← Parser.typeArguments)) : Parser _) _ = _
  have skipped : Parser.skip 2 ⟨p,.dot :: word text :: (arguments ++ rest)⟩ = ((),⟨p + 2,arguments ++ rest⟩) := rfl
  rw [Parser.run_bind,Parser.run_bind,skipped,typeArguments_run closed behind,Nat.add_assoc,Nat.add_comm 2]
  rfl

/-- The first part of a dotted type, before which the reader of a type begins its loop. -/
def typeHead : Parser String := do
  let first ← Parser.expect .ident
  return first.text ++ (← Parser.typeArguments)

theorem typeHead_onward (spelled : TypeWords words text) (behind : Lacks .less rest) :
    ReflTransGen (Parser.Onward Parser.typeSegment) (typeHead ⟨p,words ++ rest⟩) (text,⟨p + words.length,rest⟩) := by
  induction spelled generalizing rest with
  | name text arguments closed =>
    have head : typeHead ⟨p,word text :: arguments ++ rest⟩ =
        (text ++ argumentText arguments,⟨p + (arguments.length + 1),rest⟩) := by
      rw [typeHead,Parser.run_bind,List.cons_append,Parser.expect_word,Parser.run_bind,
        typeArguments_run closed behind,Nat.add_assoc,Nat.add_comm 1]
      rfl
    rw [head]
    exact .refl
  | @part front before outer text arguments closed ih =>
    have same : front ++ .dot :: word text :: arguments ++ rest = front ++ (.dot :: word text :: (arguments ++ rest)) := by
      simp
    rw [same]
    refine (ih (.cons _ (by decide))).tail ⟨?_,?_⟩
    · rw [typeSegment_run closed behind,List.length_append,List.length_cons,List.length_cons,Nat.add_assoc]
    · simp only [List.length_append,List.length_cons]
      omega

theorem typeSegment_stops (undotted : Lacks .dot rest) (before : String) :
    Parser.typeSegment before ⟨p,rest⟩ = (none,⟨p,rest⟩) := by
  rcases rest with _ | ⟨dot,_ | ⟨part,more⟩⟩
  · rfl
  · rfl
  · have other : dot.kind ≠ .dot := undotted dot rfl
    rw [Parser.typeSegment,Parser.run_bind,Parser.run_get]
    simp [other,Parser.run_pure]

/-- Pairs of empty brackets. -/
def dimensionTokens (depth : Nat) : List Token := (List.replicate depth [.bracketOpen,.bracketClose]).flatten

theorem length_dimensionTokens (depth : Nat) : (dimensionTokens depth).length = 2 * depth := by
  simp [dimensionTokens,Nat.mul_comm]

theorem dimension_stops (flat : Lacks .bracketOpen rest) (count : Nat) :
    Parser.dimension count ⟨p,rest⟩ = (none,⟨p,rest⟩) := by
  rcases rest with _ | ⟨left,_ | ⟨right,more⟩⟩
  · rfl
  · rfl
  · have other : left.kind ≠ .bracketOpen := flat left rfl
    rw [Parser.dimension,Parser.run_bind,Parser.run_get]
    simp [other,Parser.run_pure]

theorem dimensions_onward (depth count : Nat) : ReflTransGen (Parser.Onward Parser.dimension)
    (count,⟨p,dimensionTokens depth ++ rest⟩) (count + depth,⟨p + 2 * depth,rest⟩) := by
  induction depth generalizing p count with
  | zero => exact .refl
  | succ depth ih =>
    have step : Parser.dimension count ⟨p,dimensionTokens (depth + 1) ++ rest⟩ =
        (some (count + 1),⟨p + 2,dimensionTokens depth ++ rest⟩) := rfl
    have others := @ih (p + 2) (count + 1)
    rw [show count + 1 + depth = count + (depth + 1) by omega,show p + 2 + 2 * depth = p + 2 * (depth + 1) by omega]
      at others
    refine .head (Parser.onward step ?_) others
    simp only [List.length_append,length_dimensionTokens]
    omega

/-- Empty brackets are counted. -/
theorem dimensions_run (depth : Nat) (flat : Lacks .bracketOpen rest) :
    Parser.dimensions ⟨p,dimensionTokens depth ++ rest⟩ = (depth,⟨p + 2 * depth,rest⟩) := by
  have read := Parser.repeated_onward (@dimensions_onward p rest depth 0) (dimension_stops flat _)
  rwa [Nat.zero_add] at read

theorem TypeWords.ident (spelled : TypeWords words text) : ∃ first more, words = word first :: more := by
  induction spelled with
  | name text arguments closed => exact ⟨text,arguments,rfl⟩
  | part outer text arguments closed ih =>
    obtain ⟨first,more,rfl⟩ := ih
    exact ⟨first,_,rfl⟩

/-- A type with dimensions behind its name. -/
theorem typeRef_deep (spelled : TypeWords words text) (depth : Nat) (unbound : Lacks .less rest)
    (undotted : Lacks .dot rest) (flat : Lacks .bracketOpen rest) :
    Parser.typeRef ⟨p,words ++ (dimensionTokens depth ++ rest)⟩ =
      (some ⟨text ++ String.join (List.replicate depth "[]"),Expr.spanning p (words.length + 2 * depth)⟩,
        ⟨p + (words.length + 2 * depth),rest⟩) := by
  obtain ⟨first,more,same⟩ := spelled.ident
  have seen : (Cursor.mk p (words ++ (dimensionTokens depth ++ rest))).sees .ident = true := by rw [same]; rfl
  have some : 0 < words.length + 2 * depth := by rw [same,List.length_cons]; omega
  have lacks (kind : Kind) (other : kind ≠ .bracketOpen) (behind : Lacks kind rest) :
      Lacks kind (dimensionTokens depth ++ rest) := by
    cases depth with
    | zero => exact behind
    | succ depth => exact .cons _ other.symm
  have read := Parser.repeated_onward (typeHead_onward (p := p) spelled (lacks .less (by decide) unbound))
    (typeSegment_stops (lacks .dot (by decide) undotted) text)
  rw [typeHead,Parser.run_bind,Parser.run_bind,Parser.run_pure] at read
  rw [Parser.typeRef,Parser.run_bind,Parser.run_sees]
  simp only [seen,if_true]
  rw [Parser.run_bind,Parser.run_nextStart,Parser.run_bind,Parser.run_bind,Parser.run_bind,read,Parser.run_bind,
    dimensions_run depth flat,Parser.run_bind,Nat.add_assoc,Parser.run_spanFrom,Parser.run_pure,upTo_spanning some]

theorem typeRef_run (spelled : TypeWords words text) (unbound : Lacks .less rest) (undotted : Lacks .dot rest)
    (flat : Lacks .bracketOpen rest) :
    Parser.typeRef ⟨p,words ++ rest⟩ = (some ⟨text,Expr.spanning p words.length⟩,⟨p + words.length,rest⟩) := by
  simpa [dimensionTokens,String.join] using @typeRef_deep p words rest text spelled 0 unbound undotted flat

theorem typeRefOrEmpty_run {type : TypeRef} (regular : type.Regular) (unbound : Lacks .less rest)
    (undotted : Lacks .dot rest) (flat : Lacks .bracketOpen rest) :
    Parser.typeRefOrEmpty ⟨p,type.print ++ rest⟩ =
      (⟨type.text,Expr.spanning p type.print.length⟩,⟨p + type.print.length,rest⟩) := by
  rw [Parser.typeRefOrEmpty,Parser.run_bind,typeRef_run regular.spelled unbound undotted flat]
  rfl

end Types

end Transplant.Java
