import Transplant.Proofs.Java.Confined

/-! Expressions are read alike before other tokens. The readers of expressions are a level of themselves,
so what each level does before other tokens is told from what it does behind its first token. -/
namespace Transplant.Java

open Token (Kind)

theorem Cursor.exists_on (cursor : Cursor) : ∃ tokens, cursor.passed ≤ tokens.length ∧ cursor = .on tokens cursor.passed := by
  refine ⟨List.replicate cursor.passed ⟨.unknown,""⟩ ++ cursor.rest,by simp,?_⟩
  simp [on]

/-- Readers that read alike everywhere are the same. -/
theorem Alike.eq {α : Type} {read other : Parser α} (alike : ∀ tokens i, Alike tokens read other i) : read = other := by
  funext cursor
  obtain ⟨tokens,inside,same⟩ := cursor.exists_on
  obtain ⟨a,j,ran,also,_⟩ := alike tokens cursor.passed inside
  rw [same,ran,also]

/-- Each reader of expressions reads as its level does with all of them inside. -/
theorem Parser.exprReaders_unfold : exprReaders = ExprLevel.next exprReaders := by
  have unfolds (tokens : List Token) (i : Nat) : exprReaders.Alike tokens (ExprLevel.next exprReaders) i :=
    ExprLevel.recursion.unfolds i
  have expr := Alike.eq fun tokens i => (unfolds tokens i).expr
  have conditional := Alike.eq fun tokens i => (unfolds tokens i).conditional
  have binary := funext fun least => Alike.eq fun tokens i => (unfolds tokens i).binary least
  have unary := Alike.eq fun tokens i => (unfolds tokens i).unary
  have initializer := Alike.eq fun tokens i => (unfolds tokens i).initializer
  change ExprReaders.mk _ _ _ _ _ = ExprReaders.mk _ _ _ _ _
  congr 1

/-- The readers do not look at tokens further on. -/
structure ExprReaders.Confined (tokens other : List Token) (inner : ExprReaders) (i : Nat) : Prop where
  expr : Java.Confined tokens other inner.expr i
  conditional : Java.Confined tokens other inner.conditional i
  binary : ∀ least, Java.Confined tokens other (inner.binary least) i
  unary : Java.Confined tokens other inner.unary i
  initializer : Java.Confined tokens other inner.initializer i

variable {tokens other : List Token} {i : Nat}

namespace ExprLevel

open Java.Parser (exprReaders)

theorem unread_confined (close : Kind) : Confined tokens other (unread close) i :=
  .nextStart (.bind (.skipOutside _ _) fun _ _ _ => .spanFrom (.pure _))

theorem parenthesized_confined (onward : ∀ k, i ≤ k → exprReaders.Confined tokens other k) (start : Nat) :
    Confined tokens other (parenthesized exprReaders start) i := by
  refine .bind (onward i (Nat.le_refl i)).expr fun content k first => .bind Confined.expect.discard fun _ l second => ?_
  refine .get (fun agree => ?_) (.ite (fun _ => ?_) fun _ => .spanFrom (.pure _))
  · rw [agree.next?]
  · exact .bind (onward l (by omega)).unary fun _ _ _ => .pure _

section

variable (onward : ∀ k, i < k → exprReaders.Confined tokens other k)

include onward

theorem argList_confined (seen : Seen tokens i .parenOpen) : Confined tokens other (argList exprReaders) i := by
  refine .follow Reads.expect.discard Confined.expect.discard fun _ j ⟨_,opened⟩ _ => ?_
  have first : i < j := by
    rcases opened with ⟨_,_,_,_,rfl⟩ | ⟨unseen,_⟩
    · exact Nat.lt_succ_self i
    · exact absurd seen unseen
  refine .bind (.separated .args fun k low => (onward k (by omega)).expr) fun args k _ => .get (fun agree => ?_) ?_
  · simp only [agree.atEnd,agree.sees]
  have closed (all : List Expr) (l : Nat) :
      Confined tokens other (do discard (Parser.expect .parenClose); return all) l :=
    .bind Confined.expect.discard fun _ _ _ => .pure all
  exact .ite (fun _ => closed args k) fun _ => .bind (unread_confined _) fun _ l _ => closed _ l

theorem arrayInit_confined (seen : Seen tokens i .braceOpen) : Confined tokens other (arrayInit exprReaders) i := by
  refine .follow Reads.expect Confined.expect fun brace j opened _ => ?_
  have first : i < j := by
    rcases opened with ⟨_,_,_,_,rfl⟩ | ⟨unseen,_⟩
    · exact Nat.lt_succ_self i
    · exact absurd seen unseen
  refine .bind (.separated .elements fun k low => (onward k (by omega)).initializer) fun elements k _ => ?_
  have closed (all : List Expr) (l : Nat) : Confined tokens other (do
      discard (Parser.expect .braceClose)
      return Expr.arrayInit all (← Parser.spanFrom brace.span.start)) l :=
    .bind Confined.expect.discard fun _ _ _ => .spanFrom (.pure _)
  exact .sees (fun _ => closed elements k) fun _ => .bind (unread_confined _) fun _ l _ => closed _ l

theorem arrayDim_confined : Confined tokens other (arrayDim exprReaders) i := by
  refine .eat (fun _ => ?_) fun _ => .pure none
  have closed (length : Option Expr) (l : Nat) :
      Confined tokens other (do discard (Parser.expect .bracketClose); return some length) l :=
    .bind Confined.expect.discard fun _ _ _ => .pure _
  refine .sees (fun _ => closed none _) fun _ => ?_
  exact .bind (onward _ (Nat.lt_succ_self i)).expr fun e l _ => closed (some e) l

theorem arrayDims_confined : Confined tokens other (arrayDims exprReaders) i :=
  .many .lengths fun k low => arrayDim_confined fun l high => onward l (by omega)

theorem creation_confined (outer : Option Expr) (start : Nat) :
    Confined tokens other (creation exprReaders outer start) i := by
  refine .bind (.skipNested _ _) fun _ k first => .bind .typeRefOrEmpty fun type l second => ?_
  have inside : ∀ m, l < m → exprReaders.Confined tokens other m := fun m low => onward m (by omega)
  refine .sees (fun seen => ?_) fun _ => ?_
  · refine .bind (argList_confined inside seen) fun args m _ => .nextStart (.sees (fun _ => ?_) fun _ => ?_)
    · exact .bind (.skipNested _ _) fun _ _ _ => .spanFrom (.spanFrom (.pure _))
    · exact .spanFrom (.pure _)
  · refine .bind (arrayDims_confined inside) fun dims m low => .sees (fun seen => ?_) fun _ => ?_
    · exact .bind (arrayInit_confined (fun n high => inside n (by omega)) seen) fun e j _ =>
        .bind (.pure _) fun _ _ _ => .spanFrom (.pure _)
    · exact .bind (.pure _) fun _ _ _ => .spanFrom (.pure _)

theorem primary_confined : Confined tokens other (primary exprReaders) i := by
  refine .get (fun agree => ?_) ?_
  · rw [agree.next?]
    rfl
  split
  · exact .pure _
  · rename_i token found
    rw [Cursor.on_next?] at found
    have here := (List.getElem?_eq_some_iff.mp found).1
    refine .ite (fun _ => .pure _) fun _ => .skip 1 here ?_
    split
    · exact .ite (fun _ => creation_confined (fun k low => onward k (by omega)) _ _) fun _ => .pure _
    · exact .pure _
    · exact .pure _
    · exact .pure _
    · exact parenthesized_confined (fun k low => onward k low) _
    · exact .pure _

theorem postfixStep_confined (e : Expr) : Confined tokens other (postfixStep exprReaders e) i := by
  refine .eat (fun _ => .eatWord (fun _ => ?new) ?member) fun _ =>
    .sees (fun seen => .ite (fun _ => ?call) fun _ => ?_) fun _ => .ite (fun isCallee => ?none) fun _ => ?_
  case new => exact .bind (creation_confined (fun k low => onward k (by omega)) _ _) fun _ _ _ => .pure _
  case member => exact .bind (.skipNested _ _) fun _ _ _ => .bind .expect fun _ _ _ => .spanFrom (.pure _)
  case call => exact .bind (argList_confined onward seen) fun _ _ _ => .spanFrom (.pure _)
  case none => simp at isCallee
  -- No call in both cases that are left.
  all_goals
    refine .eat (fun _ => ?_) fun _ => .eat (fun _ => .spanFrom (.pure _)) fun _ =>
      .eat (fun _ => .spanFrom (.pure _)) fun _ => .pure _
    exact .bind (onward _ (Nat.lt_succ_self i)).expr fun _ _ _ =>
      .bind Confined.expect.discard fun _ _ _ => .spanFrom (.pure _)

theorem postfixed_confined : Confined tokens other (postfixed exprReaders) i :=
  .bind (primary_confined onward) fun e _ on =>
    .repeated (.accesses e) fun e _ low => postfixStep_confined (fun l far => onward l (by omega)) e

theorem unary_confined : Confined tokens other (unary exprReaders) i := by
  refine .get (fun agree => ?_) ?_
  · rw [agree.next?]
    rfl
  split
  · rename_i op found
    exact .skip 1 (operator_quiet rfl found).1 (.bind (onward _ (Nat.lt_succ_self i)).unary fun _ _ _ => .pure _)
  · exact postfixed_confined onward

theorem binaryStep_confined (least : Nat) (left : Expr) : Confined tokens other (binaryStep exprReaders least left) i := by
  refine .get (fun agree => ?_) (.ite (fun tested => ?_) fun _ => ?_)
  · simp only [agree.next?,agree.seesWord]
  · simp only [Bool.and_eq_true,Cursor.on_seesWord_iff] at tested
    refine .skip 1 tested.1.ident.lt (.bind .skipVariableModifiers fun _ _ _ => ?_)
    refine .bind .typeRefOrEmpty fun type k _ => .get (fun agree => ?_) ?_
    · simp only [agree.sees,agree.seesWord]
    refine .ite (fun named => ?_) fun _ => .spanFrom (.pure _)
    simp only [Bool.and_eq_true,Cursor.on_sees_iff] at named
    exact .skip 1 named.1.lt (.spanFrom (.pure _))
  · split
    · rename_i op precedence found
      refine .ite (fun _ => .pure _) fun _ => .skip 1 (operator_quiet rfl found).1 ?_
      exact .bind ((onward _ (Nat.lt_succ_self i)).binary _) fun _ _ _ => .pure _
    · exact .pure _

theorem binary_confined (least : Nat) : Confined tokens other (binary exprReaders least) i :=
  .bind (unary_confined onward) fun left _ on =>
    .repeated (.operators least left) fun left _ low => binaryStep_confined (fun l far => onward l (by omega)) least left

theorem conditional_confined : Confined tokens other (conditional exprReaders) i := by
  refine .bind (binary_confined onward 1) fun condition k first => .eat (fun _ => ?_) fun _ => .pure _
  refine .bind (onward _ (by omega)).expr fun yes l second => .bind Confined.expect.discard fun _ m third => ?_
  exact .bind (onward m (by omega)).conditional fun _ _ _ => .pure _

theorem expr_confined : Confined tokens other (expr exprReaders) i := by
  refine .bind (conditional_confined onward) fun left k on => .get (fun agree => ?_) ?_
  · rw [agree.next?]
  split
  · rename_i op found
    exact .skip 1 (operator_quiet rfl found).1 (.bind (onward _ (by omega)).expr fun _ _ _ => .pure _)
  · exact .pure _

theorem initializer_confined : Confined tokens other (initializer exprReaders) i :=
  .sees (fun seen => arrayInit_confined onward seen) fun _ => expr_confined onward

end

end ExprLevel

/-- Reading an expression does not depend on the tokens further on. -/
theorem Parser.exprReaders_confined (i : Nat) : exprReaders.Confined tokens other i := by
  induction left : tokens.length + 1 - i using Nat.strongRecOn generalizing i with
  | ind count ih =>
    by_cases far : tokens.length < i
    · have beyond {α : Type} (read : Parser α) : Java.Confined tokens other read i := fun inside => by omega
      exact ⟨beyond _,beyond _,fun _ => beyond _,beyond _,beyond _⟩
    · have onward : ∀ k, i < k → exprReaders.Confined tokens other k := fun k further => ih _ (by omega) k rfl
      rw [exprReaders_unfold]
      exact ⟨ExprLevel.expr_confined onward,ExprLevel.conditional_confined onward,ExprLevel.binary_confined onward,
        ExprLevel.unary_confined onward,ExprLevel.initializer_confined onward⟩

end Transplant.Java
