import Transplant.Proofs.Java.Alike
import Transplant.Proofs.Java.Members

/-! The levels of the readers of expressions, statements and members. Each level calls the readers
inside it only behind the token where it begins. -/
namespace Transplant.Java

open Token (Kind)

variable {tokens : List Token} {i : Nat}

/-- All readers of expressions read alike. -/
structure ExprReaders.Alike (tokens : List Token) (inner other : ExprReaders) (i : Nat) : Prop where
  expr : Java.Alike tokens inner.expr other.expr i
  conditional : Java.Alike tokens inner.conditional other.conditional i
  binary : ∀ least, Java.Alike tokens (inner.binary least) (other.binary least) i
  unary : Java.Alike tokens inner.unary other.unary i
  initializer : Java.Alike tokens inner.initializer other.initializer i

theorem skipNested_alike (opening closing : Kind) :
    Alike tokens (Parser.skipNested opening closing) (Parser.skipNested opening closing) i :=
  .shared (Reads.skipNested _ _)

theorem typeRefOrEmpty_alike : Alike tokens Parser.typeRefOrEmpty Parser.typeRefOrEmpty i :=
  .shared (Reads.typeRefOrEmpty.mono fun _ _ given _ => given.1)

theorem skipVariableModifiers_alike : Alike tokens Parser.skipVariableModifiers Parser.skipVariableModifiers i :=
  .shared (Reads.skipVariableModifiers.mono fun _ _ given _ => given.le)

theorem dimensions_alike : Alike tokens Parser.dimensions Parser.dimensions i :=
  .shared (Reads.dimensions.mono fun _ _ depth _ => depth.le)

namespace ExprLevel

theorem unread_alike (close : Kind) : Alike tokens (unread close) (unread close) i :=
  .shared (Reads.nextStart (.bind (.skipOutside _ _) fun _ _ on _ => .spanFrom (.pure on.1)))

/-- One more pair of brackets behind the type of an array creation. -/
def arrayDim (inner : ExprReaders) : Parser (Option (Option Expr)) := do
  if ← Parser.eat .bracketOpen then
    let length ← if ← Parser.sees .bracketClose then pure none else do pure (some (← inner.expr))
    discard (Parser.expect .bracketClose)
    return some length
  else return none

variable {inner other : ExprReaders}

theorem arrayDims_eq : arrayDims inner = Parser.many (arrayDim inner) := rfl

theorem parenthesized_alike (onward : ∀ k, i ≤ k → inner.Alike tokens other k) (start : Nat) :
    Alike tokens (parenthesized inner start) (parenthesized other start) i := by
  refine .bind (onward i (Nat.le_refl i)).expr fun content k first => .bind .closing fun _ l second => .get ?_
  refine .ite (fun _ => ?_) fun _ => .spanFrom (.pure _)
  exact .bind (onward l (by omega)).unary fun _ _ _ => .pure _

variable (onward : ∀ k, i < k → inner.Alike tokens other k)

include onward

theorem argList_alike (seen : Seen tokens i .parenOpen) :
    Alike tokens (argList inner) (argList other) i := by
  refine .opened seen (.bind (.separated fun k low => (onward k low).expr) fun args k _ => .get ?_)
  have closed (all : List Expr) (l : Nat) :
      Alike tokens (do discard (Parser.expect .parenClose); return all) _ l :=
    .bind .closing fun _ _ _ => .pure all
  exact .ite (fun _ => closed args k) fun _ => .bind (unread_alike _) fun _ l _ => closed _ l

theorem arrayInit_alike (seen : Seen tokens i .braceOpen) :
    Alike tokens (arrayInit inner) (arrayInit other) i := by
  refine .expected seen fun brace => ?_
  refine .bind (.separated fun k low => (onward k low).initializer) fun elements k _ => ?_
  have closed (all : List Expr) (l : Nat) : Reads tokens (do
      discard (Parser.expect .braceClose)
      return Expr.arrayInit all (← Parser.spanFrom brace.span.start)) l fun _ j => l ≤ j :=
    .bind Reads.expectOn.discard fun _ _ ⟨_,on⟩ _ => .spanFrom (.pure on)
  refine .sees (fun _ => .shared (closed elements k)) fun _ => ?_
  exact .bind (unread_alike _) fun _ l _ => .shared (closed _ l)

theorem arrayDim_alike : Alike tokens (arrayDim inner) (arrayDim other) i := by
  refine .eat (fun _ => ?_) (.pure none)
  have closed (length : Option Expr) (l : Nat) :
      Alike tokens (do discard (Parser.expect .bracketClose); return some length) _ l :=
    .bind .closing fun _ _ _ => .pure _
  refine .sees (fun _ => closed none _) fun _ => ?_
  exact .bind (onward _ (Nat.lt_succ_self i)).expr fun e l _ => closed (some e) l

theorem arrayDims_alike : Alike tokens (arrayDims inner) (arrayDims other) i := by
  rw [arrayDims_eq,arrayDims_eq]
  exact .many fun k low => arrayDim_alike fun l high => onward l (Nat.lt_of_le_of_lt low high)

theorem creation_alike (outer : Option Expr) (start : Nat) :
    Alike tokens (creation inner outer start) (creation other outer start) i := by
  refine .bind (skipNested_alike _ _) fun _ k first => .bind typeRefOrEmpty_alike fun type l second => ?_
  have inside : ∀ m, l < m → inner.Alike tokens other m := fun m low => onward m (by omega)
  refine .sees (fun seen => ?_) fun _ => ?_
  · refine .bind (argList_alike inside seen) fun args m _ => .nextStart (.sees (fun _ => ?_) fun _ => ?_)
    · exact .bind (skipNested_alike _ _) fun _ _ _ => .spanFrom (.spanFrom (.pure _))
    · exact .spanFrom (.pure _)
  · refine .bind (arrayDims_alike inside) fun dims m low => ?_
    have finish (initializer : Option Expr) (j : Nat) : Reads tokens (do
        return Expr.create outer type [] (dims.filterMap id) initializer none (← Parser.spanFrom start)) j
        fun _ k => j ≤ k := .spanFrom (.pure (Nat.le_refl j))
    refine .sees (fun seen => ?_) fun _ => .shared (finish none m)
    exact .bind (arrayInit_alike (fun n high => inside n (by omega)) seen) fun e j _ => .shared (finish (some e) j)

theorem primary_alike : Alike tokens (primary inner) (primary other) i := by
  refine .get ?_
  split
  · exact .pure _
  · rename_i token found
    rw [Cursor.on_next?] at found
    have here := (List.getElem?_eq_some_iff.mp found).1
    refine .ite (fun _ => .pure _) fun _ => .skip 1 here ?_
    split
    · exact .ite (fun _ => creation_alike (fun k low => onward k (by omega)) _ _) fun _ => .pure _
    · exact .pure _
    · exact .pure _
    · exact .pure _
    · exact parenthesized_alike (fun k low => onward k low) _
    · exact .pure _

theorem postfixStep_alike (e : Expr) : Alike tokens (postfixStep inner e) (postfixStep other e) i := by
  refine .eat (fun _ => .eatWord (fun _ => ?new) ?member)
    (.sees (fun seen => .ite (fun _ => ?call) fun _ => ?_) fun _ => .ite (fun isCallee => ?none) fun _ => ?_)
  case new => exact .bind (creation_alike (fun k low => onward k (by omega)) _ _) fun _ _ _ => .pure _
  case member => exact .bind (skipNested_alike _ _) fun _ _ _ => .bind .expect fun _ _ _ => .spanFrom (.pure _)
  case call => exact .bind (argList_alike onward seen) fun _ _ _ => .spanFrom (.pure _)
  case none => simp at isCallee
  -- No call in both cases that are left.
  all_goals
    refine .eat (fun _ => ?_) (.eat (fun _ => .spanFrom (.pure _)) (.eat (fun _ => .spanFrom (.pure _)) (.pure _)))
    exact .bind (onward _ (Nat.lt_succ_self i)).expr fun _ _ _ => .bind .closing fun _ _ _ => .spanFrom (.pure _)

theorem postfixed_alike : Alike tokens (postfixed inner) (postfixed other) i :=
  .bind (primary_alike onward) fun e _ on =>
    .repeated (fun e _ low => postfixStep_alike (fun l far => onward l (by omega)) e) e

theorem unary_alike : Alike tokens (unary inner) (unary other) i := by
  refine .get ?_
  split
  · rename_i op found
    exact .skip 1 (operator_quiet rfl found).1
      (.bind (onward _ (Nat.lt_succ_self i)).unary fun _ _ _ => .pure _)
  · exact postfixed_alike onward

theorem binaryStep_alike (least : Nat) (left : Expr) :
    Alike tokens (binaryStep inner least left) (binaryStep other least left) i := by
  refine .get (.ite (fun tested => ?_) fun _ => ?_)
  · simp only [Bool.and_eq_true,Cursor.on_seesWord_iff] at tested
    refine .skip 1 tested.1.ident.lt (.bind skipVariableModifiers_alike fun _ _ _ => ?_)
    refine .bind typeRefOrEmpty_alike fun type k _ => .get (.ite (fun named => ?_) fun _ => .spanFrom (.pure _))
    simp only [Bool.and_eq_true,Cursor.on_sees_iff] at named
    exact .skip 1 named.1.lt (.spanFrom (.pure _))
  · split
    · rename_i op precedence found
      refine .ite (fun _ => .pure _) fun _ => .skip 1 (operator_quiet rfl found).1 ?_
      exact .bind ((onward _ (Nat.lt_succ_self i)).binary _) fun _ _ _ => .pure _
    · exact .pure _

theorem binary_alike (least : Nat) : Alike tokens (binary inner least) (binary other least) i :=
  .bind (unary_alike onward) fun left _ on =>
    .repeated (fun left _ low => binaryStep_alike (fun l far => onward l (by omega)) least left) left

theorem conditional_alike : Alike tokens (conditional inner) (conditional other) i := by
  refine .bind (binary_alike onward 1) fun condition k first => .eat (fun _ => ?_) (.pure _)
  refine .bind (onward _ (by omega)).expr fun yes l second => .bind .closing fun _ m third => ?_
  exact .bind (onward m (by omega)).conditional fun _ _ _ => .pure _

theorem expr_alike : Alike tokens (expr inner) (expr other) i := by
  refine .bind (conditional_alike onward) fun left k on => .get ?_
  split
  · rename_i op found
    exact .skip 1 (operator_quiet rfl found).1 (.bind (onward _ (by omega)).expr fun _ _ _ => .pure _)
  · exact .pure _

theorem initializer_alike : Alike tokens (initializer inner) (initializer other) i :=
  .sees (fun seen => arrayInit_alike onward seen) fun _ => expr_alike onward

theorem next_alike : (next inner).Alike tokens (next other) i where
  expr := expr_alike onward
  conditional := conditional_alike onward
  binary least := binary_alike onward least
  unary := unary_alike onward
  initializer := initializer_alike onward

end ExprLevel

/-- The readers of expressions with as many levels as there are tokens left. -/
def Parser.exprReaders : ExprReaders where
  expr := Parser.expr
  conditional := Parser.bounded fun turns => (ExprLevel.readers turns).conditional
  binary least := Parser.bounded fun turns => (ExprLevel.readers turns).binary least
  unary := Parser.bounded fun turns => (ExprLevel.readers turns).unary
  initializer := Parser.initializer

theorem ExprReaders.Alike.symm {inner other : ExprReaders} (alike : inner.Alike tokens other i) :
    other.Alike tokens inner i where
  expr := alike.expr.symm
  conditional := alike.conditional.symm
  binary least := (alike.binary least).symm
  unary := alike.unary.symm
  initializer := alike.initializer.symm

theorem ExprReaders.Alike.trans {inner other third : ExprReaders} (first : inner.Alike tokens other i)
    (second : other.Alike tokens third i) : inner.Alike tokens third i where
  expr := first.expr.trans second.expr
  conditional := first.conditional.trans second.conditional
  binary least := (first.binary least).trans (second.binary least)
  unary := first.unary.trans second.unary
  initializer := first.initializer.trans second.initializer

theorem Parser.exprReaders_alike {other : ExprReaders} (each : ∀ depth, tokens.length < i + depth →
    (ExprLevel.readers depth).Alike tokens other i) : Parser.exprReaders.Alike tokens other i where
  expr := .bounded fun turns enough => (each turns enough).expr
  conditional := .bounded fun turns enough => (each turns enough).conditional
  binary least := .bounded fun turns enough => (each turns enough).binary least
  unary := .bounded fun turns enough => (each turns enough).unary
  initializer := .bounded fun turns enough => (each turns enough).initializer

/-- Expressions are read by their levels, each inside the next. -/
theorem ExprLevel.recursion :
    Recursion (ExprReaders.Alike tokens) ExprLevel.next Parser.exprReaders :=
  .of_levels tokens.length
    (fun _ _ _ far => ⟨.beyond far,.beyond far,fun _ => .beyond far,.beyond far,.beyond far⟩)
    (fun _ _ _ onward => next_alike onward) (fun _ _ _ => .symm) (fun _ _ _ _ => .trans) readers_succ
    fun _ _ => Parser.exprReaders_alike

namespace StmtLevel

variable {inner other : Parser (Option Stmt)}

theorem terminated_on (start : Nat) (make : Span → Stmt) :
    Reads tokens (terminated start make) i fun _ j => i ≤ j := by
  refine .eat (fun _ => .spanFrom (.pure (Nat.le_succ i))) fun _ => ?_
  refine .bind (.skipOutside _ _) fun _ k on _ => .bind Reads.eaten.discard fun _ j ⟨_,last⟩ _ => ?_
  refine .spanFrom (.pure ?_)
  rcases last with ⟨_,_,rfl⟩ | ⟨_,_,rfl⟩ <;> omega

theorem expr_alike : Alike tokens Parser.expr Parser.expr i :=
  .shared (Parser.expr_reads.mono fun _ _ read _ => read.le)

/-- The statements begin behind the brace, if there is one. -/
theorem block_alike (onward : ∀ k, i ≤ k → (Seen tokens i .braceOpen → i < k) → Alike tokens inner other k) :
    Alike tokens (block inner) (block other) i := by
  refine .follow Reads.expect fun brace k known => ?_
  have inside : i ≤ k ∧ (Seen tokens i .braceOpen → i < k) := by
    rcases known with ⟨_,_,_,_,rfl⟩ | ⟨unseen,_,rfl⟩
    · exact ⟨Nat.le_succ i,fun _ => Nat.lt_succ_self i⟩
    · exact ⟨Nat.le_refl _,fun seen => absurd seen unseen⟩
  refine ⟨inside.1,.bind (.gathered fun l low => ?_) fun statements l _ => .bind .closing fun _ _ _ => ?_⟩
  · exact onward l (Nat.le_trans inside.1 low) fun seen => Nat.lt_of_lt_of_le (inside.2 seen) low
  · exact .spanFrom (.pure _)

theorem substatement_alike (alike : Alike tokens inner other i) :
    Alike tokens (substatement inner) (substatement other) i := by
  refine .get (.bind alike fun found k on => ?_)
  cases found with
  | none => exact .shared (.lastStop (.pure (Nat.le_refl k)))
  | some stmt => exact .get (.ite (fun _ => .shared (.lastStop (.pure (Nat.le_refl k)))) fun _ => .pure _)

theorem localVariables_alike : Alike tokens localVariables localVariables i :=
  .shared (localVariables_reads.mono fun _ _ given _ => by
    rcases given with ⟨_,rfl⟩ | ⟨_,_,read⟩
    · exact Nat.le_refl _
    · exact Nat.le_of_lt read.before)

theorem element_alike : Alike tokens element element i :=
  .shared (element_reads.mono fun _ _ given _ => by
    rcases given with ⟨_,rfl⟩ | ⟨_,_,named⟩
    · exact Nat.le_refl _
    · exact named.le)

theorem loopInit_alike : Alike tokens loopInit loopInit i :=
  .shared (loopInit_reads.mono fun _ _ read _ => (read .start).le)

theorem typeRef_alike : Alike tokens Parser.typeRef Parser.typeRef i :=
  .shared (Reads.typeRef.mono fun _ _ given _ => by
    rcases given with ⟨_,_,rfl⟩ | ⟨_,_,_,on,_⟩ <;> omega)

theorem caughtType_alike (type : TypeRef) : Alike tokens (caughtType type) (caughtType type) i := by
  refine .eat (fun _ => .bind typeRef_alike fun found _ _ => ?_) (.pure none)
  cases found <;> exact .pure _

theorem jump_alike (start : Nat) (make : Span → Stmt) :
    Alike tokens (jump start make) (jump start make) i :=
  .bind (.discard (.eat (fun _ => .pure true) (.pure false))) fun _ _ _ =>
    .bind .closing fun _ _ _ => .spanFrom (.pure _)

theorem parenCondition_alike : Alike tokens parenCondition parenCondition i :=
  .bind .closing fun _ _ _ => .bind expr_alike fun _ _ _ => .bind .closing fun _ _ _ => .pure _

section

variable (onward : ∀ k, i ≤ k → Alike tokens inner other k) (start : Nat)

include onward

theorem ifElse_alike : Alike tokens (ifElse inner start) (ifElse other start) i := by
  refine .bind parenCondition_alike fun condition k first => ?_
  refine .bind (substatement_alike (onward k first)) fun yes l second => .eatWord (fun _ => ?_) ?_
  · refine .bind (substatement_alike (onward _ (by omega))) fun _ _ _ => ?_
    exact .bind (.pure _) fun _ _ _ => .spanFrom (.pure _)
  · exact .bind (.pure _) fun _ _ _ => .spanFrom (.pure _)

theorem whileLoop_alike : Alike tokens (whileLoop inner start) (whileLoop other start) i :=
  .bind parenCondition_alike fun _ k on =>
    .bind (substatement_alike (onward k on)) fun _ _ _ => .spanFrom (.pure _)

theorem forLoop_alike : Alike tokens (forLoop inner start) (forLoop other start) i := by
  refine .bind .closing fun _ k first => .bind element_alike fun found l second => ?_
  cases found with
  | some param =>
    refine .bind expr_alike fun iterable m third => .bind .closing fun _ n fourth => ?_
    exact .bind (substatement_alike (onward n (by omega))) fun _ _ _ => .spanFrom (.pure _)
  | none =>
    refine .bind loopInit_alike fun init m third => ?_
    have finish (condition : Option Expr) (n : Nat) (low : i ≤ n) : Alike tokens (do
        discard (Parser.expect .semicolon)
        let update ← Parser.separated [.parenClose] Parser.expr
        discard (Parser.expect .parenClose)
        let body ← substatement inner
        return Stmt.forLoop init condition update body (← Parser.spanFrom start)) (do
        discard (Parser.expect .semicolon)
        let update ← Parser.separated [.parenClose] Parser.expr
        discard (Parser.expect .parenClose)
        let body ← substatement other
        return Stmt.forLoop init condition update body (← Parser.spanFrom start)) n := by
      refine .bind .closing fun _ a fourth => .bind (.separated fun _ _ => expr_alike) fun update b fifth => ?_
      refine .bind .closing fun _ c sixth => .bind (substatement_alike (onward c (by omega))) fun _ _ _ => ?_
      exact .spanFrom (.pure _)
    exact .sees (fun _ => finish none m (by omega)) fun _ => .bind expr_alike fun e n _ => finish (some e) n (by omega)

theorem catchClause_alike : Alike tokens (catchClause inner) (catchClause other) i := by
  refine .nextStart (.eatWord (fun _ => ?_) (.pure none))
  refine .bind .closing fun _ k first => .bind skipVariableModifiers_alike fun _ l second => ?_
  refine .bind typeRefOrEmpty_alike fun type m third => ?_
  refine .bind (.repeated (fun type _ _ => caughtType_alike type) type) fun type n fourth => ?_
  refine .bind .expect fun name a fifth => .bind .closing fun _ b sixth => ?_
  exact .bind (block_alike fun c low _ => onward c (by omega)) fun _ _ _ => .pure _

theorem tryCatch_alike : Alike tokens (tryCatch inner start) (tryCatch other start) i := by
  refine .bind (skipNested_alike _ _) fun _ k first => ?_
  refine .bind (block_alike fun m low _ => onward m (by omega)) fun body l second => ?_
  refine .bind (.many fun m low => catchClause_alike fun n far => onward n (by omega)) fun catches m third => ?_
  refine .eatWord (fun _ => ?_) (.bind (.pure _) fun _ _ _ => .spanFrom (.pure _))
  refine .bind (block_alike fun n low _ => onward n (by omega)) fun _ _ _ => .bind (.pure _) fun _ _ _ => ?_
  exact .spanFrom (.pure _)

end

variable (onward : ∀ k, i < k → Alike tokens inner other k)

include onward

theorem passUnsupported_alike : Alike tokens (passUnsupported inner) (passUnsupported other) i := by
  have nested : Alike tokens (do
      Parser.skipNested .parenOpen .parenClose
      Parser.skipNested .braceOpen .braceClose
      return true) _ (i + 1) :=
    .bind (skipNested_alike _ _) fun _ _ _ => .bind (skipNested_alike _ _) fun _ _ _ => .pure true
  refine .eatWord (fun _ => nested) (.eatWord (fun _ => nested) (.eatWord (fun _ => ?_) ?_))
  · refine .bind (substatement_alike (onward _ (Nat.lt_succ_self i))).discard fun _ _ _ => .eatWord (fun _ => ?_) ?_
    · exact .bind (skipNested_alike _ _) fun _ _ _ => .bind .closing fun _ _ _ => .pure true
    · exact .bind .closing fun _ _ _ => .pure true
  · refine .get (.ite (fun _ => ?_) fun _ => .ite (fun _ => ?_) fun _ => .ite (fun label => ?_) fun _ => .pure false)
    · refine .bind (.shared ((Reads.skipWhile _).mono fun _ _ on _ => on.1)) fun _ _ _ => ?_
      exact .bind (skipNested_alike _ _) fun _ _ _ => .pure true
    · refine .bind (.shared ((Reads.skipOutside _ _).mono fun _ _ on _ => on.1)) fun _ _ _ => ?_
      exact .bind .closing fun _ _ _ => .pure true
    · simp only [Bool.and_eq_true,Cursor.on_sees_iff] at label
      have here := label.1.1.lt
      rw [Cursor.on_skip 1 here,Cursor.on_sees_iff] at label
      exact .skip 2 label.1.2.lt (.bind (substatement_alike (onward _ (by omega))).discard fun _ _ _ => .pure true)

theorem stmt_alike : Alike tokens (stmt inner) (stmt other) i := by
  have behind : ∀ k, i + 1 ≤ k → Alike tokens inner other k := fun k low => onward k low
  have found {read read' : Parser Stmt} {k : Nat} (alike : Alike tokens read read' k) :
      Alike tokens (do return some (← read)) (do return some (← read')) k := .bind alike fun _ _ _ => .pure _
  have ended (start : Nat) (make : Span → Stmt) (k : Nat) :
      Alike tokens (do return some (← terminated start make)) _ k := found (.shared (terminated_on start make))
  refine .get (.ite (fun _ => .pure none) fun _ => .eat (fun _ => .pure _) (.sees (fun brace => ?_) fun _ => ?_))
  · exact .bind (block_alike fun k _ after => onward k (after brace)) fun _ _ _ => .pure _
  refine .eatWord (fun _ => ?_) (.eatWord (fun _ => ?_) ?_)
  · exact .sees (fun _ => ended _ _ _) fun _ => .bind expr_alike fun _ _ _ => ended _ _ _
  · exact .bind expr_alike fun _ _ _ => ended _ _ _
  refine .eatWord (fun _ => found (ifElse_alike behind _)) (.eatWord (fun _ => found (whileLoop_alike behind _)) ?_)
  refine .eatWord (fun _ => found (forLoop_alike behind _)) (.eatWord (fun _ => found (tryCatch_alike behind _)) ?_)
  refine .eatWord (fun _ => found (jump_alike _ _)) (.eatWord (fun _ => found (jump_alike _ _)) ?_)
  refine .bind (passUnsupported_alike onward) fun passed k on => ?_
  cases passed with
  | true => exact .spanFrom (.pure _)
  | false =>
    refine .bind localVariables_alike fun found l _ => ?_
    cases found with
    | some stmt => exact .pure _
    | none => exact .bind expr_alike fun _ _ _ => ended _ _ _

omit onward

theorem reader_succ (depth : Nat) : reader (depth + 1) = stmt (reader depth) := rfl

/-- Statements are read by their levels, each inside the next. -/
theorem recursion : Recursion (Alike tokens) stmt Parser.stmt :=
  .of_levels tokens.length (fun _ _ _ far => .beyond far) (fun _ _ _ onward => stmt_alike onward)
    (fun _ _ _ => .symm) (fun _ _ _ _ => .trans) reader_succ fun _ _ => .bounded

end StmtLevel

namespace MemberLevel

theorem modifiers_alike : Alike tokens Parser.modifiers Parser.modifiers i := .shared Reads.modifiers

theorem block_alike : Alike tokens Parser.block Parser.block i :=
  .shared (Parser.block_reads.mono fun _ _ read _ => (read.walked .start).le)

theorem paramList_alike : Alike tokens Parser.paramList Parser.paramList i :=
  .shared (Reads.paramList_fits.mono fun _ _ given _ => given.1)

theorem skipThrows_alike : Alike tokens skipThrows skipThrows i := .shared skipThrows_reads

theorem skipStatement_alike : Alike tokens Parser.skipStatement Parser.skipStatement i :=
  .shared ((Reads.skipOutside _ _).mono fun _ _ on _ => on.1)

theorem initializer_alike (start : Nat) (isStatic : Bool) :
    Alike tokens (initializer start isStatic) (initializer start isStatic) i :=
  .bind block_alike fun _ _ _ => .pure _

theorem constructor_alike (start : Nat) (flags : Modifiers) :
    Alike tokens (constructor start flags) (constructor start flags) i :=
  .bind .expect fun _ _ _ => .bind paramList_alike fun _ _ _ => .bind skipThrows_alike fun _ _ _ =>
    .bind block_alike fun _ _ _ => .pure _

theorem method_alike (start : Nat) (flags : Modifiers) (type : TypeRef) (name : Ident) :
    Alike tokens (method start flags type name) (method start flags type name) i := by
  refine .bind paramList_alike fun _ _ _ => .bind dimensions_alike.discard fun _ _ _ => ?_
  refine .bind skipThrows_alike fun _ _ _ => .sees (fun _ => .bind block_alike fun _ _ _ => .pure _) fun _ => ?_
  exact .bind skipStatement_alike fun _ _ _ => .bind .closing fun _ _ _ => .spanFrom (.pure _)

theorem field_alike (start : Nat) (flags : Modifiers) (type : TypeRef) (name : Ident) :
    Alike tokens (field start flags type name) (field start flags type name) i :=
  .bind skipStatement_alike fun _ _ _ => .bind .closing fun _ _ _ => .spanFrom (.pure _)

theorem enumConstants_alike :
    Alike tokens (Parser.repeated (fun _ => enumConstant) ()) (Parser.repeated (fun _ => enumConstant) ()) i :=
  .repeated (fun _ _ _ => .shared (enumConstant_reads.mono fun _ _ on _ => on.1)) ()

/-- The readers of the members of any owner read alike. -/
def OwnersAlike (tokens : List Token) (inner other : String → Parser (Option Member)) (i : Nat) : Prop :=
  ∀ owner, Alike tokens (inner owner) (other owner) i

variable {inner other : String → Parser (Option Member)}
  (onward : ∀ k, i < k → OwnersAlike tokens inner other k)

include onward

theorem typeDecl_alike : Alike tokens (typeDecl inner) (typeDecl other) i := by
  refine .assume fun inside => .get (.attempt Reads.modifiers fun flags k low => ?_)
  cases found : typeKind? (.on tokens k) with
  | none =>
    refine .inr ⟨none,.get ?_,.get ?_⟩
    · rw [found]
      exact .set inside (.pure ⟨rfl,rfl⟩)
    · rw [found]
      exact .set inside (.pure ⟨rfl,rfl⟩)
  | some known =>
    refine .inl ⟨low,.get ?_⟩
    rw [found]
    obtain ⟨kind,words⟩ := known
    obtain ⟨here,worded⟩ := typeKind?_some found
    refine .follow (Reads.skipBy fun _ => words) fun _ l passed => ⟨by omega,?_⟩
    refine .bind .expect fun name m first => ?_
    refine .bind (.shared ((Reads.skipWhile _).mono fun _ _ on _ => on.1)) fun _ n second => ?_
    refine .bind .expect fun brace a third => ?_
    have finish (b : Nat) (before : a ≤ b) : Alike tokens (do
        let members ← Parser.gathered [.braceClose] (inner name.text)
        discard (Parser.expect .braceClose)
        let body ← Parser.spanFrom brace.span.start
        return some (TypeDecl.mk kind flags name (.upTo (Cursor.on tokens i).nextStart body.stop) body members)) (do
        let members ← Parser.gathered [.braceClose] (other name.text)
        discard (Parser.expect .braceClose)
        let body ← Parser.spanFrom brace.span.start
        return some (TypeDecl.mk kind flags name (.upTo (Cursor.on tokens i).nextStart body.stop) body members)) b := by
      refine .bind (.gathered fun c far => onward c (by omega) _) fun members _ _ => ?_
      exact .bind .closing fun _ _ _ => .spanFrom (.pure _)
    exact .ite (fun _ => .bind enumConstants_alike fun _ b on => finish b on) fun _ => finish a (Nat.le_refl a)

theorem member_alike (owner : String) : Alike tokens (member inner owner) (member other owner) i := by
  have found {read read' : Parser Member} {k : Nat} (alike : Alike tokens read read' k) :
      Alike tokens (do return some (← read)) (do return some (← read')) k := .bind alike fun _ _ _ => .pure _
  refine .get (.ite (fun _ => .pure none) fun _ => .bind modifiers_alike fun flags k low => .get ?_)
  refine .ite (fun static => ?_) fun _ => .ite (fun _ => found (initializer_alike _ _)) fun _ =>
    .ite (fun _ => ?_) fun _ => ?_
  · simp only [Bool.and_eq_true,Cursor.on_seesWord_iff] at static
    exact .skip 1 static.1.ident.lt (found (initializer_alike _ _))
  · refine .bind (typeDecl_alike fun l far => onward l (by omega)) fun decl? _ _ => ?_
    cases decl? <;> exact .pure _
  · refine .bind (skipNested_alike _ _) fun _ l _ => .get (.ite (fun _ => found (constructor_alike _ _)) fun _ => ?_)
    refine .bind StmtLevel.typeRef_alike fun type? m _ => ?_
    cases type? with
    | none => exact .pure none
    | some type =>
      refine .bind .expect fun name _ _ => .sees (fun _ => ?_) fun _ => ?_
      · exact found (method_alike _ _ _ _)
      · exact found (field_alike _ _ _ _)

omit onward

theorem reader_succ (depth : Nat) : reader (depth + 1) = member (reader depth) := rfl

/-- Members are read by their levels, each inside the next. -/
theorem recursion : Recursion (OwnersAlike tokens) member Parser.member := by
  refine .of_levels tokens.length (fun _ _ _ far _ => .beyond far) (fun _ _ _ onward => ?_)
    (fun _ _ _ same owner => (same owner).symm) (fun _ _ _ _ first second owner => (first owner).trans (second owner))
    reader_succ fun _ _ each owner => .bounded fun turns enough => each turns enough owner
  exact member_alike onward

end MemberLevel
end Transplant.Java
