import Transplant.Proofs.Java.Inverse

/-! The round trip from expressions to text and back. What an expression is built up from the left is
read by a loop of steps, `Unfolds`: primary expressions behind their innermost part, binary operators
behind their leftmost operand. The levels then follow one from another, and reading the printed tokens
of a regular expression gives the expression. -/
namespace Transplant.Java

open Relation (ReflTransGen)
open Token (Kind)

namespace ExprLevel

open Java.Expr Java.Parser

variable {inner : ExprReaders} {args : List Expr} {e part : Expr} {p least : Nat} {rest : List Token}

/-- From what is read first, the steps of a loop come to the whole expression. -/
def Unfolds (first : Parser Expr) (step : Expr → Parser (Option Expr)) (follows : List Token → Prop) (e : Expr) :
    Prop := ∀ p rest, follows rest →
  ReflTransGen (Onward step) (first ⟨p,e.print ++ rest⟩) (e.placed p,⟨p + e.print.length,rest⟩)

namespace Unfolds

variable {first : Parser Expr} {step : Expr → Parser (Option Expr)} {follows ready : List Token → Prop}

theorem start (read : ∀ p rest, follows rest → first ⟨p,e.print ++ rest⟩ = (e.placed p,⟨p + e.print.length,rest⟩)) :
    Unfolds first step follows e := by
  intro p rest given
  rw [read p rest given]

/-- One more step reads what the whole has more than its left part. -/
theorem extend {suffix : List Token} (unfolds : Unfolds first step ready part) (same : e.print = part.print ++ suffix)
    (some : suffix ≠ []) (opens : ∀ rest, follows rest → ready (suffix ++ rest))
    (ran : ∀ p rest, follows rest → step (part.placed p) ⟨p + part.print.length,suffix ++ rest⟩ =
      (.some (e.placed p),⟨p + e.print.length,rest⟩)) : Unfolds first step follows e := by
  intro p rest given
  have longer := List.length_pos_iff.mpr some
  rw [same,List.append_assoc,← same]
  refine (unfolds p _ (opens rest given)).tail (onward (ran p rest given) ?_)
  simp only [List.length_append]
  omega

end Unfolds

/-- An operand with more behind it begins where the whole does. -/
theorem upTo_placed (regular : e.Regular) {count : Nat} (some : 0 < count) :
    Span.upTo (e.placed p).span.start (2 * (p + count)) = spanning p count := by
  rw [regular.placed_span]
  exact upTo_spanning some

/-- An operand with more in front of it ends where the whole does. -/
theorem upTo_stop (regular : e.Regular) {start i count : Nat} (stop : i + e.print.length = p + count) (some : 0 < count)
    (first : start = 2 * p + 1) : Span.upTo start (e.placed i).span.stop = spanning p count := by
  rw [regular.placed_span,first]
  change Span.upTo (2 * p + 1) (2 * (i + e.print.length)) = _
  rw [stop]
  exact upTo_spanning some

theorem isCallee_placed {callee : Expr} (called : isCallee callee = true) (i : Nat) :
    isCallee (callee.placed i) = true := by
  cases callee <;> first | rfl | cases called

/-- The tokens of a primary expression are read from the innermost part outwards. Only behind what can
be called may an opening parenthesis follow. -/
def Primary (inner : ExprReaders) (e : Expr) : Prop :=
  Unfolds (primary inner) (postfixStep inner) (fun rest => isCallee e = true ∨ Stops 14 rest) e

namespace Primary

theorem call (callee : Primary inner part) (first : part.Regular) (called : isCallee part = true)
    (regular : ∀ arg ∈ args, arg.Regular) (known : ∀ arg ∈ args, Inverts inner.expr 0 arg) (span : Span) :
    Primary inner (.call part args span) := by
  refine callee.extend rfl (List.cons_ne_nil _ _) (fun _ _ => .inl called) fun p rest _ => ?_
  have stop : p + part.print.length + ((printAll args).length + 2) = p + (Expr.call part args span).print.length := by
    simp [print]
    omega
  simp only [List.cons_append,List.append_assoc,List.nil_append]
  rw [postfixStep_call (isCallee_placed called p) (listed_printAll regular known _) stop,upTo_placed first (by omega)]
  rfl

theorem create (type : TypeRef) (created : type.Regular) (regular : ∀ arg ∈ args, arg.Regular)
    (known : ∀ arg ∈ args, Inverts inner.expr 0 arg) (span : Span) :
    Primary inner (.create none type args [] none none span) := by
  refine .start fun p rest follows => ?_
  have stops : Stops 14 rest := follows.resolve_left Bool.false_ne_true
  have same : (Expr.create none type args [] none none span).print ++ rest =
      word "new" :: (type.print ++ .parenOpen :: (printAll args ++ .parenClose :: rest)) := by simp [print,printOuter]
  have stop : p + 1 + type.print.length + ((printAll args).length + 2) =
      p + (Expr.create none type args [] none none span).print.length := by
    simp [print,printOuter]
    omega
  rw [same,primary_word,if_pos rfl,creation_run (listed_printAll regular known _) none (2 * p + 1) created stops stop,
    upTo_spanning (by omega)]
  rfl

theorem createIn (outer : Primary inner part) (first : part.Regular) (type : TypeRef) (created : type.Regular)
    (regular : ∀ arg ∈ args, arg.Regular) (known : ∀ arg ∈ args, Inverts inner.expr 0 arg) (span : Span) :
    Primary inner (.create (some part) type args [] none none span) := by
  have same : (Expr.create (some part) type args [] none none span).print = part.print ++
      .dot :: word "new" :: (type.print ++ .parenOpen :: (printAll args ++ [.parenClose])) := by simp [print,printOuter]
  refine outer.extend same (List.cons_ne_nil _ _) (fun _ _ => .inr (.cons (by decide) _)) fun p rest follows => ?_
  have stops : Stops 14 rest := follows.resolve_left Bool.false_ne_true
  have stop : p + part.print.length + 2 + type.print.length + ((printAll args).length + 2) =
      p + (Expr.create (some part) type args [] none none span).print.length := by
    rw [same]
    simp
    omega
  have named : p + part.print.length + 2 = p + (printOuter (some part)).length + 1 := by
    simp [printOuter]
    omega
  simp only [List.cons_append,List.append_assoc,List.nil_append]
  rw [postfixStep_create,creation_run (listed_printAll regular known _) _ _ created stops stop,upTo_placed first (by omega),named]
  rfl

theorem field (receiver : Primary inner part) (first : part.Regular) (member : Ident) (free : member.text ≠ "new")
    (span : Span) : Primary inner (.field part member span) := by
  refine receiver.extend rfl (List.cons_ne_nil _ _) (fun _ _ => .inr (.cons (by decide) _)) fun p rest _ => ?_
  have stop : p + part.print.length + 2 = p + (Expr.field part member span).print.length := by
    simp [print]
    omega
  rw [List.cons_append,List.singleton_append,postfixStep_field _ free,stop,upTo_placed first (by omega)]
  rfl

theorem index {position : Expr} (array : Primary inner part) (first : part.Regular)
    (known : Inverts inner.expr 0 position) (span : Span) : Primary inner (.index part position span) := by
  refine array.extend rfl (List.cons_ne_nil _ _) (fun _ _ => .inr (.cons (by decide) _)) fun p rest _ => ?_
  have stop : p + part.print.length + 1 + position.print.length + 1 =
      p + (Expr.index part position span).print.length := by
    simp [print]
    omega
  simp only [List.cons_append,List.append_assoc,List.nil_append]
  rw [postfixStep_index _ (known (Nat.zero_le _) _ _ (.cons (by decide) _)) stop,upTo_placed first (by omega)]
  rfl

theorem count {op : UnaryOp} (operand : Primary inner part) (first : part.Regular)
    (counts : op = .increment ∨ op = .decrement) (span : Span) : Primary inner (.unary op false part span) := by
  have near : op.token.reach ≤ 14 := by rcases counts with rfl | rfl <;> decide
  refine operand.extend rfl (List.cons_ne_nil _ _) (fun _ _ => .inr (.cons near _)) fun p rest _ => ?_
  have stop : p + part.print.length + 1 = p + (Expr.unary op false part span).print.length := by
    simp [print]
    omega
  rw [List.singleton_append,postfixStep_count _ counts,stop,upTo_placed first (by omega)]
  rfl

theorem paren (first : part.Regular) (known : Inverts inner.expr 0 part) (span : Span) :
    Primary inner (.paren part span) := by
  refine .start fun p rest follows => ?_
  have stops : Stops 14 rest := follows.resolve_left Bool.false_ne_true
  have same : (Expr.paren part span).print ++ rest = .parenOpen :: (part.print ++ .parenClose :: rest) := by simp [print]
  have stop : p + 1 + part.print.length + 1 = p + (Expr.paren part span).print.length := by
    simp [print]
    omega
  rw [same,primary_paren (isPrimitive_placed first _) (known (Nat.zero_le _) _ _ (.cons (by decide) _)) stops stop,upTo_spanning (by omega)]
  rfl

end Primary

/-- What may stand behind an expression that steps of the binary operators are to read: no token holds
more tightly to its last operand, and no `<` follows a type, where it would begin type arguments. -/
structure Behind (e : Expr) (rest : List Token) : Prop where
  near : Stops 12 rest
  stops : Stops (e.rank + 1) rest
  unbound : e.isInstanceOf = true → Lacks .less rest

/-- The tokens of an expression are read from its leftmost operand outwards. -/
def Operators (inner : ExprReaders) (least : Nat) (e : Expr) : Prop :=
  Unfolds (unary inner) (binaryStep inner least) (Behind e) e

namespace Operators

theorem operand (read : Inverts (unary inner) 12 e) (tight : 12 ≤ e.rank) : Operators inner least e :=
  .start fun p rest behind => read tight p rest behind.near

theorem op {op : BinaryOp} {right : Expr} (left : Operators inner least part) (first : part.Regular)
    (second : right.Regular) (before : op.precedence + 1 ≤ part.rank) (behind : op.precedence + 1 < right.rank)
    (untested : op = .less → part.isInstanceOf = false) (tight : least ≤ op.precedence)
    (known : Inverts (inner.binary (op.precedence + 1)) (op.precedence + 2) right) (span : Span) :
    Operators inner least (.binary op part right span) := by
  have low := op.precedence_le
  have reach := reach_token op
  have opens (behind : List Token) : Behind part (op.token :: behind) := by
    refine ⟨.cons (by omega) _,.cons (by omega) _,fun tested => .cons _ ?_⟩
    cases op <;> first | decide | simp [untested rfl] at tested
  refine left.extend rfl (List.cons_ne_nil _ _) (fun _ _ => opens _) fun p rest given => ?_
  have stop : p + part.print.length + 1 + right.print.length = p + (Expr.binary op part right span).print.length := by
    simp [print]
    omega
  have read := known behind (p + part.print.length + 1) rest given.stops
  rw [List.cons_append]
  simp only [binaryStep_op _ tight,read,stop,
    upTo_stop second stop (by omega) (congrArg Span.start (first.placed_span p))]
  rfl

theorem test {type : TypeRef} (operand : Operators inner least part) (first : part.Regular) (tested : type.Regular)
    (tight : 8 ≤ part.rank) (low : least ≤ 7) (span : Span) : Operators inner least (.instanceOf part type span) := by
  have reach : (word "instanceof").reach = 9 := by decide
  have opens (behind : List Token) : Behind part (word "instanceof" :: behind) :=
    ⟨.cons (by decide) _,.cons (by omega) _,fun _ => .cons _ (by decide)⟩
  refine operand.extend rfl (List.cons_ne_nil _ _) (fun _ _ => opens _) fun p rest given => ?_
  have stop : p + part.print.length + 1 + type.print.length = p + (Expr.instanceOf part type span).print.length := by
    simp [print]
    omega
  rw [List.cons_append,binaryStep_test _ tested low given.stops (given.unbound rfl) stop,upTo_placed first (by omega)]
  rfl

end Operators

section Levels

variable {bound : Nat} (reversing : Reversing inner bound) (regular : e.Regular) (short : e.print.length ≤ bound + 1)

include reversing in
theorem known_arguments (regular : ∀ arg ∈ args, arg.Regular) (short : (printAll args).length ≤ bound) :
    ∀ arg ∈ args, Inverts inner.expr 0 arg :=
  fun arg member => reversing.expr arg (regular arg member) (Nat.le_trans (length_le_printAll member) short)

include reversing regular short

theorem primary_unfolds (tight : 13 ≤ e.rank) : Primary inner e := by
  induction regular with
  | name text span spelled free => exact .start fun p rest _ => primary_name free
  | literal kind value span spelled => exact .start fun p rest _ => primary_literal kind value spelled
  | this | super => exact .start fun p rest _ => rfl
  | call span called first others one each =>
    simp only [print,List.length_append,List.length_cons] at short
    exact (one (by omega) (rank_of_isCallee called)).call first called others
      (known_arguments reversing others (by omega)) span
  | @create outer type args span created inside first others one each =>
    simp only [print,List.length_append,List.length_cons] at short
    have known := known_arguments reversing others (by omega)
    cases outer with
    | none => exact .create type created others known span
    | some part =>
      simp only [printOuter,List.length_append] at short
      exact (one part rfl (by omega) (inside part rfl)).createIn (first part rfl) type created others known span
  | field member span spelled free inside first one =>
    simp only [print,List.length_append,List.length_cons] at short
    exact (one (by omega) inside).field first member free span
  | index span inside first second one other =>
    simp only [print,List.length_append,List.length_cons] at short
    exact (one (by omega) inside).index first (reversing.expr _ second (by omega)) span
  | trailing span counts inside first one =>
    simp only [print,Bool.false_eq_true,if_false,List.length_append,List.length_singleton] at short
    exact (one (by omega) inside).count first counts span
  | paren span first one =>
    simp only [print,List.length_append,List.length_cons] at short
    exact .paren first (reversing.expr _ first (by omega)) span
  | leading op span => exact absurd tight (show ¬ 13 ≤ 12 by decide)
  | binary op span =>
    have low := op.precedence_le
    simp only [rank] at tight
    omega
  | instanceOf => exact absurd tight (show ¬ 13 ≤ 8 by decide)
  | assign => exact absurd tight (show ¬ 13 ≤ 0 by decide)
  | conditional => exact absurd tight (show ¬ 13 ≤ 1 by decide)

/-! The levels of reading, from the tightest outwards. -/

theorem postfixed_inverts : Inverts (postfixed inner) 13 e := by
  intro tight p rest stops
  rw [postfixed,run_bind]
  exact repeated_onward (primary_unfolds reversing regular short tight p rest (.inr (stops.mono (by decide))))
    (postfixStep_stops _ stops)

theorem unary_inverts : Inverts (unary inner) 12 e := by
  intro high p rest stops
  by_cases tight : 13 ≤ e.rank
  · obtain ⟨token,more,same,-,plain⟩ := regular.opens
    have next : (Cursor.mk p (e.print ++ rest)).next?.bind (leadingOp ·.kind) = none := by
      rw [same]
      exact plain tight
    rw [unary,run_bind,run_get]
    simp only [next]
    exact postfixed_inverts reversing regular short tight p rest (stops.mono (by decide))
  · cases regular with
    | @leading op operand span inside first =>
      have stop : p + 1 + operand.print.length = p + (Expr.unary op true operand span).print.length := by
        simp [print]
        omega
      have same : (Expr.unary op true operand span).print ++ rest = op.token :: (operand.print ++ rest) := by
        simp [print]
      have read := reversing.unary operand first (by omega) inside (p + 1) rest stops
      rw [same]
      simp only [unary_op,read,stop,upTo_stop first stop (by omega) rfl]
      rfl
    | binary op span =>
      have low := op.precedence_le
      simp only [rank] at high
      omega
    | instanceOf | assign | conditional => simp [rank] at high
    | _ => exact absurd (Nat.le_refl 13) tight

theorem binary_unfolds (some : 1 ≤ least) (high : least + 1 ≤ e.rank) : Operators inner least e := by
  have operand {e : Expr} (regular : e.Regular) (short : e.print.length ≤ bound + 1) (tight : 12 ≤ e.rank) :
      Operators inner least e := .operand (unary_inverts reversing regular short) tight
  -- The regularity of the whole goes along, for the cases that are one operand.
  have whole := regular
  induction regular with
  | @binary op left right span before behind untested first second one other =>
    simp only [print,List.length_append,List.length_cons] at short
    have low := op.precedence_le
    have tight : least ≤ op.precedence := Nat.le_of_succ_le_succ high
    exact (one (by omega) (by omega) first).op first second before behind untested tight
      (reversing.binary (op.precedence + 1) (by omega) (by omega) right second (by omega)) span
  | instanceOf span tested tight first one =>
    simp only [print,List.length_append,List.length_cons] at short
    exact (one (by omega) (Nat.le_trans high tight) first).test first tested tight (Nat.le_of_succ_le_succ high) span
  | assign => exact absurd high (by simp [rank])
  | conditional => exact absurd high (by simp [rank]; omega)
  | leading => exact operand whole short (Nat.le_refl 12)
  | _ => exact operand whole short (Nat.le_succ 12)

theorem binary_inverts (some : 1 ≤ least) (low : least ≤ 11) : Inverts (binary inner least) (least + 1) e := by
  intro high p rest stops
  have unbound : e.isInstanceOf = true → Lacks .less rest := by
    intro tested
    have rank : e.rank = 8 := by cases e <;> first | rfl | cases tested
    exact stops.lacks (show least + 1 < 9 by omega)
  rw [binary,run_bind]
  exact repeated_onward (binary_unfolds reversing regular short some high p rest
    ⟨stops.mono (by omega),stops.mono (by omega),unbound⟩) (binaryStep_stops _ stops)

theorem conditional_inverts : Inverts (conditional inner) 1 e := by
  intro high p rest stops
  by_cases tight : 2 ≤ e.rank
  · have read := binary_inverts reversing regular short (Nat.le_refl 1) (by decide) tight p rest
      (stops.mono (by decide))
    rw [conditional,run_bind,read,run_bind,eat_lacking (stops.lacks (by decide))]
    rfl
  · cases regular with
    | @conditional condition yes no span before behind first second third =>
      have length : (Expr.conditional condition yes no span).print.length =
          condition.print.length + (1 + (yes.print.length + (1 + no.print.length))) := by
        simp [print]
        omega
      have same : (Expr.conditional condition yes no span).print ++ rest =
          condition.print ++ .question :: (yes.print ++ .colon :: (no.print ++ rest)) := by simp [print]
      have stop : p + condition.print.length + 1 + yes.print.length + 1 + no.print.length =
          p + (Expr.conditional condition yes no span).print.length := by omega
      have asked := binary_inverts reversing first (by omega) (Nat.le_refl 1) (by decide) before p
        (.question :: (yes.print ++ .colon :: (no.print ++ rest))) (.cons (by decide) _)
      have chosen := reversing.expr yes second (by omega) (Nat.zero_le _) (p + condition.print.length + 1)
        (.colon :: (no.print ++ rest)) (.cons (by decide) _)
      have other := reversing.conditional no third (by omega) behind
        (p + condition.print.length + 1 + yes.print.length + 1) rest stops
      rw [same,ExprLevel.conditional,run_bind,asked,run_bind,eat_seen .question .question rfl]
      simp only [if_true]
      rw [run_bind,chosen,run_bind,run_discard,expect_seen .colon .colon rfl,run_bind,other,run_pure,stop]
      simp only [upTo_stop third stop (by omega) (congrArg Span.start (first.placed_span p))]
      rfl
    | binary op => exact absurd (Nat.succ_le_succ op.precedence_pos) tight
    | assign => exact absurd high (by simp [rank])
    | _ => exact absurd (by simp [rank]) tight

theorem expr_inverts : Inverts (expr inner) 0 e := by
  intro _ p rest stops
  by_cases tight : 1 ≤ e.rank
  · have read := conditional_inverts reversing regular short tight p rest (stops.mono (by decide))
    have next : (Cursor.mk (p + e.print.length) rest).next?.bind (assignOp ·.kind) = none := by
      cases rest with
      | nil => rfl
      | cons token rest => exact assignOp_none (Nat.le_trans token.reach_le (stops token rfl))
    rw [ExprLevel.expr,run_bind,read,run_bind,run_get]
    simp only [next]
    rfl
  · cases regular with
    | @assign op left right span before first second =>
      have length : (Expr.assign op left right span).print.length = left.print.length + (1 + right.print.length) := by
        simp [print]
        omega
      have same : (Expr.assign op left right span).print ++ rest = left.print ++ op.token :: (right.print ++ rest) := by
        simp [print]
      have stop : p + left.print.length + 1 + right.print.length =
          p + (Expr.assign op left right span).print.length := by omega
      have target := conditional_inverts reversing first (by omega) before p (op.token :: (right.print ++ rest))
        (.cons (by cases op <;> decide) _)
      have value := reversing.expr right second (by omega) (Nat.zero_le _) (p + left.print.length + 1) rest stops
      rw [same,ExprLevel.expr,run_bind,target,run_bind,run_get]
      simp only [Cursor.next?,List.head?_cons,Option.bind_some,assignOp_token]
      rw [run_bind,run_skip,run_bind,value,run_pure,stop]
      simp only [upTo_stop second stop (by omega) (congrArg Span.start (first.placed_span p))]
      rfl
    | binary op => exact absurd (Nat.le_add_left 1 _) tight
    | _ => exact absurd (by simp [rank]) tight

end Levels

/-- One level more reads one token more. -/
theorem next_reversing {bound : Nat} (reversing : Reversing inner bound) : Reversing (next inner) (bound + 1) where
  expr := fun _ regular short => expr_inverts reversing regular short
  conditional := fun _ regular short => conditional_inverts reversing regular short
  binary := fun _ some low _ regular short => binary_inverts reversing regular short some low
  unary := fun _ regular short => unary_inverts reversing regular short

/-- As many levels as there are tokens read every expression back. -/
theorem readers_reversing (depth : Nat) : Reversing (readers depth) depth := by
  induction depth with
  | zero =>
    have none (e : Expr) (regular : e.Regular) (short : e.print.length ≤ 0) : False := by
      obtain ⟨token,rest,same,-⟩ := regular.opens
      rw [same] at short
      cases short
    exact ⟨fun e regular short => (none e regular short).elim,fun e regular short => (none e regular short).elim,
      fun _ _ _ e regular short => (none e regular short).elim,fun e regular short => (none e regular short).elim⟩
  | succ depth ih =>
    rw [readers_succ]
    exact next_reversing ih

end ExprLevel

/-- A printed expression is read as the same tree, with every part of it where its tokens are. -/
theorem expr_print {e : Expr} (regular : e.Regular) :
    Parser.expr ⟨0,e.print⟩ = (e.placed 0,⟨e.print.length,[]⟩) := by
  have read := (ExprLevel.readers_reversing (e.print.length + 1)).expr e regular (Nat.le_succ _) (Nat.zero_le _) 0 []
    (.nil 0)
  rw [List.append_nil,Nat.zero_add] at read
  exact read

/-- Writing an expression as its tokens, with a blank between any two, and reading the text gives the
same tree up to its ranges, and its range runs from the first token to the last. -/
theorem parseExpr_print (e : Expr) (regular : e.Regular) :
    (tokens (spaced e.print)).map (·.token) = e.print ∧ (parseExpr (spaced e.print)).bare = e.bare ∧
      (parseExpr (spaced e.print)).span = ⟨0,Text.size (spaced e.print)⟩ := by
  have some : e.print ≠ [] := by
    obtain ⟨token,rest,same,-⟩ := regular.opens
    rw [same]
    exact List.cons_ne_nil _ _
  have cut := tokens_spaced regular.whole
  have read : parseExpr (spaced e.print) = (e.placed 0).mapSpans (.map (offset (spaced e.print))) := by
    rw [parseExpr,readText,cut,expr_print regular,byteSpan_boundaries]
  refine ⟨cut,?_,?_⟩
  · rw [read,(Expr.mapSpans_bare _).1,regular.placed_bare]
  · obtain ⟨first,last⟩ := offset_spaced regular.whole some
    rw [read,Expr.mapSpans_span,regular.placed_span,Expr.spanning,Nat.zero_add]
    simp only [Span.map,Nat.zero_add,first,last]

/-- A condition with most levels in it. -/
def sampleCondition : Expr :=
  .binary .and (.instanceOf (.name "x" (.empty 0)) ⟨"T",.empty 0⟩ (.empty 0))
    (.unary .not true
      (.call (.field (.paren (.name "a" (.empty 0)) (.empty 0)) ⟨"m",.empty 0⟩ (.empty 0))
        [.binary .add (.name "b" (.empty 0))
          (.binary .mul (.name "c" (.empty 0)) (.literal .number "2" (.empty 0)) (.empty 0)) (.empty 0)] (.empty 0))
      (.empty 0)) (.empty 0)

theorem sampleCondition_regular : sampleCondition.Regular := by
  have name (text : String) (spelled : (word text).isWhole = true) (free : text ∉ keywords) :
      (Expr.name text (.empty 0)).Regular := .name text _ spelled free
  have tested : (Expr.instanceOf (.name "x" (.empty 0)) ⟨"T",.empty 0⟩ (.empty 0)).Regular :=
    .instanceOf _ (.simple (by decide) (by decide) _) (by decide) (name "x" (by decide) (by decide))
  have callee : (Expr.field (.paren (.name "a" (.empty 0)) (.empty 0)) ⟨"m",.empty 0⟩ (.empty 0)).Regular :=
    .field _ _ (by decide) (by decide) (by decide) (.paren _ (name "a" (by decide) (by decide)))
  have product : (Expr.binary .mul (.name "c" (.empty 0)) (.literal .number "2" (.empty 0)) (.empty 0)).Regular :=
    .binary .mul _ (by decide) (by decide) (by decide) (name "c" (by decide) (by decide))
      (.literal .number "2" _ (by decide))
  have argument := Expr.Regular.binary .add (.empty 0) (by decide) (by decide) (by decide)
    (name "b" (by decide) (by decide)) product
  exact .binary .and _ (by decide) (by decide) (by decide) tested
    (.leading .not _ (by decide) (.call _ rfl callee (List.forall_mem_singleton.mpr argument)))

/-- The condition is read back from its text. -/
theorem parseExpr_print_condition :
    spaced sampleCondition.print = "x instanceof T && ! ( a ) . m ( b + c * 2 )".toList ∧
      (tokens (spaced sampleCondition.print)).map (·.token) = sampleCondition.print ∧
      (parseExpr (spaced sampleCondition.print)).bare = sampleCondition.bare ∧
      (parseExpr (spaced sampleCondition.print)).span = ⟨0,Text.size (spaced sampleCondition.print)⟩ := by
  have type : (TypeRef.mk "T" (.empty 0)).print = [word "T"] := TypeRef.print_simple (by decide) _
  refine ⟨?_,parseExpr_print sampleCondition sampleCondition_regular⟩
  simp only [sampleCondition,Expr.print,Expr.printAll,type]
  decide

end Transplant.Java
