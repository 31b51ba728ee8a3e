import Transplant.Proofs.Java.Running

/-! Reading expressions back from their tokens. A place where an expression is read asks for a level,
and the tokens behind the expression must not continue it there: `Stops`. Each reader of the levels
takes an expression back when the readers of the level below take back its parts. -/
namespace Transplant.Java

open Relation (ReflTransGen)
open Token (Kind)

/-- Whether the expression is the name of a primitive type. -/
def Expr.isPrimitive : Expr → Bool
  | .name text _ => ExprLevel.primitiveTypes.contains text
  | _ => false

/-- How far an expression in front of the token reaches at most: places that ask for more than this
are done before it. -/
def Token.Kind.reach : Kind → Nat
  | .parenClose | .braceClose | .bracketClose | .semicolon | .comma | .colon => 0
  | .assign | .plusAssign | .minusAssign | .starAssign | .slashAssign | .percentAssign => 1
  | .question => 2
  | .pipePipe => 3
  | .ampAmp => 4
  | .pipe => 5
  | .caret => 6
  | .amp => 7
  | .equal | .notEqual => 8
  | .less | .lessEqual | .greater | .greaterEqual | .ident => 9
  | .plus | .minus => 11
  | .star | .slash | .percent => 12
  | .dot | .bracketOpen | .increment | .decrement => 14
  | _ => 15

/-- The only word that can follow an expression is the one of a type test. -/
def Token.reach (token : Token) : Nat :=
  if token.kind = .ident ∧ token.text ≠ "instanceof" then 15 else token.kind.reach

/-- What follows does not continue an expression that is read at the level. -/
def Stops (level : Nat) (rest : List Token) : Prop := ∀ token ∈ rest.head?, token.reach ≤ level

section Stops

variable {level other : Nat} {token : Token} {rest : List Token} {kind : Kind}

theorem Stops.nil (level : Nat) : Stops level [] := nofun

theorem Stops.cons (near : token.reach ≤ level) (rest : List Token) : Stops level (token :: rest) := by
  rintro _ ⟨⟩
  exact near

theorem Stops.mono (stops : Stops level rest) (up : level ≤ other) : Stops other rest :=
  fun token first => Nat.le_trans (stops token first) up

theorem Token.reach_le (token : Token) : token.kind.reach ≤ token.reach := by
  rw [Token.reach]
  split
  · cases token.kind <;> decide
  · exact Nat.le_refl _

theorem Stops.lacks (stops : Stops level rest) (far : level < kind.reach) : Lacks kind rest := by
  rintro token first rfl
  have := stops token first
  have := token.reach_le
  omega

/-- A word that follows begins a type test. -/
theorem Stops.test (stops : Stops level (token :: rest)) (near : level < 15) (ident : token.kind = .ident) :
    token.text = "instanceof" := by
  refine Classical.byContradiction fun other => ?_
  have reach := stops token rfl
  rw [Token.reach,if_pos ⟨ident,other⟩] at reach
  omega

theorem Stops.unworded (stops : Stops level rest) (far : level < 9) (p : Nat) :
    (Cursor.mk p rest).seesWord "instanceof" = false := by
  have lacks : Lacks .ident rest := stops.lacks far
  cases rest with
  | nil => rfl
  | cons token rest => simp [Cursor.seesWord,Token.isWord,lacks token rfl]

end Stops

/-- The reader takes all tokens of the expression, and no more, wherever it may stand at the level. -/
def Inverts (read : Parser Expr) (level : Nat) (e : Expr) : Prop := level ≤ e.rank → ∀ p rest, Stops level rest →
  read ⟨p,e.print ++ rest⟩ = (e.placed p,⟨p + e.print.length,rest⟩)

/-- Readers that take back all expressions of at most so many tokens. -/
structure Reversing (inner : ExprReaders) (bound : Nat) : Prop where
  expr : ∀ e : Expr, e.Regular → e.print.length ≤ bound → Inverts inner.expr 0 e
  conditional : ∀ e : Expr, e.Regular → e.print.length ≤ bound → Inverts inner.conditional 1 e
  binary : ∀ least, 1 ≤ least → least ≤ 11 → ∀ e : Expr, e.Regular → e.print.length ≤ bound →
    Inverts (inner.binary least) (least + 1) e
  unary : ∀ e : Expr, e.Regular → e.print.length ≤ bound → Inverts inner.unary 12 e

namespace ExprLevel

open Java.Expr Java.Parser

variable {inner : ExprReaders} {args : List Expr} {e : Expr} {p : Nat} {rest : List Token}

theorem length_le_printAll {arg : Expr} (member : arg ∈ args) : arg.print.length ≤ (printAll args).length := by
  induction args with
  | nil => cases member
  | cons first others ih =>
    cases others with
    | nil =>
      obtain rfl := List.mem_singleton.mp member
      exact Nat.le_refl _
    | cons next others =>
      rw [printAll,List.length_append,List.length_cons]
      rcases List.mem_cons.mp member with rfl | behind
      · omega
      · have := ih behind
        omega

/-! Arguments. -/

/-- From token `p` on the reader reads the tokens, with commas between, as these expressions. -/
inductive Listed (read : Parser Expr) : Nat → List Token → List Expr → Prop where
  | nil (p : Nat) : Listed read p [] []
  | last {p : Nat} {words : List Token} {e : Expr} (opens : Opens False words)
      (ran : ∀ rest, Stops 0 rest → read ⟨p,words ++ rest⟩ = (e,⟨p + words.length,rest⟩)) : Listed read p words [e]
  | more {p : Nat} {words next : List Token} {e : Expr} {others : List Expr} (opens : Opens False words)
      (ran : ∀ rest, Stops 0 rest → read ⟨p,words ++ rest⟩ = (e,⟨p + words.length,rest⟩))
      (behind : Listed read (p + words.length + 1) next others) : Listed read p (words ++ .comma :: next) (e :: others)

/-- Arguments that are read back one by one are read back as a list. -/
theorem listed_printAll {read : Parser Expr} (regular : ∀ arg ∈ args, arg.Regular)
    (known : ∀ arg ∈ args, Inverts read 0 arg) (p : Nat) : Listed read p (printAll args) (placedAll p args) := by
  induction args generalizing p with
  | nil => exact .nil p
  | cons first others ih =>
    obtain ⟨token,more,same,closing,-⟩ := (regular first List.mem_cons_self).opens
    have opens : Opens False first.print := ⟨token,more,same,closing,False.elim⟩
    have ran := known first List.mem_cons_self (Nat.zero_le _) p
    cases others with
    | nil => exact .last opens ran
    | cons next others =>
      exact .more opens ran (ih (fun arg member => regular arg (List.mem_cons_of_mem _ member))
        (fun arg member => known arg (List.mem_cons_of_mem _ member)) _)

section Arguments

variable {words : List Token}

theorem separate_run (listed : Listed inner.expr p words args) (turns : Nat) (enough : words.length < turns) :
    separate [.parenClose] inner.expr turns ⟨p,words ++ .parenClose :: rest⟩ =
      (args,⟨p + words.length,.parenClose :: rest⟩) := by
  have going {words : List Token} (opens : Opens False words) (p : Nat) (behind : List Token) :
      ((Cursor.mk p (words ++ behind)).atEnd || (Cursor.mk p (words ++ behind)).seesAny [.parenClose]) = false := by
    obtain ⟨token,more,rfl,closing,-⟩ := opens
    have other : token.kind ≠ .parenClose := fun same => closing (by rw [same]; decide)
    simp [Cursor.atEnd,Cursor.seesAny,Cursor.sees,other]
  induction listed generalizing turns with
  | nil =>
    obtain ⟨turns,rfl⟩ := Nat.exists_eq_add_one_of_ne_zero (Nat.ne_zero_of_lt enough)
    rfl
  | last opens ran =>
    obtain ⟨turns,rfl⟩ := Nat.exists_eq_add_one_of_ne_zero (Nat.ne_zero_of_lt enough)
    rw [separate,run_bind,run_get]
    simp only [going opens]
    rw [if_neg (by decide),run_bind,ran _ (.cons (by decide) _),run_bind,eat_lacking (.cons _ (by decide))]
    rfl
  | @more p words next e others opens ran behind ih =>
    obtain ⟨turns,rfl⟩ := Nat.exists_eq_add_one_of_ne_zero (Nat.ne_zero_of_lt enough)
    have read := ih turns (by rw [List.length_append,List.length_cons] at enough; omega)
    rw [List.append_assoc,List.cons_append,separate,run_bind,run_get]
    simp only [going opens]
    rw [if_neg (by decide),run_bind,ran _ (.cons (by decide) _),run_bind,eat_seen .comma .comma rfl]
    simp only [if_true]
    rw [run_bind,read,run_pure]
    exact arrive (by rw [List.length_append,List.length_cons]; omega)

/-- A list of arguments with the parentheses around it. -/
theorem argList_run {stop : Nat} (listed : Listed inner.expr (p + 1) words args) (reach : p + (words.length + 2) = stop) :
    argList inner ⟨p,.parenOpen :: (words ++ .parenClose :: rest)⟩ = (args,⟨stop,rest⟩) := by
  have read : separated [.parenClose] inner.expr ⟨p + 1,words ++ .parenClose :: rest⟩ =
      (args,⟨p + 1 + words.length,.parenClose :: rest⟩) := by
    refine separate_run listed _ ?_
    change _ < (words ++ .parenClose :: rest).length + 1
    simp only [List.length_append]
    omega
  have ended : ((Cursor.mk (p + 1 + words.length) (.parenClose :: rest)).atEnd ||
      (Cursor.mk (p + 1 + words.length) (.parenClose :: rest)).sees .parenClose) = true := rfl
  rw [argList,run_bind,run_discard,expect_seen .parenOpen .parenOpen rfl,run_bind,read,run_bind,run_get]
  simp only [ended,if_true,run_bind,run_pure,run_discard,expect_seen .parenClose .parenClose rfl]
  exact arrive (by omega)

/-- What follows the word of a creation. -/
theorem creation_run {type : TypeRef} {stop : Nat} (listed : Listed inner.expr (p + type.print.length + 1) words args)
    (outer : Option Expr) (start : Nat) (created : type.Regular) (stops : Stops 14 rest)
    (reach : p + type.print.length + (words.length + 2) = stop) :
    creation inner outer start ⟨p,type.print ++ .parenOpen :: (words ++ .parenClose :: rest)⟩ =
      (.create outer ⟨type.text,spanning p type.print.length⟩ args [] none none (.upTo start (2 * stop)),
        ⟨stop,rest⟩) := by
  obtain ⟨first,more,same⟩ := created.spelled.ident
  have unbound : Lacks .less (type.print ++ .parenOpen :: (words ++ .parenClose :: rest)) := by
    rw [same]
    exact .cons _ (show Kind.ident ≠ .less by decide)
  have lacks {kind : Kind} (other : .parenOpen ≠ kind) :
      Lacks kind (.parenOpen :: (words ++ .parenClose :: rest)) := .cons _ other
  have opened (place : Nat) (behind : List Token) :
      (Cursor.mk place (.parenOpen :: behind)).sees .parenOpen = true := rfl
  rw [creation,run_bind,skipNested_lacking unbound,run_bind,
    typeRefOrEmpty_run created (lacks (by decide)) (lacks (by decide)) (lacks (by decide)),run_bind,run_sees]
  simp only [opened,if_true]
  rw [run_bind,argList_run listed reach,run_bind,run_nextStart,run_bind,run_sees]
  simp only [sees_lacking (stops.lacks (show 14 < Kind.reach .braceOpen by decide))]
  rw [if_neg (by decide),run_bind,run_spanFrom,run_pure]

end Arguments

/-! Primary expressions. -/

theorem primary_word (text : String) :
    primary inner ⟨p,word text :: rest⟩ = (if text = "new" then creation inner none (2 * p + 1)
      else return wordExpr text (spanning p 1) : Parser Expr) ⟨p + 1,rest⟩ := rfl

theorem primary_name {text : String} (free : text ∉ keywords) :
    primary inner ⟨p,word text :: rest⟩ = (.name text (spanning p 1),⟨p + 1,rest⟩) := by
  simp only [keywords,List.mem_cons,not_or] at free
  rw [primary_word,if_neg free.1]
  simp [wordExpr,free,run_pure]

theorem primary_literal (kind : LiteralKind) (value : String) (spelled : kind.isSpelled value = true) :
    primary inner ⟨p,kind.token value :: rest⟩ = (.literal kind value (spanning p 1),⟨p + 1,rest⟩) := by
  cases kind with
  | number | string | char => rfl
  | bool =>
    rcases (Bool.or_eq_true _ _).mp spelled with yes | no
    · rw [eq_of_beq yes]
      rfl
    · rw [eq_of_beq no]
      rfl
  | null =>
    rw [eq_of_beq spelled]
    rfl

/-- What follows an expression in parentheses does not make it a cast: only a sign could, and what is in the
parentheses is not the name of a primitive type. -/
theorem castFollows_stops {content : Expr} (plain : content.isPrimitive = false) (stops : Stops 14 rest) :
    castFollows content rest.head? = false := by
  cases rest with
  | nil => rfl
  | cons token rest =>
    have other {kind : Kind} (far : 14 < kind.reach) (same : token.kind = kind) : False :=
      stops.lacks far token rfl same
    simp only [castFollows,List.head?_cons]
    refine Bool.and_eq_false_iff.mpr (.inr ?_)
    cases kind : token.kind with
    | ident => simp [stops.test (by decide) kind]
    | number | string | char | parenOpen | bang => exact (other (by decide) kind).elim
    | plus | minus =>
      cases content with
      | name text span => exact plain
      | _ => rfl
    | _ => rfl

/-- No name of a regular expression is that of a primitive type. -/
theorem isPrimitive_placed (regular : e.Regular) (p : Nat) : (e.placed p).isPrimitive = false := by
  cases regular with
  | name text span spelled free =>
    have known : ∀ text ∈ primitiveTypes, text ∈ keywords := by decide
    exact Bool.eq_false_iff.mpr fun primitive => free (known text (List.contains_iff_mem.mp primitive))
  | _ => rfl

theorem primary_paren {content : Expr} {words : List Token} {stop : Nat} (plain : content.isPrimitive = false)
    (read : inner.expr ⟨p + 1,words ++ .parenClose :: rest⟩ = (content,⟨p + 1 + words.length,.parenClose :: rest⟩))
    (stops : Stops 14 rest) (reach : p + 1 + words.length + 1 = stop) :
    primary inner ⟨p,.parenOpen :: (words ++ .parenClose :: rest)⟩ =
      (.paren content (.upTo (2 * p + 1) (2 * stop)),⟨stop,rest⟩) := by
  change parenthesized inner (2 * p + 1) ⟨p + 1,words ++ .parenClose :: rest⟩ = _
  rw [parenthesized,run_bind,read,run_bind,run_discard,expect_seen .parenClose .parenClose rfl,run_bind,run_get]
  simp only [Cursor.next?,castFollows_stops plain stops]
  rw [if_neg (by decide),run_bind,run_spanFrom,run_pure,reach]

/-! The steps behind a primary expression. -/

theorem postfixStep_field (receiver : Expr) {member : String} (free : member ≠ "new") :
    postfixStep inner receiver ⟨p,.dot :: word member :: rest⟩ =
      (some (.field receiver ⟨member,spanning (p + 1) 1⟩ (.upTo receiver.span.start (2 * (p + 2)))),⟨p + 2,rest⟩) := by
  rw [postfixStep,run_bind,eat_seen .dot .dot rfl]
  simp only [if_true]
  rw [run_bind,eatWord_other free]
  simp only [Bool.false_eq_true,if_false]
  rw [run_bind,skipNested_lacking (.cons _ (show Kind.ident ≠ .less by decide)),run_bind,expect_word,run_bind,
    run_spanFrom,run_pure]

theorem postfixStep_create (outer : Expr) :
    postfixStep inner outer ⟨p,.dot :: word "new" :: rest⟩ =
      (some (creation inner (some outer) outer.span.start ⟨p + 2,rest⟩).1,
        (creation inner (some outer) outer.span.start ⟨p + 2,rest⟩).2) := rfl

theorem postfixStep_call {callee : Expr} {words : List Token} {stop : Nat} (called : isCallee callee = true)
    (listed : Listed inner.expr (p + 1) words args) (reach : p + (words.length + 2) = stop) :
    postfixStep inner callee ⟨p,.parenOpen :: (words ++ .parenClose :: rest)⟩ =
      (some (.call callee args (.upTo callee.span.start (2 * stop))),⟨stop,rest⟩) := by
  have opened (behind : List Token) : (Cursor.mk p (.parenOpen :: behind)).sees .parenOpen = true := rfl
  rw [postfixStep,run_bind,eat_lacking (.cons _ (by decide))]
  simp only [Bool.false_eq_true,if_false]
  rw [run_bind,run_sees]
  simp only [called,opened,Bool.and_self,if_true]
  rw [run_bind,argList_run listed reach,run_bind,run_spanFrom,run_pure]

/-- Where neither a dot nor an opening parenthesis follows. -/
theorem postfixStep_other (e : Expr) (undotted : Lacks .dot rest) (uncalled : Lacks .parenOpen rest) :
    postfixStep inner e ⟨p,rest⟩ = (do
      if ← eat .bracketOpen then
        let position ← inner.expr
        discard (expect .bracketClose)
        return some (.index e position (← spanFrom e.span.start))
      else if ← eat .increment then return some (.unary .increment false e (← spanFrom e.span.start))
      else if ← eat .decrement then return some (.unary .decrement false e (← spanFrom e.span.start))
      else return none : Parser (Option Expr)) ⟨p,rest⟩ := by
  rw [postfixStep,run_bind,eat_lacking undotted]
  simp only [Bool.false_eq_true,if_false]
  rw [run_bind,run_sees]
  simp only [sees_lacking uncalled,Bool.and_false,Bool.false_eq_true,if_false]

theorem postfixStep_index {position : Expr} {words : List Token} {stop : Nat} (array : Expr)
    (read : inner.expr ⟨p + 1,words ++ .bracketClose :: rest⟩ = (position,⟨p + 1 + words.length,.bracketClose :: rest⟩))
    (reach : p + 1 + words.length + 1 = stop) :
    postfixStep inner array ⟨p,.bracketOpen :: (words ++ .bracketClose :: rest)⟩ =
      (some (.index array position (.upTo array.span.start (2 * stop))),⟨stop,rest⟩) := by
  rw [postfixStep_other array (.cons _ (by decide)) (.cons _ (by decide)),run_bind,
    eat_seen .bracketOpen .bracketOpen rfl]
  simp only [if_true]
  rw [run_bind,read,run_bind,run_discard,expect_seen .bracketClose .bracketClose rfl,run_bind,run_spanFrom,run_pure,
    reach]

theorem postfixStep_count {op : UnaryOp} (operand : Expr) (counts : op = .increment ∨ op = .decrement) :
    postfixStep inner operand ⟨p,op.token :: rest⟩ =
      (some (.unary op false operand (.upTo operand.span.start (2 * (p + 1)))),⟨p + 1,rest⟩) := by
  rcases counts with rfl | rfl
  · rw [postfixStep_other operand (.cons _ (by decide)) (.cons _ (by decide))]
    rfl
  · rw [postfixStep_other operand (.cons _ (by decide)) (.cons _ (by decide))]
    rfl

theorem postfixStep_stops (e : Expr) (stops : Stops 13 rest) : postfixStep inner e ⟨p,rest⟩ = (none,⟨p,rest⟩) := by
  have lacks {kind : Kind} (far : 13 < kind.reach) : Lacks kind rest := stops.lacks far
  rw [postfixStep_other e (lacks (by decide)) (lacks (by decide)),run_bind,eat_lacking (lacks (by decide))]
  simp only [Bool.false_eq_true,if_false]
  rw [run_bind,eat_lacking (lacks (by decide))]
  simp only [Bool.false_eq_true,if_false]
  rw [run_bind,eat_lacking (lacks (by decide))]
  rfl

/-! Prefix operators. -/

theorem leadingOp_token (op : UnaryOp) : leadingOp op.token.kind = some op := by cases op <;> rfl

theorem unary_op (op : UnaryOp) : unary inner ⟨p,op.token :: rest⟩ =
    (.unary op true (inner.unary ⟨p + 1,rest⟩).1 (.upTo (2 * p + 1) (inner.unary ⟨p + 1,rest⟩).1.span.stop),
      (inner.unary ⟨p + 1,rest⟩).2) := by
  rw [unary,run_bind,run_get]
  simp only [Cursor.next?,List.head?_cons,Option.bind_some,leadingOp_token]
  rfl

/-! The steps behind an operand. -/

theorem binaryOp_token (op : BinaryOp) : binaryOp op.token.kind = some (op,op.precedence) := by cases op <;> rfl

theorem reach_token (op : BinaryOp) : op.token.reach = op.precedence + 2 := by cases op <;> decide

theorem reach_of_binaryOp {kind : Kind} {op : BinaryOp} {precedence : Nat}
    (found : binaryOp kind = some (op,precedence)) : kind.reach = precedence + 2 := by
  cases kind <;> cases found <;> rfl

theorem binaryStep_op {least : Nat} (left : Expr) {op : BinaryOp} (tight : least ≤ op.precedence) :
    binaryStep inner least left ⟨p,op.token :: rest⟩ =
      (some (.binary op left (inner.binary (op.precedence + 1) ⟨p + 1,rest⟩).1
        (.upTo left.span.start (inner.binary (op.precedence + 1) ⟨p + 1,rest⟩).1.span.stop)),
        (inner.binary (op.precedence + 1) ⟨p + 1,rest⟩).2) := by
  have symbol : (Cursor.mk p (op.token :: rest)).seesWord "instanceof" = false := by cases op <;> rfl
  rw [binaryStep,run_bind,run_get]
  simp only [symbol,Bool.false_and,Bool.false_eq_true,if_false,Cursor.next?,List.head?_cons,Option.bind_some,
    binaryOp_token]
  rw [if_neg (by omega)]
  rfl

theorem skipVariableModifiers_none {first : String} (free : first ≠ "final") :
    skipVariableModifiers ⟨p,word first :: rest⟩ = ((),⟨p,word first :: rest⟩) := by
  refine @repeated_onward _ _ ((),⟨p,word first :: rest⟩) _ .refl ?_
  rw [run_bind,run_sees]
  change (do if ← eatWord "final" then return some () else return none : Parser (Option Unit))
    ⟨p,word first :: rest⟩ = _
  rw [run_bind,eatWord_other free]
  rfl

/-- A type test. No name follows the type that could be taken for a variable. -/
theorem binaryStep_test {least stop : Nat} {type : TypeRef} (left : Expr) (tested : type.Regular) (low : least ≤ 7)
    (stops : Stops 9 rest) (unbound : Lacks .less rest) (reach : p + 1 + type.print.length = stop) :
    binaryStep inner least left ⟨p,word "instanceof" :: (type.print ++ rest)⟩ =
      (some (.instanceOf left ⟨type.text,spanning (p + 1) type.print.length⟩ (.upTo left.span.start (2 * stop))),
        ⟨stop,rest⟩) := by
  obtain ⟨first,more,same⟩ := tested.spelled.ident
  have passed : skipVariableModifiers ⟨p + 1,type.print ++ rest⟩ = ((),⟨p + 1,type.print ++ rest⟩) := by
    rw [same]
    exact skipVariableModifiers_none fun bad => tested.named (by rw [same,bad]; rfl)
  have unnamed : ((Cursor.mk stop rest).sees .ident && !(Cursor.mk stop rest).seesWord "instanceof") = false := by
    cases rest with
    | nil => rfl
    | cons token rest =>
      by_cases ident : token.kind = .ident
      · simp [Cursor.sees,Cursor.seesWord,Token.isWord,ident,stops.test (by decide) ident]
      · simp [Cursor.sees,ident]
  have worded : ((Cursor.mk p (word "instanceof" :: (type.print ++ rest))).seesWord "instanceof" &&
      decide (least ≤ instanceOfPrecedence)) = true := decide_eq_true (show least ≤ instanceOfPrecedence from low)
  rw [binaryStep,run_bind,run_get]
  simp only [worded,if_true]
  rw [run_bind,run_skip,run_bind,passed,run_bind,
    typeRefOrEmpty_run tested unbound (stops.lacks (by decide)) (stops.lacks (by decide)),reach,run_bind,run_get]
  simp only [unnamed,Bool.false_eq_true,if_false]
  rfl

theorem binaryStep_stops {least : Nat} (left : Expr) (stops : Stops (least + 1) rest) :
    binaryStep inner least left ⟨p,rest⟩ = (none,⟨p,rest⟩) := by
  have untested : ((Cursor.mk p rest).seesWord "instanceof" && decide (least ≤ instanceOfPrecedence)) = false := by
    by_cases low : least ≤ 7
    · rw [stops.unworded (by omega) p,Bool.false_and]
    · rw [decide_eq_false (show ¬ least ≤ instanceOfPrecedence from low),Bool.and_false]
  rw [binaryStep,run_bind,run_get]
  simp only [untested,Bool.false_eq_true,if_false]
  cases found : (Cursor.mk p rest).next?.bind (binaryOp ·.kind) with
  | none => rfl
  | some known =>
    obtain ⟨token,first,same⟩ := Option.bind_eq_some_iff.mp found
    have near := stops token first
    have reach := reach_of_binaryOp same
    have := token.reach_le
    simp only
    rw [if_pos (by omega),run_pure]

/-! Assignments. -/

theorem assignOp_token (op : AssignOp) : assignOp op.token.kind = some op := by cases op <;> rfl

theorem assignOp_none {kind : Kind} (near : kind.reach ≤ 0) : assignOp kind = none := by
  cases kind <;> first | rfl | cases near

end ExprLevel
end Transplant.Java
