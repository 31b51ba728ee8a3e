import Transplant.Proofs.Java.Firm

/-! What is around an expression. A frame is one operation with a place left open. When the tokens in the place are
firm and the place asks for no more than their expression offers, the tokens of the whole are firm. -/
namespace Transplant.Java

open Relation (ReflTransGen)
open Token (Kind)
open Java.Parser (exprReaders Onward onward run_bind run_get run_pure run_discard run_skip eat_seen expect_seen)
open ExprLevel (isCallee Listed postfixStep binaryStep)

namespace Phrase

/-- The tokens of arguments, with commas between. -/
def joined : List Phrase → List Token
  | [] => []
  | [last] => last.words
  | first :: next :: rest => first.words ++ .comma :: joined (next :: rest)

/-- Arguments in front of another one. -/
def leading (front : List Phrase) : List Token := front.flatMap fun arg => arg.words ++ [.comma]

/-- Arguments behind another one. -/
def trailing (behind : List Phrase) : List Token := behind.flatMap fun arg => .comma :: arg.words

theorem joined_around (front behind : List Phrase) (inside : Phrase) :
    joined (front ++ inside :: behind) = leading front ++ (inside.words ++ trailing behind) := by
  induction front with
  | nil =>
    induction behind generalizing inside with
    | nil => simp [joined,leading,trailing]
    | cons next rest ih =>
      simp only [List.nil_append] at ih ⊢
      rw [joined,ih next]
      simp [leading,trailing]
  | cons first rest ih =>
    obtain ⟨next,others,same⟩ :=
      List.exists_cons_of_ne_nil (List.append_ne_nil_of_right_ne_nil rest (List.cons_ne_nil inside behind))
    rw [List.cons_append,same,joined,← same,ih]
    simp [leading]

/-- Firm arguments are read as a list. -/
theorem listed (args : List Phrase) (firm : ∀ arg ∈ args, arg.Firm) (p : Nat) : ∃ list : List Expr,
    Expr.mapSpansAll (fun _ => .empty 0) list = Expr.mapSpansAll (fun _ => .empty 0) (args.map (·.value)) ∧
      Listed exprReaders.expr p (joined args) list := by
  induction args generalizing p with
  | nil => exact ⟨[],rfl,.nil p⟩
  | cons first others ih =>
    obtain ⟨one,each⟩ := List.forall_mem_cons.mp firm
    obtain ⟨token,more,words,closing,-⟩ := one.opens
    have opens : Expr.Opens False first.words := ⟨token,more,words,closing,False.elim⟩
    obtain ⟨t,same,ran⟩ := one.expr p
    cases others with
    | nil => exact ⟨[t],congrArg ([·]) same,.last opens ran⟩
    | cons next rest =>
      obtain ⟨list,alike,behind⟩ := ih each (p + first.words.length + 1)
      exact ⟨t :: list,congrArg₂ List.cons same alike,.more opens ran behind⟩

theorem Reached.extend {part whole : Phrase} {first : Parser Expr} {step : Expr → Parser (Option Expr)}
    {ready follows : List Token → Prop} {suffix : List Token} (reached : part.Reached first step ready)
    (same : whole.words = part.words ++ suffix) (some : suffix ≠ []) (opens : ∀ rest, follows rest → ready (suffix ++ rest))
    (ran : ∀ (t : Expr) p, t.bare = part.value.bare → ∃ t' : Expr, t'.bare = whole.value.bare ∧ ∀ rest, follows rest →
      step t ⟨p + part.words.length,suffix ++ rest⟩ = (.some t',⟨p + whole.words.length,rest⟩)) :
    whole.Reached first step follows := by
  intro p
  obtain ⟨t,alike,chain⟩ := reached p
  obtain ⟨t',alike',does⟩ := ran t p alike
  refine ⟨t',alike',fun rest given => ?_⟩
  have longer := List.length_pos_iff.mpr some
  have behind := does rest given
  rw [same] at behind
  rw [same,List.append_assoc]
  refine (chain _ (opens rest given)).tail (onward behind ?_)
  simp only [List.length_append]
  omega

/-- The tokens before the word of a creation in an object. -/
def qualifying : Option Phrase → List Token
  | none => []
  | some outer => outer.words ++ [.dot]

/-- An array that is created without its elements, so that brackets behind it give it one more dimension. -/
def isUnfilled (phrase : Phrase) : Prop :=
  phrase.value.isCreation = true ∧ ∃ token ∈ phrase.words.getLast?, token.kind = .bracketClose

end Phrase

/-- An operation with one part left open: an operand, the receiver of a member or of a creation, what is
called, an argument, an array or a position in it, or a part of a conditional or an assignment. -/
inductive Frame where
  | prefixed (op : UnaryOp)
  | counted (op : UnaryOp)
  | leftOf (op : BinaryOp) (right : Phrase)
  | rightOf (left : Phrase) (op : BinaryOp)
  | tested (type : TypeRef)
  | member (name : String)
  | called (args : List Phrase)
  | argument (callee : Phrase) (front behind : List Phrase)
  | creating (type : TypeRef) (args : List Phrase)
  | created (outer : Option Phrase) (type : TypeRef) (front behind : List Phrase)
  | elementOf (position : Phrase)
  | elementAt (array : Phrase)
  | deciding (yes no : Phrase)
  | chosen (condition no : Phrase)
  | otherwise (condition yes : Phrase)
  | paren
  | assigned (op : AssignOp) (value : Phrase)
  | assigning (target : Phrase) (op : AssignOp)

namespace Frame

open Phrase (joined leading trailing qualifying)

/-- The tokens in front of the open part. -/
def before : Frame → List Token
  | .prefixed op => [op.token]
  | .rightOf left op => left.words ++ [op.token]
  | .argument callee front _ => callee.words ++ .parenOpen :: leading front
  | .created outer type front _ => qualifying outer ++ word "new" :: (type.print ++ .parenOpen :: leading front)
  | .elementAt array => array.words ++ [.bracketOpen]
  | .chosen condition _ => condition.words ++ [.question]
  | .otherwise condition yes => condition.words ++ .question :: (yes.words ++ [.colon])
  | .paren => [.parenOpen]
  | .assigning target op => target.words ++ [op.token]
  | .counted _ | .leftOf _ _ | .tested _ | .member _ | .called _ | .creating _ _ | .elementOf _ | .deciding _ _
  | .assigned _ _ => []

/-- The tokens behind the open part. -/
def behind : Frame → List Token
  | .counted op => [op.token]
  | .leftOf op right => op.token :: right.words
  | .tested type => word "instanceof" :: type.print
  | .member name => [.dot,word name]
  | .called args => .parenOpen :: (joined args ++ [.parenClose])
  | .argument _ _ behind => trailing behind ++ [.parenClose]
  | .creating type args => .dot :: word "new" :: (type.print ++ .parenOpen :: (joined args ++ [.parenClose]))
  | .created _ _ _ behind => trailing behind ++ [.parenClose]
  | .elementOf position => .bracketOpen :: (position.words ++ [.bracketClose])
  | .elementAt _ => [.bracketClose]
  | .deciding yes no => .question :: (yes.words ++ .colon :: no.words)
  | .chosen _ no => .colon :: no.words
  | .paren => [.parenClose]
  | .assigned op value => op.token :: value.words
  | .prefixed _ | .rightOf _ _ | .otherwise _ _ | .assigning _ _ => []

/-- The operation with the expression as its part. -/
def build (inside : Expr) : Frame → Expr
  | .prefixed op => .unary op true inside (.empty 0)
  | .counted op => .unary op false inside (.empty 0)
  | .leftOf op right => .binary op inside right.value (.empty 0)
  | .rightOf left op => .binary op left.value inside (.empty 0)
  | .tested type => .instanceOf inside type (.empty 0)
  | .member name => .field inside ⟨name,.empty 0⟩ (.empty 0)
  | .called args => .call inside (args.map (·.value)) (.empty 0)
  | .argument callee front behind =>
    .call callee.value (front.map (·.value) ++ inside :: behind.map (·.value)) (.empty 0)
  | .creating type args => .create (some inside) type (args.map (·.value)) [] none none (.empty 0)
  | .created outer type front behind =>
    .create (outer.map (·.value)) type (front.map (·.value) ++ inside :: behind.map (·.value)) [] none none (.empty 0)
  | .elementOf position => .index inside position.value (.empty 0)
  | .elementAt array => .index array.value inside (.empty 0)
  | .deciding yes no => .conditional inside yes.value no.value (.empty 0)
  | .chosen condition no => .conditional condition.value inside no.value (.empty 0)
  | .otherwise condition yes => .conditional condition.value yes.value inside (.empty 0)
  | .paren => .paren inside (.empty 0)
  | .assigned op value => .assign op inside value.value (.empty 0)
  | .assigning target op => .assign op target.value inside (.empty 0)

def fill (frame : Frame) (inside : Phrase) : Phrase :=
  ⟨frame.before ++ (inside.words ++ frame.behind),frame.build inside.value⟩

/-- The other parts are firm, and every part holds together as tightly as its place asks for. -/
def Fits (frame : Frame) (inside : Phrase) : Prop :=
  match frame with
  | .prefixed _ => 12 ≤ inside.rank
  | .counted op => 13 ≤ inside.rank ∧ (op = .increment ∨ op = .decrement)
  | .leftOf op right => op.precedence + 1 ≤ inside.rank ∧ (op = .less → inside.value.isInstanceOf = false) ∧
    right.Firm ∧ op.precedence + 1 < right.rank
  | .rightOf left op => op.precedence + 1 < inside.rank ∧ left.Firm ∧ op.precedence + 1 ≤ left.rank ∧
    (op = .less → left.value.isInstanceOf = false)
  | .tested type => 8 ≤ inside.rank ∧ type.Regular
  | .member name => 13 ≤ inside.rank ∧ name ≠ "new"
  | .called args => isCallee inside.value = true ∧ ∀ arg ∈ args, arg.Firm
  | .argument callee front behind => callee.Firm ∧ isCallee callee.value = true ∧ ∀ arg ∈ front ++ behind, arg.Firm
  | .creating type args => 13 ≤ inside.rank ∧ type.Regular ∧ ∀ arg ∈ args, arg.Firm
  | .created outer type front behind => (∀ part ∈ outer, part.Firm ∧ 13 ≤ part.rank) ∧ type.Regular ∧
    ∀ arg ∈ front ++ behind, arg.Firm
  | .elementOf position => 13 ≤ inside.rank ∧ ¬ inside.isUnfilled ∧ position.Firm
  | .elementAt array => array.Firm ∧ 13 ≤ array.rank ∧ ¬ array.isUnfilled
  | .deciding yes no => 2 ≤ inside.rank ∧ yes.Firm ∧ no.Firm ∧ 1 ≤ no.rank
  | .chosen condition no => condition.Firm ∧ 2 ≤ condition.rank ∧ no.Firm ∧ 1 ≤ no.rank
  | .otherwise condition yes => 1 ≤ inside.rank ∧ condition.Firm ∧ 2 ≤ condition.rank ∧ yes.Firm
  | .paren => True
  | .assigned _ value => 1 ≤ inside.rank ∧ value.Firm
  | .assigning target _ => target.Firm ∧ 1 ≤ target.rank

attribute [local simp] before behind build fill

variable {frame : Frame} {inside : Phrase}

/-! Steps behind a primary expression. -/

section

variable {name : String} {args front behind : List Phrase} {type : TypeRef} {op : UnaryOp} {position callee array : Phrase}

open Phrase

theorem primary_member (primary : inside.Primary) (free : name ≠ "new") : ((member name).fill inside).Primary := by
  refine primary.extend rfl (List.cons_ne_nil _ _)
    (fun _ _ => ⟨.inr (.cons (by decide) _),fun _ _ => .cons _ (by decide)⟩) fun t p same => ?_
  have stop : p + inside.words.length + 2 = p + ((member name).fill inside).words.length := by
    simp
    omega
  refine ⟨.field t ⟨name,Expr.spanning (p + inside.words.length + 1) 1⟩
    (.upTo t.span.start (2 * (p + inside.words.length + 2))),?_,fun rest _ => ?_⟩
  · simp only [Expr.bare,Expr.mapSpans,Ident.mapSpans,fill,build] at same ⊢
    rw [same]
  · rw [← stop]
    exact ExprLevel.postfixStep_field t free

theorem primary_counted (primary : inside.Primary) (counts : op = .increment ∨ op = .decrement) :
    ((counted op).fill inside).Primary := by
  have near : op.token.reach ≤ 14 ∧ op.token.kind ≠ .bracketOpen := by rcases counts with rfl | rfl <;> decide
  refine primary.extend rfl (List.cons_ne_nil _ _)
    (fun _ _ => ⟨.inr (.cons near.1 _),fun _ _ => .cons _ near.2⟩) fun t p same => ?_
  have stop : p + inside.words.length + 1 = p + ((counted op).fill inside).words.length := by
    simp
    omega
  refine ⟨.unary op false t (.upTo t.span.start (2 * (p + inside.words.length + 1))),?_,fun rest _ => ?_⟩
  · simp only [Expr.bare,Expr.mapSpans,fill,build] at same ⊢
    rw [same]
  · rw [← stop]
    exact ExprLevel.postfixStep_count t counts

theorem primary_called (primary : inside.Primary) (calls : isCallee inside.value = true) (firm : ∀ arg ∈ args, arg.Firm) :
    ((called args).fill inside).Primary := by
  refine primary.extend rfl (List.cons_ne_nil _ _) (fun _ _ => ⟨.inl calls,fun _ _ => .cons _ (by decide)⟩)
    fun t p same => ?_
  obtain ⟨list,alike,listed⟩ := listed args firm (p + inside.words.length + 1)
  have stop : p + inside.words.length + ((joined args).length + 2) = p + ((called args).fill inside).words.length := by
    simp
    omega
  have callee : isCallee t = true := (Expr.isCallee_of_bare same).trans calls
  refine ⟨.call t list (.upTo t.span.start (2 * (p + ((called args).fill inside).words.length))),?_,fun rest _ => ?_⟩
  · simp only [Expr.bare,Expr.mapSpans,fill,build] at same ⊢
    rw [same,alike]
  · rw [← ExprLevel.postfixStep_call callee listed stop]
    simp

theorem primary_elementOf (primary : inside.Primary) (filled : ¬ inside.isUnfilled) (firm : position.Firm) :
    ((elementOf position).fill inside).Primary := by
  refine primary.extend rfl (List.cons_ne_nil _ _)
    (fun _ _ => ⟨.inr (.cons (by decide) _),fun creates last => absurd ⟨creates,last⟩ filled⟩) fun t p same => ?_
  obtain ⟨place,alike,read⟩ := firm.expr (p + inside.words.length + 1)
  have stop : p + inside.words.length + 1 + position.words.length + 1 =
      p + ((elementOf position).fill inside).words.length := by
    simp
    omega
  refine ⟨.index t place (.upTo t.span.start (2 * (p + ((elementOf position).fill inside).words.length))),?_,fun rest _ => ?_⟩
  · simp only [Expr.bare,Expr.mapSpans,fill,build] at same alike ⊢
    rw [same,alike]
  · rw [← ExprLevel.postfixStep_index t (read (.bracketClose :: rest) (.cons (by decide) _)) stop]
    simp

theorem primary_creating (primary : inside.Primary) (class' : type.Regular) (firm : ∀ arg ∈ args, arg.Firm) :
    ((creating type args).fill inside).Primary := by
  refine primary.extend rfl (List.cons_ne_nil _ _)
    (fun _ _ => ⟨.inr (.cons (by decide) _),fun _ _ => .cons _ (by decide)⟩) fun t p same => ?_
  obtain ⟨list,alike,listed⟩ := listed args firm (p + inside.words.length + 2 + type.print.length + 1)
  have stop : p + inside.words.length + 2 + type.print.length + ((joined args).length + 2) =
      p + ((creating type args).fill inside).words.length := by
    simp
    omega
  refine ⟨.create (some t) ⟨type.text,Expr.spanning (p + inside.words.length + 2) type.print.length⟩ list [] none none
    (.upTo t.span.start (2 * (p + ((creating type args).fill inside).words.length))),?_,fun rest ends => ?_⟩
  · simp only [Expr.bare,Expr.mapSpans,Expr.mapSpansOption,TypeRef.mapSpans,fill,build] at same ⊢
    rw [same,alike]
  · have ran := ExprLevel.creation_run listed (some t) t.span.start class' (ends.stops.resolve_left Bool.false_ne_true) stop
    have step := @ExprLevel.postfixStep_create exprReaders (p + inside.words.length)
      (type.print ++ .parenOpen :: (joined args ++ .parenClose :: rest)) t
    rw [ran] at step
    rw [← step]
    simp

theorem primary_created (class' : type.Regular) (firm : ∀ arg ∈ front ++ inside :: behind, arg.Firm) :
    ((created none type front behind).fill inside).Primary := by
  intro p
  obtain ⟨list,alike,listed⟩ := listed _ firm (p + 1 + type.print.length + 1)
  have stop : p + 1 + type.print.length + ((joined (front ++ inside :: behind)).length + 2) =
      p + ((created none type front behind).fill inside).words.length := by
    simp [qualifying,joined_around]
    omega
  have words (rest : List Token) : ((created none type front behind).fill inside).words ++ rest = word "new" ::
      (type.print ++ .parenOpen :: (joined (front ++ inside :: behind) ++ .parenClose :: rest)) := by
    simp [qualifying,joined_around]
  refine ⟨.create none ⟨type.text,Expr.spanning (p + 1) type.print.length⟩ list [] none none
    (.upTo (2 * p + 1) (2 * (p + ((created none type front behind).fill inside).words.length))),?_,fun rest ends => ?_⟩
  · simp only [Expr.bare,Expr.mapSpans,Expr.mapSpansOption,TypeRef.mapSpans,fill,build,alike]
    simp [Expr.mapSpansOption]
  · rw [words,ExprLevel.primary_word,if_pos rfl,ExprLevel.creation_run listed none (2 * p + 1) class'
      (ends.stops.resolve_left Bool.false_ne_true) stop]

theorem primary_paren (firm : inside.Firm) : (paren.fill inside).Primary := by
  intro p
  obtain ⟨t,same,read⟩ := firm.expr (p + 1)
  have stop : p + 1 + inside.words.length + 1 = p + (paren.fill inside).words.length := by
    simp
    omega
  have words (rest : List Token) :
      (paren.fill inside).words ++ rest = .parenOpen :: (inside.words ++ .parenClose :: rest) := by
    simp
  refine ⟨.paren t (.upTo (2 * p + 1) (2 * (p + (paren.fill inside).words.length))),?_,fun rest ends => ?_⟩
  · simp only [Expr.bare,Expr.mapSpans,fill,build] at same ⊢
    rw [same]
  · have plain : t.isPrimitive = false := (Expr.isPrimitive_of_bare same).trans firm.plain
    rw [words,ExprLevel.primary_paren plain (read (.parenClose :: rest) (.cons (by decide) _))
      (ends.stops.resolve_left Bool.false_ne_true) stop]

end

/-! Operators. -/

section

variable {op : BinaryOp} {right yes no value : Phrase} {type : TypeRef} {least : Nat}

open Phrase

theorem unary_prefixed (op : UnaryOp) (unary : inside.Taken exprReaders.unary 12) :
    ((prefixed op).fill inside).Taken exprReaders.unary 12 := by
  intro p
  obtain ⟨t,same,read⟩ := unary (p + 1)
  have level : exprReaders.unary = ExprLevel.unary exprReaders := congrArg ExprReaders.unary Parser.exprReaders_unfold
  refine ⟨.unary op true t (.upTo (2 * p + 1) t.span.stop),?_,fun rest stops => ?_⟩
  · simp only [Expr.bare,Expr.mapSpans,fill,build] at same ⊢
    rw [same]
  · have stop : p + 1 + inside.words.length = p + ((prefixed op).fill inside).words.length := by
      simp
      omega
    have words : ((prefixed op).fill inside).words ++ rest = op.token :: (inside.words ++ rest) := by
      simp
    rw [words,level,ExprLevel.unary_op,read rest stops,stop]

theorem operators_leftOf (left : inside.Operators least) (before : op.precedence + 1 ≤ inside.rank)
    (untested : op = .less → inside.value.isInstanceOf = false) (second : right.Firm)
    (behind : op.precedence + 1 < right.rank) (tight : least ≤ op.precedence) :
    ((leftOf op right).fill inside).Operators least := by
  have low := op.precedence_le
  have reach := ExprLevel.reach_token op
  have opens (rest : List Token) : ExprLevel.Behind inside.value (op.token :: rest) := by
    refine ⟨.cons (by omega) _,.cons ?_ _,fun tested => .cons _ ?_⟩
    · have : op.precedence + 1 ≤ inside.value.rank := before
      omega
    · cases op <;> first | decide | simp [untested rfl] at tested
  refine left.extend rfl (List.cons_ne_nil _ _) (fun _ _ => opens _) fun t p same => ?_
  have operand : right.Taken (exprReaders.binary (op.precedence + 1)) (op.precedence + 2) :=
    second.binary (Nat.le_add_left 1 _) (by omega) behind
  obtain ⟨other,alike,read⟩ := operand (p + inside.words.length + 1)
  have stop : p + inside.words.length + 1 + right.words.length = p + ((leftOf op right).fill inside).words.length := by
    simp
    omega
  refine ⟨.binary op t other (.upTo t.span.start other.span.stop),?_,fun rest given => ?_⟩
  · simp only [Expr.bare,Expr.mapSpans,fill,build] at same alike ⊢
    rw [same,alike]
  · have ran := read rest given.stops
    change binaryStep exprReaders least t ⟨p + inside.words.length,op.token :: (right.words ++ rest)⟩ = _
    rw [ExprLevel.binaryStep_op t tight,ran,stop]

theorem operators_tested (operand : inside.Operators least) (tested : type.Regular) (tight : 8 ≤ inside.rank)
    (low : least ≤ 7) : ((Frame.tested type).fill inside).Operators least := by
  have reach : (word "instanceof").reach = 9 := by decide
  have opens (rest : List Token) : ExprLevel.Behind inside.value (word "instanceof" :: rest) :=
    ⟨.cons (by decide) _,.cons (by have : 8 ≤ inside.value.rank := tight; omega) _,fun _ => .cons _ (by decide)⟩
  refine operand.extend rfl (List.cons_ne_nil _ _) (fun _ _ => opens _) fun t p same => ?_
  have stop : p + inside.words.length + 1 + type.print.length = p + ((Frame.tested type).fill inside).words.length := by
    simp
    omega
  refine ⟨.instanceOf t ⟨type.text,Expr.spanning (p + inside.words.length + 1) type.print.length⟩
    (.upTo t.span.start (2 * (p + ((Frame.tested type).fill inside).words.length))),?_,fun rest given => ?_⟩
  · simp only [Expr.bare,Expr.mapSpans,TypeRef.mapSpans,fill,build] at same ⊢
    rw [same]
  · exact ExprLevel.binaryStep_test t tested low given.stops (given.unbound rfl) stop

theorem conditional_deciding (condition : inside.Firm) (before : 2 ≤ inside.rank) (second : yes.Firm) (third : no.Firm)
    (behind : 1 ≤ no.rank) : ((deciding yes no).fill inside).Taken exprReaders.conditional 1 := by
  intro p
  obtain ⟨asked,same,read⟩ := condition.binary (Nat.le_refl 1) (by decide) before p
  obtain ⟨chosen,alike,reads⟩ := second.expr (p + inside.words.length + 1)
  obtain ⟨other,equal,ends⟩ := third.conditional behind (p + inside.words.length + 1 + yes.words.length + 1)
  have level : exprReaders.conditional = ExprLevel.conditional exprReaders :=
    congrArg ExprReaders.conditional Parser.exprReaders_unfold
  have first : exprReaders.binary 1 = ExprLevel.binary exprReaders 1 :=
    congrFun (congrArg ExprReaders.binary Parser.exprReaders_unfold) 1
  have stop : p + inside.words.length + 1 + yes.words.length + 1 + no.words.length =
      p + ((deciding yes no).fill inside).words.length := by
    simp
    omega
  refine ⟨.conditional asked chosen other (.upTo asked.span.start other.span.stop),?_,fun rest stops => ?_⟩
  · simp only [Expr.bare,Expr.mapSpans,fill,build] at same alike equal ⊢
    rw [same,alike,equal]
  · have words : ((deciding yes no).fill inside).words ++ rest =
        inside.words ++ .question :: (yes.words ++ .colon :: (no.words ++ rest)) := by
      simp
    rw [words,level,ExprLevel.conditional,run_bind,← first,read _ (.cons (by decide) _),run_bind,
      eat_seen .question .question rfl]
    simp only [if_true]
    rw [run_bind,reads _ (.cons (by decide) _),run_bind,run_discard,expect_seen .colon .colon rfl,run_bind,
      ends rest stops,run_pure,stop]

theorem expr_assigned (op : AssignOp) (target : inside.Taken exprReaders.conditional 1) (second : value.Firm) :
    ((assigned op value).fill inside).Taken exprReaders.expr 0 := by
  intro p
  obtain ⟨t,same,read⟩ := target p
  obtain ⟨other,alike,ends⟩ := second.expr (p + inside.words.length + 1)
  have level : exprReaders.expr = ExprLevel.expr exprReaders := congrArg ExprReaders.expr Parser.exprReaders_unfold
  have first : exprReaders.conditional = ExprLevel.conditional exprReaders :=
    congrArg ExprReaders.conditional Parser.exprReaders_unfold
  have stop : p + inside.words.length + 1 + value.words.length = p + ((assigned op value).fill inside).words.length := by
    simp
    omega
  refine ⟨.assign op t other (.upTo t.span.start other.span.stop),?_,fun rest stops => ?_⟩
  · simp only [Expr.bare,Expr.mapSpans,fill,build] at same alike ⊢
    rw [same,alike]
  · have words : ((assigned op value).fill inside).words ++ rest = inside.words ++ op.token :: (value.words ++ rest) := by
      simp
    rw [words,level,ExprLevel.expr,run_bind,← first,read _ (.cons (by cases op <;> decide) _),run_bind,run_get]
    simp only [Cursor.next?,List.head?_cons,Option.bind_some,ExprLevel.assignOp_token]
    rw [run_bind,run_skip,run_bind,ends rest stops,run_pure,stop]

end

/-! An open part that is not the first one changes places with the first one. -/

section

variable {op : BinaryOp} {left condition yes no callee array target outer : Phrase} {front behind : List Phrase}

theorem fill_rightOf : (rightOf left op).fill inside = (leftOf op inside).fill left := by
  simp

theorem fill_argument : (argument callee front behind).fill inside = (called (front ++ inside :: behind)).fill callee := by
  simp [Phrase.joined_around]

theorem fill_created (type : TypeRef) : (created (some outer) type front behind).fill inside =
    (creating type (front ++ inside :: behind)).fill outer := by
  simp [qualifying,Phrase.joined_around]

theorem fill_elementAt : (elementAt array).fill inside = (elementOf inside).fill array := by
  simp

theorem fill_chosen : (chosen condition no).fill inside = (deciding inside no).fill condition := by
  simp

theorem fill_otherwise : (otherwise condition yes).fill inside = (deciding yes inside).fill condition := by
  simp

theorem fill_assigning (op : AssignOp) : (assigning target op).fill inside = (assigned op inside).fill target := by
  simp

end

/-! With firm parts the whole is firm. -/

section

variable (first : inside.Firm)
include first

/-- An open part that comes first brings the first token. -/
theorem opens_first {primary : Prop} (need : primary → 13 ≤ inside.rank) (nothing : frame.before = []) :
    Expr.Opens primary (frame.fill inside).words := by
  rw [fill,nothing,List.nil_append]
  exact first.opens.append need _

theorem firm_leftOf {op : BinaryOp} {right : Phrase} (before : op.precedence + 1 ≤ inside.rank)
    (untested : op = .less → inside.value.isInstanceOf = false) (second : right.Firm)
    (behind : op.precedence + 1 < right.rank) : ((leftOf op right).fill inside).Firm := by
  refine .of_operators rfl (opens_first first False.elim rfl) (Nat.succ_le_succ op.precedence_pos)
    (Nat.succ_le_succ op.precedence_le) fun least some high => ?_
  have tight : least ≤ op.precedence := Nat.le_of_succ_le_succ high
  exact operators_leftOf (first.operators least some (by omega)) before untested second behind tight

theorem firm_called {args : List Phrase} (calls : isCallee inside.value = true) (others : ∀ arg ∈ args, arg.Firm) :
    ((called args).fill inside).Firm := by
  have tight : 13 ≤ inside.rank := Expr.rank_of_isCallee calls
  exact .of_primary rfl (opens_first first (fun _ => tight) rfl) (Nat.le_refl 13)
    (primary_called (first.primary tight) calls others)

theorem firm_creating {type : TypeRef} {args : List Phrase} (tight : 13 ≤ inside.rank) (created : type.Regular)
    (others : ∀ arg ∈ args, arg.Firm) : ((creating type args).fill inside).Firm :=
  .of_primary rfl (opens_first first (fun _ => tight) rfl) (Nat.le_refl 13)
    (primary_creating (first.primary tight) created others)

theorem firm_elementOf {position : Phrase} (tight : 13 ≤ inside.rank) (filled : ¬ inside.isUnfilled)
    (second : position.Firm) : ((elementOf position).fill inside).Firm :=
  .of_primary rfl (opens_first first (fun _ => tight) rfl) (Nat.le_refl 13)
    (primary_elementOf (first.primary tight) filled second)

theorem firm_deciding {yes no : Phrase} (before : 2 ≤ inside.rank) (second : yes.Firm) (third : no.Firm)
    (behind : 1 ≤ no.rank) : ((deciding yes no).fill inside).Firm :=
  .of_conditional rfl (opens_first first False.elim rfl) rfl (conditional_deciding first before second third behind)

theorem firm_assigned {op : AssignOp} {value : Phrase} (before : 1 ≤ inside.rank) (second : value.Firm) :
    ((assigned op value).fill inside).Firm :=
  .of_expr rfl (opens_first first False.elim rfl) rfl (expr_assigned op (first.conditional before) second)

theorem firm_among {front behind : List Phrase} (others : ∀ arg ∈ front ++ behind, arg.Firm) :
    ∀ arg ∈ front ++ inside :: behind, arg.Firm := by
  intro arg member
  rcases List.mem_append.mp member with before | here
  · exact others arg (List.mem_append_left _ before)
  · rcases List.mem_cons.mp here with rfl | after
    · exact first
    · exact others arg (List.mem_append_right _ after)

/-- A firm part that its place does not ask too much of makes the whole firm. -/
theorem firm (fits : frame.Fits inside) : (frame.fill inside).Firm := by
  cases frame with
  | prefixed op =>
    exact .of_unary rfl ⟨op.token,_,rfl,by cases op <;> decide,False.elim⟩ rfl (unary_prefixed op (first.unary fits))
  | counted op =>
    obtain ⟨tight,counts⟩ := fits
    exact .of_primary rfl (opens_first first (fun _ => tight) rfl) (Nat.le_refl 13)
      (primary_counted (first.primary tight) counts)
  | leftOf op right =>
    obtain ⟨before,untested,second,behind⟩ := fits
    exact firm_leftOf first before untested second behind
  | rightOf left op =>
    obtain ⟨behind,other,before,untested⟩ := fits
    exact fill_rightOf ▸ firm_leftOf other before untested first behind
  | tested type =>
    obtain ⟨tight,known⟩ := fits
    refine .of_operators rfl (opens_first first False.elim rfl) (by change 2 ≤ 8; decide) (by change 8 ≤ 11; decide)
      fun least some high => ?_
    have low : least ≤ 7 := Nat.le_of_succ_le_succ high
    exact operators_tested (first.operators least some (by omega)) known tight low
  | member name =>
    obtain ⟨tight,free⟩ := fits
    exact .of_primary rfl (opens_first first (fun _ => tight) rfl) (Nat.le_refl 13)
      (primary_member (first.primary tight) free)
  | called args => exact firm_called first fits.1 fits.2
  | argument callee front behind =>
    obtain ⟨other,calls,others⟩ := fits
    exact fill_argument ▸ firm_called other calls (firm_among first others)
  | creating type args => exact firm_creating first fits.1 fits.2.1 fits.2.2
  | created outer type front behind =>
    obtain ⟨around,known,others⟩ := fits
    have all := firm_among first others
    cases outer with
    | none => exact .of_primary rfl ⟨_,_,rfl,by decide,fun _ => rfl⟩ (Nat.le_refl 13) (primary_created known all)
    | some outer =>
      obtain ⟨other,tight⟩ := around outer rfl
      exact fill_created type ▸ firm_creating other tight known all
  | elementOf position => exact firm_elementOf first fits.1 fits.2.1 fits.2.2
  | elementAt array =>
    obtain ⟨other,tight,filled⟩ := fits
    exact fill_elementAt ▸ firm_elementOf other tight filled first
  | deciding yes no => exact firm_deciding first fits.1 fits.2.1 fits.2.2.1 fits.2.2.2
  | chosen condition no =>
    obtain ⟨other,before,third,behind⟩ := fits
    exact fill_chosen ▸ firm_deciding other before first third behind
  | otherwise condition yes =>
    obtain ⟨behind,other,before,second⟩ := fits
    exact fill_otherwise ▸ firm_deciding other before second first behind
  | paren => exact .of_primary rfl ⟨_,_,rfl,by decide,fun _ => rfl⟩ (Nat.le_refl 13) (primary_paren first)
  | assigned op value => exact firm_assigned first fits.1 fits.2
  | assigning target op =>
    obtain ⟨other,before⟩ := fits
    exact fill_assigning op ▸ firm_assigned other before first

end

end Frame

end Transplant.Java
