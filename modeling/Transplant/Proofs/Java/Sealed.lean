import Transplant.Proofs.Java.Firm
import Transplant.Proofs.Java.Keeps

/-! Expressions with nothing open at their right end. What is read up to the last token of such an expression
is read again before any token that does not continue it: every bracket and every name that it ends with
has been read, so nothing behind it was looked for. -/
namespace Transplant.Java

open Relation (ReflTransGen)
open Token (Kind)

namespace Expr

mutual

/-- Whether no part of the expression is missing. -/
def isComplete : Expr → Bool
  | .name _ _ => true
  | .literal _ _ _ => true
  | .this _ => true
  | .super _ => true
  | .missing _ => false
  | .call callee args _ => callee.isComplete && allComplete args
  | .create outer _ args dims initializer _ _ =>
    optionComplete outer && allComplete args && allComplete dims && optionComplete initializer
  | .field receiver _ _ => receiver.isComplete
  | .index array position _ => array.isComplete && position.isComplete
  | .unary _ _ operand _ => operand.isComplete
  | .binary _ left right _ => left.isComplete && right.isComplete
  | .instanceOf operand _ _ => operand.isComplete
  | .assign _ left right _ => left.isComplete && right.isComplete
  | .conditional condition yes no _ => condition.isComplete && yes.isComplete && no.isComplete
  | .paren inner _ => inner.isComplete
  | .arrayInit elements _ => allComplete elements

def allComplete : List Expr → Bool
  | [] => true
  | first :: rest => first.isComplete && allComplete rest

def optionComplete : Option Expr → Bool
  | none => true
  | some value => value.isComplete

end

/-- Whether the expression is held together by an operator that stands between its operands. -/
def isOperation : Expr → Bool
  | .binary _ _ _ _ => true
  | .instanceOf _ _ _ => true
  | .assign _ _ _ _ => true
  | .conditional _ _ _ _ => true
  | _ => false

/-- Whether nothing is open where the expression ends: no member, bracket or quote is missing there, and it
does not end with a type. -/
def isSealed : Expr → Bool
  | .literal kind value _ => kind.isSpelled value
  | .create _ type _ dims _ _ span => type.span.stop < span.stop && dims.all (·.span.stop < span.stop)
  | .field _ member _ => member.text != ""
  | .index _ position span => position.span.stop < span.stop
  | .unary _ true operand _ => operand.isSealed
  | .paren inner span => inner.span.stop < span.stop && !inner.isPrimitive
  | e => !e.isPrimitive

theorem allComplete_append (front behind : List Expr) :
    allComplete (front ++ behind) = (allComplete front && allComplete behind) := by
  induction front with
  | nil => rfl
  | cons first rest ih => simp [allComplete,ih,Bool.and_assoc]

/-- The expression is a whole one that ends before token `j`, and is not continued by the other tokens from
there on. -/
structure Final (tokens other : List Token) (e : Expr) (j : Nat) : Prop where
  complete : e.isComplete = true
  closed : e.isSealed = true
  inside : j < tokens.length
  ends : e.Ends (tokens.take j) (other.drop j)

/-- The expressions are complete and end before the end of the last token in front of token `j`. -/
def AllClosed (list : List Expr) (j : Nat) : Prop := allComplete list = true ∧ ∀ e ∈ list, e.span.stop < 2 * j

theorem AllClosed.behind {front behind : List Expr} {j : Nat} (closed : AllClosed (front ++ behind) j) :
    AllClosed behind j := by
  obtain ⟨complete,short⟩ := closed
  rw [allComplete_append,Bool.and_eq_true] at complete
  exact ⟨complete.2,fun e member => short e (List.mem_append_right _ member)⟩

end Expr

variable {tokens other : List Token} {i j k : Nat}

theorem Reads.pure_incomplete (list : List Expr) {e : Expr} (none : e.isComplete = false) :
    Reads tokens (Pure.pure (list ++ [e])) i fun all _ => Expr.allComplete all = false :=
  .pure (by simp [Expr.allComplete_append,Expr.allComplete,none])

namespace ExprLevel

open Java.Parser (exprReaders exprReaders_confined)

theorem unread_missing (close : Kind) : Reads tokens (unread close) i fun e _ => e.isComplete = false :=
  .nextStart (.bind (.skipOutside _ _) fun _ _ _ _ => .spanFrom (.pure rfl))

theorem argList_keeps : Keeps tokens other (argList exprReaders) i fun args j =>
    Expr.allComplete args = true ∧ j < tokens.length := by
  refine .bind Confined.expect.discard fun _ k _ =>
    .bind (.separated .args fun l _ => (exprReaders_confined l).expr) fun args l _ => .get (fun agree => ?_) ?_
  · simp only [agree.atEnd,agree.sees]
  refine .ite (fun closed => ?_) fun _ => .never ?_
  · simp only [Bool.or_eq_true,Cursor.on_atEnd_iff,Cursor.on_sees_iff] at closed
    refine .pure (.closing (by decide) (fun _ => .pure fun _ => ⟨rfl,rfl⟩) fun unseen => .pure fun ended => ?_)
    exact closed.elim (fun atEnd => absurd ended.2 (Nat.not_lt.mpr atEnd)) unseen
  · refine .bind (unread_missing _) fun e m none _ => .bind (.pure_incomplete args none) fun all _ none _ => ?_
    exact .bind Reads.expect.discard fun _ _ _ _ => .pure (by simp [none])

theorem arrayInit_keeps : Keeps tokens other (arrayInit exprReaders) i fun e _ => e.isComplete = true := by
  refine .bind Confined.expect fun brace k _ =>
    .bind (.separated .elements fun l _ => (exprReaders_confined l).initializer) fun elements l _ => ?_
  refine .sees (fun seen => ?_) fun _ => .never ?_
  · refine .pure ?_
    exact .closing (by decide) (fun _ => .spanFrom (.pure fun _ => ⟨rfl,rfl⟩)) fun unseen => absurd seen unseen
  · refine .bind (unread_missing _) fun e m none _ => .bind (.pure_incomplete elements none) fun all _ none _ => ?_
    exact .bind Reads.expect.discard fun _ _ _ _ => .spanFrom (.pure (by simp [Expr.isComplete,none]))

theorem parenthesized_keeps (start : Nat) (low : start ≤ 2 * i) :
    Keeps tokens other (parenthesized exprReaders start) i (Expr.Final tokens other) := by
  refine .follow Parser.expr_reads (exprReaders_confined i).expr fun content k read _ => ?_
  have cast (j : Nat) : Reads tokens (do
      let operand ← exprReaders.unary
      return Expr.missing (.upTo start operand.span.stop)) j fun e _ => e.isComplete = false :=
    .bind (Parser.exprReaders_on j).unary.reads fun _ _ _ _ => .pure rfl
  refine .closing (by decide) (fun seen => ?_) fun _ => ?_
  · refine .get (.ite (fun _ => (cast _).mono fun e _ none _ final => ?_) fun plain =>
      .spanFrom (.pure fun final => ⟨rfl,?_⟩))
    · exact absurd final.complete (by simp [none])
    · have closed := final.closed
      simp only [Expr.isSealed,Bool.and_eq_true,Bool.not_eq_true'] at closed
      have again := castFollows_stops closed.2 (final.ends.stops.resolve_left Bool.false_ne_true)
      change (ite (castFollows content (Cursor.on other (k + 1)).next? = true) _ _ : Parser Expr) _ = _
      rw [if_neg (by simpa [Cursor.next?,Cursor.on] using again)]
      rfl
  · refine .get (.ite (fun _ => (cast _).mono fun e _ none _ final => ?_) fun _ => .spanFrom (.pure fun final => ?_))
    · exact absurd final.complete (by simp [none])
    · have closed := final.closed
      simp only [Expr.isSealed,Span.upTo,Bool.and_eq_true] at closed
      have short := of_decide_eq_true closed.1
      have := read.stop
      have := read.le
      omega

/-- A length in brackets, if there is one, and the bracket behind it. -/
theorem arrayDim_keeps : Keeps tokens other (arrayDim exprReaders) i fun found j =>
    ∃ length, found = some length ∧ Expr.AllClosed length.toList j := by
  refine .eat (fun _ => ?_) fun _ => .never (.pure fun ⟨_,same,_⟩ => by cases same)
  refine .sees (fun seen => .pure ?_) fun _ => ?_
  · exact .closing (by decide) (fun _ => .pure fun _ => ⟨rfl,rfl⟩) fun unseen => absurd seen unseen
  · refine .follow Parser.expr_reads (exprReaders_confined _).expr fun e k read _ => .pure ?_
    refine .closing (by decide) (fun _ => .pure fun _ => ⟨rfl,rfl⟩) fun _ => .pure ?_
    rintro ⟨_,⟨⟩,closed⟩
    have := closed.2 e (by simp)
    have := read.stop
    omega

theorem arrayDim_ends : Reads tokens (arrayDim exprReaders) i fun found j =>
    (found = none → j = i) ∧
      ∀ length, found = some length → Expr.AllClosed length.toList j → Seen tokens (j - 1) .bracketClose := by
  refine .eat (fun _ => ?_) fun _ => .pure ⟨fun _ => rfl,nofun⟩
  have closing (length : Option Expr) (k : Nat) (short : ∀ e ∈ length, 2 * k ≤ e.span.stop)
      (given : length = none → Seen tokens k .bracketClose) :
      Reads tokens (do discard (Parser.expect .bracketClose); return some length) k fun found j =>
        (found = none → j = i) ∧
          ∀ length, found = some length → Expr.AllClosed length.toList j → Seen tokens (j - 1) .bracketClose := by
    refine .bind Reads.expect.discard fun _ j ⟨_,known⟩ _ => .pure ⟨nofun,?_⟩
    rintro _ ⟨⟩ closed
    rcases known with ⟨token,found,same,_,rfl⟩ | ⟨unseen,_,rfl⟩
    · exact ⟨token,found,same⟩
    · cases length with
      | none => exact absurd (given rfl) unseen
      | some e =>
        have := closed.2 e (by simp)
        have := short e rfl
        omega
  refine .sees (fun seen => closing none _ nofun fun _ => seen) fun _ => ?_
  exact .bind Parser.expr_reads fun e k read _ => closing (some e) k (fun _ same => by cases same; exact read.stop.1) nofun

/-- The lengths end before a token that is no opening bracket. -/
theorem arrayDims_keeps : Reads tokens (arrayDims exprReaders) i fun dims j => j = i ∨
    (Expr.AllClosed (dims.filterMap id) j → Seen tokens (j - 1) .bracketClose ∧ Before tokens i j ∧
      ((∀ k < j, tokens[k]? = other[k]?) → Lacks .bracketOpen (other.drop j) →
        arrayDims exprReaders (.on other i) = (dims,.on other j))) := by
  refine (Looped.lengths.reads i).mono fun dims j runs bound => ?_
  obtain ⟨list,k,chain,ended,on⟩ := runs.chain
  obtain ⟨nothing,rfl⟩ := Loop.many_done ended
  obtain rfl : j = k := (arrayDim_ends.known (Nat.le_trans on bound) nothing).1 rfl
  have turns (held : List (Option Expr)) (k : Nat) : Confined tokens other ((Loop.many (arrayDim exprReaders)).turn held) k :=
    .bind (arrayDim_confined fun l _ => exprReaders_confined l) fun found _ _ => by cases found <;> exact .pure _
  have part {mid : List (Option Expr)} {length : Option Expr} (same : mid ++ [length] = list)
      (closed : Expr.AllClosed (list.filterMap id) j) : Expr.AllClosed length.toList j := by
    rw [← same,List.filterMap_append] at closed
    cases length <;> exact closed.behind
  rcases Relation.ReflTransGen.cases_tail chain with same | ⟨⟨mid,k⟩,front,turned,further,inside⟩
  · exact .inl (congrArg Prod.snd same)
  · refine .inr fun closed => ?_
    have kept (mid : List (Option Expr)) (k : Nat) : Keeps tokens other ((Loop.many (arrayDim exprReaders)).turn mid) k
        fun turn l => turn = .again list ∧ l = j := by
      refine .last arrayDim_keeps fun found l => ?_
      cases found with
      | none => exact .pure fun ends => by cases ends.1
      | some length =>
        refine .pure fun ⟨same,place⟩ => ⟨rfl,⟨length,rfl,?_⟩,rfl⟩
        exact place ▸ part (Turn.again.inj same) closed
    have last : Seen tokens (j - 1) .bracketClose := by
      obtain ⟨length,does,same⟩ := Loop.many_again turned
      exact (arrayDim_ends.known (Nat.le_trans (Nat.le_of_lt further) inside) does).2 length rfl (part same closed)
    rcases Loop.Advance.keeps turns chain fun mid k _ => kept mid k with ⟨_,same⟩ | ⟨before,again⟩
    · have := Loop.Advance.le front
      simp only at further this
      omega
    · refine ⟨last,before,fun same flat => ?_⟩
      have nothing : arrayDim exprReaders (.on other j) = (none,.on other j) := by
        rw [arrayDim,Parser.run_bind,Cursor.on,Parser.eat_lacking flat]
        rfl
      have runs := Loop.Runs.of_chain (again same) (Loop.many_ends nothing) (Nat.le_refl j) (inside_of_front same bound)
      rw [arrayDims_eq,← Loop.read_many]
      exact runs.read

theorem last_of_seen (seen : Seen tokens (j - 1) kind) (some : 0 < j) :
    ∃ token ∈ (tokens.take j).getLast?, token.kind = kind := by
  obtain ⟨token,found,same⟩ := seen
  refine ⟨token,?_,same⟩
  rw [List.getLast?_take,if_neg (by omega),found]
  rfl

theorem creation_keeps (outer : Option Expr) (start : Nat) (low : start ≤ 2 * i) :
    Keeps tokens other (creation exprReaders outer start) i (Expr.Final tokens other) := by
  refine .bind (.skipNested _ _) fun _ k on => .follow Reads.typeRefOrEmpty .typeRefOrEmpty
    fun type l ⟨further,_,reach,_⟩ _ => .sees (fun seen => ?_) fun _ => ?_
  · refine .optional argList_keeps (argList_confined (fun m _ => exprReaders_confined m) seen) fun args m _ => ?_
    by_cases brace : Seen tokens m .braceOpen
    · refine .inl (.nextStart (.sees (fun _ => ?_) fun unseen => absurd brace unseen))
      exact .last (.skipNested (by decide) (by decide) brace) fun _ j =>
        .spanFrom (.spanFrom (.pure fun final => ⟨rfl,final.inside,rfl⟩))
    · refine .inr (.nextStart (.sees (fun seen => absurd seen brace) fun _ => .spanFrom (.pure fun final => ?_)))
      have complete := final.complete
      simp only [Expr.isComplete,Bool.and_eq_true] at complete
      have lacks : Lacks .braceOpen (other.drop m) :=
        (final.ends.stops.resolve_left Bool.false_ne_true).lacks (by decide)
      refine ⟨rfl,⟨complete.1.1.2,final.inside⟩,?_⟩
      rw [Parser.run_bind,Cursor.on,Parser.run_nextStart,Parser.run_bind,Parser.run_sees]
      simp only [Parser.sees_lacking lacks]
      rfl
  · have dims : Keeps tokens other (arrayDims exprReaders) l fun dims m => Expr.AllClosed (dims.filterMap id) m ∧ m ≠ l ∧
        (Seen tokens (m - 1) .bracketClose → Lacks .bracketOpen (other.drop m)) := by
      refine (@arrayDims_keeps tokens other l).mono fun dims m given _ ends => ?_
      obtain ⟨closed,moved,flat⟩ := ends
      obtain ⟨last,before,again⟩ := given.resolve_left moved closed
      exact ⟨before,fun front => again front (flat last)⟩
    refine .optional dims (arrayDims_confined fun m _ => exprReaders_confined m) fun dims m _ => ?_
    by_cases brace : Seen tokens m .braceOpen
    · refine .inl (.sees (fun _ => ?_) fun unseen => absurd brace unseen)
      refine .last arrayInit_keeps fun e j => ?_
      change Reads tokens (Parser.spanFrom start >>= fun span =>
        pure (Expr.create outer type [] (dims.filterMap id) (some e) none span)) j _
      refine .spanFrom (.pure fun final => ?_)
      have complete := final.complete
      simp only [Expr.isComplete,Expr.optionComplete,Bool.and_eq_true] at complete
      exact ⟨rfl,complete.2,rfl⟩
    · refine .inr (.sees (fun seen => absurd seen brace) fun _ => ?_)
      change Reads tokens (Parser.spanFrom start >>= fun span =>
        pure (Expr.create outer type [] (dims.filterMap id) none none span)) m _
      refine .spanFrom (.pure fun final => ?_)
      have complete := final.complete
      have closed := final.closed
      simp only [Expr.isComplete,Bool.and_eq_true] at complete
      simp only [Expr.isSealed,Span.upTo,Bool.and_eq_true,List.all_eq_true] at closed
      have short := of_decide_eq_true closed.1
      have lacks : Lacks .braceOpen (other.drop m) :=
        (final.ends.stops.resolve_left Bool.false_ne_true).lacks (by decide)
      refine ⟨rfl,⟨⟨complete.1.2,fun e member => ?_⟩,?_,fun last => final.ends.flat rfl (last_of_seen last ?_)⟩,?_⟩
      · have ends := of_decide_eq_true (closed.2 e member)
        omega
      · omega
      · omega
      · rw [Parser.run_bind,Cursor.on,Parser.run_sees]
        simp only [Parser.sees_lacking lacks]
        rfl

theorem primary_keeps : Keeps tokens other (primary exprReaders) i (Expr.Final tokens other) := by
  have missing (span : Span) (k : Nat) : Keeps tokens other (Pure.pure (Expr.missing span)) k (Expr.Final tokens other) :=
    .never (.pure fun final => by cases final.complete)
  refine .get (fun agree => ?_) ?_
  · rw [agree.next?]
    rfl
  split
  · exact missing _ i
  · rename_i token found
    rw [Cursor.on_next?] at found
    have here := (List.getElem?_eq_some_iff.mp found).1
    refine .ite (fun _ => missing _ i) fun _ => ?_
    cases kind : token.kind with
    | ident =>
      by_cases creates : token.text = "new"
      · simp only [if_pos creates]
        exact .passed here (creation_keeps none _ (Nat.le_succ _))
      · simp only [if_neg creates]
        exact .skip found (.pure fun _ => ⟨.inl (by rw [kind]; decide),rfl,rfl⟩)
    | number => exact .skip found (.pure fun _ => ⟨.inl (by rw [kind]; decide),rfl,rfl⟩)
    | string =>
      obtain ⟨_,text⟩ := token
      cases kind
      exact .skip found (.pure fun final => ⟨.inr ⟨.inl rfl,final.closed⟩,rfl,rfl⟩)
    | char =>
      obtain ⟨_,text⟩ := token
      cases kind
      exact .skip found (.pure fun final => ⟨.inr ⟨.inr rfl,final.closed⟩,rfl,rfl⟩)
    | parenOpen => exact .passed here (parenthesized_keeps _ (Nat.le_succ _))
    | _ => exact .passed here (missing _ _)

/-- A step comes to an expression that is a whole one. -/
theorem postfixStep_keeps (e : Expr) (low : e.span.start ≤ 2 * i + 1) :
    Keeps tokens other (postfixStep exprReaders e) i fun found j => ∃ v, found = some v ∧ Expr.Final tokens other v j := by
  refine .eat (fun _ => .eatWord ?new ?member) fun _ =>
    .sees (fun seen => .ite (fun _ => ?call) fun _ => ?_) fun _ => .ite (fun isCallee => ?none) fun _ => ?_
  case new =>
    exact .last (creation_keeps _ _ (by omega)) fun v k => .pure fun ⟨_,same,final⟩ => ⟨rfl,Option.some.inj same ▸ final,rfl⟩
  case member =>
    refine .bind (.skipNested _ _) fun _ k _ =>
      .expect (by decide) (fun member _ => .spanFrom (.pure fun _ => ⟨rfl,rfl⟩)) fun _ => ?_
    refine .spanFrom (.pure ?_)
    rintro ⟨_,⟨⟩,final⟩
    exact absurd final.closed (by simp [Expr.isSealed])
  case call =>
    refine .last argList_keeps fun args k => .spanFrom (.pure ?_)
    rintro ⟨_,⟨⟩,final⟩
    have complete := final.complete
    simp only [Expr.isComplete,Bool.and_eq_true] at complete
    exact ⟨rfl,⟨complete.2,final.inside⟩,rfl⟩
  case none => simp at isCallee
  -- No call in both cases that are left.
  all_goals
    refine .eat (fun _ => ?_) fun _ => .eatLast (by decide) (fun _ => .spanFrom (.pure fun _ => ⟨rfl,rfl⟩)) fun _ =>
      .eatLast (by decide) (fun _ => .spanFrom (.pure fun _ => ⟨rfl,rfl⟩)) fun _ => .never (.pure ?_)
    · refine .follow Parser.expr_reads (exprReaders_confined _).expr fun position k read _ => ?_
      refine .closing (by decide) (fun _ => .spanFrom (.pure fun _ => ⟨rfl,rfl⟩)) fun _ => .spanFrom (.pure ?_)
      rintro ⟨_,⟨⟩,final⟩
      have short := of_decide_eq_true final.closed
      simp only [Span.upTo] at short
      have := read.stop
      have := read.le
      omega
    · rintro ⟨_,same,_⟩
      cases same

theorem exprReaders_sound : exprReaders.Sound tokens where
  expr _ := Reads.bounded fun turns _ => (readers_sound turns).expr _
  conditional _ := Reads.bounded fun turns _ => (readers_sound turns).conditional _
  binary least _ := Reads.bounded fun turns _ => (readers_sound turns).binary least _
  unary _ := Reads.bounded fun turns _ => (readers_sound turns).unary _
  initializer _ := Reads.bounded fun turns _ => (readers_sound turns).initializer _

/-- A step that comes to nothing passes no token. Another one keeps what is missing, and ends behind some token. -/
theorem postfixStep_rests (e : Expr) : Reads tokens (postfixStep exprReaders e) i fun found j =>
    (found = none → j = i) ∧ ∀ v ∈ found, (v.isComplete = true → e.isComplete = true) ∧
      ∃ m, v.span = .upTo e.span.start (2 * m) := by
  have part {v : Expr} {j m : Nat} (whole : v.isComplete = true → e.isComplete = true)
      (place : v.span = .upTo e.span.start (2 * m)) : (some v = none → j = i) ∧
        ∀ w ∈ some v, (w.isComplete = true → e.isComplete = true) ∧ ∃ m, w.span = .upTo e.span.start (2 * m) :=
    ⟨nofun,fun w same => Option.some.inj same ▸ ⟨whole,m,place⟩⟩
  refine .eat (fun _ => .eatWord (fun word => ?new) fun _ => ?member) fun _ =>
    .sees (fun seen => .ite (fun _ => ?call) fun _ => ?_) fun _ => .ite (fun isCallee => ?none) fun _ => ?_
  case new =>
    refine .bind (creation_reads exprReaders_sound (some e) _ word) fun v m ⟨_,_,_,_,_,_,_,same,place,_⟩ _ => .pure ?_
    subst same place
    refine part ?_ rfl
    simp only [Expr.isComplete,Expr.optionComplete,Bool.and_eq_true]
    exact fun complete => complete.1.1.1
  case member => exact .bind (.skipNested _ _) fun _ _ _ _ => .bind .expect fun _ _ _ _ => .spanFrom (.pure (part id rfl))
  case call =>
    refine .bind (argList_passes seen) fun _ _ _ _ => .spanFrom (.pure (part ?_ rfl))
    exact fun complete => (Bool.and_eq_true _ _ ▸ complete).1
  case none => simp at isCallee
  -- No call in both cases that are left.
  all_goals
    refine .eat (fun _ => ?_) fun _ => .eat (fun _ => .spanFrom (.pure (part id rfl))) fun _ =>
      .eat (fun _ => .spanFrom (.pure (part id rfl))) fun _ => .pure ⟨fun _ => rfl,nofun⟩
    refine .bind Parser.expr_reads fun _ _ _ _ => .bind Reads.expect.discard fun _ _ _ _ => .spanFrom (.pure (part ?_ rfl))
    exact fun complete => (Bool.and_eq_true _ _ ▸ complete).1

/-- The steps behind a primary expression come to a whole one in front of other tokens, too. -/
theorem postfixed_keeps : Reads tokens (postfixed exprReaders) i fun e j => Expr.Final tokens other e j →
    Before tokens i j ∧ ((∀ k < j, tokens[k]? = other[k]?) →
      ReflTransGen (Parser.Onward (postfixStep exprReaders)) (primary exprReaders (.on other i)) (e,.on other j)) := by
  have kept : Keeps tokens other (primary exprReaders) i (Expr.Final tokens other) := primary_keeps
  have near : Confined tokens other (primary exprReaders) i := primary_confined fun k _ => exprReaders_confined k
  refine .bind (Reads.and (Reads.and kept near) (primary_reads exprReaders_sound))
    fun first k ⟨⟨alone,_,again⟩,read⟩ within => ?_
  refine (Looped.accesses first).reads k |>.mono fun e j runs bound final => ?_
  obtain ⟨last,l,chain,ended,low⟩ := runs.chain
  obtain ⟨nothing,rfl⟩ := Loop.repeated_done ended
  obtain rfl : j = l := ((postfixStep_rests last).known (Nat.le_trans low bound) nothing).1 rfl
  have turns (held : Expr) (m : Nat) : Confined tokens other ((Loop.repeated (postfixStep exprReaders)).turn held) m :=
    .bind (postfixStep_confined (fun n _ => exprReaders_confined n) held) fun found _ _ => by cases found <;> exact .pure _
  -- All that is held begins with the same token.
  have reads {there : Expr × Nat} (front : ReflTransGen ((Loop.repeated (postfixStep exprReaders)).Advance tokens)
      (first,k) there) : Expr.Read tokens i there.1 there.2 := by
    induction front with
    | refl => exact read
    | tail _ step ih =>
      have turned := Loop.repeated_again step.1
      exact (postfixStep_reads exprReaders_sound _ ih).known (Nat.le_trans (Nat.le_of_lt step.2.1) step.2.2) turned
  have ends (mid : Expr) (m : Nat) (front : ReflTransGen ((Loop.repeated (postfixStep exprReaders)).Advance tokens)
      (first,k) (mid,m)) : Keeps tokens other ((Loop.repeated (postfixStep exprReaders)).turn mid) m
        fun turn l => turn = .again last ∧ l = j := by
    have start : mid.span.start = 2 * i + 1 := (reads front).start
    have order : i ≤ m := (reads front).le
    refine .last (postfixStep_keeps mid (by omega)) fun found l => ?_
    cases found with
    | none => exact .pure fun ends => by cases ends.1
    | some v => exact .pure fun ⟨same,place⟩ => ⟨rfl,⟨v,rfl,place ▸ Turn.again.inj same ▸ final⟩,rfl⟩
  rcases Loop.Advance.keeps turns chain ends with ⟨rfl,rfl⟩ | ⟨before,more⟩
  · obtain ⟨before,same⟩ := alone final
    exact ⟨before,fun front => same front ▸ .refl⟩
  · refine ⟨before.mono read.le,fun front => ?_⟩
    rw [again ((before.agree front).mono (Nat.le_refl k))]
    refine (more front).lift (fun held => (held.1,Cursor.on other held.2)) fun here there step => ?_
    refine Parser.onward (Loop.repeated_again step.1) ?_
    have := step.2
    simp only [Cursor.on,List.length_drop]
    omega

/-- In front of what ends a sum's operand, a prefix operator is read with its whole operand. -/
theorem unary_keeps : Keeps tokens other (unary exprReaders) i fun e j =>
    e.isComplete = true ∧ e.isSealed = true ∧ j < tokens.length ∧ Stops 13 (other.drop j) := by
  induction left : tokens.length - i using Nat.strongRecOn generalizing i with
  | ind count ih =>
    refine .get (fun agree => ?_) ?_
    · rw [agree.next?]
      rfl
    split
    · rename_i op found
      have inside := (operator_quiet rfl found).1
      have operand : Keeps tokens other exprReaders.unary (i + 1) fun e j =>
          e.isComplete = true ∧ e.isSealed = true ∧ j < tokens.length ∧ Stops 13 (other.drop j) := by
        rw [Parser.exprReaders_unfold]
        exact ih _ (by omega) rfl
      exact .passed inside (.last operand fun e k => .pure fun ends => ⟨rfl,ends,rfl⟩)
    · refine (@postfixed_keeps tokens other i).mono fun e j given _ ⟨complete,closed,inside,stops⟩ => ?_
      obtain ⟨before,chain⟩ := given ⟨complete,closed,inside,.inr (stops.mono (by decide)),fun _ _ => stops.lacks (by decide)⟩
      refine ⟨before,fun front => ?_⟩
      exact Parser.repeated_onward (chain front) (postfixStep_stops e stops)

/-! What is no operation is all that the reader of operands reads. -/

section

variable {post : Expr → Nat → Prop}

theorem binaryStep_operation (least : Nat) (left : Expr) (given : left.isOperation = true ∨ post left k) :
    Reads tokens (binaryStep exprReaders least left) k fun next j =>
      (next.getD left).isOperation = true ∨ post (next.getD left) j := by
  refine .get (.ite (fun tested => ?_) fun _ => ?_)
  · simp only [Bool.and_eq_true,Cursor.on_seesWord_iff] at tested
    refine .skip 1 tested.1.ident.lt (.bind skipVariableModifiers_alike.reads fun _ _ _ _ => ?_)
    refine .bind Reads.typeRefOrEmpty fun type m _ _ => .get (.ite (fun named => ?_) fun _ => .spanFrom (.pure (.inl rfl)))
    simp only [Bool.and_eq_true,Cursor.on_sees_iff] at named
    exact .skip 1 named.1.lt (.spanFrom (.pure (.inl rfl)))
  · split
    · rename_i op precedence found
      refine .ite (fun _ => .pure given) fun _ => .skip 1 (operator_quiet rfl found).1 ?_
      exact .bind ((Parser.exprReaders_on _).binary _).reads fun _ _ _ _ => .pure (.inl rfl)
    · exact .pure given

theorem expr_operation (given : Reads tokens (unary exprReaders) i post) :
    Reads tokens (expr exprReaders) i fun e j => e.isOperation = true ∨ post e j := by
  have binary : Reads tokens (binary exprReaders 1) i fun e j => e.isOperation = true ∨ post e j :=
    .bind given fun e k read _ => .repeated _ e (.inr read) fun left k => binaryStep_operation 1 left
  have conditional : Reads tokens (conditional exprReaders) i fun e j => e.isOperation = true ∨ post e j := by
    refine .bind binary fun condition k read _ => .eat (fun _ => ?_) fun _ => .pure read
    refine .bind Parser.expr_reads fun _ _ _ _ => .bind Reads.expect.discard fun _ m _ _ => ?_
    exact .bind (Parser.exprReaders_on m).conditional.reads fun _ _ _ _ => .pure (.inl rfl)
  refine .bind conditional fun left k read _ => .get ?_
  split
  · rename_i op found
    exact .skip 1 (operator_quiet rfl found).1 (.bind Parser.expr_reads fun _ _ _ _ => .pure (.inl rfl))
  · exact .pure read

end

/-- Where no prefix operator comes first, the reader of operands reads a primary expression and the steps behind it. -/
theorem unary_plain {token : Token} (found : tokens[i]? = some token) (plain : leadingOp token.kind = none) :
    unary exprReaders (.on tokens i) = postfixed exprReaders (.on tokens i) := by
  rw [unary,Parser.run_bind,Parser.run_get]
  simp only [Cursor.on_next?,found,Option.bind_some,plain]

theorem unary_leading {token : Token} {op : UnaryOp} (found : tokens[i]? = some token)
    (leads : leadingOp token.kind = some op) : (unary exprReaders (.on tokens i)).1.rank = 12 := by
  rw [unary,Parser.run_bind,Parser.run_get]
  simp only [Cursor.on_next?,found,Option.bind_some,leads]
  rfl

/-- The kinds of tokens that primary expressions begin with. -/
def openers : List Kind := [.ident,.number,.string,.char,.parenOpen]

theorem wordExpr_span (word : String) (span : Span) : (wordExpr word span).span = span := by
  unfold wordExpr
  split_ifs <;> rfl

/-- A primary expression that is complete begins with a token that opens one, and ends with the last token that
is read. -/
def Opened (tokens : List Token) (i : Nat) (e : Expr) (j : Nat) : Prop := e.isComplete = true →
  (∃ token, tokens[i]? = some token ∧ token.kind ∈ openers) ∧ i < j ∧ e.span.stop = 2 * j

theorem primary_opens : Reads tokens (primary exprReaders) i (Opened tokens i) := by
  have missing (span : Span) (j : Nat) : Opened tokens i (.missing span) j := fun complete => by cases complete
  refine .get ?_
  split
  · exact .pure (missing _ _)
  · rename_i token found
    rw [Cursor.on_next?] at found
    have here := (List.getElem?_eq_some_iff.mp found).1
    have opener (listed : token.kind ∈ openers) : ∃ token, tokens[i]? = some token ∧ token.kind ∈ openers :=
      ⟨token,found,listed⟩
    refine .ite (fun _ => .pure (missing _ _)) fun _ => ?_
    cases kind : token.kind with
    | ident =>
      by_cases creates : token.text = "new"
      · simp only [if_pos creates]
        have word : SeenWord tokens i "new" := ⟨token,found,by simp [Token.isWord,kind,creates]⟩
        refine .skip 1 here ((creation_reads exprReaders_sound none _ word).mono ?_)
        rintro _ j ⟨on,_,_,_,_,_,_,rfl,rfl,_⟩ _ _
        refine ⟨opener (by rw [kind]; decide),on,?_⟩
        simp only [Expr.span,Span.upTo,Cursor.on,Cursor.nextStart]
        omega
      · simp only [if_neg creates]
        refine .skip 1 here (.pure fun _ => ⟨opener (by rw [kind]; decide),Nat.lt_succ_self i,?_⟩)
        exact congrArg Span.stop (wordExpr_span _ _)
    | number | string | char =>
      exact .skip 1 here (.pure fun _ => ⟨opener (by rw [kind]; decide),Nat.lt_succ_self i,rfl⟩)
    | parenOpen =>
      refine .skip 1 here (.bind Parser.expr_reads fun _ k read _ => .bind Reads.expect.discard fun _ m expected _ => ?_)
      refine .get (.ite (fun _ => ?_) fun _ => .spanFrom (.pure fun _ => ?_))
      · exact .bind (Parser.exprReaders_on m).unary.reads fun _ _ _ _ => .pure (missing _ _)
      · obtain ⟨_,known⟩ := expected
        have low := read.le
        refine ⟨opener (by rw [kind]; decide),?_⟩
        simp only [Expr.span,Span.upTo,Cursor.on,Cursor.nextStart]
        rcases known with ⟨_,_,_,_,rfl⟩ | ⟨_,_,rfl⟩ <;> omega
    | _ => exact .skip 1 here (.pure (missing _ _))

theorem postfixed_opens : Reads tokens (postfixed exprReaders) i (Opened tokens i) := by
  have first : Reads tokens (primary exprReaders) i fun e j => Opened tokens i e j ∧ Expr.Read tokens i e j :=
    Reads.and primary_opens (primary_reads exprReaders_sound)
  refine (Reads.bind first fun e k given _ => .repeated _ e given fun left k ⟨opened,read⟩ => ?_).mono
    fun _ _ given _ => given.1
  have on : Reads tokens (postfixStep exprReaders left) k fun _ j => k ≤ j :=
    (postfixStep_alike (fun l _ => Parser.exprReaders_on l) left).reads
  refine (Reads.and (postfixStep_rests left) (Reads.and (postfixStep_reads exprReaders_sound left read) on)).mono
    fun next j ⟨⟨rests,keeps⟩,again,on⟩ _ => ⟨?_,again⟩
  cases next with
  | none => exact rests rfl ▸ opened
  | some next =>
    intro complete
    obtain ⟨whole,m,place⟩ := keeps next rfl
    obtain ⟨opener,further,_⟩ := opened (whole complete)
    have start := read.start
    have stop := again.stop
    simp only [Option.getD_some,place,Span.upTo] at stop ⊢
    exact ⟨opener,by omega,by omega⟩

/-- A complete operand ends with the last token that is read. -/
theorem unary_ends : Reads tokens (unary exprReaders) i fun e j => e.isComplete = true → e.span.stop = 2 * j := by
  induction left : tokens.length - i using Nat.strongRecOn generalizing i with
  | ind count ih =>
    refine .get ?_
    split
    · rename_i op found
      have inside := (operator_quiet rfl found).1
      have operand : Reads tokens exprReaders.unary (i + 1) fun e j => e.isComplete = true → e.span.stop = 2 * j := by
        rw [Parser.exprReaders_unfold]
        exact ih _ (by omega) rfl
      refine .skip 1 inside (.bind (Reads.and operand (exprReaders_sound.unary _)) fun e k ⟨ended,read⟩ _ =>
        .pure fun complete => ?_)
      have low := read.le
      change max (2 * i + 1) e.span.stop = 2 * k
      rw [ended complete]
      omega
    · exact postfixed_opens.mono fun _ _ opened _ complete => (opened complete).2.2

/-- An expression that is read alike from token `i` to before token `j`, whatever follows that does not continue it.
It begins with an operator in front of its operand, or with a token that opens a primary expression. -/
structure Settled (tokens : List Token) (i : Nat) (e : Expr) (j : Nat) : Prop where
  before : Before tokens i j
  ends : e.span.stop = 2 * j
  opens : ∃ token, tokens[i]? = some token ∧
    (token.kind ∈ openers ∨ (leadingOp token.kind).isSome = true ∧ e.rank = 12)
  primary : 13 ≤ e.rank → ∀ other : List Token, (∀ k < j, tokens[k]? = other[k]?) →
    e.Ends (tokens.take j) (other.drop j) →
    ReflTransGen (Parser.Onward (postfixStep exprReaders)) (primary exprReaders (.on other i)) (e,.on other j)
  unary : ∀ other : List Token, (∀ k < j, tokens[k]? = other[k]?) → Stops 13 (other.drop j) →
    unary exprReaders (.on other i) = (e,.on other j)

/-- A whole expression that is no operation is settled. -/
theorem expr_settled {e : Expr} (inside : i ≤ tokens.length) (ran : Parser.expr (.on tokens i) = (e,.on tokens j))
    (single : e.isOperation = false) (complete : e.isComplete = true) (closed : e.isSealed = true)
    (more : j < tokens.length) : Settled tokens i e j := by
  have unary : unary exprReaders (.on tokens i) = (e,.on tokens j) := by
    have all : Reads tokens (ExprLevel.unary exprReaders) i fun e j =>
        ExprLevel.unary exprReaders (.on tokens i) = (e,.on tokens j) :=
      (unary_reads exprReaders_sound).ran.mono fun _ _ given _ => given.2
    have same : Parser.expr = expr exprReaders := congrArg ExprReaders.expr Parser.exprReaders_unfold
    rw [same] at ran
    exact ((expr_operation all).known inside ran).resolve_left (by simp [single])
  have kept (other : List Token) (stops : Stops 13 (other.drop j)) :=
    (@unary_keeps tokens other i).known inside unary ⟨complete,closed,more,stops⟩
  have before : Before tokens i j := (kept (tokens.take j) (by simp [Stops])).1
  obtain ⟨token,found⟩ : ∃ token, tokens[i]? = some token := ⟨_,List.getElem?_eq_getElem (Nat.lt_trans before.lt more)⟩
  have plain (tight : 13 ≤ e.rank) : leadingOp token.kind = none := by
    cases leads : leadingOp token.kind with
    | none => rfl
    | some op =>
      have rank := unary_leading found leads
      rw [unary] at rank
      simp only at rank
      omega
  refine ⟨before,unary_ends.known inside unary complete,⟨token,found,?_⟩,fun tight other front ends => ?_,
    fun other front stops => (kept other stops).2 front⟩
  · cases leads : leadingOp token.kind with
    | some op =>
      have rank := unary_leading found leads
      rw [unary] at rank
      exact .inr ⟨rfl,rank⟩
    | none =>
      rw [unary_plain found leads] at unary
      obtain ⟨⟨first,same,opens⟩,_⟩ := (@postfixed_opens tokens i).known inside unary complete
      rw [found] at same
      exact .inl (Option.some.inj same ▸ opens)
  · rw [unary_plain found (plain tight)] at unary
    exact ((@postfixed_keeps tokens other i).known inside unary ⟨complete,closed,more,ends⟩).2 front

end ExprLevel

namespace Expr

variable {e other : Expr}

theorem isOperation_of_bare (same : e.bare = other.bare) : e.isOperation = other.isOperation := by
  have operation (e : Expr) : e.bare.isOperation = e.isOperation := by cases e <;> rfl
  rw [← operation e,same,operation]

theorem isCreation_of_bare (same : e.bare = other.bare) : e.isCreation = other.isCreation := by
  have creation (e : Expr) : e.bare.isCreation = e.isCreation := by cases e <;> rfl
  rw [← creation e,same,creation]

theorem isPrimitive_of_isSealed (closed : e.isSealed = true) : e.isPrimitive = false := by
  cases e with
  | name => simpa [isSealed] using closed
  | _ => rfl

theorem rank_single (single : e.isOperation = false) : e.rank = 12 ∨ 13 ≤ e.rank := by
  cases e with
  | unary op leading => cases leading <;> simp [rank]
  | binary | instanceOf | assign | conditional => cases single
  | _ => simp [rank]

end Expr

end Transplant.Java
