import Transplant.Proofs.Java.TypeRefs
import Transplant.Proofs.Java.TypeText
import Transplant.Java.Decl.Parser

/-! Reading tokens that stand behind others. The same tree is read, with its spans moved by the tokens in
front; and each type of the tree stands in the tokens with its text. -/
namespace Transplant.Java

open Token (Kind)

/-- The cursor with `count` more tokens passed. -/
def Cursor.later (count : Nat) (cursor : Cursor) : Cursor := ⟨cursor.passed + count,cursor.rest⟩

/-- A span between boundaries, behind `count` more tokens. -/
def moved (count : Nat) : Span → Span := Span.map (· + 2 * count)

/-- What is read: its spans can be changed, and it refers to types. -/
class Tree (α : Type) where
  mapSpans : (Span → Span) → α → α
  typeRefs : α → List TypeRef

/-- Without spans and types. -/
@[reducible] def Tree.leaf (α : Type) : Tree α := ⟨fun _ a => a,fun _ => []⟩

instance : Tree Unit := .leaf Unit

instance : Tree Bool := .leaf Bool

instance : Tree Nat := .leaf Nat

instance : Tree String := .leaf String

instance : Tree Modifiers := .leaf Modifiers

instance : Tree Ident := ⟨Ident.mapSpans,fun _ => []⟩

instance : Tree TypeRef := ⟨TypeRef.mapSpans,fun type => [type]⟩

instance : Tree Param := ⟨Param.mapSpans,fun param => [param.type]⟩

instance : Tree Expr := ⟨Expr.mapSpans,Expr.typeRefs⟩

instance : Tree Declarator := ⟨Declarator.mapSpans,Declarator.typeRefs⟩

instance : Tree Stmt := ⟨Stmt.mapSpans,Stmt.typeRefs⟩

instance : Tree Block := ⟨Block.mapSpans,Block.typeRefs⟩

instance : Tree Catch := ⟨Catch.mapSpans,Catch.typeRefs⟩

instance : Tree Member := ⟨Member.mapSpans,Member.typeRefs⟩

instance : Tree TypeDecl := ⟨TypeDecl.mapSpans,TypeDecl.typeRefs⟩

section

variable {α β : Type} [Tree α] [Tree β]

instance : Tree (Option α) := ⟨fun f => Option.map (Tree.mapSpans f),fun value => value.toList.flatMap Tree.typeRefs⟩

instance : Tree (List α) := ⟨fun f => List.map (Tree.mapSpans f),List.flatMap Tree.typeRefs⟩

/-- What is known holds of every type of the tree. -/
def Standing (known : TypeRef → Prop) (a : α) : Prop := ∀ type ∈ Tree.typeRefs a, known type

/-- From token `i` on a tree is read of whose types something is known; behind `count` more tokens the
other reader reads the same one, with its spans moved. -/
def Carries (known : TypeRef → Prop) (tokens : List Token) (count : Nat) (read other : Parser α) (i : Nat) : Prop :=
  Reads tokens read i fun a j => Standing known a ∧
    other ((Cursor.on tokens i).later count) = (Tree.mapSpans (moved count) a,(Cursor.on tokens j).later count)

variable {known : TypeRef → Prop} {tokens : List Token} {count i j : Nat}

theorem moved_start (span : Span) : (moved count span).start = span.start + 2 * count := rfl

theorem moved_stop (span : Span) : (moved count span).stop = span.stop + 2 * count := rfl

theorem moved_upTo (start stop : Nat) :
    moved count (.upTo start stop) = .upTo (start + 2 * count) (stop + 2 * count) := by
  simp only [moved,Span.map,Span.upTo,Span.mk.injEq,true_and]
  omega

theorem Cursor.later_skip (cursor : Cursor) (more : Nat) :
    (cursor.later count).skip more = (cursor.skip more).later count := by
  simp only [later,skip,mk.injEq,and_true]
  omega

theorem Cursor.later_next? (cursor : Cursor) : (cursor.later count).next? = cursor.next? := rfl

theorem Cursor.later_nextStart (cursor : Cursor) :
    (cursor.later count).nextStart = cursor.nextStart + 2 * count := by
  simp only [nextStart,later]
  omega

theorem Cursor.later_lastStop (cursor : Cursor) : (cursor.later count).lastStop = cursor.lastStop + 2 * count :=
  Nat.mul_add _ _ _

theorem Cursor.later_nextSpan (cursor : Cursor) : (cursor.later count).nextSpan = moved count cursor.nextSpan := by
  simp only [nextSpan,later_nextStart,moved,Span.map,Span.mk.injEq,true_and]
  omega

/-- What is expected is found alike. -/
theorem Cursor.later_expect (cursor : Cursor) (kind : Kind) : (cursor.later count).expect kind =
    ((cursor.expect kind).1.mapSpans (moved count),(cursor.expect kind).2.later count) := by
  have missing : ((⟨"",.empty (cursor.later count).lastStop⟩,cursor.later count) : Ident × Cursor) =
      ((⟨"",.empty cursor.lastStop⟩ : Ident).mapSpans (moved count),cursor.later count) := by
    rw [later_lastStop]
    rfl
  unfold expect
  rw [show (cursor.later count).rest = cursor.rest from rfl]
  split
  · split
    · rw [later_nextSpan,later_skip]
      rfl
    · exact missing
  · exact missing

namespace Standing

/-- Nothing is to be known of a tree without types. -/
theorem silent {a : α} (empty : Tree.typeRefs a = []) : Standing known a := by
  rw [Standing,empty]
  exact fun _ none => absurd none List.not_mem_nil

theorem none : Standing known (none : Option α) := silent rfl

theorem some {a : α} (standing : Standing known a) : Standing known (some a) := by
  simpa [Standing,Tree.typeRefs] using standing

theorem of_some {a : α} (standing : Standing known (Option.some a)) : Standing known a := by
  simpa [Standing,Tree.typeRefs] using standing

theorem nil : Standing known ([] : List α) := silent rfl

theorem cons {a : α} {list : List α} (first : Standing known a) (rest : Standing known list) :
    Standing known (a :: list) := by
  simpa [Standing,Tree.typeRefs] using List.forall_mem_append.mpr ⟨first,rest⟩

theorem append {first rest : List α} (front : Standing known first) (behind : Standing known rest) :
    Standing known (first ++ rest) := by
  simpa [Standing,Tree.typeRefs] using List.forall_mem_append.mpr ⟨front,behind⟩

theorem params {params : List Param} (standing : Standing known params) : ∀ param ∈ params, known param.type :=
  fun param listed => standing param.type (List.mem_flatMap.mpr ⟨param,listed,List.mem_singleton_self _⟩)

end Standing

namespace Carries

open Reads (assume)

variable {read other : Parser α} {f g : α → Parser β} {kind : Kind} {word : String} {mid : α → Nat → Prop}

theorem mono {last : α → Nat → Prop} (carries : Carries known tokens count read other i)
    (weaker : ∀ a j, Standing known a → last a j) : Reads tokens read i last :=
  Reads.mono carries fun a j given _ => weaker a j given.1

theorem inside (given : i ≤ tokens.length → Carries known tokens count read other i) :
    Carries known tokens count read other i := assume given

/-- More is known of what the first reader gives. -/
theorem follow (more : Reads tokens read i mid) (first : Carries known tokens count read other i)
    (next : ∀ a j, mid a j → Standing known a → j ≤ tokens.length →
      Carries known tokens count (f a) (g (Tree.mapSpans (moved count) a)) j) :
    Carries known tokens count (read >>= f) (other >>= g) i := by
  refine Reads.bind (Reads.and more first) fun a j ⟨given,standing,moved⟩ bound => ?_
  refine Reads.mono (next a j given standing bound) fun b k ⟨result,further⟩ _ => ⟨result,?_⟩
  change g (other _).1 (other _).2 = _
  rw [moved]
  exact further

theorem bind (first : Carries known tokens count read other i)
    (next : ∀ a j, Standing known a → Carries known tokens count (f a) (g (Tree.mapSpans (moved count) a)) j) :
    Carries known tokens count (read >>= f) (other >>= g) i :=
  follow (first.mono fun _ _ _ => trivial : Reads tokens read i fun _ _ => True) first
    fun a j _ standing _ => next a j standing

theorem pure {a b : α} (same : b = Tree.mapSpans (moved count) a) (standing : Standing known a) :
    Carries known tokens count (Pure.pure a) (Pure.pure b) i :=
  Reads.pure ⟨standing,by rw [same]; rfl⟩

theorem discard (carries : Carries known tokens count read other i) :
    Carries known tokens count (Functor.discard read) (Functor.discard other) i := by
  intro inside
  obtain ⟨a,j,ran,bound,_,moved⟩ := carries inside
  refine ⟨(),j,?_,bound,nofun,?_⟩
  · change ((),(read (.on tokens i)).2) = _
    rw [ran]
  · change ((),(other ((Cursor.on tokens i).later count)).2) = _
    rw [moved]

theorem get {f g : Cursor → Parser β}
    (next : Carries known tokens count (f (.on tokens i)) (g ((Cursor.on tokens i).later count)) i) :
    Carries known tokens count (MonadState.get >>= f) (MonadState.get >>= g) i := next

theorem set {f g : PUnit → Parser β} {k : Nat} (inside : k ≤ tokens.length)
    (next : Carries known tokens count (f ⟨⟩) (g ⟨⟩) k) :
    Carries known tokens count (MonadStateOf.set (Cursor.on tokens k) >>= f)
      (MonadStateOf.set ((Cursor.on tokens k).later count) >>= g) i := fun _ => next inside

theorem ite {p q : Prop} [Decidable p] [Decidable q] {first second first' second' : Parser α} (same : p ↔ q)
    (yes : p → Carries known tokens count first first' i) (no : ¬ p → Carries known tokens count second second' i) :
    Carries known tokens count (if p then first else second) (if q then first' else second') i := by
  by_cases holds : p
  · rw [if_pos holds,if_pos (same.mp holds)]
    exact yes holds
  · rw [if_neg holds,if_neg (mt same.mpr holds)]
    exact no holds

/-- Tokens are passed over, in a number that depends on the tokens left. -/
theorem skipBy (length : List Token → Nat) : Carries known tokens count
    (modify fun cursor : Cursor => cursor.skip (length cursor.rest))
    (modify fun cursor : Cursor => cursor.skip (length cursor.rest)) i := by
  refine assume fun inside => (Reads.skipBy length).mono fun a j stop _ => ⟨nofun,?_⟩
  change ((),((Cursor.on tokens i).later count).skip _) = _
  rw [Cursor.later_skip,stop]
  exact congrArg (fun cursor => ((),Cursor.later count cursor)) (Cursor.on_skip_min _ inside)

theorem skip {f g : Unit → Parser β} (more : Nat) (next : ∀ j, Carries known tokens count (f ()) (g ()) j) :
    Carries known tokens count (Parser.skip more >>= f) (Parser.skip more >>= g) i :=
  bind (skipBy fun _ => more) fun _ j _ => next j

theorem sees {f g : Bool → Parser β} (yes : Carries known tokens count (f true) (g true) i)
    (no : Carries known tokens count (f false) (g false) i) :
    Carries known tokens count (Parser.sees kind >>= f) (Parser.sees kind >>= g) i := by
  change Carries known tokens count (f ((Cursor.on tokens i).sees kind)) (g ((Cursor.on tokens i).sees kind)) i
  cases (Cursor.on tokens i).sees kind with
  | true => exact yes
  | false => exact no

theorem seesWord {f g : Bool → Parser β} (yes : Carries known tokens count (f true) (g true) i)
    (no : Carries known tokens count (f false) (g false) i) :
    Carries known tokens count (Parser.seesWord word >>= f) (Parser.seesWord word >>= g) i := by
  change Carries known tokens count (f ((Cursor.on tokens i).seesWord word)) (g ((Cursor.on tokens i).seesWord word)) i
  cases (Cursor.on tokens i).seesWord word with
  | true => exact yes
  | false => exact no

theorem eaten : Carries known tokens count (Parser.eat kind) (Parser.eat kind) i :=
  sees (skip 1 fun _ => pure rfl nofun) (pure rfl nofun)

theorem eat {f g : Bool → Parser β} (yes : ∀ j, Carries known tokens count (f true) (g true) j)
    (no : Carries known tokens count (f false) (g false) i) :
    Carries known tokens count (Parser.eat kind >>= f) (Parser.eat kind >>= g) i := by
  refine follow Reads.eaten eaten ?_
  rintro _ j (⟨rfl,_⟩ | ⟨rfl,_,rfl⟩) _ _
  · exact yes j
  · exact no

theorem eatenWord : Carries known tokens count (Parser.eatWord word) (Parser.eatWord word) i :=
  seesWord (skip 1 fun _ => pure rfl nofun) (pure rfl nofun)

theorem eatWord {f g : Bool → Parser β} (yes : ∀ j, Carries known tokens count (f true) (g true) j)
    (no : Carries known tokens count (f false) (g false) i) :
    Carries known tokens count (Parser.eatWord word >>= f) (Parser.eatWord word >>= g) i := by
  refine follow Reads.eatenWord eatenWord ?_
  rintro _ j (⟨rfl,_⟩ | ⟨rfl,_,rfl⟩) _ _
  · exact yes j
  · exact no

theorem expect : Carries known tokens count (Parser.expect kind) (Parser.expect kind) i := by
  intro inside
  obtain ⟨ident,j,ran,bound,_⟩ := (Reads.expect : Reads tokens (Parser.expect kind) i _) inside
  refine ⟨ident,j,ran,bound,nofun,(Cursor.later_expect _ kind).trans ?_⟩
  rw [show Cursor.expect kind (.on tokens i) = (ident,.on tokens j) from ran]
  rfl

theorem nextStart {f g : Nat → Parser β}
    (next : Carries known tokens count (f (2 * i + 1)) (g (2 * i + 1 + 2 * count)) i) :
    Carries known tokens count (Parser.nextStart >>= f) (Parser.nextStart >>= g) i := by
  change Carries known tokens count (f (2 * i + 1)) (g (2 * (i + count) + 1)) i
  rwa [show 2 * (i + count) + 1 = 2 * i + 1 + 2 * count by omega]

theorem lastStop {f g : Nat → Parser β} (next : Carries known tokens count (f (2 * i)) (g (2 * i + 2 * count)) i) :
    Carries known tokens count (Parser.lastStop >>= f) (Parser.lastStop >>= g) i := by
  change Carries known tokens count (f (2 * i)) (g (2 * (i + count))) i
  rwa [show 2 * (i + count) = 2 * i + 2 * count by omega]

theorem spanFrom {f g : Span → Parser β} {start : Nat}
    (next : ∀ span, Carries known tokens count (f span) (g (moved count span)) i) :
    Carries known tokens count (Parser.spanFrom start >>= f) (Parser.spanFrom (start + 2 * count) >>= g) i := by
  change Carries known tokens count (f (.upTo start (2 * i))) (g (.upTo (start + 2 * count) (2 * (i + count)))) i
  rw [Nat.mul_add,← moved_upTo]
  exact next _

section

variable {step step' : α → Parser (Option α)} {item item' : Parser α} {item? item?' : Parser (Option α)}
  {stops : List Kind}

theorem bounded {read read' : Nat → Parser α}
    (each : ∀ turns, Carries known tokens count (read turns) (read' turns) i) :
    Carries known tokens count (Parser.bounded read) (Parser.bounded read') i :=
  get (each _)

/-- What is known of each step's result is known of the last. -/
theorem repeatedOf (post : α → Nat → Prop) {a : α} (first : post a i)
    (standing : ∀ a k, post a k → Standing known a)
    (more : ∀ a k, post a k → Reads tokens (step a) k fun next m => post (next.getD a) m)
    (each : ∀ a k, post a k → Carries known tokens count (step a) (step' (Tree.mapSpans (moved count) a)) k) :
    Carries known tokens count (Parser.repeated step a) (Parser.repeated step' (Tree.mapSpans (moved count) a)) i := by
  refine bounded fun turns => ?_
  induction turns generalizing i a with
  | zero => exact pure rfl (standing a i first)
  | succ turns ih =>
    refine follow (more a i first) (each a i first) fun next k given _ _ => ?_
    cases next with
    | none => exact pure rfl (standing a k given)
    | some next => exact ih given

theorem repeated {a : α} (first : Standing known a)
    (each : ∀ a k, Standing known a → Carries known tokens count (step a) (step' (Tree.mapSpans (moved count) a)) k) :
    Carries known tokens count (Parser.repeated step a) (Parser.repeated step' (Tree.mapSpans (moved count) a)) i := by
  refine repeatedOf (fun a _ => Standing known a) first (fun _ _ => id) (fun a k given => ?_) each
  refine (each a k given).mono fun next m further => ?_
  cases next with
  | none => exact given
  | some next => exact further.of_some

theorem many (each : ∀ k, Carries known tokens count item? item?' k) :
    Carries known tokens count (Parser.many item?) (Parser.many item?') i := by
  refine bounded fun turns => ?_
  induction turns generalizing i with
  | zero => exact pure rfl .nil
  | succ turns ih =>
    refine bind (each i) fun next k first => ?_
    cases next with
    | none => exact pure rfl .nil
    | some a => exact bind ih fun list _ rest => pure rfl (first.of_some.cons rest)

theorem separated (each : ∀ k, Carries known tokens count item item' k) :
    Carries known tokens count (Parser.separated stops item) (Parser.separated stops item') i := by
  refine bounded fun turns => ?_
  induction turns generalizing i with
  | zero => exact pure rfl .nil
  | succ turns ih =>
    refine get (ite Iff.rfl (fun _ => pure rfl .nil) fun _ => bind (each i) fun a k first => ?_)
    refine eat (fun j => ?_) (pure rfl (first.cons .nil))
    exact bind ih fun list _ rest => pure rfl (first.cons rest)

theorem gathered (each : ∀ k, Carries known tokens count item? item?' k) :
    Carries known tokens count (Parser.gathered stops item?) (Parser.gathered stops item?') i := by
  refine bounded fun turns => ?_
  induction turns generalizing i with
  | zero => exact pure rfl .nil
  | succ turns ih =>
    refine get (ite Iff.rfl (fun _ => pure rfl .nil) fun _ => bind (each i) fun a k first => get ?_)
    have rest (l : Nat) : Carries known tokens count
        (do return a.toList ++ (← Parser.gather stops item? turns))
        (do return (Tree.mapSpans (moved count) a).toList ++ (← Parser.gather stops item?' turns)) l := by
      refine bind ih fun list _ behind => ?_
      cases a with
      | none => exact pure rfl behind
      | some a => exact pure rfl (first.of_some.cons behind)
    have same : (Cursor.on tokens k).passed = (Cursor.on tokens i).passed ↔
        ((Cursor.on tokens k).later count).passed = ((Cursor.on tokens i).later count).passed :=
      (Nat.add_right_cancel_iff ..).symm
    exact ite same (fun _ => skip 1 rest) fun _ => rest k

end

end Carries

end

end Transplant.Java
