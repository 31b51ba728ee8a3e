import Transplant.Proofs.Body.Introduced
import Transplant.Proofs.Java.Containment
import Transplant.Proofs.Java.Origins
import Transplant.Proofs.Java.TypeRefs

/-! The expressions and statements in a statement, in its span. A statement ends with a token, so it is left only by a
condition or a value at its end that is missing there, or ends with something missing. -/
namespace Transplant.Java

open Token (Kind)
open Reads

theorem Block.statements_mapSpans (f : Span → Span) (b : Block) :
    (b.mapSpans f).statements = b.statements.map (Stmt.mapSpans f) := by
  cases b
  exact Stmt.mapSpansAll_eq_map f _

theorem Catch.body_mapSpans (f : Span → Span) (clause : Catch) : (clause.mapSpans f).body = clause.body.mapSpans f := by
  cases clause
  rfl

namespace Stmt

/-- The first clause of a loop may be an expression without a semicolon. -/
def isOpen : Stmt → Bool
  | .expr value _ => value.isOpen
  | _ => false

def part (s : Stmt) : Part := ⟨s.span,s.isOpen⟩

/-- The expressions directly in a statement. -/
def values : Stmt → List Expr
  | .declare _ declarators _ => declarators.filterMap (·.initializer)
  | .expr value _ => [value]
  | .returns value _ => value.toList
  | .throws value _ => [value]
  | .ifElse condition _ _ _ => [condition]
  | .whileLoop condition _ _ => [condition]
  | .forLoop _ condition update _ _ => condition.toList ++ update
  | .forEach _ iterable _ _ => [iterable]
  | _ => []

/-- The blocks of a statement that is none itself. -/
def bodies : Stmt → List Block
  | .tryCatch body catches cleanup _ => body :: (catches.map (·.body) ++ cleanup.toList)
  | _ => []

def parts (s : Stmt) : List Part :=
  s.values.map Expr.part ++ (s.inner.map part ++ s.bodies.map fun body => ⟨body.span,false⟩)

theorem mem_tryCatch_inner {body : Block} {catches : List Catch} {cleanup : Option Block} {span : Span} {t : Stmt}
    (member : t ∈ (Stmt.tryCatch body catches cleanup span).inner) :
    ∃ b ∈ (Stmt.tryCatch body catches cleanup span).bodies, t ∈ b.statements := by
  rcases List.mem_append.mp member with front | last
  · rcases List.mem_append.mp front with first | caught
    · exact ⟨body,List.mem_cons_self,first⟩
    · obtain ⟨clause,listed,own⟩ := List.mem_flatMap.mp caught
      exact ⟨clause.body,List.mem_cons_of_mem _ (List.mem_append_left _ (List.mem_map_of_mem listed)),own⟩
  · obtain ⟨b,listed,own⟩ := List.mem_flatMap.mp last
    exact ⟨b,List.mem_cons_of_mem _ (List.mem_append_right _ listed),own⟩

/-- In the statement, its expressions and all statements inside it, the parts lie as it is said. -/
inductive Nested (lies : Span → Part → Prop) : Stmt → Prop where
  | mk {s : Stmt} (own : ∀ part ∈ s.parts, lies s.span part) (values : ∀ e ∈ s.values, e.Nested lies)
      (rest : ∀ t ∈ s.inner, Nested lies t) : Nested lies s

theorem Nested.within {lies : Span → Part → Prop} {s outer : Stmt} (nested : outer.Nested lies)
    (inside : s.Within outer) : (∀ part ∈ s.parts, lies s.span part) ∧ ∀ e ∈ s.values, e.Nested lies := by
  induction inside with
  | self =>
    cases nested with
    | mk own values _ => exact ⟨own,values⟩
  | inside inner _ ih =>
    cases nested with
    | mk _ _ rest => exact ih (rest _ inner)

section

variable (f : Span → Span)

theorem isOpen_mapSpans (s : Stmt) : (s.mapSpans f).isOpen = s.isOpen := by
  cases s with
  | expr value span => exact value.isOpen_mapSpans f
  | _ => rfl

theorem part_mapSpans (s : Stmt) : (s.mapSpans f).part = s.part.mapSpan f := by
  simp only [part,Part.mapSpan,mapSpans_span,isOpen_mapSpans]

theorem values_mapSpans (s : Stmt) : (s.mapSpans f).values = s.values.map (Expr.mapSpans f) := by
  cases s with
  | declare type declarators span =>
    simp only [mapSpans,values,List.filterMap_map,List.map_filterMap]
    rfl
  | _ => simp [mapSpans,values,Option.toList_map]

theorem bodies_mapSpans (s : Stmt) : (s.mapSpans f).bodies = s.bodies.map (Block.mapSpans f) := by
  cases s with
  | tryCatch body catches cleanup span =>
    simp only [mapSpans,bodies,Catch.mapSpansAll_eq_map,Block.mapSpansOption_eq,List.map_cons,List.map_append,List.map_map,
      Option.toList_map,Function.comp_def,Catch.body_mapSpans]
  | _ => rfl

theorem inner_mapSpans (s : Stmt) : (s.mapSpans f).inner = s.inner.map (mapSpans f) := by
  have clause (list : List Catch) : (list.map (Catch.mapSpans f)).flatMap (·.body.statements) =
      (list.flatMap (·.body.statements)).map (mapSpans f) := by
    simp only [List.flatMap_map,List.map_flatMap,Catch.body_mapSpans,Block.statements_mapSpans]
  cases s with
  | ifElse condition yes no span => simp [mapSpans,inner,mapSpansOption_eq,Option.toList_map]
  | whileLoop => rfl
  | forLoop init condition update body span => simp [mapSpans,inner,mapSpansAll_eq_map]
  | forEach => rfl
  | tryCatch body catches cleanup span =>
    simp only [mapSpans,inner,Catch.mapSpansAll_eq_map,Block.mapSpansOption_eq,List.map_append,clause,
      Block.statements_mapSpans]
    cases cleanup with
    | none => rfl
    | some cleanup => simp [Block.statements_mapSpans]
  | block body => exact Block.statements_mapSpans f body
  | _ => rfl

theorem parts_mapSpans (s : Stmt) : (s.mapSpans f).parts = s.parts.map (Part.mapSpan f) := by
  simp only [parts,values_mapSpans,inner_mapSpans,bodies_mapSpans,List.map_append,List.map_map]
  congr 1
  · congr 1
    exact funext fun e => e.part_mapSpans f
  · congr 2
    · exact funext fun t => t.part_mapSpans f
    · funext body
      simp only [Function.comp_apply,Part.mapSpan,Block.mapSpans_span]

theorem Nested.mapSpans {lies after : Span → Part → Prop} {f : Span → Span}
    (kept : ∀ around part, lies around part → after (f around) (part.mapSpan f)) {s : Stmt} (nested : s.Nested lies) :
    (s.mapSpans f).Nested after := by
  induction nested with
  | @mk s own values _ ih =>
    refine .mk ?_ ?_ ?_
    · rw [parts_mapSpans,mapSpans_span]
      exact List.forall_mem_map.mpr fun part member => kept _ _ (own part member)
    · rw [values_mapSpans]
      exact List.forall_mem_map.mpr fun e member => (values e member).mapSpans kept
    · rw [inner_mapSpans]
      exact List.forall_mem_map.mpr ih

end

end Stmt

variable {tokens : List Token} {i j k m : Nat}

/-- The statement stands from token `i` to before token `j`, with its parts inside. -/
structure Stmt.Held (tokens : List Token) (i : Nat) (s : Stmt) (j : Nat) : Prop where
  inside : i ≤ j ∧ j ≤ tokens.length
  start : 2 * i ≤ s.span.start
  order : s.span.start ≤ s.span.stop
  stop : s.span.stop ≤ 2 * j ∨ s.span.stop = 2 * j + 1 ∧ s.isOpen = true
  nested : s.Nested (Part.Lies tokens.length)

def Stmt.HeldIn (tokens : List Token) (i j : Nat) (s : Stmt) : Prop := ∃ k m, i ≤ k ∧ m ≤ j ∧ Stmt.Held tokens k s m

def Stmt.HeldAll (tokens : List Token) (list : List Stmt) (i j : Nat) : Prop :=
  i ≤ j ∧ ∀ s ∈ list, s.HeldIn tokens i j

/-- The block stands from token `i` to before token `j`, with its statements inside. -/
structure Block.Held (tokens : List Token) (i : Nat) (b : Block) (j : Nat) : Prop where
  inside : i ≤ j ∧ j ≤ tokens.length
  start : 2 * i ≤ b.span.start
  order : b.span.start ≤ b.span.stop
  stop : b.span.stop = 2 * j
  statements : ∃ k, i ≤ k ∧ b.span.start ≤ 2 * k ∧ Stmt.HeldAll tokens b.statements k j

namespace Stmt

theorem HeldIn.mono {s : Stmt} (held : s.HeldIn tokens k m) (low : i ≤ k) (high : m ≤ j) : s.HeldIn tokens i j := by
  obtain ⟨a,b,before,behind,own⟩ := held
  exact ⟨a,b,Nat.le_trans low before,Nat.le_trans behind high,own⟩

theorem Held.heldIn {s : Stmt} (held : Held tokens i s j) : s.HeldIn tokens i j :=
  ⟨i,j,Nat.le_refl i,Nat.le_refl j,held⟩

theorem HeldIn.nested {s : Stmt} (held : s.HeldIn tokens i j) : s.Nested (Part.Lies tokens.length) := by
  obtain ⟨_,_,_,_,own⟩ := held
  exact own.nested

theorem HeldAll.mono {list : List Stmt} (held : HeldAll tokens list k m) (low : i ≤ k) (high : m ≤ j) :
    HeldAll tokens list i j :=
  ⟨Nat.le_trans low (Nat.le_trans held.1 high),fun s member => (held.2 s member).mono low high⟩

theorem HeldAll.cons {s : Stmt} {list : List Stmt} (first : Held tokens i s m) (rest : HeldAll tokens list m j) :
    HeldAll tokens (s :: list) i j :=
  ⟨Nat.le_trans first.inside.1 rest.1,List.forall_mem_cons.mpr ⟨first.heldIn.mono (Nat.le_refl i) rest.1,
    fun s member => (rest.2 s member).mono first.inside.1 (Nat.le_refl j)⟩⟩

/-- What is around the statement ends with a token behind it. -/
theorem HeldIn.lies {s : Stmt} {around : Span} (held : s.HeldIn tokens i j) (start : around.start ≤ 2 * i)
    (stop : around.stop = 2 * j) (bound : j ≤ tokens.length) : s.part.Lies tokens.length around := by
  obtain ⟨k,m,low,high,own⟩ := held
  have first := own.start
  have inside := own.inside
  have ends := own.stop
  refine ⟨show _ ≤ s.span.start by omega,own.order,⟨show s.span.stop ≤ _ by omega,by omega⟩,?_⟩
  rcases ends with ends | ⟨ends,missing⟩
  · exact .inl (show s.span.stop ≤ _ by omega)
  · rcases Nat.lt_or_ge m j with before | last
    · exact .inl (show s.span.stop ≤ _ by omega)
    · exact .inr ⟨missing,m,by omega,ends⟩

/-- A statement that begins with its first token and ends with its last one. -/
theorem Held.closed {s : Stmt} (before : i < j) (bound : j ≤ tokens.length) (span : s.span = .upTo (2 * i + 1) (2 * j))
    (values : ∀ e ∈ s.values, e.HeldIn tokens i j) (inner : ∀ t ∈ s.inner, t.HeldIn tokens (i + 1) j)
    (bodies : ∀ b ∈ s.bodies, ∃ k m, i < k ∧ m ≤ j ∧ Block.Held tokens k b m) : Held tokens i s j := by
  rw [Span.upTo_eq (by omega)] at span
  refine ⟨⟨Nat.le_of_lt before,bound⟩,by rw [span]; exact Nat.le_succ _,?_,.inl (Nat.le_of_eq (by rw [span])),
    .mk ?_ (fun e member => (values e member).nested) fun t member => (inner t member).nested⟩
  · rw [span]
    exact show 2 * i + 1 ≤ 2 * j by omega
  · rw [span]
    refine List.forall_mem_append.mpr ⟨List.forall_mem_map.mpr fun e member => ?_,List.forall_mem_append.mpr
      ⟨List.forall_mem_map.mpr fun t member => ?_,List.forall_mem_map.mpr fun b member => ?_⟩⟩
    · exact (values e member).lies (Nat.le_refl _) rfl bound
    · exact (inner t member).lies (show 2 * i + 1 ≤ 2 * (i + 1) by omega) rfl bound
    · obtain ⟨k,m,low,high,held⟩ := bodies b member
      have start := held.start
      have stop := held.stop
      exact ⟨show 2 * i + 1 ≤ b.span.start by omega,held.order,
        ⟨show b.span.stop ≤ _ by omega,show 2 * j ≤ _ by omega⟩,.inl (show b.span.stop ≤ 2 * j by omega)⟩

theorem held_unsupported (before : i < j) (bound : j ≤ tokens.length) :
    Held tokens i (.unsupported (.upTo (2 * i + 1) (2 * j))) j := .closed before bound rfl nofun nofun nofun

/-- Where no statement is, an empty one stands behind the token before. -/
theorem held_empty (inside : i ≤ j ∧ j ≤ tokens.length) : Held tokens i (.empty (.empty (2 * j))) j :=
  ⟨inside,show 2 * i ≤ 2 * j by omega,Nat.le_refl _,.inl (Nat.le_refl _),.mk nofun nofun nofun⟩

/-- An expression as a statement that covers the same tokens. -/
theorem held_value {e : Expr} (held : e.Held tokens i j) : Held tokens i (.expr e e.span) j := by
  have inside := held.inside
  have start := held.start
  have stop := held.stop
  refine ⟨inside,show 2 * i ≤ e.span.start by omega,held.order,stop,.mk ?_ (List.forall_mem_singleton.mpr held.nested) nofun⟩
  exact List.forall_mem_singleton.mpr ⟨Nat.le_refl _,held.order,⟨show e.span.stop ≤ _ by omega,show e.span.stop ≤ _ by omega⟩,
    .inl (Nat.le_refl _)⟩

end Stmt

namespace StmtLevel

open Java.Stmt (Held HeldIn HeldAll)

/-- A reader of the statements from token `i` on gives them with their parts inside. -/
def Hold (tokens : List Token) (inner : Parser (Option Stmt)) (i : Nat) : Prop :=
  ∀ k, i ≤ k → Reads tokens inner k fun found j =>
    Stmt.Found tokens k found j ∧ ∀ s, found = some s → k < j → s.Held tokens k j

theorem Hold.later {inner : Parser (Option Stmt)} (hold : Hold tokens inner i) (order : i ≤ k) : Hold tokens inner k :=
  fun l low => hold l (Nat.le_trans order low)

theorem Hold.sound {inner : Parser (Option Stmt)} (hold : Hold tokens inner i) : Sound tokens inner i :=
  fun k low => (hold k low).mono fun _ _ given _ => given.1

theorem terminated_held {make : Span → Stmt}
    (ended : k < tokens.length → (make (.upTo (2 * i + 1) (2 * (k + 1)))).Held tokens i (k + 1)) :
    Reads tokens (terminated (2 * i + 1) make) k fun s j => k ≤ j ∧ (i < j → s.Held tokens i j) := by
  refine eat (fun seen => spanFrom (pure ⟨Nat.le_succ k,fun _ => ended seen.lt⟩)) fun _ => ?_
  refine bind (skipOutside _ _) fun _ l ⟨on,_⟩ _ => bind eaten.discard fun _ j ⟨_,last⟩ bound => spanFrom (pure ?_)
  have further : l ≤ j := by rcases last with ⟨_,_,rfl⟩ | ⟨_,_,rfl⟩ <;> omega
  exact ⟨Nat.le_trans on further,fun before => Stmt.held_unsupported before bound⟩

theorem declarators_held (turns : Nat) : Reads tokens (declarators turns) i fun list j =>
    Expr.HeldAll tokens (list.filterMap (·.initializer)) i j := by
  induction turns generalizing i with
  | zero => exact pure (.nil i)
  | succ turns ih =>
    refine bind expectOn fun name k first _ => bind dimensions.discard fun _ l ⟨_,depth⟩ _ => ?_
    have second := depth.le
    have finish (initializer : Option Expr) (m : Nat) (read : Expr.HeldAll tokens initializer.toList l m) :
        Reads tokens (do
          let declarator := ⟨name,initializer,← Parser.spanFrom name.span.start⟩
          if ← Parser.eat .comma then return declarator :: (← declarators turns)
          else return [declarator]) m fun (list : List Declarator) j =>
            Expr.HeldAll tokens (list.filterMap (·.initializer)) i j := by
      have third := read.1
      have all (span : Span) (rest : List Declarator) :
          (Declarator.mk name initializer span :: rest).filterMap (·.initializer) =
          initializer.toList ++ rest.filterMap (·.initializer) := by cases initializer <;> rfl
      refine spanFrom (eat (fun _ => bind ih fun rest j others _ => pure ?_) fun _ => pure ?_)
      · have fourth := others.1
        rw [all]
        refine ⟨by omega,List.forall_mem_append.mpr ⟨fun e member => ?_,fun e member => ?_⟩⟩
        · exact (read.2 e member).mono (by omega) (by omega)
        · exact (others.2 e member).mono (by omega) (Nat.le_refl j)
      · rw [all,List.filterMap_nil,List.append_nil]
        exact ⟨by omega,fun e member => (read.2 e member).mono (by omega) (Nat.le_refl m)⟩
    refine eat (fun _ => ?_) fun _ => finish none l (.nil l)
    refine bind Parser.initializer_held fun e m read _ => finish (some e) m ⟨by have := read.inside; omega,?_⟩
    exact List.forall_mem_singleton.mpr (read.heldIn.mono (Nat.le_succ l) (Nat.le_refl m))

theorem localVariables_held : Reads tokens localVariables i fun found j =>
    ∀ s, found = some s → i < j → s.Held tokens i j := by
  refine assume fun inside => get (bind skipVariableModifiers fun _ k passed _ => get ?_)
  have first := passed.le
  refine ite (fun _ => set inside (pure nofun)) fun _ => bind typeRef fun found l typed _ => ?_
  rcases typed with ⟨rfl,_⟩ | ⟨type,rfl,_,second,_⟩
  · exact set inside (pure nofun)
  · refine get (ite (fun _ => ?_) fun _ => set inside (pure nofun))
    refine bind (bounded fun turns _ => declarators_held turns) fun list m read _ => ?_
    have third := read.1
    refine bind (terminated_held (i := i) fun here => ?_) fun s j ⟨_,held⟩ _ => pure fun _ same => Option.some.inj same ▸ held
    exact .closed (by omega) here rfl (fun e member => (read.2 e member).mono (by omega) (Nat.le_succ m)) nofun nofun

theorem parenCondition_held : Reads tokens parenCondition i fun e j => i ≤ j ∧ e.HeldIn tokens i j := by
  refine bind expectOn.discard fun _ k ⟨_,first⟩ _ => bind Parser.expr_held fun e l read _ => ?_
  have second := read.inside
  refine bind expectOn.discard fun _ j ⟨_,third⟩ _ => pure ⟨by omega,read.heldIn.mono first third⟩

theorem loopInit_held : Reads tokens loopInit i fun list j => HeldAll tokens list i j := by
  refine bind (localVariables_reads.and localVariables_held) fun found k ⟨given,held⟩ _ => ?_
  rcases given with ⟨rfl,rfl⟩ | ⟨s,rfl,read⟩
  · refine bind (ExprLevel.separated_held _ fun _ => Parser.expr_held) fun values l read _ => ?_
    refine bind expectOn.discard fun _ j ⟨_,on⟩ _ => pure ⟨Nat.le_trans read.1 on,List.forall_mem_map.mpr fun e member => ?_⟩
    obtain ⟨a,b,low,high,own⟩ := read.2 e member
    exact ⟨a,b,low,Nat.le_trans high on,Stmt.held_value own⟩
  · have before := read.before
    exact pure ⟨Nat.le_of_lt before,List.forall_mem_singleton.mpr (held s rfl before).heldIn⟩

section

variable {inner : Parser (Option Stmt)}

theorem substatement_held (hold : Hold tokens inner i) :
    Reads tokens (substatement inner) i fun s j => s.Held tokens i j := by
  refine assume fun inside => get (bind (hold i (Nat.le_refl i)) fun found j ⟨given,held⟩ bound => ?_)
  rcases given with ⟨rfl,_⟩ | ⟨s,rfl,read⟩
  · have nothing := Stmt.held_empty ⟨Nat.le_refl j,inside⟩
    cases found with
    | none => exact lastStop (pure nothing)
    | some s => exact get (ite (fun _ => lastStop (pure nothing)) fun other => absurd rfl other)
  · have before := read.before
    refine get (ite (fun same => ?_) fun _ => pure (held s rfl before))
    exact absurd (show j = i from same) (Nat.ne_of_gt before)

theorem block_held (hold : Hold tokens inner m) (low : m ≤ i ∨ (m = i + 1 ∧ Seen tokens i .braceOpen)) :
    Reads tokens (block inner) i (Block.Held tokens i) := by
  refine bind expect fun brace k known _ => ?_
  have opened : m ≤ k ∧ i ≤ k ∧ 2 * i ≤ brace.span.start ∧ brace.span.start ≤ 2 * k := by
    rcases known with ⟨_,_,_,rfl,rfl⟩ | ⟨unseen,rfl,rfl⟩
    · exact ⟨by omega,by omega,show 2 * i ≤ 2 * i + 1 by omega,show 2 * i + 1 ≤ 2 * (i + 1) by omega⟩
    · exact ⟨low.resolve_right fun given => unseen given.2,Nat.le_refl _,Nat.le_refl _,Nat.le_refl _⟩
  refine bind (gathered (HeldAll tokens) (fun l => ⟨Nat.le_refl l,nofun⟩) fun l further unread going =>
    (hold l (Nat.le_trans opened.1 further)).mono fun found n ⟨given,held⟩ _ => ?_) fun statements l all _ => ?_
  · rcases given with ⟨_,short | closing⟩ | ⟨s,rfl,read⟩
    · exact absurd unread (Nat.not_lt.mpr short)
    · exact absurd closing (going _ (List.mem_singleton_self _))
    · have before := read.before
      refine ⟨Nat.le_of_lt before,fun list j rest => ?_⟩
      rw [if_neg (Nat.ne_of_gt before)] at rest
      exact .cons (held s rfl before) rest
  · refine bind expectOn.discard fun _ j ⟨_,last⟩ bound => spanFrom (pure ?_)
    have inside := all.1
    rw [Span.upTo_eq (show brace.span.start ≤ 2 * j by omega)]
    exact ⟨⟨by omega,bound⟩,opened.2.2.1,show brace.span.start ≤ 2 * j by omega,rfl,k,opened.2.1,opened.2.2.2,
      all.mono (Nat.le_refl k) last⟩

theorem ifElse_held (hold : Hold tokens inner (i + 1)) :
    Reads tokens (ifElse inner (2 * i + 1)) (i + 1) (Held tokens i) := by
  refine bind parenCondition_held fun condition k ⟨first,asked⟩ _ => ?_
  refine bind (substatement_held (hold.later first)) fun yes l taken _ => ?_
  have second := taken.inside
  have finish (no : Option Stmt) (j : Nat) (other : HeldAll tokens no.toList l j) : Reads tokens (do
      return .ifElse condition yes no (← Parser.spanFrom (2 * i + 1))) j (Held tokens i) := by
    have third := other.1
    refine assume fun bound => spanFrom (pure (.closed (by omega) bound rfl ?_ ?_ nofun))
    · exact List.forall_mem_singleton.mpr (asked.mono (Nat.le_succ i) (by omega))
    · refine List.forall_mem_cons.mpr ⟨taken.heldIn.mono first third,fun t member => ?_⟩
      exact (other.2 t member).mono (by omega) (Nat.le_refl j)
  refine eatWord (fun _ => ?_) fun _ => finish none l ⟨Nat.le_refl l,nofun⟩
  refine bind (substatement_held (hold.later (by omega))) fun no j other _ => finish (some no) j ?_
  have third := other.inside
  exact ⟨by omega,List.forall_mem_singleton.mpr (other.heldIn.mono (Nat.le_succ l) (Nat.le_refl j))⟩

theorem whileLoop_held (hold : Hold tokens inner (i + 1)) :
    Reads tokens (whileLoop inner (2 * i + 1)) (i + 1) (Held tokens i) := by
  refine bind parenCondition_held fun condition k ⟨first,asked⟩ _ => ?_
  refine bind (substatement_held (hold.later first)) fun body j repeated bound => spanFrom (pure ?_)
  have second := repeated.inside
  refine .closed (by omega) bound rfl ?_ ?_ nofun
  · exact List.forall_mem_singleton.mpr (asked.mono (Nat.le_succ i) second.1)
  · exact List.forall_mem_singleton.mpr (repeated.heldIn.mono first (Nat.le_refl j))

theorem forLoop_held (hold : Hold tokens inner (i + 1)) :
    Reads tokens (forLoop inner (2 * i + 1)) (i + 1) (Held tokens i) := by
  refine bind expectOn.discard fun _ k ⟨_,first⟩ _ => bind element_reads fun found l given _ => ?_
  rcases given with ⟨rfl,rfl⟩ | ⟨param,rfl,named⟩
  · refine bind loopInit_held fun init m begun _ => ?_
    have second := begun.1
    have finish (condition : Option Expr) (n : Nat) (asked : Expr.HeldAll tokens condition.toList m n) :
        Reads tokens (do
          discard (Parser.expect .semicolon)
          let update ← Parser.separated [.parenClose] Parser.expr
          discard (Parser.expect .parenClose)
          let body ← substatement inner
          return .forLoop init condition update body (← Parser.spanFrom (2 * i + 1))) n (Held tokens i) := by
      have third := asked.1
      refine bind expectOn.discard fun _ a ⟨_,fourth⟩ _ => ?_
      refine bind (ExprLevel.separated_held _ fun _ => Parser.expr_held) fun update b stepped _ => ?_
      have fifth := stepped.1
      refine bind expectOn.discard fun _ c ⟨_,sixth⟩ _ => ?_
      refine bind (substatement_held (hold.later (by omega))) fun body j repeated bound => spanFrom (pure ?_)
      have last := repeated.inside
      refine .closed (by omega) bound rfl (List.forall_mem_append.mpr ⟨fun e member => ?_,fun e member => ?_⟩)
        (List.forall_mem_append.mpr ⟨fun t member => ?_,List.forall_mem_singleton.mpr ?_⟩) nofun
      · exact (asked.2 e member).mono (by omega) (by omega)
      · exact (stepped.2 e member).mono (by omega) (by omega)
      · exact (begun.2 t member).mono (by omega) (by omega)
      · exact repeated.heldIn.mono (by omega) (Nat.le_refl j)
    refine sees (fun _ => finish none m (.nil m)) fun _ => bind Parser.expr_held fun e n read _ => finish (some e) n ?_
    exact ⟨read.inside.1,List.forall_mem_singleton.mpr read.heldIn⟩
  · have second := named.le
    refine bind Parser.expr_held fun iterable m read _ => bind expectOn.discard fun _ n ⟨_,third⟩ _ => ?_
    have inside := read.inside
    refine bind (substatement_held (hold.later (by omega))) fun body j repeated bound => spanFrom (pure ?_)
    have last := repeated.inside
    refine .closed (by omega) bound rfl ?_ ?_ nofun
    · exact List.forall_mem_singleton.mpr (read.heldIn.mono (by omega) (by omega))
    · exact List.forall_mem_singleton.mpr (repeated.heldIn.mono (by omega) (Nat.le_refl j))

theorem catchClause_held (hold : Hold tokens inner i) : Reads tokens (catchClause inner) i fun found j =>
    i ≤ j ∧ (found = none → j = i) ∧ ∀ clause, found = some clause → ∃ k m, i ≤ k ∧ m ≤ j ∧ clause.body.Held tokens k m := by
  refine nextStart (eatWord (fun _ => ?_) fun _ => pure ⟨Nat.le_refl i,fun _ => rfl,nofun⟩)
  refine bind expectOn.discard fun _ k ⟨_,first⟩ _ => bind skipVariableModifiers fun _ l passed _ => ?_
  have second := passed.le
  refine bind typeRefOrEmpty fun type m ⟨third,_⟩ _ => ?_
  refine bind (repeated (fun _ j => m ≤ j) type (Nat.le_refl m) fun type a low => ?_) fun type a fourth _ => ?_
  · refine eat (fun _ => bind typeRef fun found b typed _ => ?_) fun _ => pure low
    rcases typed with ⟨rfl,_,rfl⟩ | ⟨other,rfl,_,on,_⟩
    · exact pure (Nat.le_succ_of_le low)
    · exact pure (by omega)
  refine bind expectOn fun name b fifth _ => bind expectOn.discard fun _ c ⟨_,sixth⟩ _ => ?_
  refine bind (block_held (hold.later (by omega)) (.inl (Nat.le_refl c))) fun body j read _ => pure ?_
  have last := read.inside
  refine ⟨by omega,nofun,fun clause same => ?_⟩
  cases same
  exact ⟨c,j,by omega,Nat.le_refl j,read⟩

theorem tryCatch_held (hold : Hold tokens inner (i + 1)) :
    Reads tokens (tryCatch inner (2 * i + 1)) (i + 1) (Held tokens i) := by
  refine bind (skipNested _ _) fun _ k skipped _ => ?_
  refine bind (block_held (hold.later skipped) (.inl (Nat.le_refl k))) fun body l first _ => ?_
  have low := first.inside
  refine bind (many (fun clauses k j => k ≤ j ∧ ∀ clause ∈ clauses, ∃ a b, k ≤ a ∧ b ≤ j ∧ clause.body.Held tokens a b)
    (fun k => ⟨Nat.le_refl k,nofun⟩) fun m on => (catchClause_held (hold.later (by omega))).mono
      fun found n ⟨further,ended,given⟩ _ => ⟨further,ended,?_⟩) fun clauses m second _ => ?_
  · rintro clause rfl rest j ⟨behind,others⟩
    obtain ⟨a,b,front,back,own⟩ := given clause rfl
    refine ⟨Nat.le_trans further behind,List.forall_mem_cons.mpr ⟨⟨a,b,front,Nat.le_trans back behind,own⟩,?_⟩⟩
    intro other member
    obtain ⟨a,b,front,back,own⟩ := others other member
    exact ⟨a,b,Nat.le_trans further front,back,own⟩
  · have finish (cleanup : Option Block) (j : Nat) (third : m ≤ j ∧ ∀ b ∈ cleanup.toList, ∃ a c, m ≤ a ∧ c ≤ j ∧
        Block.Held tokens a b c) : Reads tokens (do
          return .tryCatch body clauses cleanup (← Parser.spanFrom (2 * i + 1))) j (Held tokens i) := by
      have middle := second.1
      have high := third.1
      have bodies : ∀ b ∈ (Stmt.tryCatch body clauses cleanup (.upTo (2 * i + 1) (2 * j))).bodies,
          ∃ a c, i < a ∧ c ≤ j ∧ Block.Held tokens a b c := by
        refine List.forall_mem_cons.mpr ⟨⟨k,l,by omega,by omega,first⟩,List.forall_mem_append.mpr
          ⟨List.forall_mem_map.mpr fun clause member => ?_,fun b member => ?_⟩⟩
        · obtain ⟨a,c,front,back,own⟩ := second.2 clause member
          exact ⟨a,c,by omega,by omega,own⟩
        · obtain ⟨a,c,front,back,own⟩ := third.2 b member
          exact ⟨a,c,by omega,by omega,own⟩
      refine assume fun bound => spanFrom (pure (.closed (by omega) bound rfl nofun (fun t member => ?_) bodies))
      obtain ⟨b,listed,own⟩ := Stmt.mem_tryCatch_inner member
      obtain ⟨a,c,front,back,held⟩ := bodies b listed
      obtain ⟨d,ahead,_,statements⟩ := held.statements
      exact (statements.2 t own).mono (by omega) back
    refine eatWord (fun _ => ?_) fun _ => finish none m ⟨Nat.le_refl m,nofun⟩
    refine bind (block_held (hold.later (by omega)) (.inl (Nat.le_refl _))) fun cleanup j third _ =>
      finish (some cleanup) j ?_
    have high := third.inside
    exact ⟨by omega,List.forall_mem_singleton.mpr ⟨m + 1,j,Nat.le_succ m,Nat.le_refl j,third⟩⟩

theorem stmt_held (hold : Hold tokens inner (i + 1)) : Reads tokens (stmt inner) i fun found j =>
    ∀ s, found = some s → i < j → s.Held tokens i j := by
  have found {read : Parser Stmt} (k : Nat) (given : Reads tokens read k (Held tokens i)) :
      Reads tokens (do return some (← read)) k fun found j => ∀ s, found = some s → i < j → s.Held tokens i j :=
    bind given fun s _ held _ => pure fun _ same _ => Option.some.inj same ▸ held
  have ended {make : Span → Stmt} (k : Nat) (given : Reads tokens (terminated (2 * i + 1) make) k fun s j =>
      k ≤ j ∧ (i < j → s.Held tokens i j)) : Reads tokens (do return some (← terminated (2 * i + 1) make)) k
        fun found j => ∀ s, found = some s → i < j → s.Held tokens i j :=
    bind given fun s _ held _ => pure fun _ same => Option.some.inj same ▸ held.2
  refine get (ite (fun _ => pure nofun) fun _ => eat (fun seen => pure ?_) fun _ => sees (fun brace => ?_) fun _ => ?_)
  · rintro _ ⟨⟩ _
    exact .closed (Nat.lt_succ_self i) seen.lt (Span.upTo_eq (by omega)).symm nofun nofun nofun
  · refine bind ((block_reads hold.sound (.inr ⟨rfl,brace⟩)).and (block_held hold (.inr ⟨rfl,brace⟩)))
      fun body j ⟨read,held⟩ bound => pure ?_
    rintro _ ⟨⟩ before
    obtain ⟨k,low,begins,statements⟩ := held.statements
    have span := (read.braced brace).2
    refine .closed before bound (span.trans (Span.upTo_eq (by omega)).symm) nofun (fun t member => ?_) nofun
    rw [span] at begins
    exact (statements.2 t member).mono (by change 2 * i + 1 ≤ 2 * k at begins; omega) (Nat.le_refl j)
  refine eatWord (fun _ => ?_) fun _ => eatWord (fun _ => ?_) fun _ => ?_
  · have finish (value : Option Expr) (k : Nat) (read : Expr.HeldAll tokens value.toList (i + 1) k) :
        Reads tokens (do return some (← terminated (2 * i + 1) (.returns value))) k
          fun found j => ∀ s, found = some s → i < j → s.Held tokens i j := by
      have low := read.1
      refine ended k (terminated_held fun here => .closed (by omega) here rfl (fun e member => ?_) nofun nofun)
      exact (read.2 e member).mono (Nat.le_succ i) (Nat.le_succ k)
    refine sees (fun _ => finish none _ (.nil _)) fun _ => bind Parser.expr_held fun e k read _ => finish (some e) k ?_
    exact ⟨read.inside.1,List.forall_mem_singleton.mpr read.heldIn⟩
  · refine bind Parser.expr_held fun e k read _ => ended k (terminated_held fun here => ?_)
    have low := read.inside
    refine .closed (by omega) here rfl (List.forall_mem_singleton.mpr ?_) nofun nofun
    exact read.heldIn.mono (Nat.le_succ i) (Nat.le_succ k)
  refine eatWord (fun _ => found _ (ifElse_held hold)) fun _ => ?_
  refine eatWord (fun _ => found _ (whileLoop_held hold)) fun _ => ?_
  refine eatWord (fun _ => found _ (forLoop_held hold)) fun _ => ?_
  refine eatWord (fun _ => found _ (tryCatch_held hold)) fun _ => ?_
  have jumped {make : Span → Stmt} (plain : ∀ span, (make span).span = span ∧ (make span).values = [] ∧
      (make span).inner = [] ∧ (make span).bodies = []) :
      Reads tokens (jump (2 * i + 1) make) (i + 1) (Held tokens i) := by
    refine bind eaten.discard fun _ k ⟨_,label⟩ _ => bind expectOn.discard fun _ j ⟨_,on⟩ bound => spanFrom (pure ?_)
    have low : i + 1 ≤ k := by rcases label with ⟨_,_,rfl⟩ | ⟨_,_,rfl⟩ <;> omega
    obtain ⟨own,values,inner,bodies⟩ := plain (.upTo (2 * i + 1) (2 * j))
    exact .closed (by omega) bound own (values ▸ nofun) (inner ▸ nofun) (bodies ▸ nofun)
  refine eatWord (fun _ => found _ (jumped fun _ => ⟨rfl,rfl,rfl,rfl⟩)) fun _ => ?_
  refine eatWord (fun _ => found _ (jumped fun _ => ⟨rfl,rfl,rfl,rfl⟩)) fun _ => ?_
  refine bind (passUnsupported_reads hold.sound) ?_
  rintro _ j (⟨rfl,before⟩ | ⟨rfl,rfl⟩) bound
  · exact spanFrom (pure fun _ same _ => Option.some.inj same ▸ Stmt.held_unsupported before bound)
  · refine bind (localVariables_reads.and localVariables_held) fun found? k ⟨given,held⟩ _ => ?_
    rcases given with ⟨rfl,rfl⟩ | ⟨s,rfl,read⟩
    · refine bind Parser.expr_held fun e l read _ => ended l (terminated_held fun here => ?_)
      have low := read.inside
      refine .closed (by omega) here ?_ (List.forall_mem_singleton.mpr (read.heldIn.mono (Nat.le_refl k) (Nat.le_succ l)))
        nofun nofun
      rw [Stmt.span,read.start,Span.upTo_eq (show 2 * k + 1 ≤ 2 * (l + 1) by omega)]
      exact Span.upTo_eq (show 2 * k + 1 ≤ 2 * (l + 1) by omega)
    · exact pure held

end

/-- As many levels as there are tokens left reach every statement. -/
theorem reader_hold (depth : Nat) (enough : tokens.length < i + depth) : Hold tokens (reader depth) i := by
  induction depth generalizing i with
  | zero =>
    intro k low
    exact assume fun inside => absurd inside (by omega)
  | succ depth ih =>
    intro k low
    have inner := @ih (k + 1) (by omega)
    exact (stmt_reads inner.sound).and (stmt_held inner)

end StmtLevel

theorem Parser.stmt_held : StmtLevel.Hold tokens Parser.stmt i :=
  fun k _ => Reads.bounded fun turns enough => StmtLevel.reader_hold turns enough k (Nat.le_refl k)

theorem Parser.block_held : Reads tokens Parser.block i (Block.Held tokens i) :=
  StmtLevel.block_held Parser.stmt_held (.inl (Nat.zero_le i))

/-- The block that a member has of its own. -/
def Member.body? : Member → Option Block
  | .method decl => decl.body
  | .constructor decl => some decl.body
  | .initializer decl => some decl.body
  | .field _ => none
  | .type _ => none

def Member.Holds (tokens : List Token) (member : Member) : Prop :=
  ∀ b, member.body? = some b → ∀ s ∈ b.statements, s.Nested (Part.Lies tokens.length)

theorem Block.Held.nested {b : Block} (held : b.Held tokens i j) :
    ∀ s ∈ b.statements, s.Nested (Part.Lies tokens.length) := by
  obtain ⟨_,_,_,all⟩ := held.statements
  exact fun s member => (all.2 s member).nested

namespace MemberLevel

theorem bodied_holds {start : Nat} {make : Block → Span → Member} (own : ∀ b span, (make b span).body? = some b) :
    Reads tokens (do
      let body ← Parser.block
      return make body (.upTo start body.span.stop)) i fun member _ => member.Holds tokens := by
  refine bind Parser.block_held fun body j held _ => pure fun b same => ?_
  rw [own] at same
  exact Option.some.inj same ▸ held.nested

theorem method_holds (start : Nat) (flags : Modifiers) (type : TypeRef) (name : Ident) :
    Reads tokens (method start flags type name) i fun member _ => member.Holds tokens := by
  refine bind paramList_fits fun params k _ _ => bind dimensions.discard fun _ l _ _ =>
    bind skipThrows_reads fun _ m _ _ => ?_
  refine sees (fun _ => ?_) fun _ => ?_
  · exact @bodied_holds _ _ start (fun body span => .method ⟨flags,type,name,params,some body,span⟩) fun _ _ => rfl
  · exact bind (skipOutside _ _) fun _ n _ _ => bind expectOn.discard fun _ j _ _ => spanFrom (pure nofun)

theorem member_holds (owner : String) : Reads tokens (member Parser.member owner) i fun found _ =>
    ∀ member, found = some member → member.Holds tokens := by
  have found {read : Parser Member} (k : Nat) (given : Reads tokens read k fun member _ => member.Holds tokens) :
      Reads tokens (do return some (← read)) k fun found _ => ∀ member, found = some member → member.Holds tokens :=
    bind given fun member _ holds _ => pure fun _ same => Option.some.inj same ▸ holds
  have initialized (k : Nat) (isStatic : Bool) :
      Reads tokens (initializer (2 * i + 1) isStatic) k fun member _ => member.Holds tokens :=
    @bodied_holds _ _ (2 * i + 1) (fun body span => .initializer ⟨isStatic,body,span⟩) fun _ _ => rfl
  refine get (ite (fun _ => pure nofun) fun _ => bind modifiers fun flags k _ _ => get (ite (fun static => ?_) fun _ => ?_))
  · simp only [Bool.and_eq_true,Cursor.on_seesWord_iff] at static
    exact skip 1 static.1.ident.lt (found _ (initialized _ true))
  refine ite (fun _ => found k (initialized k false)) fun _ => ite (fun _ => ?_) fun _ => ?_
  · refine bind Reads.typeDecl_fits fun decl? j _ _ => ?_
    cases decl? with
    | none => exact pure nofun
    | some decl => exact pure fun _ same => Option.some.inj same ▸ nofun
  · refine bind (skipNested _ _) fun _ l _ _ => get (ite (fun _ => found l ?_) fun _ => ?_)
    · refine bind expectOn fun name a _ _ => bind paramList_fits fun params b _ _ => bind skipThrows_reads fun _ c _ _ => ?_
      exact @bodied_holds _ _ (2 * i + 1) (fun body span => .constructor ⟨flags,name,params,body,span⟩) fun _ _ => rfl
    · refine bind typeRef fun type? m _ _ => ?_
      cases type? with
      | none => exact pure nofun
      | some type =>
        refine bind expectOn fun name n _ _ => sees (fun _ => found n (method_holds _ _ _ _)) fun _ => found n ?_
        exact bind (skipOutside _ _) fun _ a _ _ => bind expectOn.discard fun _ b _ _ => spanFrom (pure nofun)

end MemberLevel

theorem Member.ReadAt.holds {member : Member} (read : member.ReadAt tokens k) : member.Holds tokens := by
  obtain ⟨inside,owner,_,again⟩ := read.unfolds
  obtain ⟨_,_,ran,_,holds⟩ := MemberLevel.member_holds owner inside
  rw [again] at ran
  exact holds member (Prod.mk.inj ran).1.symm

theorem Member.body?_mapSpans (f : Span → Span) (member : Member) :
    (member.mapSpans f).body? = member.body?.map (Block.mapSpans f) := by
  cases member <;> rfl

/-- In a text the part lies in a span, or it ends with something missing before the next token, and what is around it ends
behind the token before. -/
structure Part.LiesIn (text : Text) (around : Span) (part : Part) : Prop where
  start : around.start ≤ part.span.start
  stop : part.span.stop ≤ around.stop ∨ part.isOpen = true ∧
    ∀ token ∈ Java.tokens text, token.span.stop ≤ around.stop ∨ part.span.stop ≤ token.span.start

theorem Part.Lies.inText {text : Text} {around : Span} {part : Part} (lies : part.Lies (Java.tokens text).length around) :
    (part.mapSpan (Span.map (offset text))).LiesIn text (around.map (offset text)) := by
  have order := lies.order
  have known := lies.known
  refine ⟨offset_mono text lies.start (by omega),?_⟩
  rcases lies.stop with inside | ⟨missing,j,last,next⟩
  · exact .inl (offset_mono text inside known.2)
  · refine .inr ⟨missing,fun token member => ?_⟩
    obtain ⟨k,found⟩ := List.mem_iff_getElem?.mp member
    have bound := (List.getElem?_eq_some_iff.mp found).1
    rw [token_span found]
    rcases Nat.lt_or_ge k j with before | behind
    · exact .inl (offset_mono text (show 2 * k + 2 ≤ around.stop by omega) known.2)
    · exact .inr (offset_mono text (show part.span.stop ≤ 2 * k + 1 by omega) (by omega))

/-- The parts of the expression and of all expressions inside it lie where they belong. -/
def Expr.Encloses (text : Text) (e : Expr) : Prop := ∀ x : Expr, x.Within e → ∀ part ∈ x.parts, part.LiesIn text x.span

/-- The parts of the statement, of all statements inside it and of their expressions lie where they belong. -/
def Stmt.Encloses (text : Text) (outer : Stmt) : Prop := ∀ s : Stmt, s.Within outer →
  (∀ part ∈ s.parts, part.LiesIn text s.span) ∧ ∀ e ∈ s.values, e.Encloses text

/-- In every text, parts leave what is around them only up to the next token and only by what is missing at their end. -/
theorem nodes_enclose (text : Text) : (parseExpr text).Encloses text ∧
    ∀ type ∈ (parse text).allTypes, ∀ member ∈ type.members, ∀ body, member.body? = some body →
      ∀ s ∈ body.statements, s.Encloses text := by
  have length : ((Java.tokens text).map (·.token)).length = (Java.tokens text).length := List.length_map _
  have kept : ∀ around part, Part.Lies ((Java.tokens text).map (·.token)).length around part →
      (part.mapSpan (Span.map (offset text))).LiesIn text (around.map (offset text)) :=
    fun around part lies => Part.Lies.inText (length ▸ lies)
  constructor
  · obtain ⟨e,_,ran,_,held⟩ := Parser.expr_held (Nat.zero_le ((Java.tokens text).map (·.token)).length)
    have read : parseExpr text = e.mapSpans (Span.map (offset text)) := congrArg _ (congrArg Prod.fst ran)
    rw [read]
    exact fun x inside => (held.nested.mapSpans kept).within inside
  · intro type listed member among body own s inner
    obtain ⟨read,k,rfl,at'⟩ := parse_readAt text type listed member among
    rw [Member.body?_mapSpans] at own
    obtain ⟨b,given,rfl⟩ := Option.map_eq_some_iff.mp own
    rw [Block.statements_mapSpans] at inner
    obtain ⟨source,statement,rfl⟩ := List.mem_map.mp inner
    have nested := (at'.holds b given source statement).mapSpans kept
    exact fun t inside => ⟨(nested.within inside).1,fun e value x deeper => ((nested.within inside).2 e value).within deeper⟩

/-- A position and a condition that are missing stand behind the blank, outside of the access and of the statement. -/
theorem missing_parts_outside :
    (∃ text : Text, text = "a[ ".toList ∧ ∃ part ∈ (parseExpr text).parts, ¬ part.span.stop ≤ (parseExpr text).span.stop) ∧
    ∃ text : Text, text = "class A { void m() { if } }".toList ∧ ∃ type ∈ (parse text).allTypes, ∃ member ∈ type.members,
      ∃ body, member.body? = some body ∧ ∃ s ∈ body.statements, ∃ part ∈ s.parts, ¬ part.span.stop ≤ s.span.stop := by
  refine ⟨⟨_,rfl,?_⟩,_,rfl,?_⟩
  · generalize same : "a[ ".toList = text
    have evaluated : (parseExpr text).parts.map (·.span) = [⟨0,1⟩,⟨3,3⟩] ∧ (parseExpr text).span = ⟨0,2⟩ := by
      rw [← same]
      decide +kernel
    have listed : (⟨3,3⟩ : Span) ∈ (parseExpr text).parts.map (·.span) := by simp [evaluated.1]
    obtain ⟨part,member,place⟩ := List.mem_map.mp listed
    exact ⟨part,member,by rw [place,evaluated.2]; decide⟩
  · generalize same : "class A { void m() { if } }".toList = text
    have evaluated : (((((parse text).allTypes.flatMap (·.members)).filterMap Member.body?).flatMap (·.statements)).map
        fun s => (s.span,s.parts.map (·.span))) = [(⟨21,23⟩,[⟨24,24⟩,⟨23,23⟩])] := by
      rw [← same]
      decide +kernel
    obtain ⟨s,only,shown⟩ := List.map_eq_singleton_iff.mp evaluated
    have among : s ∈ (((parse text).allTypes.flatMap (·.members)).filterMap Member.body?).flatMap (·.statements) := by
      rw [only]
      exact List.mem_singleton_self s
    obtain ⟨body,inside,own⟩ := List.mem_flatMap.mp among
    obtain ⟨member,listed,given⟩ := List.mem_filterMap.mp inside
    obtain ⟨type,declared,within⟩ := List.mem_flatMap.mp listed
    have parts : (⟨24,24⟩ : Span) ∈ s.parts.map (·.span) := by simp [(Prod.mk.inj shown).2]
    obtain ⟨part,found,place⟩ := List.mem_map.mp parts
    exact ⟨type,declared,member,within,body,given,s,own,part,found,by rw [place,(Prod.mk.inj shown).1]; decide⟩

end Transplant.Java
