import Transplant.Proofs.Body.Stmt

/-! The variables in force where a name stands. Each of them was declared on the way, under the
number and the name by which it is in force. -/
namespace Transplant

open Java (TypeRef Expr Declarator Param Stmt Block Catch)

/-- The variables in force are among those declared. -/
def Known (declared : List Local) (visible : Locals) : Prop :=
  ∀ entry ∈ visible, ∃ known, declared[entry.2]? = some known ∧ known.name.text = entry.1

/-- The variables in force at a place are among those declared before it. -/
structure Sight.Tells (sight : Sight) (before : List Local) : Prop where
  count : sight.count = before.length
  known : Known before sight.visible

def Visit.KnownIn (declared : List Local) : Visit → Prop
  | .name _ visible _ _ => Known declared visible
  | _ => True

def AllKnown (declared : List Local) (visits : List Visit) : Prop := ∀ visit ∈ visits, visit.KnownIn declared

/-- Behind `before`, the names visited stand for variables declared before or among the visits, and
so do those in force behind. -/
structure Surveyed (before : List Local) (visits : List Visit) (after : Sight) : Prop where
  names : AllKnown (before ++ visits.filterMap Visit.declared?) visits
  behind : after.Tells (before ++ visits.filterMap Visit.declared?)

variable {before more : List Local} {visible : Locals} {visits others : List Visit}
  {sight after last : Sight}

namespace Scope

variable {β : Type} {scope : Scope β} {visible : Locals} {name : String} {id : LocalId}

theorem resolve_eq_localVar_iff : scope.resolve visible name = .localVar id ↔
    ∃ entry, visible.find? (·.1 == name) = some entry ∧ entry.2 = id := by
  unfold resolve
  cases visible.find? (·.1 == name) with
  | some entry => simp
  | none =>
    cases scope.param? name <;> cases scope.field? name <;> cases scope.type? name <;> simp

/-- A local variable that a name is resolved to is known by this name. -/
theorem resolve_eq_localVar {declared : List Local} (known : Known declared visible)
    (resolved : scope.resolve visible name = .localVar id) :
    ∃ entry, declared[id]? = some entry ∧ entry.name.text = name := by
  obtain ⟨entry,found,rfl⟩ := resolve_eq_localVar_iff.mp resolved
  obtain ⟨own,placed,same⟩ := known entry (List.mem_of_find?_eq_some found)
  have named := List.find?_some found
  rw [beq_iff_eq] at named
  exact ⟨own,placed,same.trans named⟩

end Scope

theorem Known.append (known : Known before visible) (more : List Local) : Known (before ++ more) visible := by
  intro entry member
  obtain ⟨local?,found,named⟩ := known entry member
  refine ⟨local?,?_,named⟩
  rwa [List.getElem?_append_left (List.getElem?_eq_some_iff.mp found).1]

theorem Visit.KnownIn.append {visit : Visit} (known : visit.KnownIn before) (more : List Local) :
    visit.KnownIn (before ++ more) := by
  cases visit with
  | name text visible access span => exact Known.append known more
  | _ => trivial

theorem AllKnown.nil : AllKnown before [] ↔ True := by simp [AllKnown]

theorem AllKnown.cons {visit : Visit} :
    AllKnown before (visit :: visits) ↔ visit.KnownIn before ∧ AllKnown before visits := List.forall_mem_cons

theorem AllKnown.append : AllKnown before (visits ++ others) ↔ AllKnown before visits ∧ AllKnown before others :=
  List.forall_mem_append

theorem AllKnown.anonymous (body : Option Span) : AllKnown before (body.toList.map .anonymous) ↔ True := by
  cases body <;> simp [AllKnown,Visit.KnownIn]

namespace Surveyed

theorem nil (tells : sight.Tells before) : Surveyed before [] sight :=
  ⟨AllKnown.nil.mpr trivial,by simpa using tells⟩

theorem append (first : Surveyed before visits after)
    (second : Surveyed (before ++ visits.filterMap Visit.declared?) others last) :
    Surveyed before (visits ++ others) last := by
  have ⟨names,behind⟩ := second
  rw [List.append_assoc,← List.filterMap_append] at names behind
  refine ⟨AllKnown.append.mpr ⟨?_,names⟩,behind⟩
  intro visit member
  have known := (first.names visit member).append (others.filterMap Visit.declared?)
  rwa [List.append_assoc,← List.filterMap_append] at known

/-- Visits that declare nothing, at a place where `sight` is in force. -/
theorem plain (tells : sight.Tells before) (none : visits.filterMap Visit.declared? = [])
    (names : AllKnown before visits) : Surveyed before visits sight := by
  refine ⟨?_,?_⟩
  · rwa [none,List.append_nil]
  · rwa [none,List.append_nil]

theorem outside (inner : Surveyed before visits after) (tells : sight.Tells before) :
    Surveyed before visits (sight.outside after) :=
  ⟨inner.names,inner.behind.count,tells.known.append _⟩

theorem declare (tells : sight.Tells before) (declared : Local) :
    Surveyed before [.declare declared] (sight.declare declared.name) := by
  refine ⟨AllKnown.cons.mpr ⟨trivial,AllKnown.nil.mpr trivial⟩,?_,?_⟩
  · simp [Sight.declare,tells.count,Visit.declared?]
  · intro entry member
    rcases List.mem_cons.mp member with rfl | earlier
    · exact ⟨declared,by simp [tells.count,Visit.declared?],rfl⟩
    · exact (tells.known.append _) entry earlier

end Surveyed

namespace Java

/-- Within an expression all names see the same variables. -/
theorem Expr.walk_known {declared : List Local} (known : Known declared visible) :
    (∀ access e, AllKnown declared (Expr.walk visible access e)) ∧
    (∀ value, AllKnown declared (Expr.walkOption visible value)) ∧
    ∀ list, AllKnown declared (Expr.walkAll visible list) := by
  apply Expr.walk.mutual_induct
  all_goals intros
  all_goals simp_all only [Expr.walk,Expr.walkAll,Expr.walkOption,AllKnown.append,AllKnown.cons,AllKnown.nil,
    AllKnown.anonymous,Visit.KnownIn,and_self]

/-- On the way from any sight, all names stand for variables that were declared. -/
def Surveys (walk : Sight → List Visit) (after : Sight → Sight) : Prop :=
  ∀ before sight, sight.Tells before → Surveyed before (walk sight) (after sight)

namespace Surveys

variable {walk rest : Sight → List Visit} {first second : Sight → Sight}

theorem append (one : Surveys walk first) (other : Surveys rest second) :
    Surveys (fun sight => walk sight ++ rest (first sight)) (fun sight => second (first sight)) :=
  fun before sight tells =>
    have front := one before sight tells
    front.append (other _ _ front.behind)

theorem outside (inner : Surveys walk first) : Surveys walk fun sight => sight.outside (first sight) :=
  fun before sight tells => (inner before sight tells).outside tells

theorem nothing : Surveys (fun _ => []) id := fun _ _ tells => .nil tells

/-- What is read of an expression may stand behind a declaration and not see it. -/
theorem aside (one : Surveys walk first) (read : Locals → List Visit)
    (none : ∀ visible, (read visible).filterMap Visit.declared? = [])
    (known : ∀ declared visible, Known declared visible → AllKnown declared (read visible)) :
    Surveys (fun sight => walk sight ++ read sight.visible) first :=
  fun before sight tells =>
    have front := one before sight tells
    front.append (.plain front.behind (none _) (known _ _ (tells.known.append _)))

theorem asideExpr (one : Surveys walk first) (e : Expr) :
    Surveys (fun sight => walk sight ++ e.walk sight.visible .read) first :=
  one.aside (Expr.walk · .read e) (Expr.walk_declares_none.1 e · _) fun _ _ known => (Expr.walk_known known).1 _ e

theorem asideOption (one : Surveys walk first) (value : Option Expr) :
    Surveys (fun sight => walk sight ++ Expr.walkOption sight.visible value) first :=
  one.aside (Expr.walkOption · value) (Expr.walk_declares_none.2.1 value) fun _ _ known =>
    (Expr.walk_known known).2.1 value

theorem expr (e : Expr) : Surveys (fun sight => e.walk sight.visible .read) id := nothing.asideExpr e

theorem option (value : Option Expr) : Surveys (fun sight => Expr.walkOption sight.visible value) id :=
  nothing.asideOption value

theorem exprs (list : List Expr) : Surveys (fun sight => Expr.walkAll sight.visible list) id :=
  nothing.aside (Expr.walkAll · list) (Expr.walk_declares_none.2.2 list) fun _ _ known =>
    (Expr.walk_known known).2.2 list

theorem mark (visit : Visit) (undeclared : visit.declared? = none) (unnamed : ∀ declared, visit.KnownIn declared) :
    Surveys (fun _ => [visit]) id :=
  fun _ _ tells => .plain tells (by simp [undeclared]) (AllKnown.cons.mpr ⟨unnamed _,AllKnown.nil.mpr trivial⟩)

theorem leaving (isLast : Bool) (span : Span) : Surveys (fun _ => Java.leaving isLast span) id := by
  cases isLast with
  | true => exact nothing
  | false => exact mark (.leave span) rfl fun _ => trivial

theorem declare (declared : Local) :
    Surveys (fun _ => [.declare declared]) fun sight => sight.declare declared.name :=
  fun _ _ tells => .declare tells declared

theorem param (element : Param) : Surveys (fun _ => element.visits) fun sight => sight.declare element.name :=
  (mark (.type element.type.span) rfl fun _ => trivial).append (declare ⟨element.type,element.name,element.span⟩)

end Surveys

/-- A variable is declared in front of its own value, which does not see it. -/
theorem Declarator.surveyed (type : TypeRef) : (list : List Declarator) →
    Surveys (Declarator.walkAll · type list) (Declarator.afterAll · list)
  | [] => .nothing
  | first :: rest => ((Surveys.declare ⟨type,first.name,first.span⟩).asideOption first.initializer).append
      (Declarator.surveyed type rest)

mutual

theorem Stmt.surveyed : (s : Stmt) → ∀ isLast, Surveys (Stmt.walk isLast · s) (Stmt.after · s)
  | .declare type list _ => fun _ => (Surveys.mark (.type type.span) rfl fun _ => trivial).append (Declarator.surveyed type list)
  | .expr value _ => fun _ => .expr value
  | .returns value span => fun isLast => (Surveys.leaving isLast span).append (.option value)
  | .throws value span => fun isLast => (Surveys.leaving isLast span).append (.expr value)
  | .ifElse condition yes no _ => fun _ =>
    ((Surveys.expr condition).append (Stmt.surveyed yes false)).append (Stmt.surveyedOption no)
  | .whileLoop condition body _ => fun _ => (Surveys.expr condition).append (Stmt.surveyed body false)
  | .forLoop init condition update body _ => fun _ =>
    ((((Stmt.surveyedAll init).append (.option condition)).append (.exprs update)).append (Stmt.surveyed body false)).outside
  | .forEach element iterable body _ => fun _ =>
    (((Surveys.param element).asideExpr iterable).append (Stmt.surveyed body false)).outside
  | .tryCatch body catches cleanup span => fun _ =>
    (Surveys.mark (.resources ⟨span.start,body.span.start⟩) rfl fun _ => trivial).append
      (((Block.surveyed body).append (Catch.surveyedAll catches)).append (Block.surveyedOption cleanup))
  | .block body => fun _ => Block.surveyed body
  | .breaks _ => fun _ => .nothing
  | .continues _ => fun _ => .nothing
  | .empty _ => fun _ => .nothing
  | .unsupported span => fun _ => .mark (.unsupported span) rfl fun _ => trivial

theorem Stmt.surveyedAll : (list : List Stmt) → Surveys (Stmt.walkAll · list) (Stmt.afterAll · list)
  | [] => .nothing
  | first :: rest => (Stmt.surveyed first false).append (Stmt.surveyedAll rest)

theorem Stmt.surveyedOption : (value : Option Stmt) → Surveys (Stmt.walkOption · value) (Stmt.afterOption · value)
  | none => .nothing
  | some s => Stmt.surveyed s false

theorem Block.surveyed : (b : Block) → Surveys (Block.walk · b) (Block.after · b)
  | ⟨statements,_⟩ => (Stmt.surveyedAll statements).outside

theorem Block.surveyedOption : (value : Option Block) →
    Surveys (Block.walkOption · value) (Block.afterOption · value)
  | none => .nothing
  | some b => Block.surveyed b

theorem Catch.surveyed : (clause : Catch) → Surveys (Catch.walk · clause) (Catch.after · clause)
  | ⟨param,body,_⟩ => ((Surveys.param param).append (Block.surveyed body)).outside

theorem Catch.surveyedAll : (list : List Catch) → Surveys (Catch.walkAll · list) (Catch.afterAll · list)
  | [] => .nothing
  | first :: rest => (Catch.surveyed first).append (Catch.surveyedAll rest)

end

theorem Stmt.surveyedTop : (list : List Stmt) → Surveys (Stmt.walkTop · list) (Stmt.afterAll · list)
  | [] => .nothing
  | [last] => Stmt.surveyed last true
  | first :: second :: rest => (Stmt.surveyed first false).append (Stmt.surveyedTop (second :: rest))

theorem Block.visits_known (b : Block) : AllKnown (b.visits.filterMap Visit.declared?) b.visits := by
  have start : Sight.start.Tells [] := ⟨rfl,by simp [Known,Sight.start]⟩
  exact (Stmt.surveyedTop b.statements [] .start start).names

end Java
end Transplant
