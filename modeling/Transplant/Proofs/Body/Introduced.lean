import Transplant.Proofs.Body.Walk

/-! The variables that a body introduces. Whatever statement declares a variable, and however deep this
statement stands, the declaration is met on the way through the body. -/
namespace Transplant

open Java (Ident TypeRef Stmt Block Catch Declarator)

namespace Java

/-- The statements directly inside a statement. -/
def Stmt.inner : Stmt → List Stmt
  | .ifElse _ yes no _ => yes :: no.toList
  | .whileLoop _ body _ => [body]
  | .forLoop init _ _ body _ => init ++ [body]
  | .forEach _ _ body _ => [body]
  | .tryCatch body catches cleanup _ =>
    body.statements ++ catches.flatMap (·.body.statements) ++ cleanup.toList.flatMap (·.statements)
  | .block body => body.statements
  | _ => []

/-- The first statement is the second one or stands inside it, at any depth. -/
inductive Stmt.Within : Stmt → Stmt → Prop where
  | self (s : Stmt) : Within s s
  | inside {s part outer : Stmt} (inner : part ∈ outer.inner) (rest : Within s part) : Within s outer

/-- The names that a statement itself declares: those of its declarators, of its variable or of the
parameters of its clauses. -/
def Stmt.introduced : Stmt → List Ident
  | .declare _ list _ => list.map (·.name)
  | .forEach element _ _ _ => [element.name]
  | .tryCatch _ catches _ _ => catches.map (·.param.name)
  | _ => []

/-- A statement of the body, at any depth, declares a variable by the name. -/
def Block.Introduces (body : Block) (name : Ident) : Prop :=
  ∃ outer ∈ body.statements, ∃ s : Stmt, s.Within outer ∧ name ∈ s.introduced

/-- Among the visits is the declaration of a variable by the name. -/
def Declared (name : Ident) (visits : List Visit) : Prop :=
  ∃ declared, .declare declared ∈ visits ∧ declared.name = name

theorem Declared.mono {name : Ident} {visits more : List Visit} (declared : Declared name visits) (sub : visits ⊆ more) :
    Declared name more := by
  obtain ⟨found,member,named⟩ := declared
  exact ⟨found,sub member,named⟩

theorem Declarator.walkAll_declared {list : List Declarator} {declarator : Declarator} (member : declarator ∈ list)
    (sight : Sight) (type : TypeRef) : Declared declarator.name (Declarator.walkAll sight type list) := by
  induction list generalizing sight with
  | nil => cases member
  | cons first rest ih =>
    rcases List.mem_cons.mp member with rfl | later
    · exact ⟨_,List.mem_cons_self,rfl⟩
    · exact (ih later (sight.declare first.name)).mono fun visit inside =>
        List.mem_cons_of_mem _ (List.mem_append_right _ inside)

theorem Catch.walkAll_declared {list : List Catch} {clause : Catch} (member : clause ∈ list) (sight : Sight) :
    Declared clause.param.name (Catch.walkAll sight list) := by
  induction list generalizing sight with
  | nil => cases member
  | cons first rest ih =>
    rw [Catch.walkAll]
    rcases List.mem_cons.mp member with rfl | later
    · obtain ⟨param,body,span⟩ := clause
      exact ⟨_,List.mem_append_left _ (List.mem_append_left _ (List.mem_cons_of_mem _ List.mem_cons_self)),rfl⟩
    · exact (ih later (first.after sight)).mono (List.subset_append_right _ _)

/-- A statement is met with the variables that it declares itself. -/
theorem Stmt.walk_introduced {s : Stmt} {name : Ident} (introduced : name ∈ s.introduced) (isLast : Bool) (sight : Sight) :
    Declared name (s.walk isLast sight) := by
  cases s with
  | declare type list span =>
    obtain ⟨declarator,listed,rfl⟩ := List.mem_map.mp introduced
    exact (Declarator.walkAll_declared listed sight type).mono (List.subset_cons_self _ _)
  | forEach element iterable body span =>
    cases List.mem_singleton.mp introduced
    exact ⟨_,List.mem_append_left _ (List.mem_append_left _ (List.mem_cons_of_mem _ List.mem_cons_self)),rfl⟩
  | tryCatch body catches cleanup span =>
    obtain ⟨clause,listed,rfl⟩ := List.mem_map.mp introduced
    exact (Catch.walkAll_declared listed (body.after sight)).mono fun visit inside =>
      List.mem_cons_of_mem _ (List.mem_append_left _ (List.mem_append_right _ inside))
  | _ => cases introduced

/-- The walk of a statement is part of the visits. -/
def Stmt.Met (s : Stmt) (visits : List Visit) : Prop := ∃ isLast sight, s.walk isLast sight ⊆ visits

theorem Stmt.Met.mono {s : Stmt} {visits more : List Visit} (met : s.Met visits) (sub : visits ⊆ more) : s.Met more := by
  obtain ⟨isLast,sight,given⟩ := met
  exact ⟨isLast,sight,fun _ inside => sub (given inside)⟩

theorem Stmt.met_all {s : Stmt} {list : List Stmt} (member : s ∈ list) (sight : Sight) :
    s.Met (Stmt.walkAll sight list) := by
  induction list generalizing sight with
  | nil => cases member
  | cons first rest ih =>
    rw [Stmt.walkAll]
    rcases List.mem_cons.mp member with rfl | later
    · exact ⟨_,_,List.subset_append_left _ _⟩
    · exact (ih later _).mono (List.subset_append_right _ _)

theorem Stmt.met_block {s : Stmt} {block : Block} (member : s ∈ block.statements) (sight : Sight) :
    s.Met (block.walk sight) := by
  cases block
  exact Stmt.met_all member sight

theorem Stmt.met_catches {s : Stmt} {list : List Catch} {clause : Catch} (listed : clause ∈ list)
    (member : s ∈ clause.body.statements) (sight : Sight) : s.Met (Catch.walkAll sight list) := by
  induction list generalizing sight with
  | nil => cases listed
  | cons first rest ih =>
    rw [Catch.walkAll]
    rcases List.mem_cons.mp listed with rfl | later
    · obtain ⟨param,body,span⟩ := clause
      exact (Stmt.met_block member (sight.declare param.name)).mono fun _ inside =>
        List.mem_append_left _ (List.mem_append_right _ inside)
    · exact (ih later _).mono (List.subset_append_right _ _)

/-- On the way through a statement those inside it are met. -/
theorem Stmt.met_inner {part outer : Stmt} (inner : part ∈ outer.inner) (isLast : Bool) (sight : Sight) :
    part.Met (outer.walk isLast sight) := by
  cases outer with
  | ifElse condition yes no span =>
    rcases List.mem_cons.mp inner with rfl | other
    · exact ⟨false,sight,fun _ inside => List.mem_append_left _ (List.mem_append_right _ inside)⟩
    · cases Option.mem_toList.mp other
      exact ⟨false,yes.after sight,List.subset_append_right _ _⟩
  | whileLoop condition body span =>
    cases List.mem_singleton.mp inner
    exact ⟨false,sight,List.subset_append_right _ _⟩
  | forLoop init condition update body span =>
    rcases List.mem_append.mp inner with first | last
    · exact (Stmt.met_all first sight).mono fun _ inside =>
        List.mem_append_left _ (List.mem_append_left _ (List.mem_append_left _ inside))
    · cases List.mem_singleton.mp last
      exact ⟨false,Stmt.afterAll sight init,List.subset_append_right _ _⟩
  | forEach element iterable body span =>
    cases List.mem_singleton.mp inner
    exact ⟨false,sight.declare element.name,List.subset_append_right _ _⟩
  | tryCatch body catches cleanup span =>
    rcases List.mem_append.mp inner with front | last
    · rcases List.mem_append.mp front with tried | caught
      · exact (Stmt.met_block tried sight).mono fun _ inside =>
          List.mem_cons_of_mem _ (List.mem_append_left _ (List.mem_append_left _ inside))
      · obtain ⟨clause,listed,member⟩ := List.mem_flatMap.mp caught
        exact (Stmt.met_catches listed member (body.after sight)).mono fun _ inside =>
          List.mem_cons_of_mem _ (List.mem_append_left _ (List.mem_append_right _ inside))
    · obtain ⟨block,given,member⟩ := List.mem_flatMap.mp last
      cases Option.mem_toList.mp given
      exact (Stmt.met_block member (Catch.afterAll (body.after sight) catches)).mono fun _ inside =>
        List.mem_cons_of_mem _ (List.mem_append_right _ inside)
  | block body => exact Stmt.met_block inner sight
  | _ => cases inner

theorem Stmt.Within.declared {s outer : Stmt} {name : Ident} (within : s.Within outer) (introduced : name ∈ s.introduced)
    (isLast : Bool) (sight : Sight) : Declared name (outer.walk isLast sight) := by
  induction within generalizing isLast sight with
  | self => exact Stmt.walk_introduced introduced isLast sight
  | inside inner _ ih =>
    obtain ⟨last,seen,sub⟩ := Stmt.met_inner inner isLast sight
    exact (ih last seen).mono sub

/-- Each variable that a body introduces is met where it is declared. -/
theorem Block.Introduces.declared {body : Block} {name : Ident} (introduces : body.Introduces name) :
    Declared name body.visits := by
  obtain ⟨outer,member,s,within,introduced⟩ := introduces
  have top (list : List Stmt) (listed : outer ∈ list) (sight : Sight) : Declared name (Stmt.walkTop sight list) := by
    induction list generalizing sight with
    | nil => cases listed
    | cons first rest ih =>
      cases rest with
      | nil =>
        cases List.mem_singleton.mp listed
        exact within.declared introduced true sight
      | cons second rest =>
        rcases List.mem_cons.mp listed with rfl | later
        · exact (within.declared introduced false sight).mono (List.subset_append_left _ _)
        · exact (ih later _).mono (List.subset_append_right _ _)
  exact top body.statements member .start

end Java

end Transplant
