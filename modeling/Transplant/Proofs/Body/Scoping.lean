import Mathlib.Data.List.Induction
import Transplant.Proofs.Body.Entries

/-! Names and variables by where they stand in the tree of a body. A variable belongs to the block,
loop or clause around its declaration, and what is in force at a name are the variables declared
before it that belong to one around the name; nothing is ever taken back. -/
namespace Transplant

open Java (Ident TypeRef Param Expr Declarator Stmt Block Catch)

/-- Where a part of a body stands: the numbers of the parts that lead to it, the last one first. A
part is inside another if its address ends with that of the other. -/
abbrev Address := List Nat

/-- A variable and the block, loop or clause to which it belongs. -/
structure Declaration where
  owner : Address
  name : String
deriving DecidableEq, Repr

inductive Event where
  | declare (made : Declaration)
  | use (place : Address) (name : String) (span : Span)
deriving DecidableEq, Repr

/-- A name where it stands, with all variables that were declared before it. -/
structure Occurrence where
  name : String
  span : Span
  place : Address
  before : List Declaration
deriving DecidableEq, Repr

def Event.declared? : Event → Option Declaration
  | .declare made => some made
  | _ => none

def declarations (events : List Event) : List Declaration := events.filterMap Event.declared?

def occurrences (before : List Declaration) : List Event → List Occurrence
  | [] => []
  | .declare made :: rest => occurrences (before ++ [made]) rest
  | .use place name span :: rest => ⟨name,span,place,before⟩ :: occurrences before rest

namespace Java

mutual

/-- The variables that are named in an expression; the name of a method that is called is none. -/
def Expr.names : Expr → List (String × Span)
  | .name text span => [(text,span)]
  | .literal _ _ _ => []
  | .this _ => []
  | .super _ => []
  | .missing _ => []
  | .call (.name _ _) args _ => Expr.namesAll args
  | .call callee args _ => callee.names ++ Expr.namesAll args
  | .create outer _ args dims initializer _ _ =>
    Expr.namesOption outer ++ Expr.namesAll args ++ Expr.namesAll dims ++ Expr.namesOption initializer
  | .field receiver _ _ => receiver.names
  | .index array position _ => array.names ++ position.names
  | .unary _ _ operand _ => operand.names
  | .binary _ left right _ => left.names ++ right.names
  | .instanceOf operand _ _ => operand.names
  | .assign _ left right _ => left.names ++ right.names
  | .conditional condition yes no _ => condition.names ++ yes.names ++ no.names
  | .paren inner _ => inner.names
  | .arrayInit elements _ => Expr.namesAll elements

def Expr.namesAll : List Expr → List (String × Span)
  | [] => []
  | first :: rest => first.names ++ Expr.namesAll rest

def Expr.namesOption : Option Expr → List (String × Span)
  | none => []
  | some value => value.names

end

/-- The uses in an expression, or in several, that stand in one place. -/
def usesAt (place : Address) (names : List (String × Span)) : List Event :=
  names.map fun name => .use place name.1 name.2

/-- A variable is declared after its own value. -/
def Declarator.events (owner here : Address) (next : Nat) : List Declarator → List Event
  | [] => []
  | first :: rest =>
    usesAt (next :: here) (Expr.namesOption first.initializer) ++
      .declare ⟨owner,first.name.text⟩ :: Declarator.events owner here (next + 1) rest

mutual

/-- What a statement at the address `here` declares and uses, in this order; `owner` is the block,
loop or clause around it. -/
def Stmt.events (owner here : Address) : Stmt → List Event
  | .declare _ list _ => Declarator.events owner here 0 list
  | .expr value _ => usesAt (0 :: here) value.names
  | .returns value _ => usesAt (0 :: here) (Expr.namesOption value)
  | .throws value _ => usesAt (0 :: here) value.names
  | .ifElse condition yes no _ =>
    usesAt (0 :: here) condition.names ++ yes.events owner (1 :: here) ++
      Stmt.eventsOption owner (2 :: here) no
  | .whileLoop condition body _ => usesAt (0 :: here) condition.names ++ body.events owner (1 :: here)
  | .forLoop init condition update body _ =>
    Stmt.eventsAll here here 0 init ++ usesAt (init.length :: here) (Expr.namesOption condition) ++
      usesAt ((init.length + 1) :: here) (Expr.namesAll update) ++
      body.events here ((init.length + 2) :: here)
  | .forEach element iterable body _ =>
    usesAt (0 :: here) iterable.names ++ [.declare ⟨here,element.name.text⟩] ++
      body.events here (1 :: here)
  | .tryCatch body catches cleanup _ =>
    body.events (0 :: here) ++ Catch.eventsAll here 1 catches ++
      Block.eventsOption ((1 + catches.length) :: here) cleanup
  | .block body => body.events here
  | .breaks _ => []
  | .continues _ => []
  | .empty _ => []
  | .unsupported _ => []

/-- Statements side by side in the part at `here`, the first of them its part number `next`. -/
def Stmt.eventsAll (owner here : Address) (next : Nat) : List Stmt → List Event
  | [] => []
  | first :: rest => first.events owner (next :: here) ++ Stmt.eventsAll owner here (next + 1) rest

def Stmt.eventsOption (owner here : Address) : Option Stmt → List Event
  | none => []
  | some stmt => stmt.events owner here

def Block.events (here : Address) : Block → List Event
  | ⟨statements,_⟩ => Stmt.eventsAll here here 0 statements

def Block.eventsOption (here : Address) : Option Block → List Event
  | none => []
  | some block => block.events here

def Catch.events (here : Address) : Catch → List Event
  | ⟨param,body,_⟩ => .declare ⟨here,param.name.text⟩ :: body.events (0 :: here)

def Catch.eventsAll (here : Address) (next : Nat) : List Catch → List Event
  | [] => []
  | first :: rest => first.events (next :: here) ++ Catch.eventsAll here (next + 1) rest

end

/-- The names in a body, each with what was declared before it. -/
def Block.occurrences (body : Block) : List Occurrence := Transplant.occurrences [] (body.events [])

end Java

/-- Those of the declarations that are kept, as variables by name, the latest first; the first
declaration has the number `start`. -/
def localsOf (keep : Declaration → Bool) (start : Nat) (made : List Declaration) : Locals :=
  (((made.zipIdx start).filter fun entry => keep entry.1).map fun entry => (entry.1.name,entry.2)).reverse

/-- The variables in force at a place, the latest first. -/
def inForce (place : Address) (before : List Declaration) : Locals :=
  localsOf (fun made => decide (made.owner <:+ place)) 0 before

/-- A name with the variables in force where it stands. -/
structure Sighting where
  name : String
  visible : Locals
  span : Span

def Visit.sighting? : Visit → Option Sighting
  | .name text visible _ span => some ⟨text,visible,span⟩
  | _ => none

def Occurrence.sighting (occurrence : Occurrence) : Sighting :=
  ⟨occurrence.name,inForce occurrence.place occurrence.before,occurrence.span⟩

section

variable {keep other : Declaration → Bool} {start : Nat} {made more : List Declaration}

theorem localsOf_append : localsOf keep start (made ++ more) =
    localsOf keep (start + made.length) more ++ localsOf keep start made := by
  simp [localsOf,List.zipIdx_append]

theorem localsOf_congr (same : ∀ one ∈ made, keep one = other one) :
    localsOf keep start made = localsOf other start made := by
  have entries : ∀ entry ∈ made.zipIdx start, keep entry.1 = other entry.1 := fun entry member =>
    same _ (List.fst_mem_of_mem_zipIdx member)
  rw [localsOf,localsOf,List.filter_congr entries]

theorem localsOf_none (none : ∀ one ∈ made, keep one = false) : localsOf keep start made = [] := by
  have entries : ∀ entry ∈ made.zipIdx start, ¬ keep entry.1 = true := fun entry member => by
    rw [none _ (List.fst_mem_of_mem_zipIdx member)]
    decide
  rw [localsOf,List.filter_eq_nil_iff.mpr entries]
  rfl

theorem occurrences_append (before : List Declaration) (events rest : List Event) :
    occurrences before (events ++ rest) =
      occurrences before events ++ occurrences (before ++ declarations events) rest := by
  induction events generalizing before with
  | nil => simp [occurrences,declarations]
  | cons event events ih =>
    cases event with
    | declare made => simp [occurrences,ih,declarations,Event.declared?]
    | use place name span => simp [occurrences,ih,declarations,Event.declared?,List.filterMap_cons]

theorem declarations_append (events rest : List Event) :
    declarations (events ++ rest) = declarations events ++ declarations rest := List.filterMap_append

theorem declarations_usesAt (place : Address) (names : List (String × Span)) :
    declarations (Java.usesAt place names) = [] := by
  simp [declarations,Java.usesAt,List.filterMap_map,Event.declared?,Function.comp_def]

theorem occurrences_usesAt (before : List Declaration) (place : Address) (names : List (String × Span)) :
    (occurrences before (Java.usesAt place names)).map Occurrence.sighting =
      names.map fun name => ⟨name.1,inForce place before,name.2⟩ := by
  induction names with
  | nil => rfl
  | cons name rest ih => exact congrArg _ ih

end

/-- The address is inside one of the parts of `here` with the numbers from `low` to before `high`. -/
def Within (here : Address) (low high : Nat) (address : Address) : Prop :=
  ∃ k, low ≤ k ∧ k < high ∧ (k :: here) <:+ address

section

variable {here address inner : Address} {low middle high k : Nat}

theorem Within.mono (within : Within here low middle address) (order : middle ≤ high) : Within here low high address := by
  obtain ⟨k,after,before,inside⟩ := within
  exact ⟨k,after,Nat.lt_of_lt_of_le before order,inside⟩

theorem Within.later (within : Within here middle high address) (order : low ≤ middle) : Within here low high address := by
  obtain ⟨k,after,before,inside⟩ := within
  exact ⟨k,Nat.le_trans order after,before,inside⟩

/-- Nothing is inside two parts that stand side by side. -/
theorem Within.apart (within : Within here low middle inner) (around : inner <:+ address)
    (elsewhere : Within here middle high address) : False := by
  obtain ⟨k,_,before,inside⟩ := within
  obtain ⟨l,after,_,other⟩ := elsewhere
  have same := (List.suffix_of_suffix_length_le (inside.trans around) other (Nat.le_refl _)).eq_of_length rfl
  have number := (List.cons.inj same).1
  omega

theorem Within.lift (within : Within (k :: here) low high address) : Within here k (k + 1) address := by
  obtain ⟨l,_,_,inside⟩ := within
  exact ⟨k,Nat.le_refl k,Nat.lt_succ_self k,(List.suffix_cons l _).trans inside⟩

theorem within_self (inside : (k :: here) <:+ address) : Within here k (k + 1) address :=
  ⟨k,Nat.le_refl k,Nat.lt_succ_self k,inside⟩

end

/-- The events are those of the parts of `here` from number `low` to before `high`: they declare for
the `owner` or deeper inside, and where the walk meets a name it sees what is in force there. -/
structure Explains (owner here : Address) (low high : Nat) (walk : Sight → List Visit) (after : Sight → Sight)
    (events : List Event) : Prop where
  inside : ∀ made ∈ declarations events, made.owner = owner ∨ Within here low high made.owner
  declared : ∀ sight, ((walk sight).filterMap Visit.declared?).map (·.name.text) = (declarations events).map (·.name)
  behind : ∀ sight, after sight = ⟨localsOf (fun made => decide (made.owner = owner)) sight.count
    (declarations events) ++ sight.visible,sight.count + (declarations events).length⟩
  seen : ∀ before sight, sight.count = before.length →
    (∀ place, Within here low high place → inForce place before = sight.visible) →
    (occurrences before events).map Occurrence.sighting = (walk sight).filterMap Visit.sighting?

namespace Explains

variable {owner here : Address} {low middle high k : Nat} {walk rest other : Sight → List Visit}
  {after last : Sight → Sight} {events more : List Event}

/-- Visits that show no name and no variable make no difference. -/
theorem congr (given : Explains owner here low high walk after events)
    (named : ∀ sight, (other sight).filterMap Visit.sighting? = (walk sight).filterMap Visit.sighting?)
    (declared : ∀ sight, (other sight).filterMap Visit.declared? = (walk sight).filterMap Visit.declared?) :
    Explains owner here low high other after events where
  inside := given.inside
  declared := fun sight => by rw [declared,given.declared]
  behind := given.behind
  seen := fun before sight count visible => by rw [named,given.seen before sight count visible]

theorem append (inScope : owner <:+ here) (first : Explains owner here low middle walk after events)
    (second : Explains owner here middle high rest last more) (up : low ≤ middle) (on : middle ≤ high) :
    Explains owner here low high (fun sight => walk sight ++ rest (after sight)) (fun sight => last (after sight))
      (events ++ more) where
  inside := by
    intro made member
    rw [declarations_append] at member
    rcases List.mem_append.mp member with early | late
    · exact (first.inside made early).imp_right (·.mono on)
    · exact (second.inside made late).imp_right (·.later up)
  declared := fun sight => by
    rw [List.filterMap_append,List.map_append,first.declared,second.declared,declarations_append,List.map_append]
  behind := fun sight => by
    simp [first.behind,second.behind,declarations_append,localsOf_append,Nat.add_assoc]
  seen := by
    intro before sight count visible
    have front := first.seen before sight count fun place within => visible place (within.mono on)
    have counted : (after sight).count = (before ++ declarations events).length := by
      simp [first.behind,count]
    -- What the first parts declare for the owner is in force in the others, the rest is not.
    have back := second.seen (before ++ declarations events) (after sight) counted fun place within => by
      have kept : ∀ made ∈ declarations events,
          decide (made.owner <:+ place) = decide (made.owner = owner) := by
        intro made member
        refine decide_eq_decide.mpr ⟨fun around => ?_,?_⟩
        · rcases first.inside made member with own | deeper
          · exact own
          · exact (deeper.apart around within).elim
        · rintro rfl
          obtain ⟨l,_,_,inside⟩ := within
          exact (inScope.trans (List.suffix_cons l here)).trans inside
      rw [inForce,localsOf_append,localsOf_congr kept,Nat.zero_add,first.behind,← count]
      exact congrArg _ (visible place (within.later up))
    rw [occurrences_append,List.map_append,front,back,List.filterMap_append]

/-- A statement that opens nothing declares for the owner around it. -/
theorem lift (given : Explains owner (k :: here) low high walk after events) :
    Explains owner here k (k + 1) walk after events where
  inside := fun made member => (given.inside made member).imp_right (·.lift)
  declared := given.declared
  behind := given.behind
  seen := fun before sight count visible => given.seen before sight count fun place within => visible place within.lift

/-- What a block, loop or clause declares is in force in it only. -/
theorem scope (inScope : owner <:+ here) (given : Explains (k :: here) (k :: here) low high walk after events) :
    Explains owner here k (k + 1) walk (fun sight => sight.outside (after sight)) events := by
  have deep : ∀ made ∈ declarations events, (k :: here) <:+ made.owner := by
    intro made member
    rcases given.inside made member with own | ⟨l,_,_,inside⟩
    · exact own ▸ List.suffix_refl _
    · exact (List.suffix_cons l _).trans inside
  have foreign : ∀ made ∈ declarations events, decide (made.owner = owner) = false := by
    intro made member
    refine decide_eq_false fun same => ?_
    have longer := (deep made member).length_le
    have shorter := inScope.length_le
    rw [same,List.length_cons] at longer
    omega
  refine ⟨fun made member => .inr (within_self (deep made member)),given.declared,fun sight => ?_,?_⟩
  · rw [localsOf_none foreign]
    simp [Sight.outside,given.behind]
  · exact fun before sight count visible => given.seen before sight count fun place within => visible place within.lift

theorem nothing : Explains owner here low high (fun _ => []) id [] :=
  ⟨nofun,fun _ => rfl,fun _ => rfl,fun _ _ _ _ => rfl⟩

/-- Uses in one place, of an expression that is visited with what is in force there. -/
theorem uses {read : Locals → List Visit} {names : List (String × Span)}
    (named : ∀ visible, (read visible).filterMap Visit.sighting? = names.map fun name => ⟨name.1,visible,name.2⟩)
    (silent : ∀ visible, (read visible).filterMap Visit.declared? = []) :
    Explains owner here k (k + 1) (fun sight => read sight.visible) id (Java.usesAt (k :: here) names) where
  inside := by
    rw [declarations_usesAt]
    exact nofun
  declared := fun sight => by
    rw [silent,declarations_usesAt]
    rfl
  behind := fun sight => by
    rw [declarations_usesAt]
    rfl
  seen := fun before sight _ visible => by
    rw [occurrences_usesAt,named,visible _ (within_self (List.suffix_refl _))]

theorem declare (declared : Local) : Explains owner here low high (fun _ => [.declare declared])
    (fun sight => sight.declare declared.name) [.declare ⟨owner,declared.name.text⟩] where
  inside := fun made member => .inl (by rw [List.mem_singleton.mp member])
  declared := fun _ => rfl
  behind := fun sight => by simp [declarations,Event.declared?,localsOf,Sight.declare]
  seen := fun _ _ _ _ => rfl

end Explains

namespace Java

/-- What is met of names in an expression are the variables that are named in it. -/
theorem Expr.walk_names (visible : Locals) :
    (∀ access e, (Expr.walk visible access e).filterMap Visit.sighting? =
      e.names.map fun name => ⟨name.1,visible,name.2⟩) ∧
    (∀ value, (Expr.walkOption visible value).filterMap Visit.sighting? =
      (Expr.namesOption value).map fun name => ⟨name.1,visible,name.2⟩) ∧
    ∀ list, (Expr.walkAll visible list).filterMap Visit.sighting? =
      (Expr.namesAll list).map fun name => ⟨name.1,visible,name.2⟩ := by
  have inside (body : Option Span) : (body.toList.map Visit.anonymous).filterMap Visit.sighting? = [] := by
    cases body <;> rfl
  apply Expr.walk.mutual_induct
  all_goals intros
  all_goals simp_all [Expr.walk,Expr.walkAll,Expr.walkOption,Expr.names,Expr.namesAll,Expr.namesOption,
    Visit.sighting?,List.filterMap_cons]

variable {owner here : Address} {k : Nat}

theorem Expr.explained (e : Expr) : Explains owner here k (k + 1) (fun sight => e.walk sight.visible .read) id
    (usesAt (k :: here) e.names) :=
  .uses (fun visible => (Expr.walk_names visible).1 .read e) fun visible => Expr.walk_declares_none.1 e visible .read

theorem Expr.explainedOption (value : Option Expr) : Explains owner here k (k + 1)
    (fun sight => Expr.walkOption sight.visible value) id (usesAt (k :: here) (Expr.namesOption value)) :=
  .uses (fun visible => (Expr.walk_names visible).2.1 value) fun visible => Expr.walk_declares_none.2.1 value visible

theorem Expr.explainedAll (list : List Expr) : Explains owner here k (k + 1)
    (fun sight => Expr.walkAll sight.visible list) id (usesAt (k :: here) (Expr.namesAll list)) :=
  .uses (fun visible => (Expr.walk_names visible).2.2 list) fun visible => Expr.walk_declares_none.2.2 list visible

/-- The value of a variable is met behind its declaration and does not see it. -/
theorem Declarator.explained (inScope : owner <:+ here) (type : TypeRef) : (list : List Declarator) → (next : Nat) →
    Explains owner here next (next + list.length) (Declarator.walkAll · type list) (Declarator.afterAll · list)
      (Declarator.events owner here next list)
  | [],_ => .nothing
  | first :: rest,next => by
    have value := @Expr.explainedOption owner here next first.initializer
    have declared := @Explains.declare owner here (next + 1) (next + 1) ⟨type,first.name,first.span⟩
    have both := value.append inScope declared (Nat.le_succ next) (Nat.le_refl _)
    have all := both.append inScope (Declarator.explained inScope type rest (next + 1)) (Nat.le_succ next)
      (Nat.le_add_right _ _)
    have length : next + 1 + rest.length = next + (first :: rest).length := by
      rw [List.length_cons,Nat.add_right_comm,Nat.add_assoc]
    rw [length,List.append_assoc] at all
    refine all.congr (fun sight => ?_) fun sight => ?_
    · simp [Declarator.walkAll,Visit.sighting?,List.filterMap_cons]
    · simp [Declarator.walkAll,Visit.declared?,Expr.walk_declares_none.2.1]

theorem leaving_unsighted (isLast : Bool) (span : Span) :
    (leaving isLast span).filterMap Visit.sighting? = [] := by
  cases isLast <;> rfl

/-- The part of a body with the number `k` inside any other is explained by its events. -/
def Explained (walk : Sight → List Visit) (after : Sight → Sight) (events : Address → Address → List Event) : Prop :=
  ∀ owner here : Address, owner <:+ here → ∀ k, Explains owner here k (k + 1) walk after (events owner (k :: here))

/-- Parts side by side, from number `next` on. -/
def ExplainedAll (count : Nat) (walk : Sight → List Visit) (after : Sight → Sight)
    (events : Address → Address → Nat → List Event) : Prop :=
  ∀ owner here : Address, owner <:+ here → ∀ next,
    Explains owner here next (next + count) walk after (events owner here next)

theorem ExplainedAll.nil {events : Address → Address → Nat → List Event}
    (none : ∀ owner here next, events owner here next = []) :
    ExplainedAll 0 (fun _ => []) id events := by
  intro owner here _ next
  rw [none]
  exact .nothing

theorem ExplainedAll.cons {walk rest : Sight → List Visit} {after last : Sight → Sight} {count : Nat}
    {events : Address → Address → List Event} {more : Address → Address → Nat → List Event}
    (one : Explained walk after events) (others : ExplainedAll count rest last more) :
    ExplainedAll (count + 1) (fun sight => walk sight ++ rest (after sight)) (fun sight => last (after sight))
      fun owner here next => events owner (next :: here) ++ more owner here (next + 1) := by
  intro owner here inScope next
  have all := (one owner here inScope next).append inScope (others owner here inScope (next + 1)) (Nat.le_succ next)
    (Nat.le_add_right _ _)
  rwa [Nat.add_right_comm] at all

theorem ExplainedAll.first {walk : Sight → List Visit} {after : Sight → Sight} {count : Nat}
    {events : Address → Address → Nat → List Event} (all : ExplainedAll count walk after events)
    (inScope : owner <:+ here) : Explains owner here 0 count walk after (events owner here 0) := by
  have given := all owner here inScope 0
  rwa [Nat.zero_add] at given

mutual

theorem Stmt.explained : (s : Stmt) → ∀ isLast,
    Explained (Stmt.walk isLast · s) (Stmt.after · s) fun owner here => s.events owner here
  | .declare type list _ => fun _ _ here inScope k =>
    (Declarator.explained (inScope.trans (List.suffix_cons k here)) type list 0).lift.congr (fun _ => rfl) fun _ => rfl
  | .expr value _ => fun _ _ _ _ _ => (Expr.explained value).lift
  | .returns value span => fun isLast _ _ _ _ => (Expr.explainedOption value).lift.congr
    (fun _ => by simp [leaving_unsighted]) fun _ => by simp [Drafting.leaving_declares]
  | .throws value span => fun isLast _ _ _ _ => (Expr.explained value).lift.congr
    (fun _ => by simp [leaving_unsighted]) fun _ => by simp [Drafting.leaving_declares]
  | .ifElse condition yes no _ => fun _ _ here inScope k =>
    have inside := inScope.trans (List.suffix_cons k here)
    (((Expr.explained condition).append inside (Stmt.explained yes false _ _ inside 1) (by decide) (by decide)).append
      inside (Stmt.explainedOption no _ _ inside 2) (by decide) (by decide)).lift
  | .whileLoop condition body _ => fun _ _ here inScope k =>
    have inside := inScope.trans (List.suffix_cons k here)
    ((Expr.explained condition).append inside (Stmt.explained body false _ _ inside 1) (by decide) (by decide)).lift
  | .forLoop init condition update body _ => fun _ _ here inScope k =>
    have inside := List.suffix_refl (k :: here)
    (((((Stmt.explainedAll init).first inside).append inside (Expr.explainedOption condition) (by omega) (by omega)).append
      inside (Expr.explainedAll update) (by omega) (by omega)).append inside (Stmt.explained body false _ _ inside _)
      (by omega) (by omega)).scope inScope
  | .forEach element iterable body _ => fun _ _ here inScope k =>
    have inside := List.suffix_refl (k :: here)
    ((((Expr.explained iterable).append inside (.declare ⟨element.type,element.name,element.span⟩) (Nat.zero_le _)
      (Nat.le_refl 1)).append inside (Stmt.explained body false _ _ inside 1) (by decide) (by decide)).scope inScope).congr
      (fun _ => by simp [Param.visits,Visit.sighting?,List.filterMap_cons])
      fun _ => by simp [Param.visits,Visit.declared?,List.filterMap_cons,Expr.walk_declares_none.1]
  | .tryCatch body catches cleanup span => fun _ _ here inScope k =>
    have inside := inScope.trans (List.suffix_cons k here)
    (((Block.explained body _ _ inside 0).append inside (Catch.explainedAll catches _ _ inside 1) (by omega)
      (by omega)).append inside (Block.explainedOption cleanup _ _ inside _) (by omega) (by omega)).lift.congr
      (fun _ => rfl) fun _ => rfl
  | .block body => fun _ => Block.explained body
  | .breaks _ => fun _ _ _ _ _ => .nothing
  | .continues _ => fun _ _ _ _ _ => .nothing
  | .empty _ => fun _ _ _ _ _ => .nothing
  | .unsupported span => fun _ _ _ _ _ => Explains.nothing.congr (fun _ => rfl) fun _ => rfl

theorem Stmt.explainedAll : (list : List Stmt) → ExplainedAll list.length (Stmt.walkAll · list) (Stmt.afterAll · list)
    fun owner here next => Stmt.eventsAll owner here next list
  | [] => .nil fun _ _ _ => rfl
  | first :: rest => .cons (Stmt.explained first false) (Stmt.explainedAll rest)

theorem Stmt.explainedOption : (value : Option Stmt) → Explained (Stmt.walkOption · value) (Stmt.afterOption · value)
    fun owner here => Stmt.eventsOption owner here value
  | none => fun _ _ _ _ => .nothing
  | some s => Stmt.explained s false

theorem Block.explained : (b : Block) → Explained (Block.walk · b) (Block.after · b) fun _ here => b.events here
  | ⟨statements,_⟩ => fun _ _ inScope _ => ((Stmt.explainedAll statements).first (List.suffix_refl _)).scope inScope

theorem Block.explainedOption : (value : Option Block) → Explained (Block.walkOption · value)
    (Block.afterOption · value) fun _ here => Block.eventsOption here value
  | none => fun _ _ _ _ => .nothing
  | some b => Block.explained b

theorem Catch.explained : (clause : Catch) → Explained (Catch.walk · clause) (Catch.after · clause)
    fun _ here => clause.events here
  | ⟨param,body,_⟩ => fun _ here inScope k =>
    have inside := List.suffix_refl (k :: here)
    (((Explains.declare ⟨param.type,param.name,param.span⟩).append inside (Block.explained body _ _ inside 0)
      (Nat.le_refl 0) (Nat.zero_le _)).scope inScope).congr (fun _ => rfl) fun _ => rfl

theorem Catch.explainedAll : (list : List Catch) → ExplainedAll list.length (Catch.walkAll · list)
    (Catch.afterAll · list) fun _ here next => Catch.eventsAll here next list
  | [] => .nil fun _ _ _ => rfl
  | first :: rest => .cons (Catch.explained first) (Catch.explainedAll rest)

end

theorem Block.explainedTop (b : Block) : Explains [] [] 0 b.statements.length (Stmt.walkAll · b.statements)
    (Stmt.afterAll · b.statements) (b.events []) := by
  cases b
  exact (Stmt.explainedAll _).first (List.suffix_refl [])

/-- The names met in a body are its occurrences, with what is in force at each. -/
theorem Block.occurrences_seen (b : Block) :
    b.occurrences.map Occurrence.sighting = b.visits.filterMap Visit.sighting? := by
  rw [Block.visits,Stmt.walkTop_filterMap _ fun _ => rfl]
  exact b.explainedTop.seen [] .start rfl fun _ _ => rfl

/-- The variables of a body are those of its declarations. -/
theorem Block.declarations_seen (b : Block) :
    (b.visits.filterMap Visit.declared?).map (·.name.text) = (declarations (b.events [])).map (·.name) := by
  rw [Block.visits,Stmt.walkTop_filterMap _ fun _ => rfl]
  exact b.explainedTop.declared .start

end Java

/-- The names in the table of a body stand for what they are resolved to among the variables in
force. -/
theorem Body.ofBlock_occurrences {β γ : Type} (scope : Scope β) (block : Block) (method : Method γ) :
    (ofBlock scope block).exprs.toList.filterMap ExprNode.nameUse? = block.occurrences.map fun occurrence =>
      ⟨occurrence.name,scope.resolve (inForce occurrence.place occurrence.before) occurrence.name,occurrence.span⟩ := by
  have uses : Visit.nameUse? scope = fun visit => visit.sighting?.map fun sighting =>
      ⟨sighting.name,scope.resolve sighting.visible sighting.name,sighting.span⟩ := by
    funext visit
    cases visit <;> rfl
  rw [ofBlock_names scope block method,uses,← List.map_filterMap,← block.occurrences_seen,List.map_map]
  rfl

end Transplant
