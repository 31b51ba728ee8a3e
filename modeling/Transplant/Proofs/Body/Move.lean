import Transplant.Proofs.Body.Stmt

/-! The way through a body when all its spans are moved: the same visits at the moved places. -/
namespace Transplant

open Java (Expr Declarator Param Stmt Block Catch TypeRef)

def Local.move (g : Nat → Nat) (declared : Local) : Local :=
  ⟨declared.type.mapSpans (Span.map g),declared.name.mapSpans (Span.map g),declared.span.map g⟩

def Visit.move (g : Nat → Nat) : Visit → Visit
  | .name text visible access span => .name text visible access (span.map g)
  | .this span => .this (span.map g)
  | .super span => .super (span.map g)
  | .missing span => .missing (span.map g)
  | .call callee arity span => .call (callee.mapSpans (Span.map g)) arity (span.map g)
  | .callOnThis callee arity span => .callOnThis (callee.mapSpans (Span.map g)) arity (span.map g)
  | .create created span => .create created (span.map g)
  | .anonymous span => .anonymous (span.map g)
  | .type span => .type (span.map g)
  | .binding span => .binding (span.map g)
  | .declare declared => .declare (declared.move g)
  | .resources span => .resources (span.map g)
  | .leave span => .leave (span.map g)
  | .unsupported span => .unsupported (span.map g)

namespace Java

variable (g : Nat → Nat)

theorem Expr.mapSpans_walk (visible : Locals) :
    (∀ access e, (Expr.mapSpans (Span.map g) e).walk visible access =
      (e.walk visible access).map (Visit.move g)) ∧
    (∀ value, Expr.walkOption visible (Expr.mapSpansOption (Span.map g) value) =
      (Expr.walkOption visible value).map (Visit.move g)) ∧
    ∀ list, Expr.walkAll visible (Expr.mapSpansAll (Span.map g) list) =
      (Expr.walkAll visible list).map (Visit.move g) := by
  have count (list : List Expr) : (Expr.mapSpansAll (Span.map g) list).length = list.length := by
    induction list with
    | nil => rfl
    | cons e rest ih => simp [Expr.mapSpansAll,ih]
  have inside (body : Option Span) : (body.map (Span.map g)).toList.map Visit.anonymous =
      (body.toList.map Visit.anonymous).map (Visit.move g) := by
    cases body <;> rfl
  apply Expr.walk.mutual_induct
  all_goals intros
  all_goals simp_all only [Expr.mapSpans,Expr.mapSpansAll,Expr.mapSpansOption,Expr.walk,Expr.walkAll,
    Expr.walkOption,List.map_append,List.map_cons,List.map_nil,Visit.move,TypeRef.mapSpans,Ident.mapSpans,Span.map]
  case case10 access callee args span notName notThis notSuper notField inner listed =>
    rw [← inner,← listed]
    cases callee with
    | name text place => exact absurd rfl (notName text place)
    | this place => exact absurd rfl (notThis place)
    | super place => exact absurd rfl (notSuper place)
    | field receiver member place =>
      cases receiver with
      | this outer => exact absurd rfl (notField outer member place)
      | _ => rfl
    | _ => rfl

theorem Declarator.mapSpans_walkAll (type : TypeRef) (list : List Declarator) (sight : Sight) :
    Declarator.walkAll sight (type.mapSpans (Span.map g)) (list.map (Declarator.mapSpans (Span.map g))) =
      (Declarator.walkAll sight type list).map (Visit.move g) := by
  induction list generalizing sight with
  | nil => rfl
  | cons first rest ih =>
    have value := (Expr.mapSpans_walk g sight.visible).2.1 first.initializer
    have option : first.initializer.map (Expr.mapSpans (Span.map g)) =
        Expr.mapSpansOption (Span.map g) first.initializer := by
      cases first.initializer <;> rfl
    simp only [List.map_cons,Declarator.walkAll,Declarator.mapSpans,option,value,List.map_append]
    rw [← ih]
    rfl

theorem Declarator.mapSpans_afterAll (list : List Declarator) (sight : Sight) :
    Declarator.afterAll sight (list.map (Declarator.mapSpans (Span.map g))) = Declarator.afterAll sight list := by
  simp only [Declarator.afterAll,List.foldl_map]
  rfl

theorem Expr.mapSpans_option (value : Option Expr) (visible : Locals) :
    Expr.walkOption visible (value.map (Expr.mapSpans (Span.map g))) =
      (Expr.walkOption visible value).map (Visit.move g) := by
  have moved := (Expr.mapSpans_walk g visible).2.1 value
  cases value <;> exact moved

theorem Expr.mapSpans_all (list : List Expr) (visible : Locals) :
    Expr.walkAll visible (list.map (Expr.mapSpans (Span.map g))) =
      (Expr.walkAll visible list).map (Visit.move g) := by
  induction list with
  | nil => rfl
  | cons e rest ih =>
    simp only [List.map_cons,Expr.walkAll,ih,(Expr.mapSpans_walk g visible).1,List.map_append]

theorem leaving_move (isLast : Bool) (span : Span) :
    leaving isLast (span.map g) = (leaving isLast span).map (Visit.move g) := by
  cases isLast <;> rfl

theorem Sight.declare_mapSpans (sight : Sight) (param : Param) :
    sight.declare (param.mapSpans (Span.map g)).name = sight.declare param.name := rfl

theorem type_move (type : TypeRef) : Visit.type (type.mapSpans (Span.map g)).span = .type (type.span.map g) := rfl

theorem resources_move (span : Span) (body : Block) :
    Visit.resources ⟨(span.map g).start,(body.mapSpans (Span.map g)).span.start⟩ =
      .resources (Span.map g ⟨span.start,body.span.start⟩) := by
  cases body
  rfl

theorem Param.mapSpans_visits (param : Param) :
    (param.mapSpans (Span.map g)).visits = param.visits.map (Visit.move g) := rfl

/-- Moving the spans keeps what is in force behind a part of a body and moves its visits. -/
def Moved (after moved : Sight → Sight) (walk movedWalk : Sight → List Visit) : Prop :=
  (∀ sight, moved sight = after sight) ∧ ∀ sight, movedWalk sight = (walk sight).map (Visit.move g)

theorem Stmt.mapSpans_moved :
    (∀ s : Stmt, (∀ sight, (s.mapSpans (Span.map g)).after sight = s.after sight) ∧ ∀ isLast sight,
      (s.mapSpans (Span.map g)).walk isLast sight = (s.walk isLast sight).map (Visit.move g)) ∧
    (∀ value, Moved g (Block.afterOption · value)
      (Block.afterOption · (Block.mapSpansOption (Span.map g) value))
      (Block.walkOption · value) (Block.walkOption · (Block.mapSpansOption (Span.map g) value))) ∧
    (∀ b, Moved g (Block.after · b) (Block.after · (b.mapSpans (Span.map g)))
      (Block.walk · b) (Block.walk · (b.mapSpans (Span.map g)))) ∧
    (∀ list, Moved g (Stmt.afterAll · list) (Stmt.afterAll · (Stmt.mapSpansAll (Span.map g) list))
      (Stmt.walkAll · list) (Stmt.walkAll · (Stmt.mapSpansAll (Span.map g) list))) ∧
    (∀ list, Moved g (Catch.afterAll · list) (Catch.afterAll · (Catch.mapSpansAll (Span.map g) list))
      (Catch.walkAll · list) (Catch.walkAll · (Catch.mapSpansAll (Span.map g) list))) ∧
    (∀ clause, Moved g (Catch.after · clause) (Catch.after · (clause.mapSpans (Span.map g)))
      (Catch.walk · clause) (Catch.walk · (clause.mapSpans (Span.map g)))) ∧
    (∀ value, Moved g (Stmt.afterOption · value)
      (Stmt.afterOption · (Stmt.mapSpansOption (Span.map g) value))
      (Stmt.walkOption · value) (Stmt.walkOption · (Stmt.mapSpansOption (Span.map g) value))) := by
  apply Stmt.induction_all
  all_goals intros
  all_goals simp_all only [Moved,Stmt.mapSpans,Stmt.mapSpansAll,Stmt.mapSpansOption,Block.mapSpans,
    Block.mapSpansOption,Catch.mapSpans,Catch.mapSpansAll,Stmt.after,Stmt.afterAll,Stmt.afterOption,Block.after,
    Block.afterOption,Catch.after,Catch.afterAll,Stmt.walk,Stmt.walkAll,Stmt.walkOption,Block.walk,Block.walkOption,
    Catch.walk,Catch.walkAll,Declarator.mapSpans_afterAll,Declarator.mapSpans_walkAll,Expr.mapSpans_walk,
    Expr.mapSpans_option,Expr.mapSpans_all,List.map_append,List.map_cons,List.map_nil,Visit.move,implies_true,and_self,
    leaving_move,Param.mapSpans_visits,type_move,resources_move,Sight.declare_mapSpans]

theorem Stmt.mapSpans_walkTop (list : List Stmt) (sight : Sight) :
    Stmt.walkTop sight (Stmt.mapSpansAll (Span.map g) list) = (Stmt.walkTop sight list).map (Visit.move g) := by
  induction list generalizing sight with
  | nil => rfl
  | cons first rest ih =>
    have moved := (Stmt.mapSpans_moved g).1 first
    cases rest with
    | nil => exact moved.2 true sight
    | cons second rest =>
      have tail := ih (first.after sight)
      simp only [Stmt.mapSpansAll,Stmt.walkTop,moved.1,moved.2,List.map_append] at tail ⊢
      rw [tail]

/-- The visits in a body whose spans are moved. -/
theorem Block.mapSpans_visits (b : Block) :
    (b.mapSpans (Span.map g)).visits = b.visits.map (Visit.move g) := by
  cases b
  exact Stmt.mapSpans_walkTop g _ .start

end Java
end Transplant
