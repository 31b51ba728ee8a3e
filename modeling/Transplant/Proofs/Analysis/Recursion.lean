import Transplant.Proofs.Analysis.Receivers

/-! Which calls are reported as calls of the method itself: those by its name with as many arguments as
it has parameters, alone or on `this`. What stands before the dot is compared with `this` only, so
neither the name of the class nor `this` in parentheses shows that a method calls itself. -/
namespace Transplant

open Java (Block)

def Finding.recursion? : Finding → Option Span
  | .recursion span => some span
  | _ => none

namespace ExprNode

/-- The node calls a method by the name of this one, with as many arguments as it has parameters, alone
or on `this`. -/
inductive CallsItself {β : Type} (method : Method β) (body : Body) : ExprNode → Prop where
  | alone {callee : Java.Ident} {args : List ExprId} {target : Option MethodRef} {span : Span}
      (ordinary : callee.text ≠ "this" ∧ callee.text ≠ "super") (named : callee.text = method.name.text)
      (count : args.length = method.params.length) : CallsItself method body (.call none callee args target span)
  | onThis {receiver : ExprId} {callee : Java.Ident} {args : List ExprId} {target : Option MethodRef} {span : Span}
      (place : Span) (known : body.exprs[receiver]? = some (.this place)) (named : callee.text = method.name.text)
      (count : args.length = method.params.length) :
      CallsItself method body (.call (some receiver) callee args target span)

/-- Where the node is reported as a call of the method itself. -/
def selfCall? {β : Type} (method : Method β) (body : Body) : ExprNode → Option Span
  | .call none callee args target span =>
    if callee.text = "super" then none
    else if callee.text = "this" then none
    else if (target.map (·.declaringType)).getD method.declaringType = method.declaringType then
      if method.isCalledBy callee.text args then some span else none
    else none
  | .call (some receiver) callee args _ span =>
    if Method.isThis body receiver && method.isCalledBy callee.text args then some span else none
  | _ => none

end ExprNode

namespace Method

theorem isCalledBy_iff {β : Type} (method : Method β) (name : String) (args : List ExprId) :
    method.isCalledBy name args = true ↔ name = method.name.text ∧ args.length = method.params.length := by
  simp [isCalledBy]

theorem isThis_iff (body : Body) (id : ExprId) : isThis body id = true ↔ ∃ place, body.exprs[id]? = some (.this place) := by
  rw [isThis]
  split
  · simp [*]
  · rename_i other
    simp only [Bool.false_eq_true,false_iff,not_exists]
    exact other

theorem recursion_of_node {β : Type} (method : Method β) (body : Body) (id : ExprId) (access : Access)
    (node : ExprNode) :
    (method.findingsBefore body id access node ++ findingsAfter node).filterMap Finding.recursion? =
      (node.selfCall? method body).toList := by
  cases node with
  | name text resolution span =>
    simp only [findingsBefore,nameFindings,findingsAfter,List.append_nil]
    repeat' split
    all_goals rfl
  | call receiver callee args target span =>
    cases receiver with
    | none =>
      simp only [findingsBefore,bareCallFindings,findingsAfter,List.append_nil,ExprNode.selfCall?]
      repeat' split
      all_goals rfl
    | some receiver =>
      simp only [findingsBefore,findingsAfter,List.append_nil,ExprNode.selfCall?]
      split <;> rfl
  | create outer type args dims initializer inside target span =>
    cases outer with
    | none =>
      simp only [findingsBefore]
      split <;> cases inside <;> rfl
    | some outer => cases inside <;> rfl
  | _ => rfl

theorem recursion_of_leaving (isLast : Bool) (node : StmtNode) :
    (leavingFindings isLast node).filterMap Finding.recursion? = [] := by
  cases node with
  | returns | throws => cases isLast <;> rfl
  | _ => rfl

end Method

namespace ExprNode

variable {β γ : Type} {scope : Scope β} {item : Class β} {rest : List (Class β)} {method : Method γ}

/-- The first class that is asked for a method of the name of this one is the class it stands in. -/
theorem method?_own (around : scope.enclosing = item :: rest) {source : Method β} (listed : source ∈ item.methods) :
    ∃ target, scope.method? source.name.text = some target ∧ target.declaringType = item.qualifiedName := by
  cases found : Scope.methodOf? source.name.text item with
  | none => exact absurd rfl ((Scope.methodOf?_eq_none_iff _ _).mp found source listed)
  | some target =>
    obtain ⟨_,_,rfl⟩ := (Scope.methodOf?_eq_some_iff _ _ _).mp found
    exact ⟨_,by rw [Scope.method?,around,List.findSome?_cons,found],rfl⟩

/-- Calls that are resolved in the scope of the method are reported when they call it. -/
theorem selfCall?_eq_some_iff (own : ∃ target, scope.method? method.name.text = some target ∧
      target.declaringType = method.declaringType) (body : Body) {node : ExprNode} (resolved : node.Resolved scope)
    (span : Span) : node.selfCall? method body = some span ↔ node.CallsItself method body ∧ node.span = span := by
  cases node with
  | call receiver callee args target place =>
    cases receiver with
    | none =>
      simp only [selfCall?]
      constructor
      · intro found
        split at found
        · cases found
        rename_i notSuper
        split at found
        · cases found
        rename_i notThis
        split at found
        · obtain ⟨called,same⟩ := Option.ite_none_right_eq_some.mp found
          obtain ⟨named,count⟩ := (method.isCalledBy_iff _ _).mp called
          exact ⟨.alone ⟨notThis,notSuper⟩ named count,Option.some.inj same⟩
        · cases found
      · rintro ⟨calls,rfl⟩
        cases calls with
        | alone ordinary named count =>
          obtain ⟨known,found,type⟩ := own
          have same : target = some known := by rw [resolved ordinary.1 ordinary.2,named,found]
          rw [if_neg ordinary.2,if_neg ordinary.1,same,if_pos ((method.isCalledBy_iff _ _).mpr ⟨named,count⟩)]
          exact if_pos type
    | some receiver =>
      simp only [selfCall?,Option.ite_none_right_eq_some,Bool.and_eq_true,Method.isThis_iff,method.isCalledBy_iff]
      constructor
      · rintro ⟨⟨⟨this,known⟩,named,count⟩,same⟩
        exact ⟨.onThis this known named count,Option.some.inj same⟩
      · rintro ⟨calls,rfl⟩
        cases calls with
        | onThis this known named count => exact ⟨⟨⟨this,known⟩,named,count⟩,rfl⟩
  | _ => exact ⟨nofun,fun ⟨calls,_⟩ => by cases calls⟩

end ExprNode

namespace Method

/-- The calls that are found are the nodes that call the method. -/
theorem mem_recursiveCalls {β : Type} {scope : Scope β} {block : Block} {method : Method Body}
    (given : method.body = some (Body.ofBlock scope block))
    (own : ∃ target, scope.method? method.name.text = some target ∧ target.declaringType = method.declaringType)
    (span : Span) : span ∈ method.recursiveCalls ↔ ∃ node ∈ (Body.ofBlock scope block).exprs,
      node.CallsItself method (Body.ofBlock scope block) ∧ node.span = span := by
  have perm := picked_exprs_perm given Finding.recursion? (fun _ => ExprNode.selfCall? method (Body.ofBlock scope block))
    recursion_of_leaving (method.recursion_of_node _)
  have same : method.recursiveCalls = method.findings.filterMap Finding.recursion? := rfl
  rw [same,perm.mem_iff,List.mem_filterMap]
  have calls {node : ExprNode} (member : node ∈ (Body.ofBlock scope block).exprs) :=
    ExprNode.selfCall?_eq_some_iff own (Body.ofBlock scope block) (Body.ofBlock_resolved scope block node member) span
  constructor
  · rintro ⟨id,_,found⟩
    obtain ⟨node,known,shown⟩ := Option.bind_eq_some_iff.mp found
    exact ⟨node,Array.mem_of_getElem? known,(calls (Array.mem_of_getElem? known)).mp shown⟩
  · rintro ⟨node,member,shown⟩
    obtain ⟨id,known⟩ := Array.mem_iff_getElem?.mp member
    exact ⟨id,List.mem_range.mpr (Array.getElem?_eq_some_iff.mp known).1,
      Option.bind_eq_some_iff.mpr ⟨node,known,(calls member).mpr shown⟩⟩

/-- The reports of the code are those of the calls that are found. -/
theorem mem_activation_recursive {method : Method Body} (bodied : method.body.isSome = true) (problem : Problem)
    (coded : problem.code = "recursive-call") : problem ∈ method.activation ↔ ∃ span ∈ method.recursiveCalls,
      problem = ⟨.fatal,"recursive-call",s!"method `{method.name.text}` calls itself recursively",some span⟩ := by
  have apart (severity : Severity) (code message : String) (spans : List Span) (other : code ≠ "recursive-call") :
      problem ∉ spans.map fun span => ⟨severity,code,message,some span⟩ := by
    intro member
    obtain ⟨span,_,rfl⟩ := List.mem_map.mp member
    exact other coded
  have some : method.body.isNone = false := by simpa using bodied
  simp only [activation,some,Bool.false_eq_true,if_false,List.mem_append]
  constructor
  · rintro ((((recursive | member) | member) | member) | member)
    · obtain ⟨span,found,rfl⟩ := List.mem_map.mp recursive
      exact ⟨span,found,rfl⟩
    all_goals exact absurd member (apart _ _ _ _ (by decide))
  · rintro ⟨span,found,rfl⟩
    exact .inl (.inl (.inl (.inl (List.mem_map_of_mem found))))

end Method

/-- The fatal reports of recursion are those of the calls by the name of the method with as many
arguments as it has parameters, alone or on `this`. -/
theorem ItemTree.recursion_exact (text : Text) (method : Method Body) (body : Body)
    (member : method ∈ (ofText text).methods) (given : method.body = some body) (problem : Problem)
    (coded : problem.code = "recursive-call") :
    problem ∈ method.activation ↔ ∃ node ∈ body.exprs, node.CallsItself method body ∧
      problem = ⟨.fatal,"recursive-call",s!"method `{method.name.text}` calls itself recursively",some node.span⟩ := by
  rw [Method.mem_activation_recursive (Option.isSome_iff_exists.mpr ⟨body,given⟩) problem coded]
  rw [ofText,ofUnit_methods] at member
  obtain ⟨source,listed,rfl⟩ := List.mem_map.mp member
  obtain ⟨block,_,rfl⟩ := Option.map_eq_some_iff.mp given
  obtain ⟨item,rest,_,inside,type,around,_⟩ := outline_home _ listed
  let scope : Scope Block := ⟨outline (Java.parse text),source.owner,source.params⟩
  have enclosing : scope.enclosing = item :: rest := around
  have own := ExprNode.method?_own enclosing inside
  rw [← type] at own
  have calls (span : Span) := Method.mem_recursiveCalls given own span
  simp only [calls]
  constructor
  · rintro ⟨_,⟨node,among,calls,rfl⟩,same⟩
    exact ⟨node,among,calls,same⟩
  · rintro ⟨node,among,calls,same⟩
    exact ⟨_,⟨node,among,calls,rfl⟩,same⟩

/-- A call on `this` is reported as the argument of another one. -/
theorem ItemTree.recursion_exact_argument : ∃ method ∈ (ofText
    "class A { int m(int p) { return k(this.m(p)); } }".toList).methods,
    Problem.mk .fatal "recursive-call" "method `m` calls itself recursively" (some ⟨34,43⟩) ∈ method.activation := by
  have evaluated : ∃ method ∈ (ofText "class A { int m(int p) { return k(this.m(p)); } }".toList).methods,
      ∃ body ∈ method.body.toList, method.name.text = "m" ∧ method.params.length = 1 ∧
        body.exprs[0]? = some (.this ⟨34,38⟩) ∧
        body.exprs[2]? = some (.call (some 0) ⟨"m",⟨39,40⟩⟩ [1] (some ⟨"m","A",false⟩) ⟨34,43⟩) := by
    decide +kernel
  obtain ⟨method,member,body,given,name,params,this,call⟩ := evaluated
  refine ⟨method,member,(recursion_exact _ method body member (Option.mem_toList.mp given) _ rfl).mpr
    ⟨_,Array.mem_of_getElem? call,.onThis _ this name.symm params.symm,?_⟩⟩
  rw [name]
  rfl

/-- Nothing is reported of a call by the name of the class, nor of one on `this` in parentheses. -/
theorem ItemTree.recursion_unreported :
    (∃ method ∈ (ofText "class A { static void m() { A.m(); } }".toList).methods,
      method.name.text = "m" ∧ method.params = [] ∧ method.declaringType = "A" ∧ method.activation = [] ∧
      method.body.map (·.exprs.toList) =
        some [.name "A" (.type "A") ⟨28,29⟩,.call (some 0) ⟨"m",⟨30,31⟩⟩ [] none ⟨28,33⟩]) ∧
    ∃ method ∈ (ofText "class A { void m() { (this).m(); } }".toList).methods,
      method.name.text = "m" ∧ method.params = [] ∧ method.declaringType = "A" ∧ method.activation = [] ∧
      method.body.map (·.exprs.toList) =
        some [.this ⟨22,26⟩,.paren 0 ⟨21,27⟩,.call (some 1) ⟨"m",⟨28,29⟩⟩ [] none ⟨21,31⟩] := by
  decide +kernel

end Transplant
