import Transplant.Proofs.Analysis.Receivers
import Transplant.Proofs.Donor.Capture

/-! Calls of methods that a class declares several times. A call goes to the innermost class that
declares its name and there to the first method of the name, however many arguments it is given. So
what is put in front of the call fits the method that is called if this one and the first one are
both static or both not. -/
namespace Transplant

open Java (offset)

/-- The class declares a method of the name. -/
def ItemTree.HasMethod {β : Type} (name : String) (item : Class β) : Prop := ∃ method ∈ item.methods, method.name.text = name

theorem Scope.method?_eq_some_iff {β : Type} (scope : Scope β) (name : String) (target : MethodRef) :
    scope.method? name = some target ↔ ∃ item method, IsFirst (ItemTree.HasMethod name) scope.enclosing item ∧
      IsFirst (·.name.text = name) item.methods method ∧ target = ⟨name,item.qualifiedName,method.isStatic⟩ := by
  have absent (item : Class β) : methodOf? name item = none ↔ ¬ ItemTree.HasMethod name item := by
    simp [methodOf?_eq_none_iff,ItemTree.HasMethod]
  simp only [method?,List.findSome?_eq_some_iff,methodOf?_eq_some_iff,absent]
  constructor
  · rintro ⟨before,item,after,split,⟨method,first,same⟩,others⟩
    have declares : ItemTree.HasMethod name item := by
      obtain ⟨named,front,back,listed,_⟩ := first
      exact ⟨method,by simp [listed],named⟩
    exact ⟨item,method,⟨declares,before,after,split,others⟩,first,same⟩
  · rintro ⟨item,method,⟨_,before,after,split,others⟩,first,same⟩
    exact ⟨before,item,after,split,⟨method,first,same⟩,others⟩

namespace ExprNode

/-- The node is a call without a receiver or on `this`. -/
inductive IsOwnCall (body : Body) (callee : Java.Ident) (args : List ExprId) (target : Option MethodRef) : ExprNode → Prop where
  | alone {span : Span} (ordinary : callee.text ≠ "this" ∧ callee.text ≠ "super") :
      IsOwnCall body callee args target (.call none callee args target span)
  | onThis {receiver : ExprId} {span : Span} (place : Span) (known : body.exprs[receiver]? = some (.this place)) :
      IsOwnCall body callee args target (.call (some receiver) callee args target span)

/-- Such a call is resolved in the scope of the method, whether or not `this` is written. -/
theorem IsOwnCall.target_eq {β : Type} {scope : Scope β} {body : Body} {callee : Java.Ident} {args : List ExprId}
    {target : Option MethodRef} {node : ExprNode} (calls : node.IsOwnCall body callee args target)
    (resolved : node.Resolved scope) (aimed : node.Aimed scope body) : target = scope.method? callee.text := by
  cases calls with
  | alone ordinary => exact resolved ordinary.1 ordinary.2
  | onThis place known => exact aimed (Method.isThis_eq known)

end ExprNode

theorem Visit.eq_call_of_move {g : Nat → Nat} {visit : Visit} {callee : Java.Ident} {arity : Nat} {span : Span}
    (moved : visit.move g = .call callee arity span) :
    ∃ name place, visit = .call name arity place ∧ span = place.map g := by
  cases visit <;> simp only [Visit.move,reduceCtorEq,Visit.call.injEq] at moved
  obtain ⟨rfl,rfl,rfl⟩ := moved
  exact ⟨_,_,rfl,rfl⟩

/-- Only a call shows a receiver for a call; a call of the method itself is reported besides. -/
theorem Visit.call_of_receiver {β γ : Type} (scope : Scope β) (method : Method γ) (visit : Visit)
    (found : ImplicitReceiver) {isStatic : Bool} (kind : found.kind = .methodCall isStatic)
    (made : .receiver found ∈ visit.findings scope method) :
    (∃ callee arity, visit = .call callee arity found.span) ∧
      (visit.mentions scope method = [.inl (.receiver found)] ∨
        visit.mentions scope method = [.inl (.recursion found.span),.inl (.receiver found)]) := by
  cases visit with
  | call callee arity place =>
    simp only [findings,Method.bareCallFindings,mentions,declared?] at made ⊢
    split at made
    · simp at made
    split at made
    · simp at made
    split at made
    · split at made
      · simp only [List.mem_cons,reduceCtorEq,List.not_mem_nil,or_false,false_or] at made
        cases made
        refine ⟨⟨callee,arity,rfl⟩,.inr ?_⟩
        simp [*]
      · cases List.mem_singleton.mp made
        refine ⟨⟨callee,arity,rfl⟩,.inl ?_⟩
        simp [*]
    · simp at made
  | name text visible access place =>
    simp only [findings,Method.nameFindings] at made
    repeat' split at made
    all_goals simp at made
    subst made
    cases kind
  | this place =>
    cases List.mem_singleton.mp made
    cases kind
  | create created place =>
    simp only [findings] at made
    split at made
    · cases List.mem_singleton.mp made
      cases kind
    · simp at made
  | callOnThis callee arity place =>
    simp only [findings] at made
    split at made <;> simp at made
  | _ => simp [findings] at made

namespace Method

/-- What is put in front of a member that is reached through the receiver. -/
def reached (site : CallSite) (imports : Imports) (type : String) (isStatic : Bool) (receiver : Text) : Text :=
  if isStatic && !site.receiverIsStatic then (imports.add type).1.toList else receiver

theorem edits_of_receiver (method : Method Body) {site : CallSite} {imports : Imports} {found : ImplicitReceiver}
    {isStatic : Bool} {receiver : Text} (kind : found.kind = .methodCall isStatic) (given : site.receiver = some receiver) :
    (method.choices site imports).flatMap (fun choice => [Sum.inl (.receiver { found with expr := 0 })].filterMap choice.2) =
      [.insert found.span.start (reached site imports found.declaringType isStatic receiver ++ ['.'])] := by
  rw [flatMap_choices_single]
  exact choices_single (mem_choices_receiver given) (by simp [receiverChoice,receiverEdit,kind,reached,ReceiverKind.isStatic])

namespace ReadFrom

variable {text : Text} {method : Method Body} {read : Java.Block} {site : CallSite} (imports : Imports)

/-- Where a call begins that relies on the class of the method, just its qualifier is inserted. -/
theorem edits_of_call (known : method.ReadFrom text read) {found : ImplicitReceiver} {isStatic : Bool} {receiver : Text}
    (listed : found ∈ method.implicitReceivers) (kind : found.kind = .methodCall isStatic)
    (given : site.receiver = some receiver) :
    Edit.beginningAt found.span.start (method.changes site imports) =
      [.insert found.span.start (reached site imports found.declaringType isStatic receiver ++ ['.'])] := by
  obtain ⟨finding,shown,same⟩ := List.mem_filterMap.mp listed
  obtain rfl : finding = .receiver found := by cases finding <;> cases same; rfl
  have erased := List.mem_map_of_mem (f := Finding.erase) shown
  rw [findings_ofBlock (method.scopeIn text) _ method known.body,Java.Block.mapSpans_visits] at erased
  obtain ⟨_,moved,made⟩ := List.mem_flatMap.mp erased
  obtain ⟨visit,met,rfl⟩ := List.mem_map.mp moved
  obtain ⟨⟨callee,arity,calls⟩,mentions⟩ := (visit.move (offset text)).call_of_receiver (method.scopeIn text) method
    { found with expr := 0 } kind made
  obtain ⟨name,place,rfl,span⟩ := Visit.eq_call_of_move calls
  obtain ⟨i,j,bound,spelled⟩ := known.spelled
  obtain ⟨k,m,_,_,marks⟩ := spelled.marked _ met
  cases marks with
  | call _ _ _ opened begins seen here =>
    have start : found.span.start = offset text (2 * k + 1) := by
      rw [← begins]
      exact congrArg Span.start span
    have perm := known.beginningAt_perm site imports met rfl begins
    have own : (method.choices site imports).flatMap (fun choice =>
        (((Visit.call name arity place).move (offset text)).mentions (method.scopeIn text) method).filterMap choice.2) =
        [.insert found.span.start (reached site imports found.declaringType isStatic receiver ++ ['.'])] := by
      rw [← edits_of_receiver method kind given]
      rcases mentions with single | double
      · rw [single]
      · rw [double]
        refine List.flatMap_congr fun choice chosen => ?_
        have silent := (choices_of site imports choice chosen).role (.inl (.recursion found.span))
        cases picked : choice.2 (.inl (.recursion found.span)) with
        | none => rw [List.filterMap_cons_none picked]
        | some edit => cases silent edit picked
    rw [own] at perm
    rw [← start] at perm
    exact eq_of_perm_short perm (by simp)

end ReadFrom

end Method

/-- A call goes to the first method of its name in the innermost class that declares one. If the method
with as many parameters as the call has arguments is static like the first one, the call is resolved
to it; and what is put in front of the call, if this is a call without receiver of a method of the own
class, is what this method takes. -/
theorem ItemTree.calls_overloaded (text : Text) (method : Method Body) (body : Body)
    (member : method ∈ (ofText text).methods) (given : method.body = some body) (callee : Java.Ident)
    (args : List ExprId) (target : Option MethodRef) (node : ExprNode) (among : node ∈ body.exprs)
    (calls : node.IsOwnCall body callee args target) (item : Class Java.Block)
    (innermost : IsFirst (HasMethod callee.text) (method.scopeIn text).enclosing item) :
    ∃ first, IsFirst (·.name.text = callee.text) item.methods first ∧
      target = some ⟨callee.text,item.qualifiedName,first.isStatic⟩ ∧
      ∀ overload ∈ item.methods, overload.name.text = callee.text → overload.params.length = args.length →
        overload.isStatic = first.isStatic →
        target = some ⟨callee.text,item.qualifiedName,overload.isStatic⟩ ∧
        ∀ span, node = .call none callee args target span → item.qualifiedName = method.declaringType →
          ∀ site imports receiver, site.receiver = some receiver →
            Edit.written (method.changes site imports) callee.span callee.text.toList =
              Method.reached site imports item.qualifiedName overload.isStatic receiver ++ '.' :: callee.text.toList := by
  obtain ⟨read,known⟩ := method_readFrom text method body member given
  obtain rfl := Option.some.inj (given.symm.trans known.body)
  obtain ⟨resolved,aimed⟩ := Body.ofBlock_resolves (method.scopeIn text) _ node among
  obtain ⟨first,chosen⟩ : ∃ first, IsFirst (·.name.text = callee.text) item.methods first := by
    obtain ⟨declared,listed,named⟩ := innermost.1
    have some : (item.methods.find? (·.name.text == callee.text)).isSome = true :=
      List.find?_isSome.mpr ⟨declared,listed,beq_iff_eq.mpr named⟩
    obtain ⟨first,found⟩ := Option.isSome_iff_exists.mp some
    exact ⟨first,by simpa using find?_eq_some_iff_isFirst.mp found⟩
  have aim : target = some ⟨callee.text,item.qualifiedName,first.isStatic⟩ :=
    (calls.target_eq resolved aimed).trans ((Scope.method?_eq_some_iff ..).mpr ⟨item,first,innermost,chosen,rfl⟩)
  refine ⟨first,chosen,aim,?_⟩
  intro overload _ _ _ alike
  rw [alike]
  refine ⟨aim,?_⟩
  rintro span rfl own site imports receiver reached
  have ordinary : callee.text ≠ "this" ∧ callee.text ≠ "super" := by
    cases calls
    assumption
  obtain ⟨id,placed⟩ := Array.mem_iff_getElem?.mp among
  have listed : ⟨id,.methodCall first.isStatic,method.declaringType,span⟩ ∈ method.implicitReceivers := by
    rw [Method.mem_implicitReceivers given,Method.receiverAt?_eq_some_iff]
    refine ⟨_,placed,?_,rfl,rfl,rfl⟩
    simp [ExprNode.receiverKind?,ordinary,aim,own]
  have stands : span.start = callee.span.start :=
    (known.spelling_stands ⟨callee.text,callee.span,span.start⟩
      (List.mem_filterMap.mpr ⟨_,Array.mem_toList_iff.mpr among,rfl⟩)).2
  have edits := known.edits_of_call imports listed rfl reached
  simp only [stands,← own] at edits
  rw [← Edit.written_beginningAt,edits]
  have inserted := Edit.written_insert callee.span callee.text.toList
    (Method.reached site imports item.qualifiedName first.isStatic receiver ++ ['.'])
  rwa [List.append_assoc,List.singleton_append] at inserted

/-- Both methods of the name are static, so the second one is reached through its class. -/
theorem ItemTree.calls_overloaded_static : ∃ method ∈ (ofText
    "class A { static void f() { } static void f(int x) { } void m() { f(1); } }".toList).methods,
    Edit.written (method.changes ⟨[],some "r".toList,false,[],.statement⟩ ⟨none,[]⟩) ⟨66,67⟩ "f".toList =
      "A.f".toList := by
  have evaluated : ∃ method ∈ (ofText
      "class A { static void f() { } static void f(int x) { } void m() { f(1); } }".toList).methods,
      ∃ body ∈ method.body.toList, method.declaringType = "A" ∧
        body.exprs[1]? = some (.call none ⟨"f",⟨66,67⟩⟩ [0] (some ⟨"f","A",true⟩) ⟨66,70⟩) ∧
        ∃ item ∈ (method.scopeIn
          "class A { static void f() { } static void f(int x) { } void m() { f(1); } }".toList).enclosing.head?.toList,
          item.qualifiedName = "A" ∧ (∀ other ∈ item.methods, other.name.text = "f" → other.isStatic = true) ∧
          ∃ overload ∈ item.methods, overload.name.text = "f" ∧ overload.params.length = 1 ∧ overload.isStatic = true := by
    decide +kernel
  generalize "class A { static void f() { } static void f(int x) { } void m() { f(1); } }".toList = text at evaluated ⊢
  obtain ⟨method,member,body,given,own,call,item,around,name,static,overload,listed,named,count,fits⟩ := evaluated
  obtain ⟨others,enclosing⟩ := List.head?_eq_some_iff.mp (Option.mem_toList.mp around)
  have innermost : IsFirst (HasMethod "f") (method.scopeIn text).enclosing item :=
    ⟨⟨overload,listed,named⟩,[],others,enclosing,fun _ absent => absurd absent List.not_mem_nil⟩
  obtain ⟨first,⟨called,before,after,parted,_⟩,_,resolved⟩ := calls_overloaded text method body member
    (Option.mem_toList.mp given) ⟨"f",⟨66,67⟩⟩ [0] _ _ (Array.mem_of_getElem? call) (.alone (by decide)) item innermost
  have alike : overload.isStatic = first.isStatic :=
    fits.trans (static first (by simp [parted]) called).symm
  have written := (resolved overload listed named count alike).2 _ rfl (name.trans own.symm)
    ⟨[],some "r".toList,false,[],.statement⟩ ⟨none,[]⟩ "r".toList rfl
  refine ⟨method,member,written.trans ?_⟩
  rw [fits,name]
  decide +kernel

set_option maxRecDepth 20000 in
/-- The method that is called is not static, but the first one of its name is: the call is put behind
the name of the class. -/
theorem ItemTree.calls_overloaded_apart : ∃ method ∈ (ofText
    "class A { static void f() { } void f(int x) { } void m() { f(1); } }".toList).methods,
    (∃ item ∈ (method.scopeIn "class A { static void f() { } void f(int x) { } void m() { f(1); } }".toList).enclosing,
      item.qualifiedName = "A" ∧ (∃ overload ∈ item.methods, overload.name.text = "f" ∧ overload.params.length = 1) ∧
      ∀ overload ∈ item.methods, overload.name.text = "f" → overload.params.length = 1 → overload.isStatic = false) ∧
    method.body.map (·.exprs.toList) = some [.literal .number "1" ⟨61,62⟩,
      .call none ⟨"f",⟨59,60⟩⟩ [0] (some ⟨"f","A",true⟩) ⟨59,63⟩] ∧
    ((Donor.ofMethod "class A { static void f() { } void f(int x) { } void m() { f(1); } }".toList method .standard).prepare.blocks
      ⟨[],some "r".toList,false,[],.statement⟩ ⟨none,[]⟩).1 = .ok ["A.f(1);".toList] := by
  have declared : ∀ method ∈ ((ofText
      "class A { static void f() { } void f(int x) { } void m() { f(1); } }".toList).methods[2]?).toList,
      (∃ item ∈ (method.scopeIn "class A { static void f() { } void f(int x) { } void m() { f(1); } }".toList).enclosing,
        item.qualifiedName = "A" ∧ (∃ overload ∈ item.methods, overload.name.text = "f" ∧ overload.params.length = 1) ∧
        ∀ overload ∈ item.methods, overload.name.text = "f" → overload.params.length = 1 → overload.isStatic = false) ∧
      method.body.map (·.exprs.toList) = some [.literal .number "1" ⟨61,62⟩,
        .call none ⟨"f",⟨59,60⟩⟩ [0] (some ⟨"f","A",true⟩) ⟨59,63⟩] := by
    decide +kernel
  have made : ((ofText "class A { static void f() { } void f(int x) { } void m() { f(1); } }".toList).methods[2]?).map
      (fun method => ((Donor.ofMethod "class A { static void f() { } void f(int x) { } void m() { f(1); } }".toList method
        .standard).prepare.blocks ⟨[],some "r".toList,false,[],.statement⟩ ⟨none,[]⟩).1) = some (.ok ["A.f(1);".toList]) := by
    cbv
  obtain ⟨method,found,done⟩ := Option.map_eq_some_iff.mp made
  obtain ⟨around,calls⟩ := declared method (Option.mem_toList.mpr found)
  exact ⟨method,List.mem_of_getElem? found,around,calls,done⟩

end Transplant
