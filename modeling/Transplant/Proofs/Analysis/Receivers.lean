import Transplant.Proofs.Analysis.Exact
import Transplant.Proofs.Body.Resolved
import Transplant.Proofs.Item.Qualified

/-! The receivers that are found in a method against the members of its class: names of fields, calls
without a receiver, creations of inner classes and `this`. -/
namespace Transplant

open Java (Block)

def Finding.receiver? : Finding → Option ImplicitReceiver
  | .receiver found => some found
  | _ => none

/-- The class that `new` creates. -/
def Scope.created? {β : Type} (scope : Scope β) (type : String) : Option (Class β) :=
  (scope.class? (String.ofList (type.toList.takeWhile (· != '<')))).bind (scope.tree.classes[·]?)

namespace ExprNode

/-- What kind of receiver the node stands for in a method of the type. -/
def receiverKind? (declaringType : String) : ExprNode → Option ReceiverKind
  | .name _ (.field target) _ => if target.declaringType = declaringType then some (.field target.isStatic) else none
  | .this _ => some .this
  | .call none callee _ target _ =>
    if callee.text = "super" then none
    else if callee.text = "this" then none
    else if (target.map (·.declaringType)).getD declaringType = declaringType then
      some (.methodCall ((target.map (·.isStatic)).getD false))
    else none
  | .create none _ _ _ _ _ target _ => if target.any (·.isInner) then some .innerCreation else none
  | _ => none

/-- The node needs an instance of the class or the class itself: it is `this`, it is resolved to a field
or a method of the class, it calls a method that no class around declares, or it creates one of the
inner classes of the class. -/
inductive ReliesOn {β : Type} (scope : Scope β) (item : Class β) : ExprNode → ReceiverKind → Prop where
  | this {span : Span} : ReliesOn scope item (.this span) .this
  | field {name : String} {span : Span} (field : Field)
      (first : IsFirst (·.name.text = name) item.fields field) :
      ReliesOn scope item (.name name (.field ⟨name,item.qualifiedName,field.isStatic⟩) span) (.field field.isStatic)
  | call {callee : Java.Ident} {args : List ExprId} {span : Span}
      (ordinary : callee.text ≠ "this" ∧ callee.text ≠ "super") (method : Method β)
      (first : IsFirst (·.name.text = callee.text) item.methods method) :
      ReliesOn scope item (.call none callee args (some ⟨callee.text,item.qualifiedName,method.isStatic⟩) span)
        (.methodCall method.isStatic)
  | unknown {callee : Java.Ident} {args : List ExprId} {span : Span}
      (ordinary : callee.text ≠ "this" ∧ callee.text ≠ "super")
      (undeclared : ∀ around ∈ scope.enclosing, ∀ method ∈ around.methods, method.name.text ≠ callee.text) :
      ReliesOn scope item (.call none callee args none span) (.methodCall false)
  | creation {type : Java.TypeRef} {args dims : List ExprId} {initializer : Option ExprId} {body : Option Span}
      {target : Option ConstructorRef} {span : Span} (created : Class β)
      (found : scope.created? type.text = some created) (inner : created.isInner = true)
      (own : created.outer = some scope.owner) :
      ReliesOn scope item (.create none type args dims initializer body target span) .innerCreation

/-- The node is taken for one that relies on the class, but what it stands for belongs to another one:
a field or method of a class around that has the same qualified name, or an inner class that is no
member of the class. -/
inductive Strays {β : Type} (scope : Scope β) (item : Class β) : ExprNode → ReceiverKind → Prop where
  | field {name : String} {target : FieldRef} {span : Span}
      (elsewhere : ∀ field ∈ item.fields, field.name.text ≠ name) (alike : target.declaringType = item.qualifiedName) :
      Strays scope item (.name name (.field target) span) (.field target.isStatic)
  | call {callee : Java.Ident} {args : List ExprId} {target : MethodRef} {span : Span}
      (ordinary : callee.text ≠ "this" ∧ callee.text ≠ "super")
      (elsewhere : ∀ method ∈ item.methods, method.name.text ≠ callee.text)
      (alike : target.declaringType = item.qualifiedName) :
      Strays scope item (.call none callee args (some target) span) (.methodCall target.isStatic)
  | creation {type : Java.TypeRef} {args dims : List ExprId} {initializer : Option ExprId} {body : Option Span}
      {target : Option ConstructorRef} {span : Span} (created : Class β)
      (found : scope.created? type.text = some created) (inner : created.isInner = true)
      (away : created.outer ≠ some scope.owner) :
      Strays scope item (.create none type args dims initializer body target span) .innerCreation

end ExprNode

namespace Scope

variable {β : Type} (scope : Scope β)

theorem constructor?_eq (type : String) : scope.constructor? type =
    (scope.created? type).map fun item => ⟨item.qualifiedName,item.isInner⟩ := by
  rw [constructor?,created?]
  cases scope.class? (String.ofList (type.toList.takeWhile (· != '<'))) with
  | none => rfl
  | some id => cases found : scope.tree.classes[id]? <;> simp [found]

theorem field?_of_resolve {visible : Locals} {name : String} {target : FieldRef}
    (resolved : scope.resolve visible name = .field target) : scope.field? name = some target := by
  simp only [resolve] at resolved
  split at resolved
  · cases resolved
  split at resolved
  · cases resolved
  split at resolved
  · cases resolved
    assumption
  · split at resolved <;> cases resolved

/-- What is found in the classes around is that of the innermost one, unless it has none. -/
theorem findSome?_cases {α : Type} (f : Class β → Option α) {item : Class β} {rest : List (Class β)} {a : α}
    (found : (item :: rest).findSome? f = some a) :
    f item = some a ∨ f item = none ∧ ∃ other ∈ rest, f other = some a := by
  rw [List.findSome?_cons] at found
  cases here : f item with
  | some b =>
    rw [here] at found
    exact .inl found
  | none =>
    rw [here] at found
    exact .inr ⟨rfl,List.exists_of_findSome?_eq_some found⟩

theorem methodOf?_eq_some_iff (name : String) (item : Class β) (target : MethodRef) :
    methodOf? name item = some target ↔ ∃ method, IsFirst (·.name.text = name) item.methods method ∧
      target = ⟨name,item.qualifiedName,method.isStatic⟩ := by
  simp only [methodOf?,Option.map_eq_some_iff,find?_eq_some_iff_isFirst,beq_iff_eq]
  constructor
  · rintro ⟨method,first,rfl⟩
    exact ⟨method,first,by rw [first.1]⟩
  · rintro ⟨method,first,rfl⟩
    exact ⟨method,first,by rw [first.1]⟩

theorem methodOf?_eq_none_iff (name : String) (item : Class β) : methodOf? name item = none ↔
    ∀ method ∈ item.methods, method.name.text ≠ name := by
  simp [methodOf?]

theorem method?_eq_none_iff (name : String) : scope.method? name = none ↔
    ∀ around ∈ scope.enclosing, ∀ method ∈ around.methods, method.name.text ≠ name := by
  simp [method?,methodOf?]

end Scope

namespace ExprNode

variable {β : Type} {scope : Scope β} {item : Class β} {rest : List (Class β)}

section

variable (around : scope.enclosing = item :: rest) {name : String}

include around

theorem field?_cases {target : FieldRef} (found : scope.field? name = some target) :
    (∃ field, IsFirst (·.name.text = name) item.fields field ∧ target = ⟨name,item.qualifiedName,field.isStatic⟩) ∨
      (∀ field ∈ item.fields, field.name.text ≠ name) ∧
        ∃ other ∈ rest, target.declaringType = other.qualifiedName := by
  rw [Scope.field?,around] at found
  rcases Scope.findSome?_cases _ found with here | ⟨none,other,member,there⟩
  · exact .inl ((Scope.fieldOf?_eq_some_iff _ _ _).mp here)
  · obtain ⟨_,_,rfl⟩ := (Scope.fieldOf?_eq_some_iff _ _ _).mp there
    refine .inr ⟨fun field listed named => ?_,other,member,rfl⟩
    exact (Scope.fieldOf?_eq_none_iff _ _).mp none ⟨field,listed,named⟩

theorem method?_cases {target : MethodRef} (found : scope.method? name = some target) :
    (∃ method, IsFirst (·.name.text = name) item.methods method ∧ target = ⟨name,item.qualifiedName,method.isStatic⟩) ∨
      (∀ method ∈ item.methods, method.name.text ≠ name) ∧
        ∃ other ∈ rest, target.declaringType = other.qualifiedName := by
  rw [Scope.method?,around] at found
  rcases Scope.findSome?_cases _ found with here | ⟨none,other,member,there⟩
  · exact .inl ((Scope.methodOf?_eq_some_iff _ _ _).mp here)
  · obtain ⟨_,_,rfl⟩ := (Scope.methodOf?_eq_some_iff _ _ _).mp there
    exact .inr ⟨(Scope.methodOf?_eq_none_iff _ _).mp none,other,member,rfl⟩

theorem name_receiver {resolution : Resolution} {span : Span} (resolved : Resolved scope (.name name resolution span))
    (kind : ReceiverKind) : receiverKind? item.qualifiedName (.name name resolution span) = some kind ↔
      ReliesOn scope item (.name name resolution span) kind ∨ Strays scope item (.name name resolution span) kind := by
  obtain ⟨visible,resolved⟩ := resolved
  cases resolution with
  | field target =>
    constructor
    · intro given
      obtain ⟨same,rfl⟩ := Option.ite_some_none_eq_some.mp given
      rcases field?_cases around (scope.field?_of_resolve resolved.symm) with ⟨field,first,rfl⟩ | ⟨elsewhere,_⟩
      · exact .inl (.field field first)
      · exact .inr (.field elsewhere same)
    · rintro (relies | strays)
      · cases relies
        exact if_pos rfl
      · cases strays with
        | field _ alike => exact if_pos alike
  | _ =>
    refine ⟨nofun,?_⟩
    rintro (relies | strays)
    · cases relies
    · cases strays

theorem call_receiver {callee : Java.Ident} {args : List ExprId} {target : Option MethodRef} {span : Span}
    (resolved : Resolved scope (.call none callee args target span)) (kind : ReceiverKind) :
    receiverKind? item.qualifiedName (.call none callee args target span) = some kind ↔
      ReliesOn scope item (.call none callee args target span) kind ∨
        Strays scope item (.call none callee args target span) kind := by
  simp only [receiverKind?]
  constructor
  · intro given
    split at given
    · cases given
    rename_i notSuper
    split at given
    · cases given
    rename_i notThis
    obtain ⟨same,rfl⟩ := Option.ite_some_none_eq_some.mp given
    have found := resolved notThis notSuper
    cases target with
    | none => exact .inl (.unknown ⟨notThis,notSuper⟩ ((scope.method?_eq_none_iff _).mp found.symm))
    | some target =>
      rcases method?_cases around found.symm with ⟨method,first,rfl⟩ | ⟨elsewhere,_⟩
      · exact .inl (.call ⟨notThis,notSuper⟩ method first)
      · exact .inr (.call ⟨notThis,notSuper⟩ elsewhere same)
  · rintro (relies | strays)
    · cases relies with
      | call ordinary | unknown ordinary =>
        rw [if_neg ordinary.2,if_neg ordinary.1]
        exact if_pos rfl
    · cases strays with
      | call ordinary _ alike =>
        rw [if_neg ordinary.2,if_neg ordinary.1]
        exact if_pos alike

end

theorem creation_receiver {type : Java.TypeRef} {args dims : List ExprId} {initializer : Option ExprId}
    {body : Option Span} {target : Option ConstructorRef} {span : Span} {declaringType : String}
    (resolved : Resolved scope (.create none type args dims initializer body target span)) (kind : ReceiverKind) :
    receiverKind? declaringType (.create none type args dims initializer body target span) = some kind ↔
      ReliesOn scope item (.create none type args dims initializer body target span) kind ∨
        Strays scope item (.create none type args dims initializer body target span) kind := by
  obtain rfl : target = scope.constructor? type.text := resolved
  simp only [receiverKind?]
  rw [Option.ite_some_none_eq_some,scope.constructor?_eq,Option.any_map,Option.any_eq_true]
  constructor
  · rintro ⟨⟨created,found,inner⟩,rfl⟩
    by_cases own : created.outer = some scope.owner
    · exact .inl (.creation created found inner own)
    · exact .inr (.creation created found inner own)
  · rintro (relies | strays)
    · cases relies with
      | creation created found inner => exact ⟨⟨created,found,inner⟩,rfl⟩
    · cases strays with
      | creation created found inner => exact ⟨⟨created,found,inner⟩,rfl⟩

/-- The nodes that stand for a receiver are those that rely on the class and those that stray. -/
theorem receiverKind?_iff (around : scope.enclosing = item :: rest) {node : ExprNode}
    (resolved : node.Resolved scope) (kind : ReceiverKind) :
    node.receiverKind? item.qualifiedName = some kind ↔
      node.ReliesOn scope item kind ∨ node.Strays scope item kind := by
  have neither (node : ExprNode) (relies : ¬ node.ReliesOn scope item kind) (strays : ¬ node.Strays scope item kind)
      (silent : node.receiverKind? item.qualifiedName = none) : node.receiverKind? item.qualifiedName = some kind ↔
        node.ReliesOn scope item kind ∨ node.Strays scope item kind := by
    simp [relies,strays,silent]
  cases node with
  | name => exact name_receiver around resolved kind
  | this span =>
    constructor
    · rintro ⟨⟩
      exact .inl .this
    · rintro (relies | strays)
      · cases relies
        rfl
      · cases strays
  | call receiver callee args target span =>
    cases receiver with
    | none => exact call_receiver around resolved kind
    | some receiver => exact neither _ nofun nofun rfl
  | create outer type args dims initializer body target span =>
    cases outer with
    | none => exact creation_receiver resolved kind
    | some outer => exact neither _ nofun nofun rfl
  | _ => exact neither _ nofun nofun rfl

theorem ReliesOn.not_strays {node : ExprNode} {kind other : ReceiverKind} (relies : node.ReliesOn scope item kind) :
    ¬ node.Strays scope item other := by
  intro strays
  cases relies with
  | this => cases strays
  | field field first =>
    cases strays with
    | field elsewhere =>
      obtain ⟨named,before,after,listed,_⟩ := first
      exact elsewhere field (by simp [listed]) named
  | call _ method first =>
    cases strays with
    | call _ elsewhere =>
      obtain ⟨named,before,after,listed,_⟩ := first
      exact elsewhere method (by simp [listed]) named
  | unknown => cases strays
  | creation created found inner own =>
    cases strays with
    | creation other again _ away =>
      cases found.symm.trans again
      exact away own

/-- Only creations stray if no class around has the qualified name of the class. -/
theorem Strays.creates {node : ExprNode} {kind : ReceiverKind} (strays : node.Strays scope item kind)
    (resolved : node.Resolved scope) (around : scope.enclosing = item :: rest)
    (apart : ∀ other ∈ rest, other.qualifiedName ≠ item.qualifiedName) : kind = .innerCreation := by
  cases strays with
  | field elsewhere alike =>
    obtain ⟨visible,given⟩ := resolved
    rcases field?_cases around (scope.field?_of_resolve given.symm) with
      ⟨field,⟨named,_,_,listed,_⟩,_⟩ | ⟨_,other,member,same⟩
    · exact absurd named (elsewhere field (by simp [listed]))
    · exact absurd (same.symm.trans alike) (apart other member)
  | call ordinary elsewhere alike =>
    rcases method?_cases around (resolved ordinary.1 ordinary.2).symm with
      ⟨method,⟨named,_,_,listed,_⟩,_⟩ | ⟨_,other,member,same⟩
    · exact absurd named (elsewhere method (by simp [listed]))
    · exact absurd (same.symm.trans alike) (apart other member)
  | creation => rfl

end ExprNode

namespace Method

/-- The receivers found at an expression. -/
theorem receiver_of_node {β : Type} (method : Method β) (body : Body) (id : ExprId) (access : Access)
    (node : ExprNode) :
    (method.findingsBefore body id access node ++ findingsAfter node).filterMap Finding.receiver? =
      ((node.receiverKind? method.declaringType).map fun kind =>
        ImplicitReceiver.mk id kind method.declaringType node.span).toList := by
  cases node with
  | name text resolution span =>
    cases resolution with
    | field target =>
      simp only [findingsBefore,nameFindings,findingsAfter,List.append_nil,ExprNode.receiverKind?]
      split
      · rename_i same
        rw [← same]
        rfl
      · rfl
    | _ => rfl
  | call receiver callee args target span =>
    cases receiver with
    | none =>
      simp only [findingsBefore,bareCallFindings,findingsAfter,List.append_nil,ExprNode.receiverKind?]
      repeat' split
      all_goals rfl
    | some receiver =>
      simp only [findingsBefore,findingsAfter,List.append_nil]
      split <;> rfl
  | create outer type args dims initializer inside target span =>
    cases outer with
    | none =>
      simp only [findingsBefore,ExprNode.receiverKind?]
      split <;> cases inside <;> rfl
    | some outer => cases inside <;> rfl
  | _ => rfl

theorem receiver_of_leaving (isLast : Bool) (node : StmtNode) :
    (leavingFindings isLast node).filterMap Finding.receiver? = [] := by
  cases node with
  | returns | throws => cases isLast <;> rfl
  | _ => rfl

/-- What the expression of the table shows of receivers. -/
def receiverAt? {β : Type} (method : Method β) (body : Body) (id : ExprId) : Option ImplicitReceiver :=
  (body.exprs[id]?).bind fun node =>
    (node.receiverKind? method.declaringType).map fun kind => ⟨id,kind,method.declaringType,node.span⟩

theorem receiverAt?_eq_some_iff {β : Type} (method : Method β) (body : Body) (id : ExprId) (found : ImplicitReceiver) :
    method.receiverAt? body id = some found ↔ ∃ node, body.exprs[id]? = some node ∧
      node.receiverKind? method.declaringType = some found.kind ∧ found.expr = id ∧
      found.declaringType = method.declaringType ∧ found.span = node.span := by
  simp only [receiverAt?,Option.bind_eq_some_iff,Option.map_eq_some_iff]
  constructor
  · rintro ⟨node,known,kind,given,rfl⟩
    exact ⟨node,known,given,rfl,rfl,rfl⟩
  · rintro ⟨node,known,given,rfl,type,span⟩
    exact ⟨node,known,found.kind,given,by rw [← type,← span]⟩

section

variable {β : Type} {scope : Scope β} {block : Block} {method : Method Body}
  (given : method.body = some (Body.ofBlock scope block))

include given

/-- The receivers of a method are those of the expressions in its table. -/
theorem implicitReceivers_perm : method.implicitReceivers.Perm
    ((List.range (Body.ofBlock scope block).exprs.size).filterMap (method.receiverAt? (Body.ofBlock scope block))) := by
  have own : method.implicitReceivers = method.findings.filterMap Finding.receiver? := rfl
  rw [own]
  exact picked_exprs_perm given _ _ receiver_of_leaving (method.receiver_of_node _)

theorem mem_implicitReceivers (found : ImplicitReceiver) : found ∈ method.implicitReceivers ↔
    method.receiverAt? (Body.ofBlock scope block) found.expr = some found := by
  rw [(implicitReceivers_perm given).mem_iff,List.mem_filterMap]
  constructor
  · rintro ⟨id,_,same⟩
    obtain ⟨_,_,_,rfl,_⟩ := (method.receiverAt?_eq_some_iff _ id found).mp same
    exact same
  · intro same
    obtain ⟨node,known,_⟩ := (method.receiverAt?_eq_some_iff _ _ found).mp same
    exact ⟨_,List.mem_range.mpr (Array.getElem?_eq_some_iff.mp known).1,same⟩

theorem implicitReceivers_nodup : (method.implicitReceivers.map (·.expr)).Nodup := by
  rw [((implicitReceivers_perm given).map _).nodup_iff,List.map_filterMap]
  refine List.nodup_range.filterMap fun first second id one two => ?_
  obtain ⟨found,same,rfl⟩ := Option.map_eq_some_iff.mp one
  obtain ⟨other,again,equal⟩ := Option.map_eq_some_iff.mp two
  obtain ⟨_,_,_,rfl,_⟩ := (method.receiverAt?_eq_some_iff _ first found).mp same
  obtain ⟨_,_,_,rfl,_⟩ := (method.receiverAt?_eq_some_iff _ second other).mp again
  exact equal.symm

end

/-- The receivers of a method are the nodes of its body that rely on its class and those that stray,
each once; in a class with a name only creations stray. -/
structure Targets (scope : Scope Block) (item : Class Block) (method : Method Body) (body : Body) : Prop where
  recorded : ∀ found, found ∈ method.implicitReceivers ↔ found.declaringType = item.qualifiedName ∧
    ∃ node, body.exprs[found.expr]? = some node ∧ found.span = node.span ∧
      (node.ReliesOn scope item found.kind ∨ node.Strays scope item found.kind)
  once : (method.implicitReceivers.map (·.expr)).Nodup
  own : (∀ found ∈ method.implicitReceivers, ∃ node, body.exprs[found.expr]? = some node ∧
    node.ReliesOn scope item found.kind) ↔ ∀ node ∈ body.exprs, ∀ kind, ¬ node.Strays scope item kind
  named : item.qualifiedName ≠ "" → ∀ node ∈ body.exprs, ∀ kind, node.Strays scope item kind → kind = .innerCreation

theorem implicitReceivers_exact {scope : Scope Block} {block : Block} {method : Method Body} {item : Class Block}
    {rest : List (Class Block)} (given : method.body = some (Body.ofBlock scope block))
    (type : method.declaringType = item.qualifiedName) (around : scope.enclosing = item :: rest)
    (found : ImplicitReceiver) : found ∈ method.implicitReceivers ↔ found.declaringType = item.qualifiedName ∧
      ∃ node, (Body.ofBlock scope block).exprs[found.expr]? = some node ∧ found.span = node.span ∧
        (node.ReliesOn scope item found.kind ∨ node.Strays scope item found.kind) := by
  have receives {node : ExprNode} (known : (Body.ofBlock scope block).exprs[found.expr]? = some node) :=
    ExprNode.receiverKind?_iff around (Body.ofBlock_resolved scope block node (Array.mem_of_getElem? known)) found.kind
  rw [mem_implicitReceivers given,receiverAt?_eq_some_iff,type]
  constructor
  · rintro ⟨node,known,kind,_,same,span⟩
    exact ⟨same,node,known,span,(receives known).mp kind⟩
  · rintro ⟨same,node,known,span,kind⟩
    exact ⟨node,known,(receives known).mpr kind,rfl,same,span⟩

theorem targets_ofBlock {scope : Scope Block} {block : Block} {method : Method Body} {item : Class Block}
    {rest : List (Class Block)} (given : method.body = some (Body.ofBlock scope block))
    (type : method.declaringType = item.qualifiedName) (around : scope.enclosing = item :: rest)
    (apart : item.qualifiedName ≠ "" → ∀ other ∈ rest, other.qualifiedName ≠ item.qualifiedName) :
    method.Targets scope item (Body.ofBlock scope block) := by
  have recorded := implicitReceivers_exact given type around
  constructor
  case recorded => exact recorded
  case once => exact implicitReceivers_nodup given
  case own =>
    constructor
    -- A node that strays is recorded, and its one record would have to rely on the class.
    · intro relied node among kind strays
      obtain ⟨id,known⟩ := Array.mem_iff_getElem?.mp among
      obtain ⟨other,again,relies⟩ := relied _ ((recorded ⟨id,kind,_,_⟩).mpr ⟨rfl,node,known,rfl,.inr strays⟩)
      cases known.symm.trans again
      exact relies.not_strays strays
    · intro straight found listed
      obtain ⟨_,node,known,_,kind⟩ := (recorded found).mp listed
      exact ⟨node,known,kind.resolve_right (straight node (Array.mem_of_getElem? known) _)⟩
  case named =>
    exact fun name node among kind strays =>
      strays.creates (Body.ofBlock_resolved scope block node among) around (apart name)

end Method

/-- What is found to rely on the class of a method is what relies on it, but for the nodes that stray. -/
theorem ItemTree.receivers_own (text : Text) (method : Method Body) (body : Body)
    (member : method ∈ (ofText text).methods) (given : method.body = some body) :
    ∃ item, (outline (Java.parse text)).classes[method.owner]? = some item ∧
      (∃ source ∈ item.methods, source.resolved (outline (Java.parse text)) = method) ∧
      item.qualifiedName = method.declaringType ∧ method.Targets (method.scopeIn text) item body := by
  rw [ofText,ofUnit_methods] at member
  obtain ⟨source,listed,rfl⟩ := List.mem_map.mp member
  obtain ⟨block,_,rfl⟩ := Option.map_eq_some_iff.mp given
  obtain ⟨item,rest,known,inside,type,around,apart⟩ := outline_home _ listed
  have bodied : (source.resolved (outline (Java.parse text))).body =
      some (Body.ofBlock ⟨outline (Java.parse text),source.owner,source.params⟩ block) := given
  exact ⟨item,known,⟨source,inside,rfl⟩,type.symm,Method.targets_ofBlock bodied type around apart⟩

/-- A method of a member class: a field of the class around is not taken for one of its own. -/
theorem ItemTree.receivers_own_member : ∃ text : Text,
    text = "class A { int f; class B { class C { } int g; void m() { f = g; new C(); k(this); } } }".toList ∧
    ∃ method ∈ (ofText text).methods, ∃ body item, method.body = some body ∧
      (outline (Java.parse text)).classes[method.owner]? = some item ∧ item.qualifiedName = "A.B" ∧
      method.implicitReceivers.map (·.kind) = [.field false,.innerCreation,.methodCall false,.this] ∧
      method.Targets (method.scopeIn text) item body := by
  refine ⟨_,rfl,?_⟩
  have evaluated : ∃ method ∈ (ofText
      "class A { int f; class B { class C { } int g; void m() { f = g; new C(); k(this); } } }".toList).methods,
      method.body.isSome = true ∧ method.declaringType = "A.B" ∧
      method.implicitReceivers.map (·.kind) = [.field false,.innerCreation,.methodCall false,.this] := by
    decide +kernel
  obtain ⟨method,member,bodied,type,kinds⟩ := evaluated
  obtain ⟨body,given⟩ := Option.isSome_iff_exists.mp bodied
  obtain ⟨item,known,_,same,targets⟩ := receivers_own _ method body member given
  exact ⟨method,member,body,item,given,known,same.trans type,kinds,targets⟩

/-- A creation of the class itself is taken for that of one of its inner classes. -/
theorem ItemTree.creation_of_own_class : ∃ text : Text, text = "class A { class B { void m() { new B(); } } }".toList ∧
    ∃ method ∈ (ofText text).methods, ∃ body, method.body = some body ∧
      ∃ found ∈ method.implicitReceivers, found.kind = .innerCreation ∧
        ∀ item node, body.exprs[found.expr]? = some node →
          ¬ node.ReliesOn (method.scopeIn text) item found.kind := by
  refine ⟨_,rfl,?_⟩
  have evaluated : ∃ method ∈ (ofText "class A { class B { void m() { new B(); } } }".toList).methods,
      method.owner = 1 ∧ method.implicitReceivers.map (fun found => (found.expr,found.kind)) = [(0,.innerCreation)] ∧
      method.body.bind (·.exprs[0]?) = some (.create none ⟨"B",⟨35,36⟩⟩ [] [] none none (some ⟨"A.B",true⟩) ⟨31,38⟩) ∧
      ((method.scopeIn "class A { class B { void m() { new B(); } } }".toList).created? "B").map (·.outer) =
        some (some 0) := by
    decide +kernel
  obtain ⟨method,member,owner,receivers,creation,outside⟩ := evaluated
  obtain ⟨⟨id,kind,type,span⟩,listed,same⟩ := List.map_eq_singleton_iff.mp receivers
  cases same
  obtain ⟨body,given,placed⟩ := Option.bind_eq_some_iff.mp creation
  refine ⟨method,member,body,given,_,listed ▸ List.mem_singleton_self _,rfl,fun item node again relies => ?_⟩
  cases placed.symm.trans again
  cases relies with
  | creation created found inner own =>
    rw [found,Option.map_some,own,Option.some.injEq,Option.some.injEq] at outside
    cases owner.symm.trans outside

end Transplant
