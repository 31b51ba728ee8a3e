import Transplant.Proofs.Analysis.Receivers
import Transplant.Proofs.Item.Forest

/-! Which members need no instance. In interfaces and annotation types fields and classes are static without the
modifier, but the lowered file knows this only of the fields of interfaces. -/
namespace Transplant

open Java (Block CompilationUnit FieldDecl Member TypeDecl TypeKind)

/-- The members of such a type are static without the modifier. -/
def Java.TypeKind.IsInterface (kind : TypeKind) : Prop := kind = .interfaceType ∨ kind = .annotationType

def Java.Member.field? : Member → Option FieldDecl
  | .field decl => some decl
  | _ => none

/-- What is static by its place among the members of the type has the modifier, if it is not a field of an interface. -/
structure Java.TypeDecl.MarksStatic (decl : TypeDecl) : Prop where
  fields : decl.kind = .annotationType → ∀ field ∈ decl.members.filterMap Member.field?, field.modifiers.isStatic = true
  classes : decl.kind.IsInterface → ∀ inner ∈ decl.members.filterMap Member.type?, inner.kind = .classType →
    inner.modifiers.isStatic = true

namespace ItemTree

/-- The type that the class is a member of is of such a kind. -/
def IsMemberOf {β : Type} (tree : ItemTree β) (p : TypeKind → Prop) (item : Class β) : Prop :=
  ∃ (outer : ClassId) (around : Class β), item.outer = some outer ∧ tree.classes[outer]? = some around ∧ p around.kind

/-- The class is a class without `static` in another class, an enum or a record. -/
def NeedsInstance {β : Type} (tree : ItemTree β) (item : Class β) : Prop :=
  item.kind = .classType ∧ item.modifiers.isStatic = false ∧ tree.IsMemberOf (¬ ·.IsInterface) item

/-- The class is a class without `static` in an interface or an annotation type. -/
def IsUnmarked {β : Type} (tree : ItemTree β) (item : Class β) : Prop :=
  item.kind = .classType ∧ item.modifiers.isStatic = false ∧ tree.IsMemberOf (·.IsInterface) item

end ItemTree

/-- In a method the node creates, without naming an outer instance, an object of class number `id` of the file. -/
def Method.Creates (unit : CompilationUnit) (method : Method Body) (node : ExprNode) (id : ClassId) : Prop :=
  ∃ type args dims initializer body target span, node = .create none type args dims initializer body target span ∧
    Scope.class? ⟨ItemTree.outline unit,method.owner,method.params⟩
      (String.ofList (type.text.toList.takeWhile (· != '<'))) = some id

namespace ItemTree

/-- Members are static as the kind of their type has it. -/
structure KeepsStatic (unit : CompilationUnit) (tree : ItemTree Body) : Prop where
  fields : ∀ item ∈ tree.classes, item.kind.IsInterface → ∀ field ∈ item.fields, field.isStatic = true
  classes : ∀ item ∈ tree.classes, item.isInner = true ↔ tree.NeedsInstance item
  creations : ∀ method ∈ tree.methods, ∀ body, method.body = some body → ∀ found ∈ method.implicitReceivers,
    found.kind = .innerCreation → ∀ node id item, body.exprs[found.expr]? = some node → method.Creates unit node id →
      tree.classes[id]? = some item → ¬ tree.IsMemberOf (·.IsInterface) item

/-- What the file says of members: all is as the kinds of the types have it but for fields of annotation types and
for classes in interfaces and annotation types that lack the modifier. -/
structure StaticExact (unit : CompilationUnit) (tree : ItemTree Body) : Prop where
  fields : ∀ (id : ClassId) item decl, tree.classes[id]? = some item → unit.allTypes[id]? = some decl →
    List.Forall₂ (fun source field => field.name = source.name ∧ field.span = source.span ∧
      (field.isStatic = true ↔ (source.modifiers.isStatic = true ∨ decl.kind.IsInterface) ∧
        ¬ (source.modifiers.isStatic = false ∧ decl.kind = .annotationType)))
      (decl.members.filterMap Member.field?) item.fields
  classes : ∀ item ∈ tree.classes, item.isInner = true ↔ tree.NeedsInstance item ∨ tree.IsUnmarked item
  creations : ∀ method ∈ tree.methods, ∀ body, method.body = some body → ∀ found, found.kind = .innerCreation →
    (found ∈ method.implicitReceivers ↔ found.declaringType = method.declaringType ∧
      ∃ node id item, body.exprs[found.expr]? = some node ∧ found.span = node.span ∧ method.Creates unit node id ∧
        tree.classes[id]? = some item ∧ item.isInner = true)
  kept : tree.KeepsStatic unit ↔ ∀ decl ∈ unit.allTypes, decl.MarksStatic

end ItemTree

namespace Outline

theorem fields_map (kind : TypeKind) (members : List Member) :
    fields kind members = (members.filterMap Member.field?).map (field kind) := by
  rw [fields_eq,List.map_filterMap]
  congr 1
  funext member
  cases member <;> rfl

theorem field_isStatic (kind : TypeKind) (decl : FieldDecl) : (field kind decl).isStatic = true ↔
    (decl.modifiers.isStatic = true ∨ kind.IsInterface) ∧
      ¬ (decl.modifiers.isStatic = false ∧ kind = .annotationType) := by
  simp only [field,TypeKind.IsInterface]
  cases decl.modifiers.isStatic <;> cases kind <;> simp

end Outline

/-- A class is inner when it is a member of some type and is a class without the modifier. -/
theorem ItemTree.isInner_iff {tree : ItemTree Body} {unit : CompilationUnit} (forest : tree.IsForest unit)
    {item : Class Body} (listed : item ∈ tree.classes) :
    item.isInner = true ↔ tree.NeedsInstance item ∨ tree.IsUnmarked item := by
  obtain ⟨id,found⟩ := List.mem_iff_getElem?.mp listed
  simp only [Class.isInner,Bool.and_eq_true,beq_iff_eq,Bool.not_eq_true']
  constructor
  · rintro ⟨⟨inside,kind⟩,marked⟩
    obtain ⟨outer,around⟩ := Option.isSome_iff_exists.mp inside
    have earlier := (forest.smaller id item outer found around).trans (List.getElem?_eq_some_iff.mp found).1
    have known := List.getElem?_eq_getElem earlier
    by_cases interface : tree.classes[outer].kind.IsInterface
    · exact .inr ⟨kind,marked,outer,_,around,known,interface⟩
    · exact .inl ⟨kind,marked,outer,_,around,known,interface⟩
  · rintro (⟨kind,marked,outer,_,around,_⟩ | ⟨kind,marked,outer,_,around,_⟩)
    · exact ⟨⟨by rw [around]; rfl,kind⟩,marked⟩
    · exact ⟨⟨by rw [around]; rfl,kind⟩,marked⟩

/-- Only the creation of an inner class without an outer instance stands for that kind of receiver. -/
theorem ExprNode.receiverKind?_creation {declaringType : String} {node : ExprNode} :
    node.receiverKind? declaringType = some .innerCreation ↔
      ∃ type args dims initializer body target span, node = .create none type args dims initializer body (some target) span ∧
        target.isInner = true := by
  constructor
  · intro kind
    cases node with
    | name text resolution span =>
      cases resolution with
      | field target =>
        simp only [receiverKind?] at kind
        split at kind <;> cases kind
      | _ => cases kind
    | call receiver callee args target span =>
      cases receiver with
      | none =>
        simp only [receiverKind?] at kind
        repeat' split at kind
        all_goals cases kind
      | some receiver => cases kind
    | create outer type args dims initializer body target span =>
      cases outer with
      | none =>
        simp only [receiverKind?,Option.ite_some_none_eq_some,Option.any_eq_true] at kind
        obtain ⟨⟨target,rfl,inner⟩,_⟩ := kind
        exact ⟨type,args,dims,initializer,body,target,span,rfl,inner⟩
      | some outer => cases kind
    | _ => cases kind
  · rintro ⟨type,args,dims,initializer,body,target,span,rfl,inner⟩
    exact if_pos inner

/-- A node stands for the creation of an inner class when the class that it creates is one. -/
theorem ExprNode.innerCreation_iff {unit : CompilationUnit} {method : Method Body} {node : ExprNode}
    (resolved : node.Resolved (⟨ItemTree.outline unit,method.owner,method.params⟩ : Scope Block)) :
    node.receiverKind? method.declaringType = some .innerCreation ↔
      ∃ id item, method.Creates unit node id ∧ (ItemTree.ofUnit unit).classes[id]? = some item ∧
        item.isInner = true := by
  rw [receiverKind?_creation]
  constructor
  · rintro ⟨type,args,dims,initializer,body,target,span,rfl,inner⟩
    have given : some target = Scope.constructor? _ type.text := resolved
    rw [Scope.constructor?_eq,eq_comm,Option.map_eq_some_iff] at given
    obtain ⟨created,found,rfl⟩ := given
    obtain ⟨id,class?,known⟩ := Option.bind_eq_some_iff.mp found
    refine ⟨id,created.resolved (ItemTree.outline unit),⟨type,args,dims,initializer,body,_,span,rfl,class?⟩,?_,inner⟩
    rw [ItemTree.ofUnit,List.getElem?_map,known]
    rfl
  · rintro ⟨id,item,⟨type,args,dims,initializer,body,target,span,rfl,class?⟩,known,inner⟩
    obtain ⟨created,found,rfl⟩ := ItemTree.exists_source known
    have given : target = Scope.constructor? _ type.text := resolved
    rw [Scope.constructor?_eq,Scope.created?,class?,Option.bind_some,found,Option.map_some] at given
    exact ⟨type,args,dims,initializer,body,_,span,by rw [given],inner⟩

namespace ItemTree

variable (unit : CompilationUnit)

theorem lowered_fields {id : ClassId} {item : Class Body} {decl : TypeDecl} (lowers : item.Lowers unit id decl) :
    List.Forall₂ (fun source field => field.name = source.name ∧ field.span = source.span ∧
      (field.isStatic = true ↔ (source.modifiers.isStatic = true ∨ decl.kind.IsInterface) ∧
        ¬ (source.modifiers.isStatic = false ∧ decl.kind = .annotationType)))
      (decl.members.filterMap Member.field?) item.fields := by
  rw [lowers.fields,Outline.fields_map,List.forall₂_map_right_iff,List.forall₂_same]
  exact fun source _ => ⟨rfl,rfl,Outline.field_isStatic decl.kind source⟩

theorem lowered_creations (method : Method Body) (listed : method ∈ (ofUnit unit).methods) (body : Body)
    (given : method.body = some body) (found : ImplicitReceiver) (kind : found.kind = .innerCreation) :
    found ∈ method.implicitReceivers ↔ found.declaringType = method.declaringType ∧
      ∃ node id item, body.exprs[found.expr]? = some node ∧ found.span = node.span ∧ method.Creates unit node id ∧
        (ofUnit unit).classes[id]? = some item ∧ item.isInner = true := by
  rw [ofUnit_methods] at listed
  obtain ⟨source,_,rfl⟩ := List.mem_map.mp listed
  obtain ⟨block,own,rfl⟩ := Option.map_eq_some_iff.mp given
  rw [Method.mem_implicitReceivers given,Method.receiverAt?_eq_some_iff,kind]
  have inner {node : ExprNode} (known : (Body.ofBlock ⟨outline unit,source.owner,source.params⟩ block).exprs[
      found.expr]? = some node) := @ExprNode.innerCreation_iff unit (source.resolved (outline unit)) node
    (Body.ofBlock_resolved _ block node (Array.mem_of_getElem? known))
  constructor
  · rintro ⟨node,known,creates,_,type,span⟩
    obtain ⟨id,item,rest⟩ := (inner known).mp creates
    exact ⟨type,node,id,item,known,span,rest⟩
  · rintro ⟨type,node,id,item,known,span,rest⟩
    exact ⟨node,known,(inner known).mpr ⟨id,item,rest⟩,rfl,type,span⟩

end ItemTree

theorem forall₂_exists {α β : Type} {R : α → β → Prop} {left : List α} {right : List β}
    (related : List.Forall₂ R left right) : ∀ a ∈ left, ∃ b ∈ right, R a b := by
  induction related with
  | nil => exact fun _ member => absurd member List.not_mem_nil
  | cons first _ ih =>
    refine List.forall_mem_cons.mpr ⟨⟨_,List.mem_cons_self,first⟩,fun a member => ?_⟩
    obtain ⟨b,listed,same⟩ := ih a member
    exact ⟨b,List.mem_cons_of_mem _ listed,same⟩

namespace ItemTree.IsForest

variable {unit : CompilationUnit} {tree : ItemTree Body} (forest : tree.IsForest unit)

include forest

theorem class_of (id : ClassId) (decl : TypeDecl) (place : unit.allTypes[id]? = some decl) :
    ∃ item : Class Body, tree.classes[id]? = some item ∧ item.Lowers unit id decl := by
  have inside : id < tree.classes.length := forest.count ▸ (List.getElem?_eq_some_iff.mp place).1
  exact ⟨_,List.getElem?_eq_getElem inside,forest.declared id _ decl (List.getElem?_eq_getElem inside) place⟩

theorem decl_of (id : ClassId) (item : Class Body) (found : tree.classes[id]? = some item) :
    ∃ decl : TypeDecl, unit.allTypes[id]? = some decl ∧ item.Lowers unit id decl := by
  have inside : id < unit.allTypes.length := forest.count ▸ (List.getElem?_eq_some_iff.mp found).1
  exact ⟨_,List.getElem?_eq_getElem inside,forest.declared id item _ found (List.getElem?_eq_getElem inside)⟩

/-- A type among the members of another is a class inside its class. -/
theorem member_class {id : ClassId} {decl inner : TypeDecl} (place : unit.allTypes[id]? = some decl)
    (member : inner ∈ decl.members.filterMap Member.type?) :
    ∃ (number : ClassId) (item : Class Body), tree.classes[number]? = some item ∧ item.Lowers unit number inner ∧
      item.outer = some id := by
  obtain ⟨around,known,_⟩ := forest.class_of id decl place
  obtain ⟨number,listed,numbered⟩ := forall₂_exists (forest.parts id around decl known place).flip inner member
  obtain ⟨item,found,lowers⟩ := forest.class_of number inner numbered
  exact ⟨number,item,found,lowers,(forest.inside number id item around found known).mp listed⟩

/-- A class inside another is that of a type among its members. -/
theorem class_member {id outer : ClassId} {item around : Class Body} (found : tree.classes[id]? = some item)
    (inside : item.outer = some outer) (known : tree.classes[outer]? = some around) :
    ∃ decl inner : TypeDecl, decl ∈ unit.allTypes ∧ around.kind = decl.kind ∧
      inner ∈ decl.members.filterMap Member.type? ∧ item.Lowers unit id inner := by
  obtain ⟨decl,place,lowers⟩ := forest.decl_of outer around known
  have listed := (forest.inside id outer item around found known).mpr inside
  obtain ⟨inner,member,numbered⟩ := forall₂_exists (forest.parts outer around decl known place) id listed
  exact ⟨decl,inner,List.mem_of_getElem? place,lowers.kind,member,forest.declared id item inner found numbered⟩

end ItemTree.IsForest

namespace ItemTree

/-- Where members are static as the kinds of their types have it, those of interfaces and annotation types that the
file does not know to be static have the modifier. -/
theorem KeepsStatic.marks {unit : CompilationUnit} (kept : (ofUnit unit).KeepsStatic unit) (decl : TypeDecl)
    (declared : decl ∈ unit.allTypes) : decl.MarksStatic := by
  have forest := lowered_isForest unit
  obtain ⟨id,place⟩ := List.mem_iff_getElem?.mp declared
  obtain ⟨item,found,lowers⟩ := forest.class_of id decl place
  constructor
  · intro annotated source member
    obtain ⟨field,listed,_,_,exact⟩ := forall₂_exists (lowered_fields unit lowers) source member
    have isStatic := kept.fields item (List.mem_of_getElem? found) (.inr (lowers.kind.trans annotated)) field listed
    exact Bool.of_not_eq_false fun unmarked => (exact.mp isStatic).2 ⟨unmarked,annotated⟩
  · intro interface inner member kind
    obtain ⟨number,other,known,same,inside⟩ := forest.member_class place member
    have rule := kept.classes other (List.mem_of_getElem? known)
    refine Bool.of_not_eq_false fun unmarked => ?_
    have isInner := (isInner_iff forest (List.mem_of_getElem? known)).mpr (.inr ⟨same.kind.trans kind,
      same.modifiers ▸ unmarked,id,item,inside,found,lowers.kind ▸ interface⟩)
    obtain ⟨_,_,outer,around,holder,its,allowed⟩ := rule.mp isInner
    cases inside.symm.trans holder
    cases found.symm.trans its
    exact allowed (lowers.kind ▸ interface)

/-- Where the modifier is written, all members are static as the kinds of their types have it. -/
theorem keepsStatic_of_marks {unit : CompilationUnit} (marks : ∀ decl ∈ unit.allTypes, decl.MarksStatic) :
    (ofUnit unit).KeepsStatic unit := by
  have forest := lowered_isForest unit
  have noneUnmarked : ∀ item ∈ (ofUnit unit).classes, ¬ (ofUnit unit).IsUnmarked item := by
    rintro item listed ⟨kind,unmarked,outer,around,inside,known,interface⟩
    obtain ⟨id,found⟩ := List.mem_iff_getElem?.mp listed
    obtain ⟨decl,inner,declared,same,member,lowers⟩ := forest.class_member found inside known
    have marked := (marks decl declared).classes (same ▸ interface) inner member (lowers.kind.symm.trans kind)
    rw [← lowers.modifiers,unmarked] at marked
    cases marked
  have classes : ∀ item ∈ (ofUnit unit).classes, item.isInner = true ↔ (ofUnit unit).NeedsInstance item :=
    fun item listed => (isInner_iff forest listed).trans (or_iff_left (noneUnmarked item listed))
  refine ⟨?_,classes,?_⟩
  · intro item listed interface field member
    obtain ⟨id,found⟩ := List.mem_iff_getElem?.mp listed
    obtain ⟨decl,place,lowers⟩ := forest.decl_of id item found
    obtain ⟨source,origin,_,_,exact⟩ := forall₂_exists (lowered_fields unit lowers).flip field member
    refine exact.mpr ⟨.inr (lowers.kind ▸ interface),fun ⟨unmarked,annotated⟩ => ?_⟩
    have marked := (marks decl (List.mem_of_getElem? place)).fields annotated source origin
    rw [unmarked] at marked
    cases marked
  · rintro method listed body given found recorded kind node id item known creates place ⟨outer,around,inside,its,interface⟩
    obtain ⟨_,other,number,created,again,_,same,placed,inner⟩ :=
      (lowered_creations unit method listed body given found kind).mp recorded
    cases known.symm.trans again
    obtain ⟨_,_,_,_,_,_,_,rfl,first⟩ := creates
    obtain ⟨_,_,_,_,_,_,_,shape,second⟩ := same
    cases shape
    cases first.symm.trans second
    cases place.symm.trans placed
    obtain ⟨_,_,holder,other,inside',its',allowed⟩ := (classes item (List.mem_of_getElem? place)).mp inner
    cases inside.symm.trans inside'
    cases its.symm.trans its'
    exact allowed interface

/-- In every file, members are known to be static as written, and in interfaces the fields. -/
theorem lowered_static (unit : CompilationUnit) : (ofUnit unit).StaticExact unit := by
  have forest := lowered_isForest unit
  exact ⟨fun id item decl found declared => lowered_fields unit (forest.declared id item decl found declared),
    fun item listed => isInner_iff forest listed,lowered_creations unit,KeepsStatic.marks,keepsStatic_of_marks⟩

/-- A field of an annotation type is not known to be static, and a class in an interface is taken for an inner class,
whose creation is recorded. -/
theorem interface_members_unmarked : ∃ text : Text,
    text = "interface I { class C { } static void m() { new C(); } } @interface N { int Y = 1; }".toList ∧
    (∃ item ∈ (ofText text).classes, item.kind.IsInterface ∧ ∃ field ∈ item.fields, field.isStatic ≠ true) ∧
    (∃ item ∈ (ofText text).classes, item.isInner = true ∧ ¬ (ofText text).NeedsInstance item) ∧
    ∃ method ∈ (ofText text).methods, ∃ body, method.body = some body ∧ ∃ found ∈ method.implicitReceivers,
      found.kind = .innerCreation ∧ ∃ node id item, body.exprs[found.expr]? = some node ∧
        method.Creates (Java.parse text) node id ∧ (ofText text).classes[id]? = some item ∧
        (ofText text).IsMemberOf (·.IsInterface) item := by
  refine ⟨_,rfl,?_⟩
  generalize same : "interface I { class C { } static void m() { new C(); } } @interface N { int Y = 1; }".toList = text
  have evaluated : (ofText text).classes.map (fun item => (item.kind,item.outer,item.isInner,item.fields.map (·.isStatic))) =
      [(.interfaceType,none,false,[]),(.classType,some 0,true,[]),(.annotationType,none,false,[false])] := by
    rw [← same]
    decide +kernel
  have created : ∃ method ∈ (ofText text).methods,
      method.implicitReceivers.map (fun found => (found.expr,found.kind)) = [(0,.innerCreation)] ∧
      method.body.bind (·.exprs[0]?) = some (.create none ⟨"C",⟨48,49⟩⟩ [] [] none none (some ⟨"I.C",true⟩) ⟨44,51⟩) ∧
      Scope.class? ⟨outline (Java.parse text),method.owner,method.params⟩
        (String.ofList ("C".toList.takeWhile (· != '<'))) = some 1 := by
    rw [← same]
    decide +kernel
  have row (k : Nat) := congrArg (·[k]?) evaluated
  simp only [List.getElem?_map] at row
  obtain ⟨outer,known,place⟩ := Option.map_eq_some_iff.mp (row 0)
  obtain ⟨inner,found,class?⟩ := Option.map_eq_some_iff.mp (row 1)
  obtain ⟨annotated,its,fields⟩ := Option.map_eq_some_iff.mp (row 2)
  simp only [Prod.mk.injEq] at place class? fields
  have inside : (ofText text).IsMemberOf (·.IsInterface) inner :=
    ⟨0,outer,class?.2.1,known,.inl place.1⟩
  refine ⟨⟨annotated,List.mem_of_getElem? its,.inr fields.1,?_⟩,⟨inner,List.mem_of_getElem? found,class?.2.2.1,?_⟩,?_⟩
  · obtain ⟨field,listed,unmarked⟩ := List.map_eq_singleton_iff.mp fields.2.2.2
    exact ⟨field,listed ▸ List.mem_singleton_self _,by rw [unmarked]; exact Bool.false_ne_true⟩
  · rintro ⟨_,_,_,around,holder,again,allowed⟩
    cases class?.2.1.symm.trans holder
    cases known.symm.trans again
    exact allowed (.inl place.1)
  · obtain ⟨method,member,receivers,creation,number⟩ := created
    obtain ⟨⟨id,kind,type,span⟩,listed,shown⟩ := List.map_eq_singleton_iff.mp receivers
    cases shown
    obtain ⟨body,given,placed⟩ := Option.bind_eq_some_iff.mp creation
    have recorded : ImplicitReceiver.mk 0 .innerCreation type span ∈ method.implicitReceivers := by
      rw [listed]
      exact List.mem_singleton_self _
    have creates : method.Creates (Java.parse text) (.create none ⟨"C",⟨48,49⟩⟩ [] [] none none (some ⟨"I.C",true⟩)
      ⟨44,51⟩) 1 := ⟨_,_,_,_,_,_,_,rfl,number⟩
    exact ⟨method,member,body,given,_,recorded,rfl,_,1,inner,placed,creates,found,inside⟩

end ItemTree

end Transplant
