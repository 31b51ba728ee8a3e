import Transplant.Proofs.Body.Moved
import Transplant.Proofs.Item.Classes

/-! The classes of a file whose spans are moved: the same classes with their spans moved. What a name
stands for is found by names alone. -/
namespace Transplant

open Java (Block CompilationUnit FieldDecl ImportDecl Member MethodDecl Param TypeDecl TypeKind)

def Field.move (g : Nat → Nat) (field : Field) : Field :=
  { field with
    name := field.name.mapSpans (Span.map g)
    type := field.type.mapSpans (Span.map g)
    span := field.span.map g }

variable {β γ : Type}

def Method.move (g : Nat → Nat) (onBody : β → γ) (method : Method β) : Method γ :=
  { method with
    name := method.name.mapSpans (Span.map g)
    returnType := method.returnType.mapSpans (Span.map g)
    params := method.params.map (Param.mapSpans (Span.map g))
    span := method.span.map g
    body := method.body.map onBody }

def Class.move (g : Nat → Nat) (onBody : β → γ) (item : Class β) : Class γ :=
  { item with
    fields := item.fields.map (Field.move g)
    methods := item.methods.map (Method.move g onBody)
    span := item.span.map g
    bodySpan := item.bodySpan.map g }

def ItemTree.move (g : Nat → Nat) (onBody : β → γ) (tree : ItemTree β) : ItemTree γ :=
  { tree with
    imports := tree.imports.map fun decl => { decl with span := decl.span.map g }
    classes := tree.classes.map (Class.move g onBody) }

variable (g : Nat → Nat)

namespace Outline

theorem fields_move (kind : TypeKind) (members : List Member) :
    fields kind (members.map (Member.mapSpans (Span.map g))) = (fields kind members).map (Field.move g) := by
  rw [fields,List.filterMap_map,fields,List.map_filterMap]
  apply List.filterMap_congr
  intro member _
  cases member <;> rfl

theorem methods_move (owner : ClassId) (declaringType : String) (members : List Member) :
    methods owner declaringType (members.map (Member.mapSpans (Span.map g))) =
      (methods owner declaringType members).map (Method.move g (Block.mapSpans (Span.map g))) := by
  rw [methods,List.filterMap_map,methods,List.map_filterMap]
  apply List.filterMap_congr
  intro member _
  cases member <;> rfl

theorem classesOfType_move :
    (∀ id outer qualifier (decl : TypeDecl),
      classesOfType id outer qualifier (decl.mapSpans (Span.map g)) =
        (classesOfType id outer qualifier decl).map (Class.move g (Block.mapSpans (Span.map g)))) ∧
    (∀ next owner qualifier members,
      classesOfMembers next owner qualifier (Member.mapSpansAll (Span.map g) members) =
        ((classesOfMembers next owner qualifier members).1,
          (classesOfMembers next owner qualifier members).2.map
            (Class.move g (Block.mapSpans (Span.map g))))) := by
  apply classes_induction
  case type =>
    intro id outer qualifier decl inside
    cases decl with
    | mk kind modifiers name span bodySpan members =>
      rw [TypeDecl.mapSpans,classesOfType_eq,classesOfType_eq]
      simp only [Java.Ident.mapSpans,inside,List.map_cons]
      rw [Member.mapSpansAll_eq_map,fields_move,methods_move]
      rfl
  case nil => exact fun _ _ _ => rfl
  case nested =>
    intro next owner qualifier decl rest first others
    rw [Member.mapSpansAll,Member.mapSpans,classesOfMembers_type,classesOfMembers_type,first,List.length_map,others,
      List.map_append]
  case other =>
    intro next owner qualifier member rest noType others
    have moved : (member.mapSpans (Span.map g)).type? = none := by
      cases member with
      | type decl => cases noType
      | _ => rfl
    rw [Member.mapSpansAll,classesOfMembers_other moved,classesOfMembers_other noType,others]

theorem classesOfTypes_move (next : ClassId) (qualifier : String) (types : List TypeDecl) :
    classesOfTypes next qualifier (types.map (TypeDecl.mapSpans (Span.map g))) =
      ((classesOfTypes next qualifier types).1,
        (classesOfTypes next qualifier types).2.map (Class.move g (Block.mapSpans (Span.map g)))) := by
  induction types generalizing next with
  | nil => rfl
  | cons decl rest ih =>
    simp only [List.map_cons,classesOfTypes,(classesOfType_move g).1,List.length_map,ih,List.map_append]

end Outline

theorem ItemTree.outline_move (unit : CompilationUnit) :
    outline (unit.mapSpans (Span.map g)) = (outline unit).move g (Block.mapSpans (Span.map g)) := by
  have package : (unit.package.map fun decl => { decl with span := decl.span.map g }).map (·.name) =
      unit.package.map (·.name) := by
    rw [Option.map_map]
    rfl
  simp only [outline,CompilationUnit.mapSpans,package,Outline.classesOfTypes_move]
  rfl

section Scope

variable (onBody : β → γ) (tree : ItemTree β) (owner : ClassId) (params others : List Param)

theorem ItemTree.getElem?_move (id : ClassId) :
    (tree.move g onBody).classes[id]? = (tree.classes[id]?).map (Class.move g onBody) :=
  List.getElem?_map

theorem ItemTree.enclosing_move (id : ClassId) : (tree.move g onBody).enclosing id = tree.enclosing id := by
  have chain (steps : Nat) (id : ClassId) :
      (tree.move g onBody).chainFrom steps id = tree.chainFrom steps id := by
    induction steps generalizing id with
    | zero => rfl
    | succ steps ih =>
      have outer : ((tree.move g onBody).classes[id]?).bind (·.outer) = (tree.classes[id]?).bind (·.outer) := by
        rw [tree.getElem?_move,Option.bind_map]
        rfl
      simp only [ItemTree.chainFrom,outer,ih]
  exact chain _ id

namespace Scope

theorem isNamed_move (name : String) (id : ClassId) :
    isNamed ⟨tree.move g onBody,owner,others⟩ name id = isNamed ⟨tree,owner,params⟩ name id := by
  simp only [isNamed,tree.getElem?_move,Option.any_map]
  rfl

theorem enclosing_move : enclosing ⟨tree.move g onBody,owner,others⟩ =
    (enclosing ⟨tree,owner,params⟩).map (Class.move g onBody) := by
  simp only [enclosing,tree.enclosing_move,tree.getElem?_move,List.map_filterMap]

theorem fieldOf?_move (name : String) (item : Class β) :
    fieldOf? name (item.move g onBody) = fieldOf? name item := by
  simp only [fieldOf?,Class.move,List.find?_map,Option.map_map]
  rfl

theorem methodOf?_move (name : String) (item : Class β) :
    methodOf? name (item.move g onBody) = methodOf? name item := by
  simp only [methodOf?,Class.move,List.find?_map,Option.map_map]
  rfl

theorem class?_move (name : String) :
    class? ⟨tree.move g onBody,owner,others⟩ name = class? ⟨tree,owner,params⟩ name := by
  have named : isNamed ⟨tree.move g onBody,owner,others⟩ name = isNamed ⟨tree,owner,params⟩ name :=
    funext fun id => isNamed_move g onBody tree owner params others name id
  have nested (id : ClassId) : ((tree.move g onBody).classes[id]?).map (·.nested) =
      (tree.classes[id]?).map (·.nested) := by
    rw [tree.getElem?_move,Option.map_map]
    rfl
  simp only [class?,tree.enclosing_move,named,nested]
  rfl

theorem param?_move (name : String) :
    param? ⟨tree.move g onBody,owner,params.map (Param.mapSpans (Span.map g))⟩ name =
      param? ⟨tree,owner,params⟩ name := by
  simp only [param?,List.findIdx?_map]
  rfl

theorem field?_move (name : String) :
    field? ⟨tree.move g onBody,owner,others⟩ name = field? ⟨tree,owner,params⟩ name := by
  simp only [field?,enclosing_move g onBody tree owner params others,List.findSome?_map,
    Function.comp_def,fieldOf?_move]

theorem method?_move (name : String) :
    method? ⟨tree.move g onBody,owner,others⟩ name = method? ⟨tree,owner,params⟩ name := by
  simp only [method?,enclosing_move g onBody tree owner params others,List.findSome?_map,
    Function.comp_def,methodOf?_move]

theorem type?_move (name : String) :
    type? ⟨tree.move g onBody,owner,others⟩ name = type? ⟨tree,owner,params⟩ name := by
  simp only [type?,class?_move g onBody tree owner params others,tree.getElem?_move]
  cases class? ⟨tree,owner,params⟩ name with
  | none => rfl
  | some id =>
    simp only [Option.bind_some]
    cases tree.classes[id]? <;> rfl

theorem constructor?_move (type : String) :
    constructor? ⟨tree.move g onBody,owner,others⟩ type = constructor? ⟨tree,owner,params⟩ type := by
  simp only [constructor?,class?_move g onBody tree owner params others,tree.getElem?_move]
  cases class? ⟨tree,owner,params⟩ (String.ofList (type.toList.takeWhile (· != '<'))) with
  | none => rfl
  | some id =>
    simp only [Option.bind_eq_bind,Option.bind_some]
    cases tree.classes[id]? <;> rfl

/-- The names in a body stand for the same when the spans of the file are moved. -/
theorem agrees_move : Agrees ⟨tree,owner,params⟩
    ⟨tree.move g onBody,owner,params.map (Param.mapSpans (Span.map g))⟩ where
  resolve := by
    funext locals name
    simp only [resolve,param?_move,field?_move g onBody tree owner params,
      type?_move g onBody tree owner params]
  method? := funext (method?_move g onBody tree owner params _)
  constructor? := funext (constructor?_move g onBody tree owner params _)

end Scope

end Scope

theorem Method.resolved_move (outline : ItemTree Block) (method : Method Block) :
    (method.move g (Block.mapSpans (Span.map g))).resolved (outline.move g (Block.mapSpans (Span.map g))) =
      (method.resolved outline).move g (Body.move g) := by
  have agrees := Scope.agrees_move g (Block.mapSpans (Span.map g)) outline method.owner method.params
  have body (block : Block) := Body.ofBlock_move g _ _ agrees block
  simp only [resolved,mapBody,move,Option.map_map,Function.comp_def,body]

/-- Lowering is done alike wherever the parts of the file stand. -/
theorem ItemTree.ofUnit_move (unit : CompilationUnit) :
    ofUnit (unit.mapSpans (Span.map g)) = (ofUnit unit).move g (Body.move g) := by
  have resolved (outline : ItemTree Block) (item : Class Block) :
      (item.move g (Block.mapSpans (Span.map g))).resolved (outline.move g (Block.mapSpans (Span.map g))) =
        (item.resolved outline).move g (Body.move g) := by
    simp only [Class.resolved,Class.move,List.map_map,Function.comp_def,Method.resolved_move]
  have classes : ((outline unit).move g (Block.mapSpans (Span.map g))).classes.map
      (Class.resolved ((outline unit).move g (Block.mapSpans (Span.map g)))) =
      ((outline unit).classes.map (Class.resolved (outline unit))).map (Class.move g (Body.move g)) := by
    simp only [move,List.map_map,Function.comp_def]
    exact List.map_congr_left fun item _ => resolved (outline unit) item
  rw [ofUnit,outline_move]
  simp only [classes]
  rfl

end Transplant
