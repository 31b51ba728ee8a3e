import Transplant.Body.Basic
import Transplant.Item.Basic

/-! What the names in a method body stand for. Local variables come first, then parameters, the
fields of the enclosing classes from the inside out, and types; another name that begins with a
capital letter of ASCII is taken for a type as well. -/
namespace Transplant

open Java (Param)

/-- What a method sees beside its local variables. -/
structure Scope (β : Type) where
  tree : ItemTree β
  owner : ClassId
  params : List Param

/-- Local variables by name, the latest first. -/
abbrev Locals := List (String × LocalId)

namespace Scope

variable {β : Type}

def enclosing (scope : Scope β) : List (Class β) :=
  (scope.tree.enclosing scope.owner).filterMap (scope.tree.classes[·]?)

def fieldOf? (name : String) (item : Class β) : Option FieldRef :=
  (item.fields.find? (·.name.text == name)).map fun field =>
    ⟨field.name.text,item.qualifiedName,field.isStatic⟩

def methodOf? (name : String) (item : Class β) : Option MethodRef :=
  (item.methods.find? (·.name.text == name)).map fun method =>
    ⟨method.name.text,item.qualifiedName,method.isStatic⟩

def isNamed (scope : Scope β) (name : String) (id : ClassId) : Bool :=
  (scope.tree.classes[id]?).any (·.name == name)

/-- The class of a simple name: one of the enclosing classes, a member class of one, or a class at
the top of the file. -/
def class? (scope : Scope β) (name : String) : Option ClassId :=
  let near := (scope.tree.enclosing scope.owner).findSome? fun id =>
    if scope.isNamed name id then some id
    else ((scope.tree.classes[id]?).map (·.nested)).bind (·.find? (scope.isNamed name))
  near.or (scope.tree.items.find? (scope.isNamed name))

def field? (scope : Scope β) (name : String) : Option FieldRef :=
  scope.enclosing.findSome? (fieldOf? name)

/-- The first method of the name in the innermost class that has one. -/
def method? (scope : Scope β) (name : String) : Option MethodRef :=
  scope.enclosing.findSome? (methodOf? name)

/-- The class that `new` creates, by its name without type arguments. -/
def constructor? (scope : Scope β) (type : String) : Option ConstructorRef := do
  let id ← scope.class? (String.ofList (type.toList.takeWhile (· != '<')))
  let item ← scope.tree.classes[id]?
  return ⟨item.qualifiedName,item.isInner⟩

def type? (scope : Scope β) (name : String) : Option String :=
  match (scope.class? name).bind (scope.tree.classes[·]?) with
  | some item => some item.qualifiedName
  | none => if name.toList.head?.any Char.isUpper then some name else none

def param? (scope : Scope β) (name : String) : Option Nat :=
  scope.params.findIdx? (·.name.text == name)

def resolve (scope : Scope β) (locals : Locals) (name : String) : Resolution :=
  match locals.find? (·.1 == name) with
  | some entry => .localVar entry.2
  | none =>
    match scope.param? name with
    | some index => .param index
    | none =>
      match scope.field? name with
      | some target => .field target
      | none =>
        match scope.type? name with
        | some qualifiedName => .type qualifiedName
        | none => .unresolved

end Scope
end Transplant
