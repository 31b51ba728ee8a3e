import Transplant.Java.Decl

/-! The classes of a file with their members. Classes are numbered in the order in which they
begin. What is kept of a method's body is left open: first its syntax, later its table. -/
namespace Transplant

open Java (Ident TypeRef Param Modifiers TypeKind ImportDecl)

abbrev ClassId := Nat

structure Field where
  name : Ident
  type : TypeRef
  isStatic : Bool
  span : Span
deriving DecidableEq, Repr

structure Method (β : Type) where
  name : Ident
  modifiers : Modifiers
  returnType : TypeRef
  params : List Param
  owner : ClassId
  declaringType : String
  span : Span
  body : Option β

namespace Method

def isVoid {β : Type} (method : Method β) : Bool := method.returnType.text == "void"

def isStatic {β : Type} (method : Method β) : Bool := method.modifiers.isStatic

def mapBody {β γ : Type} (f : β → γ) (method : Method β) : Method γ :=
  { method with body := method.body.map f }

end Method

structure Class (β : Type) where
  kind : TypeKind
  modifiers : Modifiers
  name : String
  qualifiedName : String
  outer : Option ClassId
  fields : List Field
  methods : List (Method β)
  nested : List ClassId
  span : Span
  bodySpan : Span

/-- Whether an instance of the class lives inside an instance of the class around it. -/
def Class.isInner {β : Type} (item : Class β) : Bool :=
  item.outer.isSome && item.kind == .classType && !item.modifiers.isStatic

structure ItemTree (β : Type) where
  package : Option String
  imports : List ImportDecl
  items : List ClassId
  classes : List (Class β)

namespace ItemTree

variable {β : Type}

def methods (tree : ItemTree β) : List (Method β) := tree.classes.flatMap (·.methods)

/-- All methods of a name, in the order of their classes. -/
def methodsNamed (tree : ItemTree β) (name : String) : List (Method β) :=
  tree.methods.filter (·.name.text == name)

/-- The class of a qualified name, or else the first one of that simple name. -/
def classNamed? (tree : ItemTree β) (name : String) : Option ClassId :=
  match tree.classes.findIdx? (·.qualifiedName == name) with
  | some id => some id
  | none => tree.classes.findIdx? (·.name == name)

def chainFrom (tree : ItemTree β) : Nat → ClassId → List ClassId
  | 0,_ => []
  | steps + 1,id =>
    match (tree.classes[id]?).bind (·.outer) with
    | some outer => id :: chainFrom tree steps outer
    | none => [id]

/-- A class and the classes around it, from the inside out. -/
def enclosing (tree : ItemTree β) (id : ClassId) : List ClassId := tree.chainFrom (id + 1) id

end ItemTree
end Transplant
