import Transplant.Item.Basic

/-! The classes of a compilation unit, with the bodies of their methods as they were read. -/
namespace Transplant

open Java (Block CompilationUnit FieldDecl Member MethodDecl TypeDecl TypeKind)

namespace Outline

def qualify (qualifier name : String) : String :=
  if qualifier.isEmpty then name else qualifier ++ "." ++ name

/-- The fields of interfaces are static. -/
def field (kind : TypeKind) (decl : FieldDecl) : Field :=
  ⟨decl.name,decl.type,decl.modifiers.isStatic || kind == .interfaceType,decl.span⟩

def method (owner : ClassId) (declaringType : String) (decl : MethodDecl) : Method Block :=
  ⟨decl.name,decl.modifiers,decl.returnType,decl.params,owner,declaringType,decl.span,decl.body⟩

def fields (kind : TypeKind) (members : List Member) : List Field :=
  members.filterMap fun
    | .field decl => some (field kind decl)
    | _ => none

def methods (owner : ClassId) (declaringType : String) (members : List Member) :
    List (Method Block) :=
  members.filterMap fun
    | .method decl => some (method owner declaringType decl)
    | _ => none

mutual

/-- A type as class number `id`, followed by the classes inside it. -/
def classesOfType (id : ClassId) (outer : Option ClassId) (qualifier : String) :
    TypeDecl → List (Class Block)
  | ⟨kind,modifiers,name,span,bodySpan,members⟩ =>
    let qualifiedName := qualify qualifier name.text
    let (nested,inside) := classesOfMembers (id + 1) id qualifiedName members
    ⟨kind,modifiers,name.text,qualifiedName,outer,fields kind members,
      methods id qualifiedName members,nested,span,bodySpan⟩ :: inside

def classesOfMember (next : ClassId) (owner : ClassId) (qualifier : String) :
    Member → Option (List (Class Block))
  | .type decl => some (classesOfType next (some owner) qualifier decl)
  | .field _ => none
  | .method _ => none
  | .constructor _ => none
  | .initializer _ => none

/-- The numbers of the types among some members, the next free one being `next`, and their
classes. -/
def classesOfMembers (next : ClassId) (owner : ClassId) (qualifier : String) :
    List Member → List ClassId × List (Class Block)
  | [] => ([],[])
  | member :: rest =>
    match classesOfMember next owner qualifier member with
    | some inside =>
      let (nested,more) := classesOfMembers (next + inside.length) owner qualifier rest
      (next :: nested,inside ++ more)
    | none => classesOfMembers next owner qualifier rest

end

def classesOfTypes (next : ClassId) (qualifier : String) :
    List TypeDecl → List ClassId × List (Class Block)
  | [] => ([],[])
  | decl :: rest =>
    let inside := classesOfType next none qualifier decl
    let (items,more) := classesOfTypes (next + inside.length) qualifier rest
    (next :: items,inside ++ more)

end Outline

def ItemTree.outline (unit : CompilationUnit) : ItemTree Block :=
  let package := unit.package.map (·.name)
  let (items,classes) := Outline.classesOfTypes 0 (package.getD "") unit.types
  ⟨package,unit.imports,items,classes⟩

end Transplant
