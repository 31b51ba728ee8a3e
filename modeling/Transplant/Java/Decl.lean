import Transplant.Java.Stmt

/-! Declarations of Java source: types with their members, and the whole compilation unit. -/
namespace Transplant.Java

structure PackageDecl where
  name : String
  span : Span
deriving DecidableEq, Repr

structure ImportDecl where
  isStatic : Bool
  isStar : Bool
  path : String
  span : Span
deriving DecidableEq, Repr

inductive TypeKind where
  | classType
  | interfaceType
  | enumType
  | recordType
  | annotationType
deriving DecidableEq, Repr

structure FieldDecl where
  modifiers : Modifiers
  type : TypeRef
  name : Ident
  span : Span

structure MethodDecl where
  modifiers : Modifiers
  returnType : TypeRef
  name : Ident
  params : List Param
  body : Option Block
  span : Span

structure ConstructorDecl where
  modifiers : Modifiers
  name : Ident
  params : List Param
  body : Block
  span : Span

structure InitializerDecl where
  isStatic : Bool
  body : Block
  span : Span

mutual

structure TypeDecl where
  kind : TypeKind
  modifiers : Modifiers
  name : Ident
  span : Span
  bodySpan : Span
  members : List Member

inductive Member where
  | field (decl : FieldDecl)
  | method (decl : MethodDecl)
  | constructor (decl : ConstructorDecl)
  | initializer (decl : InitializerDecl)
  | type (decl : TypeDecl)

end

structure CompilationUnit where
  package : Option PackageDecl
  imports : List ImportDecl
  types : List TypeDecl
  span : Span

def FieldDecl.mapSpans (f : Span → Span) (decl : FieldDecl) : FieldDecl :=
  { decl with type := decl.type.mapSpans f, name := decl.name.mapSpans f, span := f decl.span }

def MethodDecl.mapSpans (f : Span → Span) (decl : MethodDecl) : MethodDecl :=
  { decl with
    returnType := decl.returnType.mapSpans f
    name := decl.name.mapSpans f
    params := decl.params.map (Param.mapSpans f)
    body := decl.body.map (Block.mapSpans f)
    span := f decl.span }

def ConstructorDecl.mapSpans (f : Span → Span) (decl : ConstructorDecl) : ConstructorDecl :=
  { decl with
    name := decl.name.mapSpans f
    params := decl.params.map (Param.mapSpans f)
    body := decl.body.mapSpans f
    span := f decl.span }

def InitializerDecl.mapSpans (f : Span → Span) (decl : InitializerDecl) : InitializerDecl :=
  { decl with body := decl.body.mapSpans f, span := f decl.span }

mutual

def TypeDecl.mapSpans (f : Span → Span) : TypeDecl → TypeDecl
  | ⟨kind,modifiers,name,span,bodySpan,members⟩ =>
    ⟨kind,modifiers,name.mapSpans f,f span,f bodySpan,Member.mapSpansAll f members⟩

def Member.mapSpans (f : Span → Span) : Member → Member
  | .field decl => .field (decl.mapSpans f)
  | .method decl => .method (decl.mapSpans f)
  | .constructor decl => .constructor (decl.mapSpans f)
  | .initializer decl => .initializer (decl.mapSpans f)
  | .type decl => .type (decl.mapSpans f)

def Member.mapSpansAll (f : Span → Span) : List Member → List Member
  | [] => []
  | member :: rest => member.mapSpans f :: Member.mapSpansAll f rest

end

def CompilationUnit.mapSpans (f : Span → Span) (decl : CompilationUnit) : CompilationUnit :=
  { package := decl.package.map fun decl => { decl with span := f decl.span }
    imports := decl.imports.map fun decl => { decl with span := f decl.span }
    types := decl.types.map (TypeDecl.mapSpans f)
    span := f decl.span }

end Transplant.Java
