import Transplant.Java.Decl
import Transplant.Java.Stmt.Parser

/-! Reading declarations and whole compilation units. Types inside types are read level by level,
like statements. -/
namespace Transplant.Java

open Token (Kind)

namespace MemberLevel

open Java.Parser

/-- Passes one constant of an enumeration, or what stands in its place; `none` at their end. -/
def enumConstant : Parser (Option Unit) := do
  if ← eat .semicolon then return none
  else
    let cursor ← get
    if cursor.atEnd || cursor.sees .braceClose then return none
    else
      discard modifiers
      if ← eat .ident then
        skipNested .parenOpen .parenClose
        skipNested .braceOpen .braceClose
        discard (eat .comma)
        return some ()
      else
        skip 1
        return some ()

/-- The kind of type whose declaration begins here, behind its modifiers, and the number of tokens
that say so. -/
def typeKind? (cursor : Cursor) : Option (TypeKind × Nat) :=
  if cursor.sees .atSign && (cursor.skip 1).seesWord "interface" then some (.annotationType,2)
  else if cursor.seesWord "class" then some (.classType,1)
  else if cursor.seesWord "interface" then some (.interfaceType,1)
  else if cursor.seesWord "enum" then some (.enumType,1)
  else if cursor.seesWord "record" && (cursor.skip 1).sees .ident then some (.recordType,1)
  else none

/-- Among members `record` begins a type only with a name and a parenthesis behind it. -/
def seesMemberType (cursor : Cursor) : Bool :=
  (typeKind? cursor).isSome &&
    (!cursor.seesWord "record" || ((cursor.skip 1).skip 1).sees .parenOpen)

/-- Passes to the end of a method's header. -/
def skipThrows : Parser Unit := do
  if ← eatWord "throws" then skipWhile fun kind => kind != .braceOpen && kind != .semicolon

variable (inner : String → Parser (Option Member))

/-- A type declaration; nothing is passed when none begins here. -/
def typeDecl : Parser (Option TypeDecl) := do
  let before ← get
  let flags ← modifiers
  match typeKind? (← get) with
  | none =>
    set before
    return none
  | some (kind,words) =>
    skip words
    let name ← expect .ident
    skipWhile (· != .braceOpen)
    let brace ← expect .braceOpen
    if kind = .enumType then repeated (fun _ => enumConstant) ()
    let members ← gathered [.braceClose] (inner name.text)
    discard (expect .braceClose)
    let body ← spanFrom brace.span.start
    return some ⟨kind,flags,name,.upTo before.nextStart body.stop,body,members⟩

def initializer (start : Nat) (isStatic : Bool) : Parser Member := do
  let body ← Parser.block
  return .initializer ⟨isStatic,body,.upTo start body.span.stop⟩

def constructor (start : Nat) (flags : Modifiers) : Parser Member := do
  let name ← expect .ident
  let params ← paramList
  skipThrows
  let body ← Parser.block
  return .constructor ⟨flags,name,params,body,.upTo start body.span.stop⟩

/-- A method behind its name. Without a body it ends with a semicolon, maybe behind a default
value. -/
def method (start : Nat) (flags : Modifiers) (type : TypeRef) (name : Ident) : Parser Member := do
  let params ← paramList
  discard dimensions
  skipThrows
  if ← sees .braceOpen then
    let body ← Parser.block
    return .method ⟨flags,type,name,params,some body,.upTo start body.span.stop⟩
  else
    skipStatement
    discard (expect .semicolon)
    return .method ⟨flags,type,name,params,none,← spanFrom start⟩

/-- A field up to its semicolon. Its value is passed over, and with it any further fields. -/
def field (start : Nat) (flags : Modifiers) (type : TypeRef) (name : Ident) : Parser Member := do
  skipStatement
  discard (expect .semicolon)
  return .field ⟨flags,type,name,← spanFrom start⟩

/-- A member of the type named `owner`. -/
def member (owner : String) : Parser (Option Member) := do
  let before ← get
  let start := before.nextStart
  if before.atEnd then return none
  else
    let flags ← modifiers
    let cursor ← get
    if cursor.seesWord "static" && (cursor.skip 1).sees .braceOpen then
      skip 1
      return some (← initializer start true)
    else if cursor.sees .braceOpen then return some (← initializer start false)
    else if seesMemberType cursor then
      match ← typeDecl inner with
      | some decl =>
        return some (.type { decl with modifiers := flags, span := .upTo start decl.span.stop })
      | none => return none
    else
      skipNested .less .greater
      let head ← get
      if head.sees .ident && (head.skip 1).sees .parenOpen && head.next?.any (·.text == owner) then
        return some (← constructor start flags)
      else
        match ← typeRef with
        | none => return none
        | some type =>
          let name ← expect .ident
          if ← sees .parenOpen then return some (← method start flags type name)
          else return some (← field start flags type name)

def reader : Nat → String → Parser (Option Member)
  | 0 => fun _ => pure none
  | depth + 1 => member fun owner cursor => reader depth owner cursor

end MemberLevel

namespace Parser

def member (owner : String) : Parser (Option Member) := bounded fun turns => MemberLevel.reader turns owner

def typeDecl : Parser (Option TypeDecl) := MemberLevel.typeDecl member

def packageDecl : Parser (Option PackageDecl) := do
  let start ← nextStart
  if ← eatWord "package" then
    let parts ← qualifiedName
    discard (expect .semicolon)
    return some ⟨String.intercalate "." parts,← spanFrom start⟩
  else return none

/-- One more part of an imported path; a star is the last. -/
def importPart (path : List String × Bool) : Parser (Option (List String × Bool)) := do
  if path.2 then return none
  else if ← eat .dot then
    if ← eat .star then return some (path.1,true)
    else return some (path.1 ++ [(← expect .ident).text],false)
  else return none

def importDecl : Parser (Option ImportDecl) := do
  let start ← nextStart
  if ← eatWord "import" then
    let isStatic ← eatWord "static"
    let first ← expect .ident
    let (parts,isStar) ← repeated importPart ([first.text],false)
    discard (expect .semicolon)
    return some ⟨isStatic,isStar,String.intercalate "." parts,← spanFrom start⟩
  else return none

/-- A whole file. Tokens that begin no type are passed over. -/
def compilationUnit : Parser CompilationUnit := do
  let package ← packageDecl
  let imports ← many importDecl
  let types ← gathered [] typeDecl
  return ⟨package,imports,types,⟨0,← nextStart⟩⟩

end Parser
end Transplant.Java
