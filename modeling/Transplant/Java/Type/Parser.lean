import Transplant.Java.Cursor

/-! Reading names, type references, parameters and modifiers. -/
namespace Transplant.Java.Parser

/-- A dotted name, given as its parts. A dot that no name follows is left. -/
def qualifiedName : Parser (List String) := do
  let first ← expect .ident
  let parts ← many do
    match (← get).rest with
    | dot :: part :: _ =>
      if dot.kind = .dot && part.kind = .ident then
        skip 2
        return some part.text
      else return none
    | _ => return none
  return first.text :: parts

/-- Passes an annotation's name and arguments after its sign. -/
def skipAnnotation : Parser Unit := do
  skip 1
  if ← sees .ident then discard qualifiedName
  skipNested .parenOpen .parenClose

/-- Passes annotations and `final` in front of a variable. -/
def skipVariableModifiers : Parser Unit :=
  repeated (fun _ => do
    if ← sees .atSign then
      skipAnnotation
      return some ()
    else if ← eatWord "final" then return some ()
    else return none) ()

def modifierWords : List String :=
  ["public","protected","private","static","final","abstract","default","synchronized","native",
    "transient","volatile","sealed","strictfp"]

/-- Whether an annotation type is declared here, which begins like an annotation. -/
def seesAnnotationType : Parser Bool := do
  match (← get).rest with
  | sign :: word :: _ => return sign.kind == .atSign && word.isWord "interface"
  | _ => return false

/-- One more modifier. `static` before a brace begins an initializer and `synchronized` before a
parenthesis a statement; the two hyphenated words stand for one. -/
def modifier (modifiers : Modifiers) : Parser (Option Modifiers) := do
  match (← get).rest with
  | [] => return none
  | token :: rest =>
    let follows := fun kind => rest.head?.any (·.kind == kind)
    if token.kind = .atSign then
      if ← seesAnnotationType then return none
      else
        skipAnnotation
        return some modifiers
    else if token.isWord "non" then
      if follows .minus && (rest[1]?).any (·.isWord "sealed") then
        skip 3
        return some modifiers
      else return none
    else if token.kind != .ident || !modifierWords.contains token.text ||
        (token.text == "static" && follows .braceOpen) ||
        (token.text == "synchronized" && follows .parenOpen) then return none
    else
      skip 1
      return some (modifiers.add token.text)

def modifiers : Parser Modifiers := repeated modifier .none

/-- Type arguments are kept token by token, with a blank after each comma and nowhere else. -/
def typeArguments : Parser String := do
  if ← sees .less then
    let tokens := (← get).rest
    let count := nestedLength .less .greater 1 (tokens.drop 1) + 1
    skip count
    return String.join ((tokens.take count).map fun token =>
      if token.kind = .comma then ", " else token.text)
  else return ""

def typeSegment (text : String) : Parser (Option String) := do
  match (← get).rest with
  | dot :: part :: _ =>
    if dot.kind = .dot && part.kind = .ident then
      skip 2
      return some (text ++ "." ++ part.text ++ (← typeArguments))
    else return none
  | _ => return none

def dimension (count : Nat) : Parser (Option Nat) := do
  match (← get).rest with
  | left :: right :: _ =>
    if left.kind = .bracketOpen && right.kind = .bracketClose then
      skip 2
      return some (count + 1)
    else return none
  | _ => return none

/-- Passes empty brackets and counts them. -/
def dimensions : Parser Nat := repeated dimension 0

def typeRef : Parser (Option TypeRef) := do
  if ← sees .ident then
    let start ← nextStart
    let first ← expect .ident
    let text ← repeated typeSegment (first.text ++ (← typeArguments))
    let depth ← dimensions
    return some ⟨text ++ String.join (List.replicate depth "[]"),← spanFrom start⟩
  else return none

/-- A type reference, or an empty one in front of the next token. -/
def typeRefOrEmpty : Parser TypeRef := do
  match ← typeRef with
  | some type => return type
  | none => return ⟨"",.empty (← nextStart)⟩

/-- The three dots of a variable number of arguments belong to the type. -/
def varargs (type : TypeRef) : Parser TypeRef := do
  match (← get).rest with
  | a :: b :: c :: _ =>
    if a.kind = .dot && b.kind = .dot && c.kind = .dot then
      skip 3
      return ⟨type.text ++ "...",← spanFrom type.span.start⟩
    else return type
  | _ => return type

def param : Parser (Option Param) := do
  skipVariableModifiers
  match ← typeRef with
  | none => return none
  | some type =>
    let type ← varargs type
    let name ← expect .ident
    discard dimensions
    return some ⟨type,name,.upTo type.span.start name.span.stop⟩

def paramList : Parser (List Param) := do
  discard (expect .parenOpen)
  let params ← gathered [.parenClose] do
    let param ← param
    discard (eat .comma)
    return param
  discard (expect .parenClose)
  return params

end Transplant.Java.Parser
