/-! Imports requested on the way, and the names by which the imported types are called. -/
namespace Transplant

structure Imports where
  package : Option String
  names : List String
deriving DecidableEq, Repr, Inhabited

/-- A dotted name parted at its last dot. -/
def Imports.splitName? (name : String) : Option (String × String) :=
  let letters := name.toList.reverse
  match letters.dropWhile (· != '.') with
  | [] => none
  | _ :: package => some (String.ofList package.reverse,String.ofList (letters.takeWhile (· != '.')).reverse)

namespace Imports

def empty (package : Option String) : Imports := ⟨package,[]⟩

def lastSegment (name : String) : String := ((splitName? name).map (·.2)).getD name

/-- Types of `java.lang` and of the own package are visible without an import. -/
def isVisible (imports : Imports) (package : String) : Bool :=
  package == "java.lang" || imports.package == some package

/-- The name by which a type can be called, and the imports this takes. A simple name that a
recorded import of another type has taken leaves only the full name. -/
def add (imports : Imports) (name : String) : String × Imports :=
  match splitName? name with
  | none => (name,imports)
  | some (package,simple) =>
    if imports.names.contains name then (simple,imports)
    else if imports.names.any (lastSegment · == simple) then (name,imports)
    else if imports.isVisible package then (simple,imports)
    else (simple,{ imports with names := imports.names ++ [name] })

end Imports
end Transplant
