import Transplant.Span

/-! Names and type references of Java source, with the spans they take up. -/
namespace Transplant.Java

/-- A name where it stands; empty in text and span when it is missing. -/
structure Ident where
  text : String
  span : Span
deriving DecidableEq, Repr

structure TypeRef where
  text : String
  span : Span
deriving DecidableEq, Repr

structure Param where
  type : TypeRef
  name : Ident
  span : Span
deriving DecidableEq, Repr

structure Modifiers where
  isPublic : Bool
  isProtected : Bool
  isPrivate : Bool
  isStatic : Bool
  isFinal : Bool
  isAbstract : Bool
  isNative : Bool
  isSynchronized : Bool
  isDefault : Bool
deriving DecidableEq, Repr

namespace Modifiers

def none : Modifiers := ⟨false,false,false,false,false,false,false,false,false⟩

/-- Records a modifier word; words that set no flag are accepted as well. -/
def add (modifiers : Modifiers) : String → Modifiers
  | "public" => { modifiers with isPublic := true }
  | "protected" => { modifiers with isProtected := true }
  | "private" => { modifiers with isPrivate := true }
  | "static" => { modifiers with isStatic := true }
  | "final" => { modifiers with isFinal := true }
  | "abstract" => { modifiers with isAbstract := true }
  | "native" => { modifiers with isNative := true }
  | "synchronized" => { modifiers with isSynchronized := true }
  | "default" => { modifiers with isDefault := true }
  | _ => modifiers

/-- The words of the flags that are set. -/
def words (modifiers : Modifiers) : List String :=
  [(modifiers.isPublic,"public"),(modifiers.isProtected,"protected"),
    (modifiers.isPrivate,"private"),(modifiers.isStatic,"static"),(modifiers.isFinal,"final"),
    (modifiers.isAbstract,"abstract"),(modifiers.isNative,"native"),
    (modifiers.isSynchronized,"synchronized"),(modifiers.isDefault,"default")].filterMap
    fun flag => if flag.1 then some flag.2 else Option.none

end Modifiers

def Ident.mapSpans (f : Span → Span) (ident : Ident) : Ident := ⟨ident.text,f ident.span⟩

def TypeRef.mapSpans (f : Span → Span) (type : TypeRef) : TypeRef := ⟨type.text,f type.span⟩

def Param.mapSpans (f : Span → Span) (param : Param) : Param :=
  ⟨param.type.mapSpans f,param.name.mapSpans f,f param.span⟩

end Transplant.Java
