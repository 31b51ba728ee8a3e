import Transplant.Block
import Transplant.Donor.Basic
import Transplant.Edit.Log
import Transplant.Import

/-! The body of a method rewritten for one call: parameters become arguments, what relied on the
method's own instance or class is reached through the receiver, and local names that the caller
uses already are changed. -/
namespace Transplant

structure CallSite where
  arguments : List Text
  receiver : Option Text
  receiverIsStatic : Bool
  usedNames : List String
  mode : CallMode
deriving Repr

inductive TransplantError where
  | notPrepared
  | argumentCount (expected given : Nat)
  | reversedSpan
  | noBody (method : String)
  | edit (error : EditError)
deriving DecidableEq, Repr

def TransplantError.message : TransplantError → String
  | notPrepared => "the method is not prepared"
  | argumentCount expected given => s!"expected {expected} arguments, got {given}"
  | reversedSpan => "a span ends before it starts"
  | noBody method => s!"method `{method}` has no body"
  | edit error => error.message

namespace Donor

variable (donor : Donor)

def argumentRewrites (arguments : List Text) : RewriteLog :=
  (donor.parameters.zip arguments).flatMap fun (parameter,argument) =>
    parameter.uses.map fun mention => .replace mention.span argument

/-- A static member is reached through its type unless the receiver is a type itself. -/
def receiverRewrite (receiver : Text) (receiverIsStatic : Bool) (found : ImplicitReceiver)
    (imports : Imports) : Rewrite × Imports :=
  if found.kind = .this then (.replace found.span receiver,imports)
  else if found.kind.isStatic && !receiverIsStatic then
    let (name,imports) := imports.add found.declaringType
    (.insert found.span.start (name.toList ++ ['.']),imports)
  else (.insert found.span.start (receiver ++ ['.']),imports)

def receiverRewritesFrom (receiver : Text) (receiverIsStatic : Bool) :
    List ImplicitReceiver → Imports → RewriteLog × Imports
  | [],imports => ([],imports)
  | found :: rest,imports =>
    let (rewrite,imports) := receiverRewrite receiver receiverIsStatic found imports
    let (log,imports) := receiverRewritesFrom receiver receiverIsStatic rest imports
    (rewrite :: log,imports)

def receiverRewrites (site : CallSite) (imports : Imports) : RewriteLog × Imports :=
  match site.receiver with
  | none => ([],imports)
  | some receiver =>
    receiverRewritesFrom receiver site.receiverIsStatic donor.method.implicitReceivers imports

/-- The name with the smallest number from `suffix` on that is not taken. There is one among as
many numbers as there are taken names and one more. -/
def freshFrom (taken : List String) (name : String) : Nat → Nat → String
  | 0,suffix => name ++ toString suffix
  | tries + 1,suffix =>
    let candidate := name ++ toString suffix
    if taken.contains candidate then freshFrom taken name tries (suffix + 1) else candidate

def freshName (taken : List String) (name : String) : String := freshFrom taken name taken.length 1

/-- New names for those of `names` that the caller uses, each unlike all names taken before. -/
def renamings (callerNames : List String) : List String → List String → List (String × String)
  | _,[] => []
  | taken,name :: rest =>
    if callerNames.contains name then
      let fresh := freshName taken name
      (name,fresh) :: renamings callerNames (fresh :: taken) rest
    else renamings callerNames taken rest

def renameRewrites (callerNames : List String) : RewriteLog :=
  let names := donor.method.localNames.map (·.name)
  (renamings callerNames (callerNames ++ names) names).flatMap fun (name,fresh) =>
    (donor.method.spansOfLocal name).map fun span => .replace span fresh.toList

/-- The rewritten parts of the body as blocks of lines, and the imports that they need. -/
def blocks (site : CallSite) (imports : Imports) : Except TransplantError (List Text) × Imports :=
  if !donor.isPrepared then (.error .notPrepared,imports)
  else if site.arguments.length ≠ donor.method.params.length then
    (.error (.argumentCount donor.method.params.length site.arguments.length),imports)
  else match donor.method.body with
    | none => (.error (.noBody donor.method.name.text),imports)
    | some body =>
      let (receiverLog,imports) := donor.receiverRewrites site imports
      let log := donor.argumentRewrites site.arguments ++ receiverLog ++
        donor.renameRewrites site.usedNames
      (cut body log,imports)
where
  cut (body : Body) (log : RewriteLog) : Except TransplantError (List Text) :=
    match body.selectSpans donor.hasReturnValue site.mode with
    | none => .error .reversedSpan
    | some spans =>
      (do
        let outcome ← donor.source.perform (RewriteLog.markers log spans)
        Block.extractAll donor.layout outcome.snapshot outcome.spans).mapError .edit

end Donor
end Transplant
