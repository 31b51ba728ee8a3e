import Transplant.CommandLine.Arguments
import Transplant.Config
import Transplant.Donor.Blocks
import Transplant.Item.Source
import Transplant.Json

/-! What a command finds out about a method, and how it is told as lines or as one value. -/
namespace Transplant.CommandLine

inductive CommandError where
  | config (path : Option String) (cause : String)
  | unreadable (path : String) (cause : String)
  | noMethod (name file : String)
  | argumentCount (name : String) (expected given : Nat)
  | noOverload (name : String) (given : Nat)
  | ambiguous (name : String) (overloads : Nat)
  | transplant (error : TransplantError)
deriving DecidableEq, Repr

def CommandError.message : CommandError → String
  | config none cause => s!"failed to load config: {cause}"
  | config (some path) cause => s!"failed to load config {path}: {cause}"
  | unreadable path cause => s!"failed to read {path}: {cause}"
  | noMethod name file => s!"no method `{name}` in {file}"
  | argumentCount name expected given => s!"method `{name}` takes {expected} argument(s), got {given}"
  | noOverload name given => s!"no overload of `{name}` takes {given} argument(s)"
  | ambiguous name overloads =>
    s!"method `{name}` has {overloads} overloads; pass --params to pick one"
  | transplant error => error.message

/-- The method that a command is about. Of several with the name the first with the right number of
parameters is meant. -/
def selectMethod {β : Type} (tree : ItemTree β) (target : Target) (arity : Option Nat) :
    Except CommandError (Method β) :=
  match tree.methodsNamed target.method,arity with
  | [],_ => .error (.noMethod target.method target.file)
  | [method],none => .ok method
  | methods,none => .error (.ambiguous target.method methods.length)
  | first :: others,some arity =>
    match (first :: others).find? (·.params.length == arity) with
    | some method => .ok method
    | none =>
      if others.isEmpty then .error (.argumentCount first.name.text first.params.length arity)
      else .error (.noOverload target.method arity)

structure BlocksReport where
  method : String
  blocks : List Text
  imports : List String
  hasReturnValue : Bool
  mustEvaluateReturnValue : Bool
  needsParentheses : Bool
  receivers : Nat
  status : Status
deriving DecidableEq, Repr

structure CheckReport where
  method : String
  status : Status
deriving DecidableEq, Repr

def BlocksRequest.callSite (request : BlocksRequest) : CallSite :=
  ⟨request.arguments.map (·.toList),request.receiver.map (·.toList),request.receiverIsStatic,
    request.usedNames,request.mode⟩

/-- The blocks for a call, and none when the method cannot be moved at all. -/
def BlocksReport.ofSource (layout : Layout) (request : BlocksRequest) (source : Text) :
    Except CommandError BlocksReport := do
  let method ← selectMethod (.ofText source) request.target (some request.arguments.length)
  let donor := (Donor.ofMethod source method layout).prepare
  let status := method.activation
  let imports := Imports.empty request.package
  let (blocks,imports) :=
    if status.hasFatal then (.ok [],imports) else donor.blocks request.callSite imports
  return {
    method := method.name.text
    blocks := ← blocks.mapError .transplant
    imports := imports.names
    hasReturnValue := donor.hasReturnValue
    mustEvaluateReturnValue := donor.mustEvaluateReturnValue
    needsParentheses := donor.needsParentheses
    receivers := method.implicitReceivers.length
    status }

def CheckReport.ofSource (request : CheckRequest) (source : Text) : Except CommandError CheckReport := do
  let method ← selectMethod (.ofText source) request.target request.params
  return ⟨method.name.text,method.activation⟩

/-! Reports as values. -/

def jsonOfSpan (span : Span) : Json := .array [.number span.start,.number span.stop]

def jsonOfProblem (problem : Problem) : Json :=
  .object [("severity",.ofString problem.severity.name),("code",.ofString problem.code),
    ("message",.ofString problem.message),("range",(problem.span.map jsonOfSpan).getD .null)]

def jsonOfStatus (status : Status) : Json := .object [("entries",.array (status.map jsonOfProblem))]

def BlocksReport.toJson (report : BlocksReport) : Json :=
  .object [("method",.ofString report.method),("blocks",.array (report.blocks.map .string)),
    ("imports",.array (report.imports.map .ofString)),
    ("has_return_value",.boolean report.hasReturnValue),
    ("must_evaluate_return_value",.boolean report.mustEvaluateReturnValue),
    ("needs_returned_expression_parenthesis",.boolean report.needsParentheses),
    ("receivers_to_be_updated",.number report.receivers),("status",jsonOfStatus report.status)]

def CheckReport.toJson (report : CheckReport) : Json :=
  .object [("method",.ofString report.method),("status",jsonOfStatus report.status)]

/-! Reports as lines. Positions count from one. -/

def problemLine (table : LineTable) (problem : Problem) : Text :=
  let place := match problem.span with
    | some span =>
      let position := table.position span.start
      s!" (at {position.line + 1}:{position.column + 1})"
    | none => ""
  s!"{problem.severity.name}[{problem.code}]: {problem.message}{place}".toList

def statusLines (source : Text) (status : Status) : List Text :=
  status.map (problemLine (.ofText source))

def BlocksReport.lines (report : BlocksReport) : List Text :=
  report.imports.map (fun name => s!"import {name};".toList) ++
    report.blocks.intersperse ['-','-','-']

end Transplant.CommandLine
