import Transplant.Analysis.Finding
import Transplant.Status

/-! What a method's findings say about its parameters, its local names and whether it can be moved. -/
namespace Transplant

/-- A name of local variables with all places where it is spelled. -/
structure LocalName where
  name : String
  spans : List Span
deriving DecidableEq, Repr

namespace Method

variable (method : Method Body)

def paramUses (index : Nat) : List ParamUse :=
  method.findings.filterMap fun
    | .param found mention => if found = index then some mention else none
    | _ => none

def implicitReceivers : List ImplicitReceiver :=
  method.findings.filterMap fun
    | .receiver found => some found
    | _ => none

def interruptions : List Span :=
  method.findings.filterMap fun
    | .interruption span => some span
    | _ => none

def recursiveCalls : List Span :=
  method.findings.filterMap fun
    | .recursion span => some span
    | _ => none

def superMentions : List Span :=
  method.findings.filterMap fun
    | .superMention span => some span
    | _ => none

def unsupportedStatements : List Span :=
  method.findings.filterMap fun
    | .unsupported span => some span
    | _ => none

def unreadExpressions : List Span :=
  method.findings.filterMap fun
    | .unread span => some span
    | _ => none

def locals : List Local := (method.body.map (·.locals.toList)).getD []

/-- Where the local variables called `name` are declared and used, in the order of the source. -/
def spansOfLocal (name : String) : List Span :=
  let declared := (method.locals.filter (·.name.text == name)).map (·.name.span)
  let used := method.findings.filterMap fun
    | .localVar id span =>
      if (method.locals[id]?).any (·.name.text == name) then some span else none
    | _ => none
  (declared ++ used).mergeSort Span.atMost

/-- The names of local variables in the order of their first declarations. -/
def localNames : List LocalName :=
  (method.locals.map (·.name.text)).eraseDups.map fun name => ⟨name,method.spansOfLocal name⟩

/-- What speaks against moving the method. -/
def activation : Status :=
  let name := method.name.text
  let each := fun severity code message => List.map fun span => Problem.mk severity code message (some span)
  if method.body.isNone then
    [⟨.fatal,"no-body",s!"method `{name}` has no body",some method.name.span⟩]
  else
    each .fatal "recursive-call" s!"method `{name}` calls itself recursively" method.recursiveCalls ++
    each .error "super-reference" "`super` would refer to a different type at the call site"
      method.superMentions ++
    each .error "interrupted-flow" s!"method `{name}` can leave its body before the last statement"
      method.interruptions ++
    each .error "unsupported-statement" "statement cannot be analyzed for control flow"
      method.unsupportedStatements ++
    each .error "unsupported-expression" "expression cannot be analyzed for references"
      method.unreadExpressions

end Method
end Transplant
