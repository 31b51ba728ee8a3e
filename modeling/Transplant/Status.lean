import Transplant.Span

/-! Problems found before a method is moved, collected with their severity. -/
namespace Transplant

inductive Severity where
  | info
  | warning
  | error
  | fatal
deriving DecidableEq, Repr

namespace Severity

def rank : Severity → Nat
  | info => 0
  | warning => 1
  | error => 2
  | fatal => 3

def name : Severity → String
  | info => "info"
  | warning => "warning"
  | error => "error"
  | fatal => "fatal"

def max (first second : Severity) : Severity := if first.rank < second.rank then second else first

end Severity

structure Problem where
  severity : Severity
  code : String
  message : String
  span : Option Span
deriving DecidableEq, Repr

abbrev Status := List Problem

namespace Status

def severity? : Status → Option Severity
  | [] => none
  | problem :: rest => some (rest.foldl (fun worst problem => worst.max problem.severity) problem.severity)

def hasAtLeast (status : Status) (severity : Severity) : Bool :=
  match severity? status with
  | some worst => severity.rank ≤ worst.rank
  | none => false

def hasWarning (status : Status) : Bool := hasAtLeast status .warning

def hasError (status : Status) : Bool := hasAtLeast status .error

def hasFatal (status : Status) : Bool := hasAtLeast status .fatal

/-- The first of the problems that no other exceeds in severity. -/
def worst? (status : Status) : Option Problem :=
  status.find? fun problem => severity? status == some problem.severity

end Status
end Transplant
