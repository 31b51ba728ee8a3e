import Transplant.CommandLine.Run

/-! The program: files of the system, its output streams, and its exit code. -/
namespace Transplant.CommandLine

/-- A failed system call by its description and number. -/
def reasonOf : IO.Error → String
  | .noFileOrDirectory _ code details => s!"{details} (os error {code})"
  | .permissionDenied _ code details => s!"{details} (os error {code})"
  | .inappropriateType _ code details => s!"{details} (os error {code})"
  | .invalidArgument _ code details => s!"{details} (os error {code})"
  | .resourceExhausted _ code details => s!"{details} (os error {code})"
  | .otherError code details => s!"{details} (os error {code})"
  | error => toString error

def systemFiles : Files IO where
  isFile path := do
    match ← (IO.FS.readBinFile path).toBaseIO with
    | .ok _ => return true
    | .error _ => return false
  read path := do
    match ← (IO.FS.readBinFile path).toBaseIO with
    | .error error => return .error (reasonOf error)
    | .ok bytes =>
      match String.fromUTF8? bytes with
      | some text => return .ok text.toList
      | none => return .error "stream did not contain valid UTF-8"

end Transplant.CommandLine

def main (words : List String) : IO UInt32 := do
  let output ← Transplant.CommandLine.run Transplant.CommandLine.systemFiles words
  IO.print (String.ofList output.stdout)
  IO.eprint (String.ofList output.stderr)
  return output.exitCode.toUInt32
