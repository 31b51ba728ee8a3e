/-! How a variable is used: not at all, read, written, or both. -/
namespace Transplant

inductive Access where
  | unused
  | read
  | write
  | readWrite
deriving DecidableEq, Repr, Inhabited

namespace Access

def join : Access → Access → Access
  | unused,access => access
  | access,unused => access
  | first,second => if first = second then first else readWrite

def joinAll (accesses : List Access) : Access := accesses.foldl join unused

def name : Access → String
  | unused => "unused"
  | read => "read"
  | write => "write"
  | readWrite => "read_write"

def ofName? : String → Option Access
  | "unused" => some unused
  | "read" => some read
  | "write" => some write
  | "read_write" => some readWrite
  | _ => none

end Access
end Transplant
