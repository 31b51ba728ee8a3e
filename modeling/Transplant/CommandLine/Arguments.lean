import Transplant.Donor.Range

/-! The words of a command line. They are read one by one: each is an option, the value of the
option before it, the name of the command, or the file that the command is about. -/
namespace Transplant.CommandLine

inductive Verb where
  | blocks
  | check
  | help
deriving DecidableEq, Repr

def Verb.all : List (String × Verb) := [("blocks",.blocks),("check",.check),("help",.help)]

structure Target where
  file : String
  method : String
  json : Bool
deriving DecidableEq, Repr

structure BlocksRequest where
  target : Target
  arguments : List String
  receiver : Option String
  receiverIsStatic : Bool
  usedNames : List String
  mode : CallMode
  package : Option String
deriving DecidableEq, Repr

structure CheckRequest where
  target : Target
  params : Option Nat
deriving DecidableEq, Repr

inductive Request where
  | blocks (request : BlocksRequest)
  | check (request : CheckRequest)
deriving DecidableEq, Repr

def Request.target : Request → Target
  | blocks request => request.target
  | check request => request.target

structure Command where
  config : Option String
  request : Request
deriving DecidableEq, Repr

/-- Why no command is carried out. Help and version are answered where they are met, whatever may
follow. -/
inductive Stop where
  | usage
  | help (topic : Option Verb)
  | version
deriving DecidableEq, Repr

structure OptionRule where
  name : String
  hasValue : Bool
  mayRepeat : Bool
  /-- Whether a value may begin with a hyphen. -/
  takesAnyWord : Bool
  accepts : String → Bool

namespace OptionRule

def flag (name : String) : OptionRule := ⟨name,false,false,false,fun _ => true⟩

def single (name : String) (accepts : String → Bool) : OptionRule := ⟨name,true,false,false,accepts⟩

def several (name : String) (takesAnyWord : Bool) : OptionRule :=
  ⟨name,true,true,takesAnyWord,fun _ => true⟩

end OptionRule

def modes : List (String × CallMode) := [("statement",.statement),("expression",.expression)]

/-- A number in decimal digits, with or without a plus sign, that fits into a word of 64 bits. -/
def count? (word : String) : Option Nat :=
  let digits := match word.toList with
    | '+' :: rest => rest
    | letters => letters
  if digits.isEmpty || !digits.all Char.isDigit then none
  else
    let number := digits.foldl (fun number c => number * 10 + (c.toNat - '0'.toNat)) 0
    if number < UInt64.size then some number else none

def configRule : OptionRule := .single "config" fun path => !path.isEmpty

def targetRules : List OptionRule := [.single "method" fun _ => true,.flag "json",configRule]

def rulesOf : Option Verb → List OptionRule
  | none => [configRule]
  | some .help => []
  | some .check => .single "params" (fun word => (count? word).isSome) :: targetRules
  | some .blocks =>
    [.several "arg" true,.single "receiver" fun _ => true,.flag "receiver-static",
      .several "used-name" false,.single "mode" fun word => (modes.lookup word).isSome,
      .single "package" fun _ => true] ++ targetRules

inductive Word where
  | plain
  | separator
  | long (name : String) (value : Option String)
  | short (letter : Char)
deriving DecidableEq, Repr

/-- What a word looks like. A long option may bring its value behind an equals sign. -/
def Word.ofString (word : String) : Word :=
  match word.toList with
  | ['-','-'] => separator
  | '-' :: '-' :: rest =>
    match rest.dropWhile (· != '=') with
    | [] => long (String.ofList rest) none
    | _ :: value => long (String.ofList (rest.takeWhile (· != '='))) (some (String.ofList value))
  | '-' :: letter :: _ => short letter
  | _ => plain

/-- What the words so far have given. `pending` waits for its value, and `held` has it as a word of
its own, which is looked at when the next option or file comes. `outer` is what stood before the
name of the command, or the fault in it, which counts after all that follows the name. After a
separator all words are plain. -/
structure Reading where
  verb : Option Verb
  outer : Except Stop (List (String × String))
  given : List (String × String)
  file : Option String
  pending : Option OptionRule
  held : Option (OptionRule × String)
  isSeparated : Bool

namespace Reading

def start : Reading := ⟨none,.ok [],[],none,none,none,false⟩

/-- Records an option. Only some may be given more than once. -/
def give (reading : Reading) (rule : OptionRule) (value : String) : Except Stop Reading :=
  if rule.accepts value && (rule.mayRepeat || (reading.given.lookup rule.name).isNone) then
    .ok { reading with given := reading.given ++ [(rule.name,value)] }
  else .error .usage

/-- Records the option that is held. -/
def settle (reading : Reading) : Except Stop Reading :=
  match reading.held with
  | some (rule,value) => { reading with held := none }.give rule value
  | none => .ok reading

def takeLong (reading : Reading) (name : String) (value : Option String) : Except Stop Reading :=
  match (rulesOf reading.verb).find? (·.name == name),value with
  | some rule,some value => if rule.hasValue then reading.give rule value else .error .usage
  | some rule,none =>
    if rule.hasValue then .ok { reading with pending := some rule } else reading.give rule ""
  | none,some _ => .error .usage
  | none,none =>
    if name = "help" then .error (.help reading.verb)
    else if name = "version" && reading.verb.isNone then .error .version
    else .error .usage

def takeShort (reading : Reading) (letter : Char) : Except Stop Reading :=
  if letter = 'h' then .error (.help reading.verb)
  else if letter = 'V' && reading.verb.isNone then .error .version
  else .error .usage

/-- The name of a command leaves what is held unsettled for the time being. -/
def takeVerb (reading : Reading) (verb : Verb) : Reading :=
  { reading with
    verb := some verb
    outer := reading.settle.map (·.given)
    given := []
    held := none }

def takeFile (reading : Reading) (word : String) : Except Stop Reading :=
  if reading.file.isSome || word.isEmpty then .error .usage
  else .ok { reading with file := some word }

def takePlain (reading : Reading) (word : String) : Except Stop Reading :=
  match reading.verb,Verb.all.lookup word with
  | none,some verb => if reading.isSeparated then .error .usage else .ok (reading.takeVerb verb)
  | none,none => .error .usage
  | some _,_ => do (← reading.settle).takeFile word

def takeWord (reading : Reading) (word : String) : Except Stop Reading :=
  let shape := Word.ofString word
  if reading.verb = some .help then
    if (Verb.all.lookup word).isSome then reading.takeFile word else .error .usage
  else match reading.pending with
    | some rule =>
      if rule.takesAnyWord || shape = .plain then
        .ok { reading with pending := none, held := some (rule,word) }
      else .error .usage
    | none =>
      if reading.isSeparated then reading.takePlain word
      else match shape with
        | .plain => reading.takePlain word
        | .separator => .ok { reading with isSeparated := true }
        | .long name value => do (← reading.settle).takeLong name value
        | .short letter => do (← reading.settle).takeShort letter

def value? (reading : Reading) (name : String) : Option String := reading.given.lookup name

def values (reading : Reading) (name : String) : List String :=
  (reading.given.filter (·.1 == name)).map (·.2)

def isGiven (reading : Reading) (name : String) : Bool := (reading.value? name).isSome

/-- The inner one of two configurations counts. -/
def config (reading : Reading) (outer : List (String × String)) : Option String :=
  (reading.value? "config").or (outer.lookup "config")

def target? (reading : Reading) : Option Target :=
  match reading.file,reading.value? "method" with
  | some file,some method => some ⟨file,method,reading.isGiven "json"⟩
  | _,_ => none

def blocks? (reading : Reading) (target : Target) : Option BlocksRequest :=
  if reading.isGiven "receiver-static" && !reading.isGiven "receiver" then none
  else some {
    target
    arguments := reading.values "arg"
    receiver := reading.value? "receiver"
    receiverIsStatic := reading.isGiven "receiver-static"
    usedNames := reading.values "used-name"
    mode := ((reading.value? "mode").bind (modes.lookup ·)).getD .statement
    package := reading.value? "package" }

def check (reading : Reading) (target : Target) : CheckRequest :=
  ⟨target,(reading.value? "params").bind count?⟩

def request? (reading : Reading) (verb : Verb) : Option Request := do
  if reading.pending.isSome then none
  let target ← reading.target?
  match verb with
  | .blocks => .blocks <$> reading.blocks? target
  | .check => some (.check (reading.check target))
  | .help => none

def finish (reading : Reading) : Except Stop Command :=
  match reading.verb with
  | none => .error .usage
  | some .help => .error (.help (reading.file.bind (Verb.all.lookup ·)))
  | some verb => do
    let settled ← reading.settle
    let outer ← reading.outer
    match settled.request? verb with
    | some request => .ok ⟨settled.config outer,request⟩
    | none => .error .usage

end Reading

/-- The command that some words ask for. -/
def Command.ofWords (words : List String) : Except Stop Command := do
  (← words.foldlM Reading.takeWord .start).finish

end Transplant.CommandLine
