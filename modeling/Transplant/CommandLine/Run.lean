import Transplant.CommandLine.Help
import Transplant.CommandLine.Report

/-! Carrying out a command line. Files are reached through two operations that the caller supplies,
so that a run depends on nothing but its words and what these operations answer. -/
namespace Transplant.CommandLine

structure Output where
  exitCode : Nat
  stdout : Text
  stderr : Text
deriving DecidableEq, Repr

/-- Access to files by their paths. A file that cannot be read answers with the reason. -/
structure Files (m : Type → Type) where
  isFile : String → m Bool
  read : String → m (Except String Text)

def unlines (lines : List Text) : Text := lines.flatMap (· ++ ['\n'])

def unlinesOf (lines : List String) : Text := unlines (lines.map (·.toList))

def Stop.output : Stop → Output
  | usage => ⟨2,[],unlinesOf usageLines⟩
  | help topic => ⟨0,unlinesOf (helpLines topic),[]⟩
  | version => ⟨0,unlinesOf [versionLine],[]⟩

def CommandError.output (error : CommandError) : Output := ⟨2,[],unlinesOf [error.message]⟩

/-- Problems of severity error and above make a run unsuccessful. -/
def exitCodeOf (status : Status) : Nat := if status.hasError then 1 else 0

def BlocksReport.output (request : BlocksRequest) (source : Text) (report : BlocksReport) : Output :=
  if request.target.json then ⟨exitCodeOf report.status,unlines [report.toJson.render],[]⟩
  else ⟨exitCodeOf report.status,unlines report.lines,unlines (statusLines source report.status)⟩

def CheckReport.output (request : CheckRequest) (source : Text) (report : CheckReport) : Output :=
  if request.target.json then ⟨exitCodeOf report.status,unlines [report.toJson.render],[]⟩
  else if report.status.isEmpty then ⟨0,unlinesOf [s!"ok: `{report.method}` can be inlined"],[]⟩
  else ⟨exitCodeOf report.status,[],unlines (statusLines source report.status)⟩

def Request.output (request : Request) (config : Config) (source : Text) : Except CommandError Output :=
  match request with
  | .blocks request =>
    (BlocksReport.ofSource config.formatting request source).map (·.output request source)
  | .check request => (CheckReport.ofSource request source).map (·.output request source)

/-- The parts of a path between its slashes. -/
def segments : Text → List Text
  | [] => [[]]
  | c :: rest =>
    if c = '/' then [] :: segments rest
    else match segments rest with
      | [] => [[c]]
      | first :: others => (c :: first) :: others

/-- The directory in which a file lies. -/
def directoryOf (path : Text) : Text :=
  let isRooted := path.head? == some '/'
  let names := (segments path).filter fun name => name != [] && name != ['.']
  match names.dropLast with
  | [] => if isRooted && !names.isEmpty then ['/'] else ['.']
  | parents => (if isRooted then ['/'] else []) ++ Text.join ['/'] parents

/-- The names under which the configuration of a directory is looked for, the first one first. -/
def configNames : List String := ["splice.toml",".splice.toml"]

def configPaths (file : String) : List String :=
  let directory := String.ofList (directoryOf file.toList)
  configNames.map fun name => if directory = "/" then directory ++ name else s!"{directory}/{name}"

variable {m : Type → Type} [Monad m]

def loadConfig (files : Files m) (path : String) : m (Except String Config) := do
  match ← files.read path with
  | .error reason => return .error s!"failed to read config file {path}: {reason}: {reason}"
  | .ok text =>
    return (Config.ofText text).mapError fun error => s!"failed to parse toml config: {error.message}"

def findFile? (files : Files m) : List String → m (Option String)
  | [] => return none
  | path :: paths => do
    if ← files.isFile path then return some path else findFile? files paths

/-- The configuration named by the command, or else that of the directory of its file. -/
def configOf (files : Files m) (command : Command) : m (Except CommandError Config) := do
  match command.config with
  | some path => return (← loadConfig files path).mapError (.config (some path))
  | none =>
    match ← findFile? files (configPaths command.request.target.file) with
    | some path => return (← loadConfig files path).mapError (.config none)
    | none => return .ok .standard

def Command.run (files : Files m) (command : Command) : m Output := do
  match ← configOf files command with
  | .error error => return error.output
  | .ok config =>
    let path := command.request.target.file
    match ← files.read path with
    | .error reason => return (CommandError.unreadable path reason).output
    | .ok source =>
      match command.request.output config source with
      | .error error => return error.output
      | .ok output => return output

/-- Carries out a command line. -/
def run (files : Files m) (words : List String) : m Output :=
  match Command.ofWords words with
  | .error stop => return stop.output
  | .ok command => command.run files

end Transplant.CommandLine
