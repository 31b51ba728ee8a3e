import Transplant.Text.Indent
import Transplant.Toml.Document

/-! The settings of a project, read from a configuration text. A section may be written as a table
or as an array of its settings in their order; settings that are not given keep their defaults. -/
namespace Transplant

structure Logging where
  level : String
  json : Bool
deriving DecidableEq, Repr

def Logging.standard : Logging := ⟨"info",false⟩

structure Config where
  formatting : Layout
  logging : Logging
deriving DecidableEq, Repr

def Config.standard : Config := ⟨.standard,.standard⟩

inductive ConfigError where
  | malformed
  | unknownField (name : String) (expected : List String)
deriving DecidableEq, Repr

def ConfigError.message : ConfigError → String
  | malformed => "the text is not a valid configuration"
  | unknownField name expected =>
    s!"unknown field `{name}`, expected " ++
      String.intercalate " or " (expected.map fun field => s!"`{field}`")

/-- A setting by its name, and what storing a value under it makes of a section. -/
structure Setting (α : Type) where
  name : String
  store : Toml.Value → α → Except ConfigError α

namespace Setting

variable {α : Type}

/-- Stores the entries of a table in the order of the text; the first fault is the one reported. -/
def storeEntries (settings : List (Setting α)) (entries : Toml.Entries) (section₀ : α) :
    Except ConfigError α :=
  entries.foldlM (fun filled (name,value) =>
    match settings.find? (·.name == name) with
    | some setting => setting.store value filled
    | none => .error (.unknownField name (settings.map (·.name)))) section₀

def storeItems (settings : List (Setting α)) (items : List Toml.Value) (section₀ : α) :
    Except ConfigError α :=
  (settings.zip items).foldlM (fun filled (setting,value) => setting.store value filled) section₀

/-- The name under which the content of a date shows where a table is expected. -/
def dateEntry : String := "$__toml_private_datetime"

def storeValue (settings : List (Setting α)) (value : Toml.Value) (section₀ : α) :
    Except ConfigError α :=
  match value with
  | .table _ entries => storeEntries settings entries section₀
  | .array items => storeItems settings items section₀
  | .tables items => storeItems settings (items.map (.table .header)) section₀
  | .date => storeEntries settings [(dateEntry,.date)] section₀
  | _ => .error .malformed

end Setting

namespace Config

def storeWidth (set : Nat → Layout → Layout) (value : Toml.Value) (layout : Layout) :
    Except ConfigError Layout :=
  match value with
  | .integer (.ofNat width) => .ok (set width layout)
  | _ => .error .malformed

def formattingSettings : List (Setting Layout) :=
  [⟨"tab_width",storeWidth fun width layout => { layout with tabWidth := width }⟩,
    ⟨"indent_width",storeWidth fun width layout => { layout with indentWidth := width }⟩]

def loggingSettings : List (Setting Logging) :=
  [⟨"level",fun value logging =>
      match value with
      | .string level => .ok { logging with level }
      | _ => .error .malformed⟩,
    ⟨"json",fun value logging =>
      match value with
      | .boolean json => .ok { logging with json }
      | _ => .error .malformed⟩]

def sections : List (Setting Config) :=
  [⟨"formatting",fun value config => do
      return { config with formatting := ← Setting.storeValue formattingSettings value config.formatting }⟩,
    ⟨"logging",fun value config => do
      return { config with logging := ← Setting.storeValue loggingSettings value config.logging }⟩]

def ofText (text : Text) : Except ConfigError Config :=
  match Toml.parse text with
  | none => .error .malformed
  | some entries => Setting.storeEntries sections entries .standard

end Config
end Transplant
