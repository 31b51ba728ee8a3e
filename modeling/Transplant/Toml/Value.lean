/-! Values of a configuration text, and the rules by which its lines fill tables. -/
namespace Transplant.Toml

/-- How a table came about. `header` tables have a line of their own, `implied` ones only tables
inside them, `dotted` ones are opened by a dotted key, and `inline` ones stand within a line. -/
inductive TableForm where
  | header
  | implied
  | dotted
  | inline
deriving DecidableEq, Repr

/-- Numbers with a fraction, dates and times keep nothing but their kind. -/
inductive Value where
  | string (text : String)
  | integer (number : Int)
  | float
  | boolean (isTrue : Bool)
  | date
  | array (items : List Value)
  | table (form : TableForm) (entries : List (String × Value))
  | tables (items : List (List (String × Value)))
deriving Repr

/-- The entries of a table in the order in which they came. -/
abbrev Entries := List (String × Value)

namespace Entries

def put (entries : Entries) (key : String) (value : Value) : Entries :=
  entries.map fun entry => if entry.1 = key then (key,value) else entry

/-- Changes the table that a header path leads to. Missing tables on the way are implied, an array
of tables stands for its last one. -/
def within (change : Entries → Option Entries) : List String → Entries → Option Entries
  | [],entries => change entries
  | key :: path,entries =>
    match entries.lookup key with
    | none => (within change path []).map fun inner => entries ++ [(key,.table .implied inner)]
    | some (.table .inline _) => none
    | some (.table form inner) =>
      (within change path inner).map fun inner => entries.put key (.table form inner)
    | some (.tables items) =>
      match items.getLast? with
      | none => none
      | some last =>
        (within change path last).map fun last => entries.put key (.tables (items.dropLast ++ [last]))
    | some _ => none

/-- Opens a table by its header. Only an implied table can get its header later; it moves behind
the entries that came before the header. -/
def openTable (key : String) (entries : Entries) : Option Entries :=
  match entries.lookup key with
  | none => some (entries ++ [(key,.table .header [])])
  | some (.table .implied inner) =>
    some (entries.filter (·.1 != key) ++ [(key,.table .header inner)])
  | some _ => none

/-- Adds a table to an array of tables. -/
def openElement (key : String) (entries : Entries) : Option Entries :=
  match entries.lookup key with
  | none => some (entries ++ [(key,.tables [[]])])
  | some (.tables items) => some (entries.put key (.tables (items ++ [[]])))
  | some _ => none

/-- Gives a key its value. The parts of a dotted key before the last open tables of their own; they
may pass through an implied table or an array of tables, but can add nothing directly to these,
which is what `isOpen` denies. -/
def assign (value : Value) (isOpen : Bool) : List String → Entries → Option Entries
  | [],_ => none
  | [key],entries =>
    if isOpen && (entries.lookup key).isNone then some (entries ++ [(key,value)]) else none
  | key :: path,entries =>
    match entries.lookup key with
    | none => (assign value true path []).map fun inner => entries ++ [(key,.table .dotted inner)]
    | some (.table .dotted inner) =>
      (assign value true path inner).map fun inner => entries.put key (.table .dotted inner)
    | some (.table .implied inner) =>
      (assign value false path inner).map fun inner => entries.put key (.table .implied inner)
    | some (.tables items) =>
      match items.getLast? with
      | none => none
      | some last =>
        (assign value false path last).map fun last =>
          entries.put key (.tables (items.dropLast ++ [last]))
    | some _ => none

/-- A table filled by key and value pairs in their order. -/
def ofPairs (pairs : List (List String × Value)) : Option Entries :=
  pairs.foldlM (fun entries pair => assign pair.2 true pair.1 entries) []

end Entries
end Transplant.Toml
