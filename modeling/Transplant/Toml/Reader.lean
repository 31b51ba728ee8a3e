import Transplant.Text.Basic

/-! Reading from the front of a text. A reader gives what it has read and the text behind it, or
nothing. Of two readers joined by `<|>` the second starts where the first did. -/
namespace Transplant.Toml

abbrev Reader := StateT Text Option

namespace Reader

def satisfy (keep : Char → Bool) : Reader Char := fun text =>
  match text with
  | c :: rest => if keep c then some (c,rest) else none
  | [] => none

def char (c : Char) : Reader Unit := discard (satisfy (· == c))

def word (expected : Text) : Reader Unit := fun text =>
  if expected.isPrefixOf text then some ((),text.drop expected.length) else none

/-- The characters up to the first one that is not kept. -/
def takeWhile (keep : Char → Bool) : Reader Text := fun text =>
  some (text.takeWhile keep,text.dropWhile keep)

def collect {α : Type} (item : Reader α) : Nat → Reader (List α)
  | 0 => pure []
  | turns + 1 => fun text =>
    match item text with
    | none => some ([],text)
    | some (a,rest) =>
      match collect item turns rest with
      | none => none
      | some (items,rest) => some (a :: items,rest)

/-- All items up to the first that cannot be read. An item takes at least one character, so there
are no more of them than characters. -/
def many {α : Type} (item : Reader α) : Reader (List α) := do
  collect item (← get).length

/-- One item or more, with a separator between each two. A separator that no item follows is left
in the text. -/
def separated {α : Type} (separator : Reader Unit) (item : Reader α) : Reader (List α) := do
  let first ← item
  return first :: (← many (separator *> item))

/-- What a reader makes of a text, all of which it has to take. -/
def whole {α : Type} (reader : Reader α) (text : Text) : Option α :=
  match reader text with
  | some (a,[]) => some a
  | _ => none

end Reader
end Transplant.Toml
