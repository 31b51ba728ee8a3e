import Transplant.Text.Line

/-! Values of reports and their text, with two more blanks in front of a line for every level. -/
namespace Transplant

inductive Json where
  | null
  | boolean (isTrue : Bool)
  | number (value : Nat)
  | string (text : Text)
  | array (items : List Json)
  | object (fields : List (String × Json))
deriving Repr

namespace Json

def ofString (text : String) : Json := .string text.toList

def escapedControl (c : Char) : Text :=
  ['\\','u','0','0',Nat.digitChar (c.toNat / 16),Nat.digitChar (c.toNat % 16)]

/-- Quotes, backslashes and control characters are escaped, all others stand for themselves. -/
def escaped (c : Char) : Text :=
  match c with
  | '"' => ['\\','"']
  | '\\' => ['\\','\\']
  | '\x08' => ['\\','b']
  | '\t' => ['\\','t']
  | '\n' => ['\\','n']
  | '\x0c' => ['\\','f']
  | '\r' => ['\\','r']
  | c => if c.toNat < 32 then escapedControl c else [c]

def quoted (text : Text) : Text := '"' :: text.flatMap escaped ++ ['"']

def deeper (indent : Text) : Text := ' ' :: ' ' :: indent

/-- Items on lines of their own between brackets; no items leave the brackets together. -/
def bracketed (opening closing : Char) (indent : Text) (items : List Text) : Text :=
  if items.isEmpty then [opening,closing]
  else
    let lines := items.map fun item => '\n' :: deeper indent ++ item
    opening :: Text.join [','] lines ++ '\n' :: indent ++ [closing]

mutual

def renderAt (indent : Text) : Json → Text
  | null => ['n','u','l','l']
  | boolean true => ['t','r','u','e']
  | boolean false => ['f','a','l','s','e']
  | number value => Nat.toDigits 10 value
  | string text => quoted text
  | array items => bracketed '[' ']' indent (renderItems (deeper indent) items)
  | object fields => bracketed '\x7b' '\x7d' indent (renderFields (deeper indent) fields)

def renderItems (indent : Text) : List Json → List Text
  | [] => []
  | item :: items => renderAt indent item :: renderItems indent items

def renderFields (indent : Text) : List (String × Json) → List Text
  | [] => []
  | (name,value) :: fields =>
    (quoted name.toList ++ [':',' '] ++ renderAt indent value) :: renderFields indent fields

end

def render (json : Json) : Text := renderAt [] json

end Json
end Transplant
