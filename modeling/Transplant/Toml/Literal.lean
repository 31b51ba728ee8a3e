import Transplant.Toml.Reader
import Transplant.Toml.Value

/-! The spellings of strings, numbers, dates and times. -/
namespace Transplant.Toml

open Reader

def isBlank (c : Char) : Bool := c == ' ' || c == '\t'

/-- Characters that may stand for themselves: all but the control characters, the tab excepted. -/
def isPlain (c : Char) : Bool := c == '\t' || (' ' ≤ c && c != '\x7f')

def isHexDigit (c : Char) : Bool := c.isDigit || ('a' ≤ c.toLower && c.toLower ≤ 'f')

def digitValue (c : Char) : Nat := if c.isDigit then c.toNat - '0'.toNat else c.toLower.toNat + 10 - 'a'.toNat

def numberOf (base : Nat) (digits : Text) : Nat :=
  digits.foldl (fun number c => number * base + digitValue c) 0

def newline : Reader Unit := char '\n' <|> word ['\r','\n']

namespace Literal

def exactly (isDigit : Char → Bool) : Nat → Reader Text
  | 0 => pure []
  | count + 1 => return (← satisfy isDigit) :: (← exactly isDigit count)

def codePoint (width : Nat) : Reader Char := do
  let code := numberOf 16 (← exactly isHexDigit width)
  if code.isValidChar then return Char.ofNat code else failure

/-- What follows the backslash of an escaped character. -/
def escaped : Reader Char := do
  match ← satisfy fun _ => true with
  | 'b' => return '\x08'
  | 't' => return '\t'
  | 'n' => return '\n'
  | 'f' => return '\x0c'
  | 'r' => return '\r'
  | '"' => return '"'
  | '\\' => return '\\'
  | 'u' => codePoint 4
  | 'U' => codePoint 8
  | _ => failure

def basicPlain : Reader Char := satisfy fun c => isPlain c && c != '"' && c != '\\'

def literalPlain : Reader Char := satisfy fun c => isPlain c && c != '\''

def basicString : Reader Text :=
  char '"' *> many (basicPlain <|> (char '\\' *> escaped)) <* char '"'

def literalString : Reader Text := char '\'' *> many literalPlain <* char '\''

/-- A backslash at the end of a line, which takes the blanks and lines up to the next text along. -/
def foldedLine : Reader Unit := do
  char '\\'
  discard (takeWhile isBlank)
  newline
  discard (many (discard (satisfy isBlank) <|> newline))

/-- A quote that does not begin the closing quotes of a string of several lines. -/
def loneQuote (quote : Char) : Reader Text := do
  if [quote,quote,quote].isPrefixOf (← get) then failure
  char quote
  return [quote]

/-- The end of a string of several lines, before which one or two quotes may belong to it. -/
def closingQuotes (quote : Char) : Reader Text :=
  let ending (extra : Nat) : Reader Text := do
    word (List.replicate (extra + 3) quote)
    return List.replicate extra quote
  ending 2 <|> ending 1 <|> ending 0

/-- A string of several lines, whose first line break is left out where the string begins with it. -/
def longString (quote : Char) (piece : Reader Text) : Reader Text := do
  word [quote,quote,quote]
  discard (optional newline)
  let pieces ← many (piece <|> (newline *> pure ['\n']) <|> loneQuote quote)
  return pieces.flatten ++ (← closingQuotes quote)

def basicPiece : Reader Text :=
  (return [← basicPlain]) <|> (foldedLine *> pure []) <|> (char '\\' *> return [← escaped])

def literalPiece : Reader Text := return [← literalPlain]

def string : Reader Text :=
  longString '"' basicPiece <|> basicString <|> longString '\'' literalPiece <|> literalString

/-- Digits, between which single underscores may stand. -/
def grouped (isDigit : Char → Bool) : Reader Text := do
  let first ← satisfy isDigit
  return first :: (← many (optional (char '_') *> satisfy isDigit))

/-- Decimal digits without a leading zero. -/
def wholeDigits : Reader Text := do
  if (← get).head? = some '0' then return [← satisfy Char.isDigit] else grouped Char.isDigit

/-- Whether a minus sign stands here. A plus sign changes nothing. -/
def sign : Reader Bool := (char '-' *> pure true) <|> (char '+' *> pure false) <|> pure false

def based (letter : Char) (base : Nat) (isDigit : Char → Bool) : Reader Int := do
  word ['0',letter]
  return numberOf base (← grouped isDigit)

def decimal : Reader Int := do
  let negative ← sign
  let number := numberOf 10 (← wholeDigits)
  return if negative then -number else number

/-- Integers are words of 64 bits with a sign. -/
def integer : Reader Int := do
  let number ← based 'x' 16 isHexDigit <|>
    based 'o' 8 (fun c => '0' ≤ c && c ≤ '7') <|>
    based 'b' 2 (fun c => c == '0' || c == '1') <|> decimal
  if Int64.minValue.toInt ≤ number && number ≤ Int64.maxValue.toInt then return number else failure

/-- Whether the number with these digits, shifted by `exponent` places, rounds to a finite one of
double precision. It lies below the power of ten with as many places as it has before the point,
and from one power less on. -/
def isFinite (digits : Text) (exponent : Int) : Bool :=
  let digits := digits.dropWhile (· == '0')
  let places := digits.length + exponent
  if digits.isEmpty || places < 300 then true
  else if 320 < places then false
  else
    numberOf 10 digits * Nat.pow 10 exponent.toNat <
      (Nat.pow 2 1024 - Nat.pow 2 970) * Nat.pow 10 (-exponent).toNat

def exponent : Reader Int := do
  discard (satisfy fun c => c == 'e' || c == 'E')
  let negative ← sign
  let number := numberOf 10 (← grouped Char.isDigit)
  return if negative then -number else number

/-- A number with a fraction, an exponent or both. It may be too large only if it is negative. -/
def fractional : Reader Unit := do
  let negative ← sign
  let digits ← wholeDigits
  let fraction ← optional (char '.' *> grouped Char.isDigit)
  let shift ← optional exponent
  if fraction.isNone && shift.isNone then failure
  let fraction := fraction.getD []
  unless negative || isFinite (digits ++ fraction) (shift.getD 0 - fraction.length) do failure

def float : Reader Unit := fractional <|> do
  discard sign
  word ['i','n','f'] <|> word ['n','a','n']

def numberWithin (width low high : Nat) : Reader Nat := do
  let number := numberOf 10 (← exactly Char.isDigit width)
  if low ≤ number && number ≤ high then return number else failure

def isLeapYear (year : Nat) : Bool := year % 4 == 0 && (year % 100 != 0 || year % 400 == 0)

def daysOf (year month : Nat) : Nat :=
  if month = 2 then if isLeapYear year then 29 else 28
  else if month = 4 || month = 6 || month = 9 || month = 11 then 30 else 31

def day : Reader Unit := do
  let year ← numberWithin 4 0 9999
  char '-'
  let month ← numberWithin 2 1 12
  char '-'
  discard (numberWithin 2 1 (daysOf year month))

def hourAndMinute : Reader Unit := do
  discard (numberWithin 2 0 23)
  char ':'
  discard (numberWithin 2 0 59)

/-- A time of day, which may count a leap second. -/
def time : Reader Unit := do
  hourAndMinute
  char ':'
  discard (numberWithin 2 0 60)
  discard (optional (char '.' *> satisfy Char.isDigit *> takeWhile Char.isDigit))

def zone : Reader Unit :=
  discard (satisfy fun c => c == 'Z' || c == 'z') <|>
    (satisfy (fun c => c == '+' || c == '-') *> hourAndMinute)

/-- A day, a time, or both with or without a zone. -/
def date : Reader Unit :=
  (do
    day
    discard (optional do
      discard (satisfy fun c => c == 'T' || c == 't' || c == ' ')
      time
      discard (optional zone))) <|> time

def boolean : Reader Bool :=
  (word ['t','r','u','e'] *> pure true) <|> (word ['f','a','l','s','e'] *> pure false)

end Literal

def scalar : Reader Value :=
  (return .string (String.ofList (← Literal.string))) <|> (Literal.date *> pure .date) <|>
    (Literal.float *> pure .float) <|> .integer <$> Literal.integer <|> .boolean <$> Literal.boolean

end Transplant.Toml
