import Transplant.Java.Token
import Transplant.Text.Blank
import Transplant.Text.Letter

/-! Cutting Java source into tokens. Blanks and comments between them are passed over; every other
character belongs to a token, if need be to an `unknown` one. Each scanner returns what it took and
the rest. -/
namespace Transplant.Java

open Text (isSpace isAlphabetic isAlphanumeric)

/-- What the gap between two tokens is made of at a given place. -/
inductive Gap where
  | blank
  | lineComment
  | blockComment
deriving DecidableEq, Repr

def isLineEnd (c : Char) : Bool := c == '\n' || c == '\r'

/-- A line comment ends before a line end, a block comment after the first star and slash that
follow its opening, or with the text. -/
def scanGap : Gap → Text → Text × Text
  | .blank,'/' :: '/' :: rest =>
    let (gap,rest) := scanGap .lineComment rest
    ('/' :: '/' :: gap,rest)
  | .blank,'/' :: '*' :: rest =>
    let (gap,rest) := scanGap .blockComment rest
    ('/' :: '*' :: gap,rest)
  | .blockComment,'*' :: '/' :: rest =>
    let (gap,rest) := scanGap .blank rest
    ('*' :: '/' :: gap,rest)
  | mode,c :: rest =>
    let next := if mode = .lineComment && isLineEnd c then .blank else mode
    if mode = .blank && !isSpace c then ([],c :: rest)
    else
      let (gap,rest) := scanGap next rest
      (c :: gap,rest)
  | _,[] => ([],[])

/-- The remainder of a literal after its opening quote. It ends with the closing quote or before a
line end, but a backslash takes the character after it along, whatever that is. -/
def scanQuoted (quote : Char) : Text → Text × Text
  | [] => ([],[])
  | '\\' :: c :: rest =>
    let (taken,rest) := scanQuoted quote rest
    ('\\' :: c :: taken,rest)
  | c :: rest =>
    if isLineEnd c then ([],c :: rest)
    else if c = quote then ([c],rest)
    else
      let (taken,rest) := scanQuoted quote rest
      (c :: taken,rest)

def isIdentStart (c : Char) : Bool := isAlphabetic c || c == '_' || c == '$'

def isIdentPart (c : Char) : Bool := isAlphanumeric c || c == '_' || c == '$'

def isNumberPart (c : Char) : Bool := c.isAlphanum || c == '_'

def scanWhile (keep : Char → Bool) (text : Text) : Text × Text :=
  (text.takeWhile keep,text.dropWhile keep)

/-- A number runs over letters, digits and underscores, and once across a point that a digit
follows. -/
def scanNumber (text : Text) : Text × Text :=
  let (whole,rest) := scanWhile isNumberPart text
  match rest with
  | '.' :: c :: rest =>
    if c.isDigit then
      let (fraction,rest) := scanWhile isNumberPart (c :: rest)
      (whole ++ '.' :: fraction,rest)
    else (whole,'.' :: c :: rest)
  | rest => (whole,rest)

/-- Punctuation, longer spellings first. Two closing angle brackets stay apart, as the ends of
nested type arguments. -/
def symbols : List (Text × Token.Kind) :=
  [(['=','='],.equal),(['!','='],.notEqual),(['<','='],.lessEqual),(['>','='],.greaterEqual),
    (['+','+'],.increment),(['+','='],.plusAssign),(['-','-'],.decrement),(['-','='],.minusAssign),
    (['*','='],.starAssign),(['/','='],.slashAssign),(['%','='],.percentAssign),
    (['&','&'],.ampAmp),(['|','|'],.pipePipe),
    (['{'],.braceOpen),(['}'],.braceClose),(['('],.parenOpen),([')'],.parenClose),
    (['['],.bracketOpen),([']'],.bracketClose),([';'],.semicolon),([','],.comma),(['.'],.dot),
    (['?'],.question),([':'],.colon),(['@'],.atSign),(['^'],.caret),(['='],.assign),(['!'],.bang),
    (['<'],.less),(['>'],.greater),(['+'],.plus),(['-'],.minus),(['*'],.star),(['/'],.slash),
    (['%'],.percent),(['&'],.amp),(['|'],.pipe)]

/-- The kind of the token that begins with `c`, the characters it takes from those after `c`, and
what is left. -/
def scanToken (c : Char) (rest : Text) : Token.Kind × Text × Text :=
  if c = '"' then (.string,scanQuoted c rest)
  else if c = '\'' then (.char,scanQuoted c rest)
  else if c.isDigit then (.number,scanNumber rest)
  else if isIdentStart c then (.ident,scanWhile isIdentPart rest)
  else match symbols.find? fun symbol => symbol.1.isPrefixOf (c :: rest) with
    | some (spelling,kind) => (kind,rest.take (spelling.length - 1),rest.drop (spelling.length - 1))
    | none => (.unknown,[],rest)

theorem scanGap_append (gap : Gap) (text : Text) :
    (scanGap gap text).1 ++ (scanGap gap text).2 = text := by
  fun_induction scanGap gap text <;> simp_all

theorem scanQuoted_append (quote : Char) (text : Text) :
    (scanQuoted quote text).1 ++ (scanQuoted quote text).2 = text := by
  fun_induction scanQuoted quote text <;> simp_all

theorem scanWhile_append (keep : Char → Bool) (text : Text) :
    (scanWhile keep text).1 ++ (scanWhile keep text).2 = text :=
  List.takeWhile_append_dropWhile

theorem scanNumber_append (text : Text) : (scanNumber text).1 ++ (scanNumber text).2 = text := by
  have whole := scanWhile_append isNumberPart text
  simp only [scanNumber]
  split
  · rename_i c rest same
    rw [same] at whole
    split
    · simpa [scanWhile_append] using whole
    · simpa using whole
  · exact whole

theorem scanToken_append (c : Char) (rest : Text) :
    (scanToken c rest).2.1 ++ (scanToken c rest).2.2 = rest := by
  simp only [scanToken]
  split
  · exact scanQuoted_append c rest
  split
  · exact scanQuoted_append c rest
  split
  · exact scanNumber_append rest
  split
  · exact scanWhile_append isIdentPart rest
  split <;> simp

/-- The tokens of a text that begins at byte `start`. -/
def tokensFrom (start : Nat) (text : Text) : List PlacedToken :=
  match _ : scanGap .blank text with
  | (_,[]) => []
  | (blanks,c :: rest) =>
    let scanned := scanToken c rest
    let start := start + blanks.size
    let stop := start + Text.size (c :: scanned.2.1)
    ⟨⟨scanned.1,String.ofList (c :: scanned.2.1)⟩,⟨start,stop⟩⟩ :: tokensFrom stop scanned.2.2
termination_by text.length
decreasing_by
  rename_i gap
  have whole := congrArg List.length (scanGap_append .blank text)
  have part := congrArg List.length (scanToken_append c rest)
  rw [gap] at whole
  simp only [List.length_append,List.length_cons] at whole part
  omega

def tokens (text : Text) : List PlacedToken := tokensFrom 0 text

end Transplant.Java
