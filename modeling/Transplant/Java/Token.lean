import Transplant.Span

/-! Tokens of Java source. A token is its kind and its spelling; where it stands is kept beside it,
so that whatever is read from tokens alone cannot depend on the layout of the source. -/
namespace Transplant.Java

inductive Token.Kind where
  | ident
  | number
  | string
  | char
  | atSign
  | braceOpen
  | braceClose
  | parenOpen
  | parenClose
  | bracketOpen
  | bracketClose
  | semicolon
  | comma
  | dot
  | question
  | colon
  | assign
  | equal
  | bang
  | notEqual
  | less
  | lessEqual
  | greater
  | greaterEqual
  | plus
  | increment
  | plusAssign
  | minus
  | decrement
  | minusAssign
  | star
  | starAssign
  | slash
  | slashAssign
  | percent
  | percentAssign
  | amp
  | ampAmp
  | pipe
  | pipePipe
  | caret
  | unknown
deriving DecidableEq, Repr

structure Token where
  kind : Token.Kind
  text : String
deriving DecidableEq, Repr

/-- Whether the token is the word `word`. Keywords are spelled like identifiers. -/
def Token.isWord (token : Token) (word : String) : Bool := token.kind == .ident && token.text == word

structure PlacedToken where
  token : Token
  span : Span
deriving DecidableEq, Repr

end Transplant.Java
