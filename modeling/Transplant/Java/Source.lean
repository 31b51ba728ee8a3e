import Transplant.Java.Decl.Parser
import Transplant.Java.Token.Lexer

/-! Java source as a text: its tree, with the spans in bytes. -/
namespace Transplant.Java

/-- The byte offsets of all boundaries between tokens, from the start of the text to its end. -/
def boundaries (text : Text) (tokens : List PlacedToken) : Array Nat :=
  (0 :: tokens.flatMap (fun token => [token.span.start,token.span.stop]) ++ [text.size]).toArray

/-- A span between boundaries as a span of bytes. -/
def byteSpan (bounds : Array Nat) : Span → Span := Span.map fun boundary => bounds[boundary]?.getD 0

/-- Reads a text's tokens and gives what was read its place in the text. -/
def readText {α : Type} (read : Parser α) (mapSpans : (Span → Span) → α → α) (text : Text) : α :=
  let tokens := tokens text
  let tree := (read ⟨0,tokens.map (·.token)⟩).1
  mapSpans (byteSpan (boundaries text tokens)) tree

def parse (text : Text) : CompilationUnit :=
  readText Parser.compilationUnit CompilationUnit.mapSpans text

/-- The expression a text begins with. -/
def parseExpr (text : Text) : Expr := readText Parser.expr Expr.mapSpans text

end Transplant.Java
