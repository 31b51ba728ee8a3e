import Transplant.Java.Expr

/-! Statements of Java source. A statement that is not understood is `unsupported` and keeps the
span it covers. -/
namespace Transplant.Java

structure Declarator where
  name : Ident
  initializer : Option Expr
  span : Span
deriving Repr

mutual

inductive Stmt where
  | declare (type : TypeRef) (declarators : List Declarator) (span : Span)
  | expr (value : Expr) (span : Span)
  | returns (value : Option Expr) (span : Span)
  | throws (value : Expr) (span : Span)
  | ifElse (condition : Expr) (yes : Stmt) (no : Option Stmt) (span : Span)
  | whileLoop (condition : Expr) (body : Stmt) (span : Span)
  | forLoop (init : List Stmt) (condition : Option Expr) (update : List Expr) (body : Stmt)
      (span : Span)
  | forEach (element : Param) (iterable : Expr) (body : Stmt) (span : Span)
  | tryCatch (body : Block) (catches : List Catch) (cleanup : Option Block) (span : Span)
  | block (body : Block)
  | breaks (span : Span)
  | continues (span : Span)
  | empty (span : Span)
  | unsupported (span : Span)

structure Block where
  statements : List Stmt
  span : Span

structure Catch where
  param : Param
  body : Block
  span : Span

end

def Stmt.span : Stmt → Span
  | .declare _ _ span => span
  | .expr _ span => span
  | .returns _ span => span
  | .throws _ span => span
  | .ifElse _ _ _ span => span
  | .whileLoop _ _ span => span
  | .forLoop _ _ _ _ span => span
  | .forEach _ _ _ span => span
  | .tryCatch _ _ _ span => span
  | .block body => body.span
  | .breaks span => span
  | .continues span => span
  | .empty span => span
  | .unsupported span => span

def Declarator.mapSpans (f : Span → Span) (declarator : Declarator) : Declarator :=
  ⟨declarator.name.mapSpans f,declarator.initializer.map (Expr.mapSpans f),f declarator.span⟩

mutual

def Stmt.mapSpans (f : Span → Span) : Stmt → Stmt
  | .declare type declarators span =>
    .declare (type.mapSpans f) (declarators.map (Declarator.mapSpans f)) (f span)
  | .expr value span => .expr (value.mapSpans f) (f span)
  | .returns value span => .returns (value.map (Expr.mapSpans f)) (f span)
  | .throws value span => .throws (value.mapSpans f) (f span)
  | .ifElse condition yes no span =>
    .ifElse (condition.mapSpans f) (yes.mapSpans f) (Stmt.mapSpansOption f no) (f span)
  | .whileLoop condition body span => .whileLoop (condition.mapSpans f) (body.mapSpans f) (f span)
  | .forLoop init condition update body span =>
    .forLoop (Stmt.mapSpansAll f init) (condition.map (Expr.mapSpans f))
      (update.map (Expr.mapSpans f)) (body.mapSpans f) (f span)
  | .forEach element iterable body span =>
    .forEach (element.mapSpans f) (iterable.mapSpans f) (body.mapSpans f) (f span)
  | .tryCatch body catches cleanup span =>
    .tryCatch (body.mapSpans f) (Catch.mapSpansAll f catches) (Block.mapSpansOption f cleanup)
      (f span)
  | .block body => .block (body.mapSpans f)
  | .breaks span => .breaks (f span)
  | .continues span => .continues (f span)
  | .empty span => .empty (f span)
  | .unsupported span => .unsupported (f span)

def Stmt.mapSpansAll (f : Span → Span) : List Stmt → List Stmt
  | [] => []
  | stmt :: rest => stmt.mapSpans f :: Stmt.mapSpansAll f rest

def Stmt.mapSpansOption (f : Span → Span) : Option Stmt → Option Stmt
  | none => none
  | some stmt => some (stmt.mapSpans f)

def Block.mapSpans (f : Span → Span) : Block → Block
  | ⟨statements,span⟩ => ⟨Stmt.mapSpansAll f statements,f span⟩

def Block.mapSpansOption (f : Span → Span) : Option Block → Option Block
  | none => none
  | some block => some (block.mapSpans f)

def Catch.mapSpans (f : Span → Span) : Catch → Catch
  | ⟨param,body,span⟩ => ⟨param.mapSpans f,body.mapSpans f,f span⟩

def Catch.mapSpansAll (f : Span → Span) : List Catch → List Catch
  | [] => []
  | clause :: rest => clause.mapSpans f :: Catch.mapSpansAll f rest

end
end Transplant.Java
