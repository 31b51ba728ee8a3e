import Transplant.Proofs.Java.Boundaries
import Transplant.Proofs.Java.Spans

/-! Trees without their places. What a text is read as depends on the kinds and the spellings of its
tokens; blanks, line breaks and comments between them only move the spans. -/
namespace Transplant.Java

section Composition

variable (f g : Span → Span)

theorem TypeRef.mapSpans_mapSpans (type : TypeRef) :
    (type.mapSpans f).mapSpans g = type.mapSpans (g ∘ f) := rfl

theorem Ident.mapSpans_mapSpans (ident : Ident) :
    (ident.mapSpans f).mapSpans g = ident.mapSpans (g ∘ f) := rfl

theorem Param.mapSpans_mapSpans (param : Param) :
    (param.mapSpans f).mapSpans g = param.mapSpans (g ∘ f) := rfl

theorem Expr.mapSpans_mapSpans_all :
    (∀ e : Expr, (e.mapSpans f).mapSpans g = e.mapSpans (g ∘ f)) ∧
    (∀ value, Expr.mapSpansOption g (Expr.mapSpansOption f value) = Expr.mapSpansOption (g ∘ f) value) ∧
    ∀ list, Expr.mapSpansAll g (Expr.mapSpansAll f list) = Expr.mapSpansAll (g ∘ f) list := by
  apply Expr.induction_all
  all_goals intros
  all_goals simp_all only [Expr.mapSpans,Expr.mapSpansAll,Expr.mapSpansOption,TypeRef.mapSpans_mapSpans,
    Ident.mapSpans_mapSpans,Option.map_map,Function.comp_apply]

theorem Declarator.mapSpans_mapSpans (declarator : Declarator) :
    (declarator.mapSpans f).mapSpans g = declarator.mapSpans (g ∘ f) := by
  simp only [Declarator.mapSpans,Ident.mapSpans_mapSpans,Option.map_map,Function.comp_def,
    (Expr.mapSpans_mapSpans_all f g).1]

theorem Stmt.mapSpans_mapSpans_all :
    (∀ s : Stmt, (s.mapSpans f).mapSpans g = s.mapSpans (g ∘ f)) ∧
    (∀ value, Block.mapSpansOption g (Block.mapSpansOption f value) = Block.mapSpansOption (g ∘ f) value) ∧
    (∀ block : Block, (block.mapSpans f).mapSpans g = block.mapSpans (g ∘ f)) ∧
    (∀ list, Stmt.mapSpansAll g (Stmt.mapSpansAll f list) = Stmt.mapSpansAll (g ∘ f) list) ∧
    (∀ list, Catch.mapSpansAll g (Catch.mapSpansAll f list) = Catch.mapSpansAll (g ∘ f) list) ∧
    (∀ clause : Catch, (clause.mapSpans f).mapSpans g = clause.mapSpans (g ∘ f)) ∧
    ∀ value, Stmt.mapSpansOption g (Stmt.mapSpansOption f value) = Stmt.mapSpansOption (g ∘ f) value := by
  have inner : Expr.mapSpans g ∘ Expr.mapSpans f = Expr.mapSpans (g ∘ f) :=
    funext (Expr.mapSpans_mapSpans_all f g).1
  have declarator : Declarator.mapSpans g ∘ Declarator.mapSpans f = Declarator.mapSpans (g ∘ f) :=
    funext (Declarator.mapSpans_mapSpans f g)
  have value (e : Expr) := congrFun inner e
  apply Stmt.induction_all
  all_goals intros
  all_goals simp_all only [Stmt.mapSpans,Stmt.mapSpansAll,Stmt.mapSpansOption,Block.mapSpans,
    Block.mapSpansOption,Catch.mapSpans,Catch.mapSpansAll,TypeRef.mapSpans_mapSpans,
    Param.mapSpans_mapSpans,List.map_map,Option.map_map,Function.comp_apply]

theorem Member.mapSpans_mapSpans_all :
    (∀ decl : TypeDecl, (decl.mapSpans f).mapSpans g = decl.mapSpans (g ∘ f)) ∧
    (∀ list, Member.mapSpansAll g (Member.mapSpansAll f list) = Member.mapSpansAll (g ∘ f) list) ∧
    ∀ member : Member, (member.mapSpans f).mapSpans g = member.mapSpans (g ∘ f) := by
  have param : Param.mapSpans g ∘ Param.mapSpans f = Param.mapSpans (g ∘ f) :=
    funext (Param.mapSpans_mapSpans f g)
  have block : Block.mapSpans g ∘ Block.mapSpans f = Block.mapSpans (g ∘ f) :=
    funext (Stmt.mapSpans_mapSpans_all f g).2.2.1
  have inside (body : Block) := congrFun block body
  apply TypeDecl.induction_all
  all_goals intros
  all_goals simp_all only [TypeDecl.mapSpans,Member.mapSpans,Member.mapSpansAll,FieldDecl.mapSpans,
    MethodDecl.mapSpans,ConstructorDecl.mapSpans,InitializerDecl.mapSpans,TypeRef.mapSpans_mapSpans,
    Ident.mapSpans_mapSpans,List.map_map,Option.map_map,Function.comp_apply]

theorem CompilationUnit.mapSpans_mapSpans (unit : CompilationUnit) :
    (unit.mapSpans f).mapSpans g = unit.mapSpans (g ∘ f) := by
  have inner : TypeDecl.mapSpans g ∘ TypeDecl.mapSpans f = TypeDecl.mapSpans (g ∘ f) :=
    funext (Member.mapSpans_mapSpans_all f g).1
  simp only [CompilationUnit.mapSpans,List.map_map,Option.map_map,inner]
  rfl

end Composition

/-- The tree with all spans empty at the start of the text. -/
def CompilationUnit.unplaced (unit : CompilationUnit) : CompilationUnit :=
  unit.mapSpans (Span.map fun _ => 0)

/-- Texts whose tokens have the same kinds and spellings are read as the same tree but for its
spans. -/
theorem parse_unplaced {first second : Text}
    (same : (tokens first).map (·.token) = (tokens second).map (·.token)) :
    (parse first).unplaced = (parse second).unplaced := by
  have placed (text : Text) : (parse text).unplaced =
      (Parser.compilationUnit ⟨0,(tokens text).map (·.token)⟩).1.unplaced := by
    rw [parse,readText,CompilationUnit.unplaced,byteSpan_boundaries,CompilationUnit.mapSpans_mapSpans]
    rfl
  rw [placed,placed,same]

end Transplant.Java
