import Transplant.Proofs.Java.Induction

/-! All that a syntax tree stores: its spans, the blocks inside its statements, the types inside its
types. Spans are listed one by one, as a change of spans meets them. -/
namespace Transplant.Java

def Param.spans (param : Param) : List Span := [param.span,param.type.span,param.name.span]

mutual

def Expr.spans : Expr → List Span
  | .name _ span => [span]
  | .literal _ _ span => [span]
  | .this span => [span]
  | .super span => [span]
  | .missing span => [span]
  | .call callee args span => span :: (callee.spans ++ Expr.spansAll args)
  | .create outer type args dims initializer body span =>
    span :: type.span :: (Expr.spansOption outer ++ (Expr.spansAll args ++ (Expr.spansAll dims ++
      (Expr.spansOption initializer ++ body.toList))))
  | .field receiver member span => span :: member.span :: receiver.spans
  | .index array position span => span :: (array.spans ++ position.spans)
  | .unary _ _ operand span => span :: operand.spans
  | .binary _ left right span => span :: (left.spans ++ right.spans)
  | .instanceOf operand type span => span :: type.span :: operand.spans
  | .assign _ left right span => span :: (left.spans ++ right.spans)
  | .conditional condition yes no span => span :: (condition.spans ++ (yes.spans ++ no.spans))
  | .paren inner span => span :: inner.spans
  | .arrayInit elements span => span :: Expr.spansAll elements

def Expr.spansAll : List Expr → List Span
  | [] => []
  | first :: rest => first.spans ++ Expr.spansAll rest

def Expr.spansOption : Option Expr → List Span
  | none => []
  | some value => value.spans

end

def Declarator.spans (declarator : Declarator) : List Span :=
  declarator.span :: declarator.name.span :: Expr.spansOption declarator.initializer

mutual

def Stmt.spans : Stmt → List Span
  | .declare type declarators span => span :: type.span :: declarators.flatMap Declarator.spans
  | .expr value span => span :: value.spans
  | .returns value span => span :: Expr.spansOption value
  | .throws value span => span :: value.spans
  | .ifElse condition yes no span => span :: (condition.spans ++ (yes.spans ++ Stmt.spansOption no))
  | .whileLoop condition body span => span :: (condition.spans ++ body.spans)
  | .forLoop init condition update body span =>
    span :: (Stmt.spansAll init ++ (Expr.spansOption condition ++ (Expr.spansAll update ++ body.spans)))
  | .forEach element iterable body span => span :: (element.spans ++ (iterable.spans ++ body.spans))
  | .tryCatch body catches cleanup span =>
    span :: (body.spans ++ (Catch.spansAll catches ++ Block.spansOption cleanup))
  | .block body => body.spans
  | .breaks span => [span]
  | .continues span => [span]
  | .empty span => [span]
  | .unsupported span => [span]

def Stmt.spansAll : List Stmt → List Span
  | [] => []
  | first :: rest => first.spans ++ Stmt.spansAll rest

def Stmt.spansOption : Option Stmt → List Span
  | none => []
  | some stmt => stmt.spans

def Block.spans : Block → List Span
  | ⟨statements,span⟩ => span :: Stmt.spansAll statements

def Block.spansOption : Option Block → List Span
  | none => []
  | some block => block.spans

def Catch.spans : Catch → List Span
  | ⟨param,body,span⟩ => span :: (param.spans ++ body.spans)

def Catch.spansAll : List Catch → List Span
  | [] => []
  | first :: rest => first.spans ++ Catch.spansAll rest

end

mutual

def Stmt.blocks : Stmt → List Block
  | .ifElse _ yes no _ => yes.blocks ++ Stmt.blocksOption no
  | .whileLoop _ body _ => body.blocks
  | .forLoop init _ _ body _ => Stmt.blocksAll init ++ body.blocks
  | .forEach _ _ body _ => body.blocks
  | .tryCatch body catches cleanup _ => body.blocks ++ (Catch.blocksAll catches ++ Block.blocksOption cleanup)
  | .block body => body.blocks
  | .declare _ _ _ => []
  | .expr _ _ => []
  | .returns _ _ => []
  | .throws _ _ => []
  | .breaks _ => []
  | .continues _ => []
  | .empty _ => []
  | .unsupported _ => []

def Stmt.blocksAll : List Stmt → List Block
  | [] => []
  | first :: rest => first.blocks ++ Stmt.blocksAll rest

def Stmt.blocksOption : Option Stmt → List Block
  | none => []
  | some stmt => stmt.blocks

/-- The block itself and the blocks inside it. -/
def Block.blocks : Block → List Block
  | ⟨statements,span⟩ => ⟨statements,span⟩ :: Stmt.blocksAll statements

def Block.blocksOption : Option Block → List Block
  | none => []
  | some block => block.blocks

def Catch.blocks : Catch → List Block
  | ⟨_,body,_⟩ => body.blocks

def Catch.blocksAll : List Catch → List Block
  | [] => []
  | first :: rest => first.blocks ++ Catch.blocksAll rest

end

def Member.span : Member → Span
  | .field decl => decl.span
  | .method decl => decl.span
  | .constructor decl => decl.span
  | .initializer decl => decl.span
  | .type decl => decl.span

/-- The spans of a member, but for those of a type. -/
def Member.spans : Member → List Span
  | .field decl => [decl.span,decl.type.span,decl.name.span]
  | .method decl =>
    decl.span :: decl.returnType.span :: decl.name.span ::
      (decl.params.flatMap Param.spans ++ Block.spansOption decl.body)
  | .constructor decl =>
    decl.span :: decl.name.span :: (decl.params.flatMap Param.spans ++ decl.body.spans)
  | .initializer decl => decl.span :: decl.body.spans
  | .type _ => []

/-- The blocks of a member, but for those of a type. -/
def Member.blocks : Member → List Block
  | .method decl => Block.blocksOption decl.body
  | .constructor decl => decl.body.blocks
  | .initializer decl => decl.body.blocks
  | .field _ => []
  | .type _ => []

mutual

/-- The type itself and the types inside it. -/
def TypeDecl.types : TypeDecl → List TypeDecl
  | ⟨kind,modifiers,name,span,bodySpan,members⟩ =>
    ⟨kind,modifiers,name,span,bodySpan,members⟩ :: Member.typesAll members

def Member.types : Member → List TypeDecl
  | .type decl => decl.types
  | .field _ => []
  | .method _ => []
  | .constructor _ => []
  | .initializer _ => []

def Member.typesAll : List Member → List TypeDecl
  | [] => []
  | first :: rest => first.types ++ Member.typesAll rest

end

theorem TypeDecl.types_eq (decl : TypeDecl) : decl.types = decl :: Member.typesAll decl.members := by
  cases decl
  rfl

/-- The spans of a type, but for those of the types inside it. -/
def TypeDecl.spans (decl : TypeDecl) : List Span :=
  decl.span :: decl.bodySpan :: decl.name.span :: decl.members.flatMap Member.spans

theorem Expr.span_mem_spans (e : Expr) : e.span ∈ e.spans := by
  cases e <;> exact List.mem_cons_self

theorem Block.span_mem_spans (b : Block) : b.span ∈ b.spans := by
  cases b
  exact List.mem_cons_self

namespace CompilationUnit

variable (file : CompilationUnit)

/-- The types of the file and the types inside them. -/
def allTypes : List TypeDecl := file.types.flatMap TypeDecl.types

def members : List Member := file.allTypes.flatMap (·.members)

def blocks : List Block := file.members.flatMap Member.blocks

def spans : List Span :=
  file.span :: (file.package.toList.map (·.span) ++ (file.imports.map (·.span) ++
    file.allTypes.flatMap TypeDecl.spans))

end CompilationUnit

variable (f : Span → Span)

theorem Param.spans_mapSpans (param : Param) : (param.mapSpans f).spans = param.spans.map f := rfl

theorem Expr.spans_mapSpans_all : (∀ e : Expr, (e.mapSpans f).spans = e.spans.map f) ∧
    (∀ value, Expr.spansOption (Expr.mapSpansOption f value) = (Expr.spansOption value).map f) ∧
    ∀ list, Expr.spansAll (Expr.mapSpansAll f list) = (Expr.spansAll list).map f := by
  apply Expr.induction_all
  all_goals intros
  all_goals simp_all only [Expr.mapSpans,Expr.mapSpansAll,Expr.mapSpansOption,Expr.spans,Expr.spansAll,
    Expr.spansOption,List.map_cons,List.map_append,List.map_nil,TypeRef.mapSpans,Ident.mapSpans,
    Option.toList_map]

theorem Expr.mapSpansAll_eq_map (list : List Expr) : Expr.mapSpansAll f list = list.map (Expr.mapSpans f) := by
  induction list with
  | nil => rfl
  | cons first rest ih => rw [Expr.mapSpansAll,ih,List.map_cons]

theorem Expr.mapSpansOption_eq (value : Option Expr) :
    Expr.mapSpansOption f value = value.map (Expr.mapSpans f) := by cases value <;> rfl

theorem Declarator.spans_mapSpans (declarator : Declarator) :
    (declarator.mapSpans f).spans = declarator.spans.map f := by
  have value := (Expr.spans_mapSpans_all f).2.1 declarator.initializer
  rw [Expr.mapSpansOption_eq] at value
  simp only [Declarator.mapSpans,Declarator.spans,value,Ident.mapSpans,List.map_cons]

theorem Stmt.spans_mapSpans_all : (∀ s : Stmt, (s.mapSpans f).spans = s.spans.map f) ∧
    (∀ value, Block.spansOption (Block.mapSpansOption f value) = (Block.spansOption value).map f) ∧
    (∀ block : Block, (block.mapSpans f).spans = block.spans.map f) ∧
    (∀ list, Stmt.spansAll (Stmt.mapSpansAll f list) = (Stmt.spansAll list).map f) ∧
    (∀ list, Catch.spansAll (Catch.mapSpansAll f list) = (Catch.spansAll list).map f) ∧
    (∀ clause : Catch, (clause.mapSpans f).spans = clause.spans.map f) ∧
    ∀ value, Stmt.spansOption (Stmt.mapSpansOption f value) = (Stmt.spansOption value).map f := by
  have values := Expr.spans_mapSpans_all f
  simp only [Expr.mapSpansOption_eq,Expr.mapSpansAll_eq_map] at values
  apply Stmt.induction_all
  all_goals intros
  all_goals simp_all only [Stmt.mapSpans,Stmt.mapSpansAll,Stmt.mapSpansOption,Block.mapSpans,
    Block.mapSpansOption,Catch.mapSpans,Catch.mapSpansAll,Stmt.spans,Stmt.spansAll,Stmt.spansOption,
    Block.spans,Block.spansOption,Catch.spans,Catch.spansAll,List.map_cons,List.map_append,List.map_nil,
    TypeRef.mapSpans,Param.spans_mapSpans,List.flatMap_map,List.map_flatMap,Declarator.spans_mapSpans]

theorem Stmt.blocks_mapSpans_all :
    (∀ s : Stmt, (s.mapSpans f).blocks = s.blocks.map (Block.mapSpans f)) ∧
    (∀ value, Block.blocksOption (Block.mapSpansOption f value) =
      (Block.blocksOption value).map (Block.mapSpans f)) ∧
    (∀ block : Block, (block.mapSpans f).blocks = block.blocks.map (Block.mapSpans f)) ∧
    (∀ list, Stmt.blocksAll (Stmt.mapSpansAll f list) = (Stmt.blocksAll list).map (Block.mapSpans f)) ∧
    (∀ list, Catch.blocksAll (Catch.mapSpansAll f list) = (Catch.blocksAll list).map (Block.mapSpans f)) ∧
    (∀ clause : Catch, (clause.mapSpans f).blocks = clause.blocks.map (Block.mapSpans f)) ∧
    ∀ value, Stmt.blocksOption (Stmt.mapSpansOption f value) =
      (Stmt.blocksOption value).map (Block.mapSpans f) := by
  apply Stmt.induction_all
  all_goals intros
  all_goals simp_all only [Stmt.mapSpans,Stmt.mapSpansAll,Stmt.mapSpansOption,Block.mapSpans,
    Block.mapSpansOption,Catch.mapSpans,Catch.mapSpansAll,Stmt.blocks,Stmt.blocksAll,Stmt.blocksOption,
    Block.blocks,Block.blocksOption,Catch.blocks,Catch.blocksAll,List.map_cons,List.map_append,List.map_nil]

theorem Block.mapSpansOption_eq (value : Option Block) :
    Block.mapSpansOption f value = value.map (Block.mapSpans f) := by cases value <;> rfl

theorem Stmt.mapSpansAll_eq_map (list : List Stmt) : Stmt.mapSpansAll f list = list.map (Stmt.mapSpans f) := by
  induction list with
  | nil => rfl
  | cons first rest ih => rw [Stmt.mapSpansAll,ih,List.map_cons]

theorem Member.mapSpansAll_eq_map (list : List Member) :
    Member.mapSpansAll f list = list.map (Member.mapSpans f) := by
  induction list with
  | nil => rfl
  | cons first rest ih => rw [Member.mapSpansAll,ih,List.map_cons]

theorem Expr.mapSpans_span (e : Expr) : (e.mapSpans f).span = f e.span := by cases e <;> rfl

theorem Stmt.mapSpans_span (s : Stmt) : (s.mapSpans f).span = f s.span := by
  cases s with
  | block body => cases body; rfl
  | _ => rfl

theorem Block.mapSpans_span (block : Block) : (block.mapSpans f).span = f block.span := by cases block; rfl

theorem Block.statementSpans_mapSpans (block : Block) :
    (block.mapSpans f).statements.map Stmt.span = (block.statements.map Stmt.span).map f := by
  cases block
  simp only [Block.mapSpans,Stmt.mapSpansAll_eq_map,List.map_map,Function.comp_def,Stmt.mapSpans_span]

theorem TypeDecl.mapSpans_span (decl : TypeDecl) : (decl.mapSpans f).span = f decl.span := by cases decl; rfl

theorem Member.mapSpans_span (member : Member) : (member.mapSpans f).span = f member.span := by
  cases member with
  | type decl => exact decl.mapSpans_span f
  | _ => rfl

theorem Member.spans_mapSpans (member : Member) : (member.mapSpans f).spans = member.spans.map f := by
  have statements := Stmt.spans_mapSpans_all f
  simp only [Block.mapSpansOption_eq] at statements
  cases member with
  | type decl => rfl
  | _ => simp [Member.mapSpans,Member.spans,FieldDecl.mapSpans,MethodDecl.mapSpans,
      ConstructorDecl.mapSpans,InitializerDecl.mapSpans,TypeRef.mapSpans,Ident.mapSpans,List.flatMap_map,
      List.map_flatMap,Param.spans_mapSpans,statements]

theorem Member.blocks_mapSpans (member : Member) :
    (member.mapSpans f).blocks = member.blocks.map (Block.mapSpans f) := by
  have statements := Stmt.blocks_mapSpans_all f
  simp only [Block.mapSpansOption_eq] at statements
  cases member with
  | field decl => rfl
  | type decl => rfl
  | _ => simp [Member.mapSpans,Member.blocks,MethodDecl.mapSpans,ConstructorDecl.mapSpans,
      InitializerDecl.mapSpans,statements]

theorem TypeDecl.members_mapSpans (decl : TypeDecl) :
    (decl.mapSpans f).members = decl.members.map (Member.mapSpans f) := by
  cases decl
  exact Member.mapSpansAll_eq_map f _

theorem TypeDecl.spans_mapSpans (decl : TypeDecl) : (decl.mapSpans f).spans = decl.spans.map f := by
  simp only [TypeDecl.spans,TypeDecl.members_mapSpans,List.flatMap_map,Member.spans_mapSpans,List.map_cons,
    List.map_flatMap]
  cases decl
  rfl

theorem TypeDecl.types_mapSpans_all :
    (∀ decl : TypeDecl, (decl.mapSpans f).types = decl.types.map (TypeDecl.mapSpans f)) ∧
    (∀ list, Member.typesAll (Member.mapSpansAll f list) =
      (Member.typesAll list).map (TypeDecl.mapSpans f)) ∧
    ∀ member : Member, (member.mapSpans f).types = member.types.map (TypeDecl.mapSpans f) := by
  apply TypeDecl.induction_all
  all_goals intros
  all_goals simp_all only [TypeDecl.mapSpans,Member.mapSpans,Member.mapSpansAll,TypeDecl.types,Member.types,
    Member.typesAll,List.map_cons,List.map_append,List.map_nil]

namespace CompilationUnit

variable (file : CompilationUnit)

theorem allTypes_mapSpans : (file.mapSpans f).allTypes = file.allTypes.map (TypeDecl.mapSpans f) := by
  simp only [allTypes,CompilationUnit.mapSpans,List.flatMap_map,List.map_flatMap,
    (TypeDecl.types_mapSpans_all f).1]

theorem members_mapSpans : (file.mapSpans f).members = file.members.map (Member.mapSpans f) := by
  simp only [members,allTypes_mapSpans,List.flatMap_map,List.map_flatMap,TypeDecl.members_mapSpans]

theorem blocks_mapSpans : (file.mapSpans f).blocks = file.blocks.map (Block.mapSpans f) := by
  simp only [blocks,members_mapSpans,List.flatMap_map,List.map_flatMap,Member.blocks_mapSpans]

theorem spans_mapSpans : (file.mapSpans f).spans = file.spans.map f := by
  simp only [spans,allTypes_mapSpans,List.flatMap_map,List.map_cons,List.map_append,List.map_flatMap,
    TypeDecl.spans_mapSpans]
  simp [CompilationUnit.mapSpans,Function.comp_def,Option.toList_map]

end CompilationUnit
end Transplant.Java
