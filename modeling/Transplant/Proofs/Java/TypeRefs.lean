import Transplant.Proofs.Java.Spans

/-! The types that a tree refers to, and what all kinds of trees have in common: their spans can be
changed, and they refer to types. -/
namespace Transplant.Java

mutual

def Expr.typeRefs : Expr → List TypeRef
  | .call callee args _ => callee.typeRefs ++ Expr.typeRefsAll args
  | .create outer type args dims initializer _ _ =>
    type :: (Expr.typeRefsOption outer ++ (Expr.typeRefsAll args ++ (Expr.typeRefsAll dims ++
      Expr.typeRefsOption initializer)))
  | .field receiver _ _ => receiver.typeRefs
  | .index array position _ => array.typeRefs ++ position.typeRefs
  | .unary _ _ operand _ => operand.typeRefs
  | .binary _ left right _ => left.typeRefs ++ right.typeRefs
  | .instanceOf operand type _ => type :: operand.typeRefs
  | .assign _ left right _ => left.typeRefs ++ right.typeRefs
  | .conditional condition yes no _ => condition.typeRefs ++ (yes.typeRefs ++ no.typeRefs)
  | .paren inner _ => inner.typeRefs
  | .arrayInit elements _ => Expr.typeRefsAll elements
  | .name _ _ => []
  | .literal _ _ _ => []
  | .this _ => []
  | .super _ => []
  | .missing _ => []

def Expr.typeRefsAll : List Expr → List TypeRef
  | [] => []
  | first :: rest => first.typeRefs ++ Expr.typeRefsAll rest

def Expr.typeRefsOption : Option Expr → List TypeRef
  | none => []
  | some value => value.typeRefs

end

def Declarator.typeRefs (declarator : Declarator) : List TypeRef := Expr.typeRefsOption declarator.initializer

mutual

def Stmt.typeRefs : Stmt → List TypeRef
  | .declare type declarators _ => type :: declarators.flatMap Declarator.typeRefs
  | .expr value _ => value.typeRefs
  | .returns value _ => Expr.typeRefsOption value
  | .throws value _ => value.typeRefs
  | .ifElse condition yes no _ => condition.typeRefs ++ (yes.typeRefs ++ Stmt.typeRefsOption no)
  | .whileLoop condition body _ => condition.typeRefs ++ body.typeRefs
  | .forLoop init condition update body _ =>
    Stmt.typeRefsAll init ++ (Expr.typeRefsOption condition ++ (Expr.typeRefsAll update ++ body.typeRefs))
  | .forEach element iterable body _ => element.type :: (iterable.typeRefs ++ body.typeRefs)
  | .tryCatch body catches cleanup _ =>
    body.typeRefs ++ (Catch.typeRefsAll catches ++ Block.typeRefsOption cleanup)
  | .block body => body.typeRefs
  | .breaks _ => []
  | .continues _ => []
  | .empty _ => []
  | .unsupported _ => []

def Stmt.typeRefsAll : List Stmt → List TypeRef
  | [] => []
  | first :: rest => first.typeRefs ++ Stmt.typeRefsAll rest

def Stmt.typeRefsOption : Option Stmt → List TypeRef
  | none => []
  | some stmt => stmt.typeRefs

def Block.typeRefs : Block → List TypeRef
  | ⟨statements,_⟩ => Stmt.typeRefsAll statements

def Block.typeRefsOption : Option Block → List TypeRef
  | none => []
  | some block => block.typeRefs

def Catch.typeRefs : Catch → List TypeRef
  | ⟨param,body,_⟩ => param.type :: body.typeRefs

def Catch.typeRefsAll : List Catch → List TypeRef
  | [] => []
  | first :: rest => first.typeRefs ++ Catch.typeRefsAll rest

end

mutual

def TypeDecl.typeRefs : TypeDecl → List TypeRef
  | ⟨_,_,_,_,_,members⟩ => Member.typeRefsAll members

def Member.typeRefs : Member → List TypeRef
  | .field decl => [decl.type]
  | .method decl => decl.returnType :: (decl.params.map (·.type) ++ Block.typeRefsOption decl.body)
  | .constructor decl => decl.params.map (·.type) ++ decl.body.typeRefs
  | .initializer decl => decl.body.typeRefs
  | .type decl => decl.typeRefs

def Member.typeRefsAll : List Member → List TypeRef
  | [] => []
  | first :: rest => first.typeRefs ++ Member.typeRefsAll rest

end

/-- All types that a file refers to. -/
def CompilationUnit.typeRefs (file : CompilationUnit) : List TypeRef := file.types.flatMap TypeDecl.typeRefs

section

variable (f : Span → Span)

theorem Expr.typeRefsAll_eq (list : List Expr) : Expr.typeRefsAll list = list.flatMap Expr.typeRefs := by
  induction list with
  | nil => rfl
  | cons first rest ih => rw [Expr.typeRefsAll,ih,List.flatMap_cons]

theorem Expr.typeRefsOption_eq (value : Option Expr) :
    Expr.typeRefsOption value = value.toList.flatMap Expr.typeRefs := by
  cases value <;> simp [Expr.typeRefsOption]

theorem Stmt.typeRefsAll_eq (list : List Stmt) : Stmt.typeRefsAll list = list.flatMap Stmt.typeRefs := by
  induction list with
  | nil => rfl
  | cons first rest ih => rw [Stmt.typeRefsAll,ih,List.flatMap_cons]

theorem Stmt.typeRefsOption_eq (value : Option Stmt) :
    Stmt.typeRefsOption value = value.toList.flatMap Stmt.typeRefs := by
  cases value <;> simp [Stmt.typeRefsOption]

theorem Block.typeRefsOption_eq (value : Option Block) :
    Block.typeRefsOption value = value.toList.flatMap Block.typeRefs := by
  cases value <;> simp [Block.typeRefsOption]

theorem Catch.typeRefsAll_eq (list : List Catch) : Catch.typeRefsAll list = list.flatMap Catch.typeRefs := by
  induction list with
  | nil => rfl
  | cons first rest ih => rw [Catch.typeRefsAll,ih,List.flatMap_cons]

theorem Member.typeRefsAll_eq (list : List Member) : Member.typeRefsAll list = list.flatMap Member.typeRefs := by
  induction list with
  | nil => rfl
  | cons first rest ih => rw [Member.typeRefsAll,ih,List.flatMap_cons]

theorem Stmt.mapSpansOption_eq (value : Option Stmt) :
    Stmt.mapSpansOption f value = value.map (Stmt.mapSpans f) := by cases value <;> rfl

theorem Catch.mapSpansAll_eq_map (list : List Catch) :
    Catch.mapSpansAll f list = list.map (Catch.mapSpans f) := by
  induction list with
  | nil => rfl
  | cons first rest ih => rw [Catch.mapSpansAll,ih,List.map_cons]

theorem Expr.typeRefs_mapSpans_all :
    (∀ e : Expr, (e.mapSpans f).typeRefs = e.typeRefs.map (TypeRef.mapSpans f)) ∧
    (∀ value, Expr.typeRefsOption (Expr.mapSpansOption f value) =
      (Expr.typeRefsOption value).map (TypeRef.mapSpans f)) ∧
    ∀ list, Expr.typeRefsAll (Expr.mapSpansAll f list) = (Expr.typeRefsAll list).map (TypeRef.mapSpans f) := by
  apply Expr.induction_all
  all_goals intros
  all_goals simp_all only [Expr.mapSpans,Expr.mapSpansAll,Expr.mapSpansOption,Expr.typeRefs,Expr.typeRefsAll,
    Expr.typeRefsOption,List.map_cons,List.map_append,List.map_nil]

theorem Declarator.typeRefs_mapSpans (declarator : Declarator) :
    (declarator.mapSpans f).typeRefs = declarator.typeRefs.map (TypeRef.mapSpans f) := by
  have value := (Expr.typeRefs_mapSpans_all f).2.1 declarator.initializer
  rwa [Expr.mapSpansOption_eq] at value

theorem Stmt.typeRefs_mapSpans_all :
    (∀ s : Stmt, (s.mapSpans f).typeRefs = s.typeRefs.map (TypeRef.mapSpans f)) ∧
    (∀ value, Block.typeRefsOption (Block.mapSpansOption f value) =
      (Block.typeRefsOption value).map (TypeRef.mapSpans f)) ∧
    (∀ block : Block, (block.mapSpans f).typeRefs = block.typeRefs.map (TypeRef.mapSpans f)) ∧
    (∀ list, Stmt.typeRefsAll (Stmt.mapSpansAll f list) = (Stmt.typeRefsAll list).map (TypeRef.mapSpans f)) ∧
    (∀ list, Catch.typeRefsAll (Catch.mapSpansAll f list) = (Catch.typeRefsAll list).map (TypeRef.mapSpans f)) ∧
    (∀ clause : Catch, (clause.mapSpans f).typeRefs = clause.typeRefs.map (TypeRef.mapSpans f)) ∧
    ∀ value, Stmt.typeRefsOption (Stmt.mapSpansOption f value) =
      (Stmt.typeRefsOption value).map (TypeRef.mapSpans f) := by
  have values := Expr.typeRefs_mapSpans_all f
  simp only [Expr.mapSpansOption_eq,Expr.mapSpansAll_eq_map] at values
  apply Stmt.induction_all
  all_goals intros
  all_goals simp_all only [Stmt.mapSpans,Stmt.mapSpansAll,Stmt.mapSpansOption,Block.mapSpans,Block.mapSpansOption,
    Catch.mapSpans,Catch.mapSpansAll,Stmt.typeRefs,Stmt.typeRefsAll,Stmt.typeRefsOption,Block.typeRefs,
    Block.typeRefsOption,Catch.typeRefs,Catch.typeRefsAll,List.map_cons,List.map_append,List.map_nil,
    List.flatMap_map,List.map_flatMap,Declarator.typeRefs_mapSpans,Param.mapSpans]

theorem Member.typeRefs_mapSpans_all :
    (∀ decl : TypeDecl, (decl.mapSpans f).typeRefs = decl.typeRefs.map (TypeRef.mapSpans f)) ∧
    (∀ list, Member.typeRefsAll (Member.mapSpansAll f list) =
      (Member.typeRefsAll list).map (TypeRef.mapSpans f)) ∧
    ∀ member : Member, (member.mapSpans f).typeRefs = member.typeRefs.map (TypeRef.mapSpans f) := by
  have statements := Stmt.typeRefs_mapSpans_all f
  simp only [Block.mapSpansOption_eq] at statements
  apply TypeDecl.induction_all
  all_goals intros
  all_goals simp_all only [TypeDecl.mapSpans,Member.mapSpans,Member.mapSpansAll,TypeDecl.typeRefs,Member.typeRefs,
    Member.typeRefsAll,FieldDecl.mapSpans,MethodDecl.mapSpans,ConstructorDecl.mapSpans,InitializerDecl.mapSpans,
    List.map_cons,List.map_append,List.map_nil,List.map_map,Function.comp_def,Param.mapSpans]

theorem CompilationUnit.typeRefs_mapSpans (file : CompilationUnit) :
    (file.mapSpans f).typeRefs = file.typeRefs.map (TypeRef.mapSpans f) := by
  simp only [CompilationUnit.typeRefs,CompilationUnit.mapSpans,List.flatMap_map,List.map_flatMap,
    (Member.typeRefs_mapSpans_all f).1]

end

end Transplant.Java
