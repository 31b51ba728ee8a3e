import Mathlib.Data.List.Pairwise
import Transplant.Proofs.Body.Stored
import Transplant.Proofs.Item.Classes

/-! Where the parts of the item tree of a text stand. A class has its fields, methods and inner
classes from the members of one type declaration, and the tables of a method's body store no other
spans than its syntax. -/
namespace Transplant

open Java (Block CompilationUnit Member MethodDecl Param Stmt TypeDecl)

def Field.spans (field : Field) : List Span := [field.span,field.type.span,field.name.span]

def Method.spans (method : Method Body) : List Span :=
  method.span :: method.returnType.span :: method.name.span ::
    (method.params.flatMap Param.spans ++ method.body.toList.flatMap Body.spans)

def Class.spans (item : Class Body) : List Span :=
  item.span :: item.bodySpan :: (item.fields.flatMap Field.spans ++ item.methods.flatMap Method.spans)

def ItemTree.spans (tree : ItemTree Body) : List Span :=
  tree.imports.map (·.span) ++ tree.classes.flatMap Class.spans

/-- Neither span takes up anything of the other. -/
def Span.Apart (first second : Span) : Prop := first.stop ≤ second.start ∨ second.stop ≤ first.start

/-- The members of a class, with the classes inside it by their numbers. -/
structure Class.MembersLie {β : Type} (tree : ItemTree β) (item : Class β) (nested : List Span) : Prop where
  known : item.nested.map (fun id => (tree.classes[id]?).map Class.span) = nested.map some
  fields : item.bodySpan.Surrounds (item.fields.map Field.span)
  methods : item.bodySpan.Surrounds (item.methods.map Method.span)
  inner : item.bodySpan.Surrounds nested
  apart : (item.fields.map Field.span ++ (item.methods.map Method.span ++ nested)).Pairwise Span.Apart

/-- Everything that the item tree of a text stores has its place in the text. -/
structure ItemTree.LiesIn (text : Text) (tree : ItemTree Body) : Prop where
  spans : ∀ span ∈ tree.spans, text.Cuts span
  blocks : ∀ method ∈ tree.methods, ∀ body, method.body = some body →
    ∀ statements span, .block statements span ∈ body.stmts.toList →
      ∃ parts, statements.map body.stmtSpan? = parts.map some ∧ span.Surrounds parts
  members : ∀ item ∈ tree.classes, ∃ nested, item.MembersLie tree nested
  methods : ∀ method ∈ tree.methods, ∀ body, method.body = some body → method.span.contains body.span = true

namespace Span.Surrounds

variable {around : Span} {parts : List Span}

theorem of_sublist {some : List Span} (surrounds : around.Surrounds parts) (chosen : some.Sublist parts) :
    around.Surrounds some :=
  ⟨fun part member => surrounds.lasting part (chosen.subset member),
    fun part member => surrounds.inside part (chosen.subset member),surrounds.ascending.sublist chosen⟩

theorem apart (surrounds : around.Surrounds parts) : parts.Pairwise Span.Apart :=
  surrounds.ascending.imp fun order => .inl order

end Span.Surrounds

section Picking

variable {α β : Type} {members : List Member} {pick : Member → Option α} {other : Member → Option β}
  {span : α → Span} {spanToo : β → Span}

/-- Some of the members, each with the span it has as a member. -/
theorem picked_sublist (same : ∀ {member a}, pick member = some a → span a = member.span) :
    ((members.filterMap pick).map span).Sublist (members.map Member.span) := by
  induction members with
  | nil => exact .slnil
  | cons first rest ih =>
    cases picked : pick first with
    | none =>
      rw [List.filterMap_cons_none picked]
      exact ih.cons _
    | some a =>
      rw [List.filterMap_cons_some picked,List.map_cons,List.map_cons,same picked]
      exact ih.cons_cons _

/-- Members of two kinds. -/
theorem picked_apart (apart : (members.map Member.span).Pairwise Span.Apart)
    (same : ∀ {member a}, pick member = some a → span a = member.span)
    (sameToo : ∀ {member b}, other member = some b → spanToo b = member.span)
    (distinct : ∀ member, pick member = none ∨ other member = none) :
    ∀ first ∈ (members.filterMap pick).map span, ∀ second ∈ (members.filterMap other).map spanToo,
      Span.Apart first second := by
  rw [List.pairwise_map] at apart
  have symmetric : Std.Symm fun first second : Member => Span.Apart first.span second.span :=
    ⟨fun _ _ apart => apart.symm⟩
  simp only [List.forall_mem_map,List.mem_filterMap]
  rintro a ⟨left,leftListed,leftPicked⟩ b ⟨right,rightListed,rightPicked⟩
  rw [same leftPicked,sameToo rightPicked]
  refine apart.forall leftListed rightListed fun equal => ?_
  subst equal
  rcases distinct left with none | none
  · rw [none] at leftPicked
    cases leftPicked
  · rw [none] at rightPicked
    cases rightPicked

end Picking

namespace ItemTree

variable {text : Text} {file : CompilationUnit}

theorem member_cuts (lies : file.LiesIn text) {member : Member} (listed : member ∈ file.members) :
    ∀ span ∈ member.spans, text.Cuts span := by
  obtain ⟨type,declared,among⟩ := List.mem_flatMap.mp listed
  intro span own
  refine lies.spans span ?_
  have inside : span ∈ file.allTypes.flatMap TypeDecl.spans :=
    List.mem_flatMap.mpr ⟨type,declared,Java.TypeDecl.mem_spans among own⟩
  simp [CompilationUnit.spans,inside]

/-- A method of the tree has its span from a declaration and its body from the one there. -/
theorem method_body {owner : ClassId} {declaringType : String} {decl : MethodDecl} {body : Body}
    (given : ((Outline.method owner declaringType decl).resolved (outline file)).body = some body) :
    ∃ b, decl.body = some b ∧ body = Body.ofBlock ⟨outline file,owner,decl.params⟩ b := by
  obtain ⟨b,found,rfl⟩ := Option.map_eq_some_iff.mp given
  exact ⟨b,found,rfl⟩

/-- The tables of a method's body lie where its syntax does. -/
theorem body_stored (lies : file.LiesIn text) {decl : MethodDecl} {b : Block}
    (listed : Member.method decl ∈ file.members) (found : decl.body = some b) {β : Type} (scope : Scope β) :
    (∀ span ∈ (Body.ofBlock scope b).spans, text.Cuts span) ∧
      ∀ ids span, .block ids span ∈ (Body.ofBlock scope b).stmts.toList →
        ∃ parts, ids.map (Body.ofBlock scope b).stmtSpan? = parts.map some ∧ span.Surrounds parts := by
  have inside := member_cuts lies listed
  simp only [Member.spans,found,Java.Block.spansOption,List.forall_mem_cons,List.forall_mem_append] at inside
  refine Body.ofBlock_stored scope (Outline.method 0 "" decl) b (fun _ cuts => cuts.behind)
    ⟨inside.2.2.2.2,fun other own => lies.blocks other ?_⟩
  refine List.mem_flatMap.mpr ⟨_,listed,?_⟩
  simpa only [Member.blocks,found,Java.Block.blocksOption] using own

theorem method_cuts (lies : file.LiesIn text) {method : Method Body} (listed : method ∈ (ofUnit file).methods) :
    ∀ span ∈ method.spans, text.Cuts span := by
  obtain ⟨owner,declaringType,decl,declared,rfl⟩ := mem_ofUnit_methods listed
  have own := member_cuts lies declared
  simp only [Member.spans,List.forall_mem_cons,List.forall_mem_append] at own
  obtain ⟨whole,typed,named,params,_⟩ := own
  refine List.forall_mem_cons.mpr ⟨whole,List.forall_mem_cons.mpr ⟨typed,List.forall_mem_cons.mpr ⟨named,
    List.forall_mem_append.mpr ⟨params,?_⟩⟩⟩⟩
  rw [List.forall_mem_flatMap]
  intro body given
  obtain ⟨b,found,rfl⟩ := method_body (Option.mem_toList.mp given)
  exact (body_stored lies declared found _).1

theorem field_cuts (lies : file.LiesIn text) {type : TypeDecl} (listed : type ∈ file.allTypes) :
    ∀ field ∈ Outline.fields type.kind type.members, ∀ span ∈ field.spans, text.Cuts span := by
  intro field among
  obtain ⟨member,declared,picked⟩ := List.mem_filterMap.mp among
  have inside := member_cuts lies (List.mem_flatMap.mpr ⟨type,listed,declared⟩)
  cases member with
  | field decl =>
    cases picked
    exact inside
  | _ => cases picked

theorem class_cuts (lies : file.LiesIn text) {item : Class Block} (listed : item ∈ (outline file).classes) :
    ∀ span ∈ (item.resolved (outline file)).spans, text.Cuts span := by
  obtain ⟨type,declared,stands⟩ := Outline.outline_stand file item listed
  have own (span : Span) (inside : span ∈ type.spans) : text.Cuts span := by
    refine lies.spans span ?_
    have stored : span ∈ file.allTypes.flatMap TypeDecl.spans := List.mem_flatMap.mpr ⟨type,declared,inside⟩
    simp [CompilationUnit.spans,stored]
  refine List.forall_mem_cons.mpr ⟨?_,List.forall_mem_cons.mpr ⟨?_,List.forall_mem_append.mpr ⟨?_,?_⟩⟩⟩
  · refine own _ ?_
    simp [Class.resolved,stands.span,TypeDecl.spans]
  · refine own _ ?_
    simp [Class.resolved,stands.bodySpan,TypeDecl.spans]
  · rw [List.forall_mem_flatMap]
    exact fun field among => field_cuts lies declared field (stands.fields ▸ among)
  · rw [List.forall_mem_flatMap]
    intro method among
    refine method_cuts lies (List.mem_flatMap.mpr ⟨_,List.mem_map_of_mem listed,among⟩)

/-- The classes inside a class are found by their numbers. -/
theorem nested_known {type : TypeDecl} {item : Class Block}
    (stands : Outline.Stands (fun id => (outline file).classes[id]?) type item) :
    item.nested.map (fun id => ((ofUnit file).classes[id]?).map Class.span) =
      ((type.members.filterMap Member.type?).map TypeDecl.span).map some := by
  have numbers := stands.nested
  generalize item.nested = ids at numbers ⊢
  generalize type.members.filterMap Member.type? = inner at numbers ⊢
  induction numbers with
  | nil => rfl
  | cons first _ ih =>
    obtain ⟨other,found,span⟩ := first
    rw [List.map_cons,List.map_cons,List.map_cons,ih]
    simp only [ofUnit,List.getElem?_map,found,Option.map_some,Class.resolved,span]

theorem class_members (lies : file.LiesIn text) {item : Class Block} (listed : item ∈ (outline file).classes) :
    ∃ nested, (item.resolved (outline file)).MembersLie (ofUnit file) nested := by
  obtain ⟨type,declared,stands⟩ := Outline.outline_stand file item listed
  obtain ⟨owner,declaringType,listedMethods⟩ := stands.methods
  have laid := lies.members type declared
  rw [← stands.bodySpan] at laid
  have fields : (item.resolved (outline file)).fields.map Field.span =
      (type.members.filterMap (Outline.field? type.kind)).map Field.span := by
    rw [← Outline.fields_eq,← stands.fields]
    rfl
  have methods : (item.resolved (outline file)).methods.map Method.span =
      (type.members.filterMap (Outline.method? owner declaringType)).map Method.span := by
    rw [← Outline.methods_eq,← listedMethods]
    exact List.map_map
  have fieldsLaid : item.bodySpan.Surrounds
      ((type.members.filterMap (Outline.field? type.kind)).map Field.span) :=
    laid.of_sublist (picked_sublist Outline.field?_span)
  have methodsLaid : item.bodySpan.Surrounds
      ((type.members.filterMap (Outline.method? owner declaringType)).map Method.span) :=
    laid.of_sublist (picked_sublist Outline.method?_span)
  have typesLaid := laid.of_sublist (picked_sublist Outline.type?_span)
  refine ⟨_,nested_known stands,fields ▸ fieldsLaid,methods ▸ methodsLaid,typesLaid,?_⟩
  -- No member is of two kinds, so members of different kinds are different members of the type.
  rw [fields,methods]
  refine List.pairwise_append.mpr ⟨fieldsLaid.apart,List.pairwise_append.mpr ⟨methodsLaid.apart,
    typesLaid.apart,?_⟩,?_⟩
  · exact picked_apart laid.apart Outline.method?_span Outline.type?_span fun member => by
      cases member <;> simp [Outline.method?,Member.type?]
  · intro first early second late
    rcases List.mem_append.mp late with late | late
    · exact picked_apart laid.apart Outline.field?_span Outline.method?_span (fun member => by
        cases member <;> simp [Outline.field?,Outline.method?]) first early second late
    · exact picked_apart laid.apart Outline.field?_span Outline.type?_span (fun member => by
        cases member <;> simp [Outline.field?,Member.type?]) first early second late

theorem ofUnit_liesIn (lies : file.LiesIn text) : (ofUnit file).LiesIn text where
  spans := by
    refine List.forall_mem_append.mpr ⟨?_,?_⟩
    · intro span listed
      exact lies.spans span (by
        have inside : span ∈ file.imports.map (·.span) := listed
        simp only [CompilationUnit.spans,List.mem_cons,List.mem_append,inside,true_or,or_true])
    · rw [List.forall_mem_flatMap]
      intro item listed
      obtain ⟨item,known,rfl⟩ := List.mem_map.mp listed
      exact class_cuts lies known
  blocks := by
    intro method listed body given
    obtain ⟨owner,declaringType,decl,declared,rfl⟩ := mem_ofUnit_methods listed
    obtain ⟨b,found,rfl⟩ := method_body given
    exact (body_stored lies declared found _).2
  members := by
    intro item listed
    obtain ⟨item,known,rfl⟩ := List.mem_map.mp listed
    exact class_members lies known
  methods := by
    intro method listed body given
    obtain ⟨owner,declaringType,decl,declared,rfl⟩ := mem_ofUnit_methods listed
    obtain ⟨b,found,rfl⟩ := method_body given
    rw [Body.ofBlock_span]
    exact lies.methods _ declared decl rfl b found

end ItemTree

/-- The syntax tree and the item tree of any text have their places in the text. -/
theorem Text.trees_lie (text : Text) : (Java.parse text).LiesIn text ∧ (ItemTree.ofText text).LiesIn text :=
  ⟨Java.parse_liesIn text,ItemTree.ofUnit_liesIn (Java.parse_liesIn text)⟩

end Transplant
