import Transplant.Proofs.Item.Qualified
import Transplant.Proofs.Java.Fields
import Transplant.Proofs.Java.Origins

/-! Fields that are declared. A declaration makes one field of its class, that of the first of its names, and
in the methods of the class this name stands for a field of the class unless a variable or a parameter has it.
The other names of the declaration are lost. -/
namespace Transplant

open Java (Block CompilationUnit FieldDecl Member Modifiers TypeDecl)

/-- Parts that lie one behind the other do not lie in one another. -/
theorem Span.Surrounds.alone {α : Type} {around : Span} {items : List α} {place : α → Span}
    (surrounds : around.Surrounds (items.map place)) {item : α} (listed : item ∈ items) :
    items.filter (fun other => (place item).contains (place other)) = [item] := by
  obtain ⟨before,after,rfl⟩ := List.append_of_mem listed
  obtain ⟨lasting,_,ascending⟩ := surrounds
  rw [List.forall_mem_map] at lasting
  rw [List.pairwise_map,List.pairwise_append,List.pairwise_cons] at ascending
  obtain ⟨_,⟨behind,_⟩,front⟩ := ascending
  have outside (other : α) (among : other ∈ before ++ item :: after)
      (apart : (place other).stop ≤ (place item).start ∨ (place item).stop ≤ (place other).start) :
      ¬ (place item).contains (place other) = true := by
    have last := lasting other among
    rw [Span.contains_iff]
    omega
  rw [List.filter_append,List.filter_cons_of_pos (by simp [Span.contains_iff]),List.filter_eq_nil_iff.mpr,
    List.filter_eq_nil_iff.mpr,List.nil_append]
  · exact fun other among => outside other (by simp [among]) (.inr (behind other among))
  · exact fun other among => outside other (by simp [among]) (.inl (front other among item List.mem_cons_self))

namespace Java

variable {text : Text} {k count : Nat} {flags : Modifiers} {typed name : String} {others : List String}

/-- The text declares fields with `count` tokens from token `k` on. -/
def FieldsAt (text : Text) (k count : Nat) (flags : Modifiers) (typed : String) (names : List String) : Prop :=
  ∃ words rest, ((tokens text).map (·.token)).drop k = words ++ rest ∧ words.length = count ∧
    FieldWords flags typed names words

/-- The place of `count` tokens from token `k` on. -/
def placeOf (text : Text) (k count : Nat) : Span := Span.map (offset text) ⟨2 * k + 1,2 * (k + count)⟩

/-- A member of the type begins at token `k`. -/
def TypeDecl.HasAt (text : Text) (k : Nat) (type : TypeDecl) : Prop :=
  ∃ member ∈ type.members, member.span.start = offset text (2 * k + 1)

/-- The field of a declaration. -/
structure FieldDecl.IsOf (place : Span) (flags : Modifiers) (typed name : String) (decl : FieldDecl) : Prop where
  modifiers : decl.modifiers = flags
  type : decl.type.text = typed
  name : decl.name.text = name
  span : decl.span = place

/-- A member that begins where fields are declared is the field of the first name. -/
theorem member_declared (spelled : FieldsAt text k count flags typed (name :: others)) {type : TypeDecl}
    (listed : type ∈ (parse text).allTypes) {member : Member} (among : member ∈ type.members)
    (begins : member.span.start = offset text (2 * k + 1)) :
    ∃ decl : FieldDecl, member = .field decl ∧ decl.IsOf (placeOf text k count) flags typed name := by
  obtain ⟨words,rest,here,rfl,declares⟩ := spelled
  obtain ⟨read,n,rfl,at'⟩ := parse_readAt text type listed member among
  have lasting := declares.lasting
  have same : k = n := by
    obtain ⟨_,l,_,before,bound,span⟩ := at'
    have known : words.length ≤ (tokens text).length - k := by
      have size := congrArg List.length here
      rw [List.length_drop,List.length_map,List.length_append] at size
      omega
    rw [List.length_map] at bound
    rw [Member.mapSpans_span,span] at begins
    exact (offset_token (by omega) (by omega) begins).symm
  subst same
  obtain ⟨_,owner,next,made⟩ := at'.unfolds
  obtain ⟨typeSpan,nameSpan,field⟩ := MemberLevel.member_fields declares owner
  rw [Cursor.on,here,field,Span.upTo_eq (by omega)] at made
  cases made
  exact ⟨_,rfl,rfl,rfl,rfl,rfl⟩

/-- It is the only member there. -/
theorem members_declared (spelled : FieldsAt text k count flags typed (name :: others)) {type : TypeDecl}
    (listed : type ∈ (parse text).allTypes) (begins : type.HasAt text k) : ∃ decl : FieldDecl,
      type.members.filter (fun member => (placeOf text k count).contains member.span) = [.field decl] ∧
        decl.IsOf (placeOf text k count) flags typed name := by
  obtain ⟨member,among,start⟩ := begins
  obtain ⟨decl,rfl,known⟩ := member_declared spelled listed among start
  have alone := ((parse_liesIn text).members type listed).alone among
  rw [show (Member.field decl).span = placeOf text k count from known.span] at alone
  exact ⟨decl,alone,known⟩

end Java

namespace Outline

open Java (TypeKind)

/-- The fields within a span are those of the members within it. -/
theorem filter_fields (kind : TypeKind) (members : List Member) (place : Span) :
    (fields kind members).filter (fun field => place.contains field.span) =
      fields kind (members.filter fun member => place.contains member.span) := by
  rw [fields_eq,fields_eq,List.filter_filterMap,List.filterMap_filter]
  refine List.filterMap_congr fun member _ => ?_
  cases picked : field? kind member with
  | none => split <;> rfl
  | some field => rw [Option.filter_some,field?_span picked]

/-- The classes are those of all types, in their order. -/
theorem classesOfType_fields :
    (∀ id outer qualifier decl, (classesOfType id outer qualifier decl).map (fun item => (item.span,item.fields)) =
      decl.types.map fun type => (type.span,fields type.kind type.members)) ∧
    (∀ next owner qualifier members,
      (classesOfMembers next owner qualifier members).2.map (fun item => (item.span,item.fields)) =
        (Member.typesAll members).map fun type => (type.span,fields type.kind type.members)) := by
  apply classes_induction
  case type =>
    intro id outer qualifier decl inside
    rw [classesOfType_eq,decl.types_eq,List.map_cons,List.map_cons,inside]
  case nil => exact fun _ _ _ => rfl
  case nested =>
    intro next owner qualifier decl rest first others
    rw [classesOfMembers_type,List.map_append,first,others,← List.map_append]
    rfl
  case other =>
    intro next owner qualifier member rest noType others
    rw [classesOfMembers_other noType,typesAll_other noType]
    exact others

theorem classesOfTypes_fields (next : ClassId) (qualifier : String) (types : List TypeDecl) :
    (classesOfTypes next qualifier types).2.map (fun item => (item.span,item.fields)) =
      (types.flatMap TypeDecl.types).map fun type => (type.span,fields type.kind type.members) := by
  induction types generalizing next with
  | nil => rfl
  | cons decl rest ih =>
    rw [List.flatMap_cons,List.map_append,← ih,← classesOfType_fields.1 next none qualifier decl,← List.map_append]
    rfl

end Outline

/-- In the methods of the class the name stands for a field of the class, where no variable and no parameter has
it. -/
def Class.Knows (tree : ItemTree Block) (item : Class Block) (name : String) : Prop :=
  ∀ source ∈ item.methods, ∀ block, source.body = some block → ∃ body, (source.resolved tree).body = some body ∧
    List.Forall₂ (fun use occurrence => use.name = occurrence.name ∧ use.span = occurrence.span ∧
      (occurrence.name = name → (∀ id, ¬ occurrence.Finds id) → (∀ param ∈ source.params, param.name.text ≠ name) →
        ∃ isStatic, use.resolution = .field ⟨name,item.qualifiedName,isStatic⟩))
      (body.exprs.toList.filterMap ExprNode.nameUse?) block.occurrences

namespace ItemTree

/-- Each type of a file has a class. -/
theorem outline_class {file : CompilationUnit} {type : TypeDecl} (listed : type ∈ file.allTypes) :
    ∃ (id : ClassId) (item : Class Block), (outline file).classes[id]? = some item ∧ item.span = type.span ∧
      item.fields = Outline.fields type.kind type.members := by
  have all := Outline.classesOfTypes_fields 0 ((file.package.map (·.name)).getD "") file.types
  have own : (type.span,Outline.fields type.kind type.members) ∈
      (outline file).classes.map fun item => (item.span,item.fields) := by
    rw [outline,all]
    exact List.mem_map_of_mem listed
  obtain ⟨item,member,same⟩ := List.mem_map.mp own
  obtain ⟨id,found⟩ := List.mem_iff_getElem?.mp member
  exact ⟨id,item,found,congrArg Prod.fst same,congrArg Prod.snd same⟩

/-- The name of a field of a class is known in the class. -/
theorem class_knows {file : CompilationUnit} {id : ClassId} {item : Class Block}
    (found : (outline file).classes[id]? = some item) {field : Field} (listed : field ∈ item.fields) :
    item.Knows (outline file) field.name.text := by
  intro source own block given
  obtain rfl : source.owner = id := by
    have numbered := (outline_nested file id item found).2 source own
    rwa [Nat.zero_add] at numbered
  let scope : Scope Block := ⟨outline file,source.owner,source.params⟩
  refine ⟨Body.ofBlock scope block,by simp only [Method.resolved,Method.mapBody,given,Option.map_some,scope],?_⟩
  rw [Body.ofBlock_occurrences scope block source,List.forall₂_map_left_iff,List.forall₂_same]
  refine fun occurrence _ => ⟨rfl,rfl,fun same noLocal noParam => ?_⟩
  obtain ⟨rest,chain,_⟩ := enclosing_apart file source item found
  have innermost : IsFirst (Declares occurrence.name) (((outline file).enclosing source.owner).filterMap
      ((outline file).classes[·]?)) item := by
    rw [chain]
    exact ⟨⟨field,listed,same.symm⟩,[],rest,rfl,fun _ none => absurd none List.not_mem_nil⟩
  obtain ⟨first,earliest⟩ : ∃ first, item.fields.find? (·.name.text == occurrence.name) = some first :=
    Option.isSome_iff_exists.mp (List.find?_isSome.mpr ⟨field,listed,beq_iff_eq.mpr same.symm⟩)
  rw [find?_eq_some_iff_isFirst] at earliest
  simp only [beq_iff_eq] at earliest
  rw [← same] at noParam
  have means : occurrence.Means (outline file) ((outline file).enclosing source.owner) source.params
      (.field ⟨occurrence.name,item.qualifiedName,first.isStatic⟩) :=
    .field noLocal noParam item first innermost earliest
  refine ⟨first.isStatic,?_⟩
  rw [← same]
  exact scope.resolve_of_means occurrence _ means

/-- What a class has of fields that are declared in it: within the place of the declaration one field, of the
first name, and this name is known in the class. -/
structure HasFirst (tree : ItemTree Block) (place : Span) (flags : Modifiers) (typed name : String) (type : TypeDecl)
    (item : Class Block) : Prop where
  span : item.span = type.span
  field : ∃ decl : FieldDecl, decl.IsOf place flags typed name ∧
    item.fields.filter (fun field => place.contains field.span) = [Outline.field type.kind decl]
  known : item.Knows tree name

/-- However many names a declaration has, its class gets the field of the first of them, and its methods know
it. -/
theorem fields_declared {text : Text} {k count : Nat} {flags : Modifiers} {typed name : String} {others : List String}
    (spelled : Java.FieldsAt text k count flags typed (name :: others)) {type : TypeDecl}
    (listed : type ∈ (Java.parse text).allTypes) (begins : type.HasAt text k) :
      ∃ (id : ClassId) (item : Class Block), (outline (Java.parse text)).classes[id]? = some item ∧
      (ofText text).classes[id]? = some (item.resolved (outline (Java.parse text))) ∧
      (outline (Java.parse text)).HasFirst (Java.placeOf text k count) flags typed name type item := by
  obtain ⟨id,item,found,span,fields⟩ := outline_class listed
  obtain ⟨decl,alone,known⟩ := Java.members_declared spelled listed begins
  have field : item.fields.filter (fun field => (Java.placeOf text k count).contains field.span) =
      [Outline.field type.kind decl] := by
    rw [fields,Outline.filter_fields,alone]
    rfl
  have own : Outline.field type.kind decl ∈ item.fields :=
    List.mem_of_mem_filter (field ▸ List.mem_singleton_self _)
  refine ⟨id,item,found,?_,span,⟨decl,known,field⟩,?_⟩
  · rw [ofText,ofUnit,List.getElem?_map,found]
    rfl
  · have knows := class_knows found own
    rwa [show (Outline.field type.kind decl).name.text = name from known.name] at knows

/-- A value with a comma in braces, and a second name. -/
theorem fields_declared_pair : ∃ (id : ClassId) (item : Class Block) (type : TypeDecl),
    Java.FieldsAt "class A { private int[] x = {1, 2}, y; int m() { return x; } }".toList 3 14
      (Modifiers.none.add "private") "int[]" ["x","y"] ∧
    type ∈ (Java.parse "class A { private int[] x = {1, 2}, y; int m() { return x; } }".toList).allTypes ∧
    type.HasAt "class A { private int[] x = {1, 2}, y; int m() { return x; } }".toList 3 ∧
    (outline (Java.parse "class A { private int[] x = {1, 2}, y; int m() { return x; } }".toList)).classes[id]? =
      some item ∧
    (outline (Java.parse "class A { private int[] x = {1, 2}, y; int m() { return x; } }".toList)).HasFirst
      ⟨10,38⟩ (Modifiers.none.add "private") "int[]" "x" type item := by
  have value : Java.Balanced [.semicolon]
      [.braceOpen,⟨.number,"1"⟩,.comma,⟨.number,"2"⟩,.braceClose] :=
    @Java.Balanced.enclosed _ (.braceOpen,.braceClose) [⟨.number,"1"⟩,.comma,⟨.number,"2"⟩] [] (by decide)
      (.token (by decide) (by decide) (.token (by decide) (by decide) (.token (by decide) (by decide) (.nil _)))) (.nil _)
  have declares : Java.FieldWords (Modifiers.none.add "private") ("int" ++ "" ++ String.join (List.replicate 1 "[]"))
      ["x","y"] _ :=
    .intro 1 (.word (by decide) (.nil _)) (.name "int" [] rfl) (by decide)
      (.more ⟨0,_,rfl,.inr ⟨_,rfl,value⟩⟩ (.last ⟨0,[],rfl,.inl rfl⟩))
  have spelled : Java.FieldsAt "class A { private int[] x = {1, 2}, y; int m() { return x; } }".toList 3 14
      (Modifiers.none.add "private") "int[]" ["x","y"] := by
    refine ⟨_,[Java.word "int",Java.word "m",.parenOpen,.parenClose,.braceOpen,Java.word "return",Java.word "x",
      .semicolon,.braceClose,.braceClose],?_,?_,declares⟩
    · decide +kernel
    · rfl
  have evaluated : ∃ type ∈ (Java.parse
      "class A { private int[] x = {1, 2}, y; int m() { return x; } }".toList).allTypes,
      ∃ member ∈ type.members, member.span.start =
        Java.offset "class A { private int[] x = {1, 2}, y; int m() { return x; } }".toList 7 := by
    decide +kernel
  have place : Java.placeOf "class A { private int[] x = {1, 2}, y; int m() { return x; } }".toList 3 14 = ⟨10,38⟩ := by
    decide +kernel
  obtain ⟨type,listed,begins⟩ := evaluated
  obtain ⟨id,item,found,_,first⟩ := fields_declared spelled listed begins
  exact ⟨id,item,type,spelled,listed,begins,found,place ▸ first⟩

/-- The second of two names is no field, and stands for nothing in a method. -/
theorem second_field_lost :
    Java.FieldsAt "class A { int x, y; int m() { return y; } }".toList 3 5 .none "int" ["x","y"] ∧
    (∃ type ∈ (Java.parse "class A { int x, y; int m() { return y; } }".toList).allTypes,
      type.HasAt "class A { int x, y; int m() { return y; } }".toList 3) ∧
    (ofText "class A { int x, y; int m() { return y; } }".toList).classes.map (·.fields.map (·.name.text)) = [["x"]] ∧
    (ofText "class A { int x, y; int m() { return y; } }".toList).methods.map (fun method => method.body.map fun body =>
      body.exprs.toList.filterMap ExprNode.nameUse?) = [some [⟨"y",.unresolved,⟨37,38⟩⟩]] := by
  have declares : Java.FieldWords .none ("int" ++ "" ++ String.join (List.replicate 0 "[]")) ["x","y"] _ :=
    .intro 0 (.nil _) (.name "int" [] rfl) (by decide) (.more ⟨0,[],rfl,.inl rfl⟩ (.last ⟨0,[],rfl,.inl rfl⟩))
  refine ⟨⟨_,[Java.word "int",Java.word "m",.parenOpen,.parenClose,.braceOpen,Java.word "return",Java.word "y",
    .semicolon,.braceClose,.braceClose],?_,?_,declares⟩,?_,?_,?_⟩
  · decide +kernel
  · rfl
  · have begins : ∃ type ∈ (Java.parse "class A { int x, y; int m() { return y; } }".toList).allTypes,
        ∃ member ∈ type.members, member.span.start =
          Java.offset "class A { int x, y; int m() { return y; } }".toList 7 := by
      decide +kernel
    exact begins
  · decide +kernel
  · decide +kernel

end ItemTree

end Transplant
