import Mathlib.Data.List.Forall2
import Transplant.Item.Source
import Transplant.Proofs.Java.Placement

/-! Where the classes of a file come from: each is that of one type declaration, and its number finds
it. So a method is that of a declaration in the file, and its body is one that was read among the
tokens of the text, with its boundaries looked up. -/
namespace Transplant

open Java (Block CompilationUnit Member MethodDecl TypeDecl)

def Java.Member.type? : Member → Option TypeDecl
  | .type decl => some decl
  | _ => none

namespace Outline

def field? (kind : Java.TypeKind) : Member → Option Field
  | .field decl => some (field kind decl)
  | _ => none

def method? (owner : ClassId) (declaringType : String) : Member → Option (Method Block)
  | .method decl => some (method owner declaringType decl)
  | _ => none

theorem fields_eq (kind : Java.TypeKind) (members : List Member) :
    fields kind members = members.filterMap (field? kind) := rfl

theorem methods_eq (owner : ClassId) (declaringType : String) (members : List Member) :
    methods owner declaringType members = members.filterMap (method? owner declaringType) := rfl

theorem field?_span {kind : Java.TypeKind} {member : Member} {item : Field}
    (picked : field? kind member = some item) : item.span = member.span := by
  cases member with
  | field decl =>
    cases picked
    rfl
  | _ => cases picked

theorem method?_span {owner : ClassId} {declaringType : String} {member : Member} {item : Method Block}
    (picked : method? owner declaringType member = some item) : item.span = member.span := by
  cases member with
  | method decl =>
    cases picked
    rfl
  | _ => cases picked

theorem type?_span {member : Member} {decl : TypeDecl} (picked : member.type? = some decl) :
    decl.span = member.span := by
  cases member with
  | type decl =>
    cases picked
    rfl
  | _ => cases picked

/-- The class is that of the declaration; `known` gives classes by their numbers. -/
structure Stands (known : ClassId → Option (Class Block)) (decl : TypeDecl) (item : Class Block) : Prop where
  span : item.span = decl.span
  bodySpan : item.bodySpan = decl.bodySpan
  fields : item.fields = fields decl.kind decl.members
  methods : ∃ owner declaringType, item.methods = methods owner declaringType decl.members
  nested : List.Forall₂ (fun id inner => ∃ other, known id = some other ∧ other.span = inner.span)
    item.nested (decl.members.filterMap Member.type?)

/-- The classes have the numbers from `next` on. -/
def NumberedFrom (known : ClassId → Option (Class Block)) (next : ClassId)
    (classes : List (Class Block)) : Prop :=
  ∀ (k : Nat) item, classes[k]? = some item → known (next + k) = some item

variable {known : ClassId → Option (Class Block)} {next : ClassId} {early late : List (Class Block)}
  {item : Class Block}

theorem NumberedFrom.left (numbered : NumberedFrom known next (early ++ late)) :
    NumberedFrom known next early := by
  intro k item found
  have bound := (List.getElem?_eq_some_iff.mp found).1
  exact numbered k item (by rw [List.getElem?_append_left bound,found])

theorem NumberedFrom.right (numbered : NumberedFrom known next (early ++ late)) :
    NumberedFrom known (next + early.length) late := by
  intro k item found
  rw [Nat.add_assoc]
  refine numbered _ item ?_
  rw [List.getElem?_append_right (Nat.le_add_right _ _),Nat.add_sub_cancel_left,found]

theorem NumberedFrom.head (numbered : NumberedFrom known next (item :: late)) :
    known next = some item := numbered 0 item rfl

theorem NumberedFrom.tail (numbered : NumberedFrom known next (item :: late)) :
    NumberedFrom known (next + 1) late :=
  NumberedFrom.right (show NumberedFrom known next ([item] ++ late) from numbered)

/-- Only the types among the members of a type have classes, each with the numbers from the next free one on. -/
theorem classes_induction {p : ClassId → Option ClassId → String → TypeDecl → Prop}
    {q : ClassId → ClassId → String → List Member → Prop}
    (type : ∀ id outer qualifier decl, q (id + 1) id (qualify qualifier decl.name.text) decl.members →
      p id outer qualifier decl)
    (nil : ∀ next owner qualifier, q next owner qualifier [])
    (nested : ∀ next owner qualifier decl rest, p next (some owner) qualifier decl →
      q (next + (classesOfType next (some owner) qualifier decl).length) owner qualifier rest →
      q next owner qualifier (.type decl :: rest))
    (other : ∀ next owner qualifier member rest, member.type? = none → q next owner qualifier rest →
      q next owner qualifier (member :: rest)) :
    (∀ id outer qualifier decl, p id outer qualifier decl) ∧
      ∀ next owner qualifier members, q next owner qualifier members := by
  have all : (∀ decl id outer qualifier, p id outer qualifier decl) ∧
      (∀ members next owner qualifier, q next owner qualifier members) ∧
      ∀ member decl, member = Member.type decl → ∀ id outer qualifier, p id outer qualifier decl := by
    apply TypeDecl.induction_all
    case type =>
      exact fun kind modifiers name span bodySpan members inside id outer qualifier =>
        type id outer qualifier ⟨kind,modifiers,name,span,bodySpan,members⟩ (inside _ _ _)
    case field | method | constructor | initializer =>
      intro _ _ same
      cases same
    case nested =>
      intro decl own _ same
      cases same
      exact own
    case nil => exact nil
    case cons =>
      intro member rest first others next owner qualifier
      cases member with
      | type decl => exact nested next owner qualifier decl rest (first decl rfl _ _ _) (others _ _ _)
      | field | method | constructor | initializer => exact other next owner qualifier _ rest rfl (others _ _ _)
  exact ⟨fun id outer qualifier decl => all.1 decl id outer qualifier,
    fun next owner qualifier members => all.2.1 members next owner qualifier⟩

theorem classesOfType_eq (id : ClassId) (outer : Option ClassId) (qualifier : String) (decl : TypeDecl) :
    classesOfType id outer qualifier decl =
      ⟨decl.kind,decl.modifiers,decl.name.text,qualify qualifier decl.name.text,outer,fields decl.kind decl.members,
        methods id (qualify qualifier decl.name.text) decl.members,
        (classesOfMembers (id + 1) id (qualify qualifier decl.name.text) decl.members).1,decl.span,decl.bodySpan⟩ ::
      (classesOfMembers (id + 1) id (qualify qualifier decl.name.text) decl.members).2 := by
  cases decl
  rfl

theorem classesOfMembers_type (next owner : ClassId) (qualifier : String) (decl : TypeDecl) (rest : List Member) :
    classesOfMembers next owner qualifier (.type decl :: rest) =
      (next :: (classesOfMembers (next + (classesOfType next (some owner) qualifier decl).length) owner qualifier
          rest).1,
        classesOfType next (some owner) qualifier decl ++
          (classesOfMembers (next + (classesOfType next (some owner) qualifier decl).length) owner qualifier
            rest).2) := rfl

theorem classesOfMembers_other {member : Member} (noType : member.type? = none) (next owner : ClassId)
    (qualifier : String) (rest : List Member) :
    classesOfMembers next owner qualifier (member :: rest) = classesOfMembers next owner qualifier rest := by
  cases member with
  | type decl => cases noType
  | _ => rfl

theorem typesAll_other {member : Member} (noType : member.type? = none) (rest : List Member) :
    Member.typesAll (member :: rest) = Member.typesAll rest := by
  cases member with
  | type decl => cases noType
  | _ => rfl

theorem classesOfType_stand (known : ClassId → Option (Class Block)) :
    (∀ id outer qualifier decl, NumberedFrom known id (classesOfType id outer qualifier decl) →
      ∀ item ∈ classesOfType id outer qualifier decl, ∃ type ∈ decl.types, Stands known type item) ∧
    (∀ next owner qualifier members,
      NumberedFrom known next (classesOfMembers next owner qualifier members).2 →
      (∀ item ∈ (classesOfMembers next owner qualifier members).2,
        ∃ type ∈ Member.typesAll members, Stands known type item) ∧
      List.Forall₂ (fun id inner => ∃ other, known id = some other ∧ other.span = inner.span)
        (classesOfMembers next owner qualifier members).1 (members.filterMap Member.type?)) := by
  -- The inner types of a list of members and the numbers of their first classes go side by side.
  apply classes_induction
  case type =>
    intro id outer qualifier decl ih numbered item listed
    rw [classesOfType_eq] at numbered listed
    obtain ⟨all,numbers⟩ := ih numbered.tail
    rcases List.mem_cons.mp listed with rfl | listed
    · exact ⟨decl,decl.types_eq ▸ List.mem_cons_self,rfl,rfl,rfl,⟨_,_,rfl⟩,numbers⟩
    · obtain ⟨type,within,stands⟩ := all item listed
      exact ⟨type,decl.types_eq ▸ List.mem_cons_of_mem _ within,stands⟩
  case nil => exact fun _ _ _ _ => ⟨fun _ listed => absurd listed List.not_mem_nil,.nil⟩
  case nested =>
    intro next owner qualifier decl rest first others numbered
    rw [classesOfMembers_type] at numbered ⊢
    obtain ⟨all,numbers⟩ := others numbered.right
    have head := numbered.left
    rw [classesOfType_eq] at head
    refine ⟨fun item listed => ?_,.cons ⟨_,head.head,rfl⟩ numbers⟩
    rcases List.mem_append.mp listed with early | late
    · obtain ⟨type,inside,stands⟩ := first numbered.left item early
      exact ⟨type,List.mem_append_left _ inside,stands⟩
    · obtain ⟨type,inside,stands⟩ := all item late
      exact ⟨type,List.mem_append_right _ inside,stands⟩
  case other =>
    intro next owner qualifier member rest noType others
    rw [classesOfMembers_other noType,typesAll_other noType,List.filterMap_cons_none noType]
    exact others

theorem classesOfTypes_stand (known : ClassId → Option (Class Block)) (next : ClassId) (qualifier : String)
    (types : List TypeDecl) (numbered : NumberedFrom known next (classesOfTypes next qualifier types).2) :
    ∀ item ∈ (classesOfTypes next qualifier types).2,
      ∃ type ∈ types.flatMap TypeDecl.types, Stands known type item := by
  induction types generalizing next with
  | nil => exact fun _ member => absurd member List.not_mem_nil
  | cons decl rest ih =>
    intro item listed
    rcases List.mem_append.mp listed with early | late
    · have own := (classesOfType_stand known).1 next none qualifier decl numbered.left
      obtain ⟨type,inside,stands⟩ := own item early
      exact ⟨type,List.mem_append_left _ inside,stands⟩
    · obtain ⟨type,inside,stands⟩ := ih _ numbered.right item late
      exact ⟨type,List.mem_append_right _ inside,stands⟩

/-- Each class of a file is that of one of its types. -/
theorem outline_stand (file : CompilationUnit) : ∀ item ∈ (ItemTree.outline file).classes,
    ∃ type ∈ file.allTypes, Stands (fun id => (ItemTree.outline file).classes[id]?) type item :=
  classesOfTypes_stand _ 0 _ file.types fun k item found => by
    rw [Nat.zero_add]
    exact found

end Outline

namespace ItemTree

theorem ofUnit_methods (unit : CompilationUnit) :
    (ofUnit unit).methods = (outline unit).methods.map (Method.resolved (outline unit)) := by
  simp [methods,ofUnit,Class.resolved,List.flatMap_map,List.map_flatMap]

/-- Each method of a file is that of a declaration. -/
theorem mem_outline_methods {file : CompilationUnit} {method : Method Block}
    (listed : method ∈ (outline file).methods) :
    ∃ owner declaringType decl, Member.method decl ∈ file.members ∧
      method = Outline.method owner declaringType decl := by
  obtain ⟨item,classed,inside⟩ := List.mem_flatMap.mp listed
  obtain ⟨type,declared,stands⟩ := Outline.outline_stand file item classed
  obtain ⟨owner,declaringType,methods⟩ := stands.methods
  rw [methods] at inside
  obtain ⟨member,among,picked⟩ := List.mem_filterMap.mp inside
  cases member with
  | method decl =>
    cases picked
    exact ⟨owner,declaringType,decl,List.mem_flatMap.mpr ⟨type,declared,among⟩,rfl⟩
  | _ => cases picked

theorem mem_ofUnit_methods {file : CompilationUnit} {method : Method Body}
    (listed : method ∈ (ofUnit file).methods) :
    ∃ owner declaringType decl, Member.method decl ∈ file.members ∧
      method = (Outline.method owner declaringType decl).resolved (outline file) := by
  rw [ofUnit_methods] at listed
  obtain ⟨_,known,rfl⟩ := List.mem_map.mp listed
  obtain ⟨owner,declaringType,decl,declared,rfl⟩ := mem_outline_methods known
  exact ⟨owner,declaringType,decl,declared,rfl⟩

/-- A body of a method of the text was read, from its brace on, among the tokens of the text, and its
parts are linked. -/
theorem body_read (text : Text) (method : Method Block) (b : Block)
    (member : method ∈ (outline (Java.parse text)).methods) (given : method.body = some b) :
    ∃ read : Block, b = read.mapSpans (Span.map (Java.offset text)) ∧
      read.IsRead ((Java.tokens text).map (·.token)) ∧ read.Links ((Java.tokens text).map (·.token)) := by
  obtain ⟨owner,declaringType,decl,declared,rfl⟩ := mem_outline_methods member
  obtain ⟨file,parsed,sits⟩ := Java.parse_eq text
  rw [parsed,CompilationUnit.members_mapSpans] at declared
  obtain ⟨raw,listed,same⟩ := List.mem_map.mp declared
  obtain ⟨type,among,own⟩ := List.mem_flatMap.mp listed
  cases raw with
  | method read =>
    cases same
    obtain ⟨body,found,rfl⟩ := Option.map_eq_some_iff.mp given
    exact ⟨body,rfl,((sits.types type among).bodies _ own read rfl body found).2⟩
  | _ => cases same

theorem body_linked (text : Text) (method : Method Block) (b : Block)
    (member : method ∈ (outline (Java.parse text)).methods) (given : method.body = some b) :
    b.Linked (· < ·) := by
  obtain ⟨read,rfl,_,links⟩ := body_read text method b member given
  refine (Java.Stmt.linked_mapSpans_all (fun first second parted => ?_)).2.2.1 read links
  obtain ⟨between,known⟩ := parted
  rw [List.length_map] at between known
  exact between.offset_lt known

end ItemTree
end Transplant
