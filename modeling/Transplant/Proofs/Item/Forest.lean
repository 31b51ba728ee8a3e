import Mathlib.Data.List.Range
import Transplant.Proofs.Item.Qualified
import Transplant.Proofs.Java.Origins

/-! The classes of a file as a forest. They have the numbers of their declarations in the order of the source, each is
listed once, in the class around it or at the top, and has the methods of its own declaration with their bodies. -/
namespace Transplant

open Java (Block CompilationUnit Member MethodDecl TypeDecl)

def Java.Member.method? : Member → Option MethodDecl
  | .method decl => some decl
  | _ => none

namespace Outline

theorem methods_map (owner : ClassId) (declaringType : String) (members : List Member) :
    methods owner declaringType members = (members.filterMap Member.method?).map (method owner declaringType) := by
  rw [methods_eq,List.map_filterMap]
  congr 1
  funext member
  cases member <;> rfl

theorem qualify_eq (qualifier name : String) :
    qualify qualifier name = if qualifier = "" then name else qualifier ++ "." ++ name := by
  simp only [qualify,String.isEmpty_iff]

/-- What a class has of its declaration, as number `id` of all classes. -/
structure Made (id : ClassId) (type : TypeDecl) (item : Class Block) : Prop where
  name : item.name = type.name.text
  kind : item.kind = type.kind
  modifiers : item.modifiers = type.modifiers
  span : item.span = type.span
  fields : item.fields = fields type.kind type.members
  methods : item.methods = methods id item.qualifiedName type.members

/-- The numbers are those of the declarations, where the types are numbered from `next` on. -/
def Numbers (next : ClassId) (types : List TypeDecl) : List ClassId → List TypeDecl → Prop :=
  List.Forall₂ fun id decl => ∃ k, id = next + k ∧ types[k]? = some decl

theorem Numbers.ahead {next : ClassId} {types decls : List TypeDecl} {ids : List ClassId}
    (numbers : Numbers next types ids decls) (more : List TypeDecl) : Numbers next (types ++ more) ids decls := by
  refine List.Forall₂.imp ?_ numbers
  rintro id decl ⟨k,rfl,found⟩
  exact ⟨k,rfl,by rwa [List.getElem?_append_left (List.getElem?_eq_some_iff.mp found).1]⟩

theorem Numbers.behind {next : ClassId} {types decls : List TypeDecl} {ids : List ClassId} (early : List TypeDecl)
    (numbers : Numbers (next + early.length) types ids decls) : Numbers next (early ++ types) ids decls := by
  refine List.Forall₂.imp ?_ numbers
  rintro id decl ⟨k,rfl,found⟩
  refine ⟨early.length + k,Nat.add_assoc _ _ _,?_⟩
  rwa [List.getElem?_append_right (Nat.le_add_right _ _),Nat.add_sub_cancel_left]

/-- In a whole file, a number is the place of its declaration. -/
theorem Numbers.file {types decls : List TypeDecl} {ids : List ClassId} (numbers : Numbers 0 types ids decls) :
    List.Forall₂ (fun id decl => types[id]? = some decl) ids decls := by
  refine List.Forall₂.imp ?_ numbers
  rintro id decl ⟨k,rfl,found⟩
  rwa [Nat.zero_add]

/-- The classes with the numbers from `next` on are made of the types, one after the other. Those with the numbers
`ids` are in `holder` as the declarations `tops`, and each of the others is in one of the classes. -/
structure Grown (known : ClassId → Option (Class Block)) (next : ClassId) (holder : Option ClassId) (qualifier : String)
    (ids : List ClassId) (tops types : List TypeDecl) (classes : List (Class Block)) : Prop where
  count : classes.length = types.length
  made : ∀ (k : Nat) item type, classes[k]? = some item → types[k]? = some type → Made (next + k) type item
  tops : Numbers next types ids tops
  parts : ∀ (k : Nat) item type, classes[k]? = some item → types[k]? = some type →
    Numbers next types item.nested (type.members.filterMap Member.type?)
  once : (ids ++ classes.flatMap (·.nested)).Perm (List.range' next classes.length)
  held : ∀ id ∈ ids, ∃ item, known id = some item ∧ item.outer = holder ∧
    item.qualifiedName = qualify qualifier item.name
  inside : ∀ (k : Nat) item, classes[k]? = some item → ∀ inner ∈ item.nested, ∃ other, known inner = some other ∧
    other.outer = some (next + k) ∧ other.qualifiedName = qualify item.qualifiedName other.name
  ascending : ids.Pairwise (· < ·)
  ordered : ∀ item ∈ classes, item.nested.Pairwise (· < ·)

namespace Grown

variable {known : ClassId → Option (Class Block)} {next : ClassId} {holder : Option ClassId} {qualifier : String}
  {ids others : List ClassId} {tops lower types more : List TypeDecl} {classes rest : List (Class Block)}

theorem nil : Grown known next holder qualifier [] [] [] [] where
  count := rfl
  made _ _ _ found := absurd (List.mem_of_getElem? found) List.not_mem_nil
  tops := .nil
  parts _ _ _ found := absurd (List.mem_of_getElem? found) List.not_mem_nil
  once := .nil
  held _ listed := absurd listed List.not_mem_nil
  inside _ _ found := absurd (List.mem_of_getElem? found) List.not_mem_nil
  ascending := .nil
  ordered _ listed := absurd listed List.not_mem_nil

theorem bounds (grown : Grown known next holder qualifier ids tops types classes) {id : ClassId} (listed : id ∈ ids) :
    next ≤ id ∧ id < next + classes.length :=
  List.mem_range'_1.mp (grown.once.subset (List.mem_append_left _ listed))

theorem append (first : Grown known next holder qualifier ids tops types classes)
    (second : Grown known (next + classes.length) holder qualifier others lower more rest) :
    Grown known next holder qualifier (ids ++ others) (tops ++ lower) (types ++ more) (classes ++ rest) where
  count := by rw [List.length_append,List.length_append,first.count,second.count]
  made := by
    intro k item type found declared
    rcases Nat.lt_or_ge k classes.length with early | late
    · rw [List.getElem?_append_left early] at found
      rw [List.getElem?_append_left (first.count ▸ early)] at declared
      exact first.made k item type found declared
    · rw [List.getElem?_append_right late] at found
      rw [List.getElem?_append_right (first.count ▸ late),← first.count] at declared
      have own := second.made _ item type found declared
      rwa [Nat.add_assoc,Nat.add_sub_cancel' late] at own
  tops := List.rel_append (first.tops.ahead more) (Numbers.behind types (first.count ▸ second.tops))
  parts := by
    intro k item type found declared
    rcases Nat.lt_or_ge k classes.length with early | late
    · rw [List.getElem?_append_left early] at found
      rw [List.getElem?_append_left (first.count ▸ early)] at declared
      exact (first.parts k item type found declared).ahead more
    · rw [List.getElem?_append_right late] at found
      rw [List.getElem?_append_right (first.count ▸ late),← first.count] at declared
      exact Numbers.behind types (first.count ▸ second.parts _ item type found declared)
  once := by
    rw [List.flatMap_append,List.length_append,← List.range'_append_1]
    refine .trans ?_ (first.once.append second.once)
    rw [List.append_assoc,List.append_assoc]
    refine .append_left _ ?_
    rw [← List.append_assoc,← List.append_assoc]
    exact List.perm_append_comm.append_right _
  held := List.forall_mem_append.mpr ⟨first.held,second.held⟩
  inside := by
    intro k item found
    rcases Nat.lt_or_ge k classes.length with early | late
    · exact first.inside k item (by rwa [List.getElem?_append_left early] at found)
    · have own := second.inside _ item (by rwa [List.getElem?_append_right late] at found)
      rwa [Nat.add_assoc,Nat.add_sub_cancel' late] at own
  ascending := by
    refine List.pairwise_append.mpr ⟨first.ascending,second.ascending,fun one early two late => ?_⟩
    exact Nat.lt_of_lt_of_le (first.bounds early).2 (second.bounds late).1
  ordered := List.forall_mem_append.mpr ⟨first.ordered,second.ordered⟩

/-- A class is followed by the classes of its members. -/
theorem node {type : TypeDecl} {item : Class Block} (own : known next = some item) (made : Made next type item)
    (around : item.outer = holder) (named : item.qualifiedName = qualify qualifier item.name)
    (inner : Grown known (next + 1) (some next) item.qualifiedName item.nested (type.members.filterMap Member.type?)
      types classes) :
    Grown known next holder qualifier [next] [type] (type :: types) (item :: classes) where
  count := congrArg Nat.succ inner.count
  made := by
    intro k other decl found declared
    cases k with
    | zero =>
      cases found
      cases declared
      exact made
    | succ k =>
      have own := inner.made k other decl found declared
      rwa [Nat.add_assoc,Nat.add_comm 1] at own
  tops := .cons ⟨0,rfl,rfl⟩ .nil
  parts := by
    intro k other decl found declared
    cases k with
    | zero =>
      cases found
      cases declared
      exact Numbers.behind [type] inner.tops
    | succ k => exact Numbers.behind [type] (inner.parts k other decl found declared)
  once := by
    rw [List.length_cons,List.range'_succ]
    exact inner.once.cons next
  held := by
    intro id listed
    obtain rfl := List.mem_singleton.mp listed
    exact ⟨item,own,around,named⟩
  inside := by
    intro k other found
    cases k with
    | zero =>
      cases found
      exact inner.held
    | succ k =>
      have own := inner.inside k other found
      rwa [Nat.add_assoc,Nat.add_comm 1] at own
  ascending := List.pairwise_singleton _ _
  ordered := List.forall_mem_cons.mpr ⟨inner.ascending,inner.ordered⟩

end Grown

theorem classesOfType_grown (known : ClassId → Option (Class Block)) :
    (∀ id outer qualifier decl, NumberedFrom known id (classesOfType id outer qualifier decl) →
      Grown known id outer qualifier [id] [decl] decl.types (classesOfType id outer qualifier decl)) ∧
    (∀ next owner qualifier members, NumberedFrom known next (classesOfMembers next owner qualifier members).2 →
      Grown known next (some owner) qualifier (classesOfMembers next owner qualifier members).1
        (members.filterMap Member.type?) (Member.typesAll members)
        (classesOfMembers next owner qualifier members).2) := by
  apply classes_induction
  case type =>
    intro id outer qualifier decl inside numbered
    rw [classesOfType_eq] at numbered ⊢
    rw [decl.types_eq]
    exact .node numbered.head ⟨rfl,rfl,rfl,rfl,rfl,rfl⟩ rfl rfl (inside numbered.tail)
  case nil => exact fun _ _ _ _ => .nil
  case nested =>
    intro next owner qualifier decl rest first others numbered
    rw [classesOfMembers_type] at numbered ⊢
    exact (first numbered.left).append (others numbered.right)
  case other =>
    intro next owner qualifier member rest noType others
    rw [classesOfMembers_other noType,typesAll_other noType,List.filterMap_cons_none noType]
    exact others

theorem classesOfTypes_grown (known : ClassId → Option (Class Block)) (next : ClassId) (qualifier : String)
    (types : List TypeDecl) (numbered : NumberedFrom known next (classesOfTypes next qualifier types).2) :
    Grown known next none qualifier (classesOfTypes next qualifier types).1 types (types.flatMap TypeDecl.types)
      (classesOfTypes next qualifier types).2 := by
  induction types generalizing next with
  | nil => exact .nil
  | cons decl rest ih =>
    exact ((classesOfType_grown known).1 next none qualifier decl numbered.left).append (ih _ numbered.right)

/-- In the forest of a whole file, the classes that are in no other are those at the top. -/
theorem Grown.listed_iff {qualifier : String} {ids : List ClassId} {tops types : List TypeDecl}
    {classes : List (Class Block)} (grown : Grown (classes[·]?) 0 none qualifier ids tops types classes) {id : ClassId}
    {item : Class Block}
    (found : classes[id]? = some item) : id ∈ ids ↔ item.outer = none := by
  constructor
  · intro listed
    obtain ⟨_,same,outermost,_⟩ := grown.held id listed
    cases found.symm.trans same
    exact outermost
  · intro outermost
    have place : id ∈ List.range' 0 classes.length :=
      List.mem_range'_1.mpr ⟨Nat.zero_le _,(Nat.zero_add _).symm ▸ (List.getElem?_eq_some_iff.mp found).1⟩
    refine (List.mem_append.mp (grown.once.symm.subset place)).resolve_right fun inner => ?_
    obtain ⟨around,member,listed⟩ := List.mem_flatMap.mp inner
    obtain ⟨k,known⟩ := List.mem_iff_getElem?.mp member
    obtain ⟨_,same,inside,_⟩ := grown.inside k around known id listed
    cases found.symm.trans same
    cases outermost.symm.trans inside

/-- A class is among those inside another when that is the one around it. -/
theorem Grown.nested_iff {qualifier : String} {ids : List ClassId} {tops types : List TypeDecl}
    {classes : List (Class Block)} (grown : Grown (classes[·]?) 0 none qualifier ids tops types classes)
    {id outer : ClassId} {item around : Class Block}
    (found : classes[id]? = some item) (known : classes[outer]? = some around) :
    id ∈ around.nested ↔ item.outer = some outer := by
  constructor
  · intro listed
    obtain ⟨_,same,inside,_⟩ := grown.inside outer around known id listed
    rw [Nat.zero_add] at inside
    cases found.symm.trans same
    exact inside
  · intro inside
    have place : id ∈ List.range' 0 classes.length :=
      List.mem_range'_1.mpr ⟨Nat.zero_le _,(Nat.zero_add _).symm ▸ (List.getElem?_eq_some_iff.mp found).1⟩
    rcases List.mem_append.mp (grown.once.symm.subset place) with top | inner
    · cases ((grown.listed_iff found).mp top).symm.trans inside
    · obtain ⟨other,member,listed⟩ := List.mem_flatMap.mp inner
      obtain ⟨k,place⟩ := List.mem_iff_getElem?.mp member
      obtain ⟨_,same,own,_⟩ := grown.inside k other place id listed
      rw [Nat.zero_add] at own
      cases found.symm.trans same
      cases own.symm.trans inside
      cases place.symm.trans known
      exact listed

end Outline

/-- The method is that of the declaration, in class number `id` of the file. -/
structure Method.Lowers (unit : CompilationUnit) (id : ClassId) (qualifiedName : String) (decl : MethodDecl)
    (method : Method Body) : Prop where
  name : method.name = decl.name
  params : method.params = decl.params
  owner : method.owner = id
  declaringType : method.declaringType = qualifiedName
  bodied : method.body.isSome = decl.body.isSome
  body : method.body = decl.body.map (Body.ofBlock ⟨.outline unit,id,decl.params⟩)

/-- The class is that of the declaration, as number `id` of the file. -/
structure Class.Lowers (unit : CompilationUnit) (id : ClassId) (decl : TypeDecl) (item : Class Body) : Prop where
  name : item.name = decl.name.text
  kind : item.kind = decl.kind
  modifiers : item.modifiers = decl.modifiers
  span : item.span = decl.span
  fields : item.fields = Outline.fields decl.kind decl.members
  methods : List.Forall₂ (Method.Lowers unit id item.qualifiedName) (decl.members.filterMap Member.method?) item.methods

namespace ItemTree

/-- What the qualified name of a class begins with: that of the class around it, or else the package. -/
def qualifierOf {β : Type} (tree : ItemTree β) (item : Class β) : String :=
  match item.outer with
  | some outer => ((tree.classes[outer]?).map (·.qualifiedName)).getD ""
  | none => tree.package.getD ""

/-- The classes are those of the types of the file, in their order, and form a forest. -/
structure IsForest (unit : CompilationUnit) (tree : ItemTree Body) : Prop where
  count : tree.classes.length = unit.allTypes.length
  declared : ∀ (id : ClassId) item decl, tree.classes[id]? = some item → unit.allTypes[id]? = some decl →
    item.Lowers unit id decl
  numbered : List.Forall₂ (fun id decl => unit.allTypes[id]? = some decl) tree.items unit.types
  parts : ∀ (id : ClassId) item decl, tree.classes[id]? = some item → unit.allTypes[id]? = some decl →
    List.Forall₂ (fun inner member => unit.allTypes[inner]? = some member) item.nested
      (decl.members.filterMap Member.type?)
  once : (tree.items ++ tree.classes.flatMap (·.nested)).Perm (List.range tree.classes.length)
  ascending : tree.items.Pairwise (· < ·) ∧ ∀ item ∈ tree.classes, item.nested.Pairwise (· < ·)
  top : ∀ (id : ClassId) item, tree.classes[id]? = some item → (id ∈ tree.items ↔ item.outer = none)
  inside : ∀ (id outer : ClassId) item around, tree.classes[id]? = some item → tree.classes[outer]? = some around →
    (id ∈ around.nested ↔ item.outer = some outer)
  smaller : ∀ (id : ClassId) item outer, tree.classes[id]? = some item → item.outer = some outer → outer < id
  chain : ∀ id < tree.classes.length, tree.Chain id (tree.enclosing id) ∧
    ∃ last ∈ tree.items, (tree.enclosing id).getLast? = some last
  qualified : ∀ item ∈ tree.classes, item.qualifiedName =
    if tree.qualifierOf item = "" then item.name else tree.qualifierOf item ++ "." ++ item.name

theorem qualifierOf_resolved (unit : CompilationUnit) (source : Class Block) :
    (ofUnit unit).qualifierOf (source.resolved (outline unit)) = (outline unit).qualifierOf source := by
  show (match source.outer with
    | some outer => (((ofUnit unit).classes[outer]?).map (·.qualifiedName)).getD ""
    | none => (outline unit).package.getD "") = (outline unit).qualifierOf source
  rw [qualifierOf]
  cases source.outer with
  | none => rfl
  | some outer =>
    simp only [ofUnit,List.getElem?_map,Option.map_map]
    rfl

theorem outline_grown (unit : CompilationUnit) : Outline.Grown ((outline unit).classes[·]?) 0 none
    ((outline unit).package.getD "") (outline unit).items unit.types unit.allTypes (outline unit).classes :=
  Outline.classesOfTypes_grown _ 0 _ unit.types fun k item found => by
    rw [Nat.zero_add]
    exact found

/-- The last class out from one is at the top. -/
theorem Chain.last {β : Type} {tree : ItemTree β} {id : ClassId} {chain : List ClassId} (leads : tree.Chain id chain)
    (bounded : ∀ (id : ClassId) item outer, tree.classes[id]? = some item → item.outer = some outer →
      outer < tree.classes.length) (known : id < tree.classes.length) :
    ∃ (last : ClassId) (item : Class β), chain.getLast? = some last ∧ tree.classes[last]? = some item ∧
      item.outer = none := by
  induction leads with
  | @top id outermost =>
    rw [List.getElem?_eq_getElem known] at outermost
    exact ⟨id,_,rfl,List.getElem?_eq_getElem known,outermost⟩
  | @inner id outer others inside rest ih =>
    obtain ⟨item,found,around⟩ := Option.bind_eq_some_iff.mp inside
    obtain ⟨last,other,ends,given⟩ := ih (bounded id item outer found around)
    refine ⟨last,other,?_,given⟩
    rw [List.getLast?_cons,ends]
    rfl

theorem outline_qualifiedName (unit : CompilationUnit) {source : Class Block} (listed : source ∈ (outline unit).classes) :
    source.qualifiedName = Outline.qualify ((outline unit).qualifierOf source) source.name := by
  have grown := outline_grown unit
  obtain ⟨id,known⟩ := List.mem_iff_getElem?.mp listed
  cases around : source.outer with
  | none =>
    obtain ⟨_,same,_,named⟩ := grown.held id ((grown.listed_iff known).mpr around)
    cases known.symm.trans same
    simp only [qualifierOf,around]
    exact named
  | some outer =>
    have earlier := (outline_smaller unit id source outer known around).trans (List.getElem?_eq_some_iff.mp known).1
    have its := List.getElem?_eq_getElem earlier
    obtain ⟨_,same,_,named⟩ := grown.inside outer _ its id ((grown.nested_iff known its).mpr around)
    cases known.symm.trans same
    simp only [qualifierOf,around,its]
    exact named

/-- The classes of a file are those of its outline, with the bodies of their methods resolved. -/
theorem exists_source {unit : CompilationUnit} {id : ClassId} {item : Class Body}
    (found : (ofUnit unit).classes[id]? = some item) :
    ∃ source, (outline unit).classes[id]? = some source ∧ item = source.resolved (outline unit) := by
  rw [ofUnit,List.getElem?_map] at found
  obtain ⟨source,known,rfl⟩ := Option.map_eq_some_iff.mp found
  exact ⟨source,known,rfl⟩

theorem ofUnit_smaller (unit : CompilationUnit) (id : ClassId) (item : Class Body) (outer : ClassId)
    (found : (ofUnit unit).classes[id]? = some item) (inside : item.outer = some outer) : outer < id := by
  obtain ⟨source,known,rfl⟩ := exists_source found
  exact outline_smaller unit id source outer known inside

theorem ofUnit_top (unit : CompilationUnit) {id : ClassId} {item : Class Body}
    (found : (ofUnit unit).classes[id]? = some item) : id ∈ (ofUnit unit).items ↔ item.outer = none := by
  obtain ⟨source,known,rfl⟩ := exists_source found
  exact (outline_grown unit).listed_iff known

theorem lowered_isForest (unit : CompilationUnit) : (ofUnit unit).IsForest unit where
  count := (List.length_map _).trans (outline_grown unit).count
  declared := by
    intro id item decl found declared
    obtain ⟨source,known,rfl⟩ := exists_source found
    have made := (outline_grown unit).made id source decl known declared
    rw [Nat.zero_add] at made
    refine ⟨made.name,made.kind,made.modifiers,made.span,made.fields,?_⟩
    show List.Forall₂ _ _ (source.methods.map (Method.resolved (outline unit)))
    rw [made.methods,Outline.methods_map,List.map_map,List.forall₂_map_right_iff,List.forall₂_same]
    exact fun method _ => ⟨rfl,rfl,rfl,rfl,Option.isSome_map,rfl⟩
  numbered := (outline_grown unit).tops.file
  parts := by
    intro id item decl found declared
    obtain ⟨source,known,rfl⟩ := exists_source found
    exact ((outline_grown unit).parts id source decl known declared).file
  once := by
    rw [ofUnit,List.length_map,List.range_eq_range',List.flatMap_map]
    exact (outline_grown unit).once
  ascending := ⟨(outline_grown unit).ascending,List.forall_mem_map.mpr (outline_grown unit).ordered⟩
  top _ _ := ofUnit_top unit
  inside := by
    intro id outer item around found known
    obtain ⟨source,own,rfl⟩ := exists_source found
    obtain ⟨other,its,rfl⟩ := exists_source known
    exact (outline_grown unit).nested_iff own its
  smaller := ofUnit_smaller unit
  chain := by
    intro id known
    have leads := chain_of_smaller (ofUnit unit) (ofUnit_smaller unit) (id + 1) id (Nat.lt_succ_self id)
    refine ⟨leads,?_⟩
    obtain ⟨last,item,ends,found,outermost⟩ := leads.last (fun id item outer found inside =>
      (ofUnit_smaller unit id item outer found inside).trans (List.getElem?_eq_some_iff.mp found).1) known
    exact ⟨last,(ofUnit_top unit found).mpr outermost,ends⟩
  qualified := by
    refine List.forall_mem_map.mpr fun source listed => ?_
    rw [qualifierOf_resolved]
    exact (outline_qualifiedName unit listed).trans (Outline.qualify_eq _ _)

/-- A class in one without a name has its own name for qualified name, with no dot before it. -/
theorem qualified_in_nameless : ¬ ∀ inner ∈ (ofText "class { class B { } }".toList).classes,
    ∀ outer, inner.outer = some outer → ∀ around, (ofText "class { class B { } }".toList).classes[outer]? = some around →
      inner.qualifiedName = around.qualifiedName ++ "." ++ inner.name := by
  intro joined
  have evaluated : (ofText "class { class B { } }".toList).classes.map
      (fun item => (item.outer,item.qualifiedName,item.name)) = [(none,"",""),(some 0,"B","B")] := by decide +kernel
  have second : (((ofText "class { class B { } }".toList).classes.map
      (fun item => (item.outer,item.qualifiedName,item.name)))[1]?) = some (some 0,"B","B") := by rw [evaluated]; rfl
  have first : (((ofText "class { class B { } }".toList).classes.map
      (fun item => (item.outer,item.qualifiedName,item.name)))[0]?) = some (none,"","") := by rw [evaluated]; rfl
  rw [List.getElem?_map,Option.map_eq_some_iff] at first second
  obtain ⟨around,found,outermost⟩ := first
  obtain ⟨inner,known,same⟩ := second
  simp only [Prod.mk.injEq] at outermost same
  have named := joined inner (List.mem_of_getElem? known) 0 same.1 around found
  rw [outermost.2.1,same.2.1,same.2.2] at named
  exact absurd named (by decide)

end ItemTree

end Transplant
