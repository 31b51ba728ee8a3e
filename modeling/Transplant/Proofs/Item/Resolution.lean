import Transplant.Proofs.Body.Scoping
import Transplant.Proofs.Body.Sight
import Transplant.Proofs.Item.Bodies

/-! What a name stands for, told from where it stands: by the variables declared before it, the
parameters, and the classes around the method. -/
namespace Transplant

open Java (Param Block)

/-- The first member of a list that has the property. -/
def IsFirst {α : Type} (p : α → Prop) (list : List α) (a : α) : Prop :=
  p a ∧ ∃ before after, list = before ++ a :: after ∧ ∀ other ∈ before, ¬ p other

theorem find?_eq_some_iff_isFirst {α : Type} {p : α → Bool} {list : List α} {a : α} :
    list.find? p = some a ↔ IsFirst (p · = true) list a := by
  simp [List.find?_eq_some_iff_append,IsFirst]

/-- The latest declaration of the name before it that belongs to a block, loop or clause around it. -/
def Occurrence.Finds (occurrence : Occurrence) (id : LocalId) : Prop :=
  ∃ front made back, occurrence.before = front ++ made :: back ∧ front.length = id ∧
    made.name = occurrence.name ∧ made.owner <:+ occurrence.place ∧
    ∀ later ∈ back, later.name = occurrence.name → ¬ later.owner <:+ occurrence.place

namespace ItemTree

variable {β : Type} (tree : ItemTree β)

/-- The classes from one out to the top of the file. -/
inductive Chain : ClassId → List ClassId → Prop where
  | top {id : ClassId} (outermost : (tree.classes[id]?).bind (·.outer) = none) : Chain id [id]
  | inner {id outer : ClassId} {others : List ClassId} (inside : (tree.classes[id]?).bind (·.outer) = some outer)
      (rest : Chain outer others) : Chain id (id :: others)

/-- Where a class is looked for: each class of the chain followed by its member classes, then those
at the top of the file. -/
def candidates (chain : List ClassId) : List ClassId :=
  (chain.flatMap fun id => id :: ((tree.classes[id]?).map (·.nested)).getD []) ++ tree.items

def IsNamed (name : String) (id : ClassId) : Prop := ∃ item, tree.classes[id]? = some item ∧ item.name = name

/-- The class declares a field of the name. -/
def Declares (name : String) (item : Class β) : Prop := ∃ field ∈ item.fields, field.name.text = name

end ItemTree

/-- What an occurrence of a name in a method stands for, given the chain of classes from that of the
method on. -/
inductive Occurrence.Means {β : Type} (tree : ItemTree β) (chain : List ClassId) (params : List Param)
    (occurrence : Occurrence) : Resolution → Prop where
  | localVar (id : LocalId) (found : occurrence.Finds id) : Means tree chain params occurrence (.localVar id)
  | param (noLocal : ∀ id, ¬ occurrence.Finds id) (index : Nat) (param : Param)
      (found : params[index]? = some param) (named : param.name.text = occurrence.name)
      (first : ∀ earlier < index, ∀ other, params[earlier]? = some other → other.name.text ≠ occurrence.name) :
      Means tree chain params occurrence (.param index)
  | field (noLocal : ∀ id, ¬ occurrence.Finds id) (noParam : ∀ param ∈ params, param.name.text ≠ occurrence.name)
      (item : Class β) (field : Field)
      (innermost : IsFirst (ItemTree.Declares occurrence.name) (chain.filterMap (tree.classes[·]?)) item)
      (first : IsFirst (·.name.text = occurrence.name) item.fields field) :
      Means tree chain params occurrence (.field ⟨occurrence.name,item.qualifiedName,field.isStatic⟩)
  | type (noLocal : ∀ id, ¬ occurrence.Finds id) (noParam : ∀ param ∈ params, param.name.text ≠ occurrence.name)
      (noField : ∀ item ∈ chain.filterMap (tree.classes[·]?), ¬ ItemTree.Declares occurrence.name item)
      (id : ClassId) (item : Class β) (first : IsFirst (tree.IsNamed occurrence.name) (tree.candidates chain) id)
      (known : tree.classes[id]? = some item) : Means tree chain params occurrence (.type item.qualifiedName)
  | capital (noLocal : ∀ id, ¬ occurrence.Finds id) (noParam : ∀ param ∈ params, param.name.text ≠ occurrence.name)
      (noField : ∀ item ∈ chain.filterMap (tree.classes[·]?), ¬ ItemTree.Declares occurrence.name item)
      (noType : ∀ id ∈ tree.candidates chain, ¬ tree.IsNamed occurrence.name id)
      (capital : ∃ c ∈ occurrence.name.toList.head?, 'A' ≤ c ∧ c ≤ 'Z') :
      Means tree chain params occurrence (.type occurrence.name)
  | unresolved (noLocal : ∀ id, ¬ occurrence.Finds id)
      (noParam : ∀ param ∈ params, param.name.text ≠ occurrence.name)
      (noField : ∀ item ∈ chain.filterMap (tree.classes[·]?), ¬ ItemTree.Declares occurrence.name item)
      (noType : ∀ id ∈ tree.candidates chain, ¬ tree.IsNamed occurrence.name id)
      (small : ¬ ∃ c ∈ occurrence.name.toList.head?, 'A' ≤ c ∧ c ≤ 'Z') :
      Means tree chain params occurrence .unresolved

/-! Looking up against these descriptions. -/

theorem inForce_append (place : Address) (before : List Declaration) (last : Declaration) :
    inForce place (before ++ [last]) =
      (if last.owner <:+ place then [(last.name,before.length)] else []) ++ inForce place before := by
  rw [inForce,localsOf_append,inForce,Nat.zero_add]
  congr 1
  by_cases around : last.owner <:+ place <;> simp [localsOf,around]

theorem find?_localsOf {keep : Declaration → Bool} {start : Nat} {made : List Declaration} {name : String}
    (absent : ∀ one ∈ made, one.name = name → keep one = false) :
    (localsOf keep start made).find? (·.1 == name) = none := by
  refine List.find?_eq_none.mpr fun entry member same => ?_
  obtain ⟨numbered,listed,rfl⟩ := List.mem_map.mp (List.mem_reverse.mp member)
  obtain ⟨inside,kept⟩ := List.mem_filter.mp listed
  rw [absent _ (List.fst_mem_of_mem_zipIdx inside) (beq_iff_eq.mp same)] at kept
  cases kept

/-- The first variable of the name among those in force is the latest one declared. -/
theorem find?_inForce (place : Address) (name : String) (before : List Declaration) (entry : String × LocalId)
    (found : (inForce place before).find? (·.1 == name) = some entry) :
    ∃ front made back, before = front ++ made :: back ∧ front.length = entry.2 ∧ made.name = name ∧
      made.owner <:+ place ∧ ∀ later ∈ back, later.name = name → ¬ later.owner <:+ place := by
  induction before using List.reverseRecOn with
  | nil => cases found
  | append_singleton before last ih =>
    rw [inForce_append,List.find?_append] at found
    by_cases own : last.owner <:+ place ∧ last.name = name
    · simp only [own.1,own.2,if_true,List.find?_singleton,beq_self_eq_true,Option.some_or,Option.some.injEq] at found
      exact ⟨before,last,[],rfl,by rw [← found],own.2,own.1,nofun⟩
    · have skipped : (if last.owner <:+ place then [(last.name,before.length)] else []).find? (·.1 == name) = none := by
        split
        · simpa using fun same => own ⟨‹_›,same⟩
        · rfl
      rw [skipped,Option.none_or] at found
      obtain ⟨front,made,back,rfl,number,named,around,latest⟩ := ih found
      refine ⟨front,made,back ++ [last],by simp,number,named,around,fun later member same inside => ?_⟩
      rcases List.mem_append.mp member with early | here
      · exact latest later early same inside
      · cases List.mem_singleton.mp here
        exact own ⟨inside,same⟩

theorem find?_inForce_iff (occurrence : Occurrence) (entry : String × LocalId) :
    (inForce occurrence.place occurrence.before).find? (·.1 == occurrence.name) = some entry ↔
      entry.1 = occurrence.name ∧ occurrence.Finds entry.2 := by
  constructor
  · intro found
    exact ⟨by simpa using List.find?_some found,find?_inForce _ _ _ entry found⟩
  · rintro ⟨named,front,made,back,split,number,same,around,latest⟩
    have later : (localsOf (fun one => decide (one.owner <:+ occurrence.place)) (0 + (front ++ [made]).length) back).find?
        (·.1 == occurrence.name) = none :=
      find?_localsOf fun one member same => decide_eq_false (latest one member same)
    rw [split,← List.singleton_append,← List.append_assoc,inForce,localsOf_append,List.find?_append,later,Option.none_or]
    rw [← inForce,inForce_append,if_pos around,List.singleton_append,List.find?_cons_of_pos (by simpa using same)]
    exact congrArg some (Prod.ext (same.trans named.symm) number)

theorem find?_inForce_none (occurrence : Occurrence) :
    (inForce occurrence.place occurrence.before).find? (·.1 == occurrence.name) = none ↔
      ∀ id, ¬ occurrence.Finds id := by
  constructor
  · intro none id found
    have some := (find?_inForce_iff occurrence (occurrence.name,id)).mpr ⟨rfl,found⟩
    rw [none] at some
    cases some
  · intro none
    refine Option.eq_none_iff_forall_ne_some.mpr fun entry found => ?_
    exact none entry.2 ((find?_inForce_iff occurrence entry).mp found).2

namespace Scope

variable {β : Type} (scope : Scope β) (name : String)

theorem param?_eq_some_iff (index : Nat) : scope.param? name = some index ↔ ∃ param, scope.params[index]? = some param ∧
    param.name.text = name ∧ ∀ earlier < index, ∀ other, scope.params[earlier]? = some other → other.name.text ≠ name := by
  rw [param?,List.findIdx?_eq_some_iff_getElem]
  constructor
  · rintro ⟨known,named,first⟩
    refine ⟨_,List.getElem?_eq_getElem known,beq_iff_eq.mp named,fun earlier before other found => ?_⟩
    obtain ⟨_,rfl⟩ := List.getElem?_eq_some_iff.mp found
    exact fun same => first earlier before (beq_iff_eq.mpr same)
  · rintro ⟨param,found,named,first⟩
    obtain ⟨known,rfl⟩ := List.getElem?_eq_some_iff.mp found
    refine ⟨known,beq_iff_eq.mpr named,fun earlier before same => ?_⟩
    exact first earlier before _ (List.getElem?_eq_getElem _) (beq_iff_eq.mp same)

theorem param?_eq_none_iff : scope.param? name = none ↔ ∀ param ∈ scope.params, param.name.text ≠ name := by
  simp [param?,List.findIdx?_eq_none_iff]

theorem fieldOf?_eq_some_iff (item : Class β) (target : FieldRef) : fieldOf? name item = some target ↔
    ∃ field, IsFirst (·.name.text = name) item.fields field ∧ target = ⟨name,item.qualifiedName,field.isStatic⟩ := by
  simp only [fieldOf?,Option.map_eq_some_iff,find?_eq_some_iff_isFirst,beq_iff_eq]
  constructor
  · rintro ⟨field,first,rfl⟩
    exact ⟨field,first,by rw [first.1]⟩
  · rintro ⟨field,first,rfl⟩
    exact ⟨field,first,by rw [first.1]⟩

theorem fieldOf?_eq_none_iff (item : Class β) : fieldOf? name item = none ↔ ¬ ItemTree.Declares name item := by
  simp [fieldOf?,ItemTree.Declares]

theorem field?_eq_some_iff (target : FieldRef) : scope.field? name = some target ↔
    ∃ item field, IsFirst (ItemTree.Declares name) scope.enclosing item ∧
      IsFirst (·.name.text = name) item.fields field ∧ target = ⟨name,item.qualifiedName,field.isStatic⟩ := by
  simp only [field?,List.findSome?_eq_some_iff,fieldOf?_eq_some_iff,fieldOf?_eq_none_iff]
  constructor
  · rintro ⟨before,item,after,split,⟨field,first,same⟩,others⟩
    have declares : ItemTree.Declares name item := by
      obtain ⟨named,front,back,listed,_⟩ := first
      exact ⟨field,by simp [listed],named⟩
    exact ⟨item,field,⟨declares,before,after,split,others⟩,first,same⟩
  · rintro ⟨item,field,⟨_,before,after,split,others⟩,first,same⟩
    exact ⟨before,item,after,split,⟨field,first,same⟩,others⟩

theorem field?_eq_none_iff : scope.field? name = none ↔ ∀ item ∈ scope.enclosing, ¬ ItemTree.Declares name item := by
  simp only [field?,List.findSome?_eq_none_iff,fieldOf?_eq_none_iff]

theorem isNamed_iff (id : ClassId) : scope.isNamed name id = true ↔ scope.tree.IsNamed name id := by
  simp [isNamed,ItemTree.IsNamed,Option.any_eq_true]

/-- A class is the first candidate of its name. -/
theorem class?_eq : scope.class? name =
    (scope.tree.candidates (scope.tree.enclosing scope.owner)).find? (scope.isNamed name) := by
  simp only [class?,ItemTree.candidates,List.find?_append,List.find?_flatMap,List.find?_cons]
  congr 2
  funext id
  cases scope.isNamed name id with
  | true => rfl
  | false => cases scope.tree.classes[id]? <;> rfl

theorem class?_eq_some_iff (id : ClassId) : scope.class? name = some id ↔
    IsFirst (scope.tree.IsNamed name) (scope.tree.candidates (scope.tree.enclosing scope.owner)) id := by
  simp only [class?_eq,find?_eq_some_iff_isFirst,isNamed_iff]

theorem class?_eq_none_iff : scope.class? name = none ↔
    ∀ id ∈ scope.tree.candidates (scope.tree.enclosing scope.owner), ¬ scope.tree.IsNamed name id := by
  simp only [class?_eq,List.find?_eq_none,isNamed_iff]

theorem isCapital_iff : name.toList.head?.any Char.isUpper = true ↔
    ∃ c ∈ name.toList.head?, 'A' ≤ c ∧ c ≤ 'Z' := by
  rw [Option.any_eq_true]
  exact exists_congr fun c => and_congr_right fun _ => decide_eq_true_iff

/-- Looking a name up gives what it means, and only that. -/
theorem means_resolve (occurrence : Occurrence) : occurrence.Means scope.tree (scope.tree.enclosing scope.owner)
    scope.params (scope.resolve (inForce occurrence.place occurrence.before) occurrence.name) := by
  unfold resolve
  cases locals : (inForce occurrence.place occurrence.before).find? (·.1 == occurrence.name) with
  | some entry => exact .localVar _ ((find?_inForce_iff _ _).mp locals).2
  | none =>
    have noLocal := (find?_inForce_none _).mp locals
    cases params : scope.param? occurrence.name with
    | some index =>
      obtain ⟨param,found,named,first⟩ := (scope.param?_eq_some_iff _ _).mp params
      exact .param noLocal index param found named first
    | none =>
      have noParam := (scope.param?_eq_none_iff _).mp params
      cases fields : scope.field? occurrence.name with
      | some target =>
        obtain ⟨item,field,innermost,first,rfl⟩ := (scope.field?_eq_some_iff _ _).mp fields
        exact .field noLocal noParam item field innermost first
      | none =>
        have noField := (scope.field?_eq_none_iff _).mp fields
        simp only [type?]
        cases classes : scope.class? occurrence.name with
        | some id =>
          have first := (scope.class?_eq_some_iff _ _).mp classes
          obtain ⟨item,known,_⟩ := first.1
          simp only [Option.bind_some,known]
          exact .type noLocal noParam noField id item first known
        | none =>
          have noType := (scope.class?_eq_none_iff _).mp classes
          rw [Option.bind_none]
          by_cases capital : occurrence.name.toList.head?.any Char.isUpper = true
          · simp only [if_pos capital]
            exact .capital noLocal noParam noField noType ((isCapital_iff _).mp capital)
          · simp only [if_neg capital]
            exact .unresolved noLocal noParam noField noType (mt (isCapital_iff _).mpr capital)

theorem resolve_of_means (occurrence : Occurrence) (resolution : Resolution)
    (means : occurrence.Means scope.tree (scope.tree.enclosing scope.owner) scope.params resolution) :
    scope.resolve (inForce occurrence.place occurrence.before) occurrence.name = resolution := by
  cases means with
  | localVar id found =>
    have locals := (find?_inForce_iff occurrence (occurrence.name,id)).mpr ⟨rfl,found⟩
    simp only [resolve,locals]
  | param noLocal index param found named first =>
    have locals := (find?_inForce_none _).mpr noLocal
    have params := (scope.param?_eq_some_iff _ _).mpr ⟨param,found,named,first⟩
    simp only [resolve,locals,params]
  | field noLocal noParam item field innermost first =>
    have locals := (find?_inForce_none _).mpr noLocal
    have params := (scope.param?_eq_none_iff _).mpr noParam
    have fields := (scope.field?_eq_some_iff _ _).mpr ⟨item,field,innermost,first,rfl⟩
    simp only [resolve,locals,params,fields]
  | type noLocal noParam noField id item first known =>
    have locals := (find?_inForce_none _).mpr noLocal
    have params := (scope.param?_eq_none_iff _).mpr noParam
    have fields := (scope.field?_eq_none_iff _).mpr noField
    have classes := (scope.class?_eq_some_iff _ _).mpr first
    simp only [resolve,locals,params,fields,type?,classes,Option.bind_some,known]
  | capital noLocal noParam noField noType capital =>
    have locals := (find?_inForce_none _).mpr noLocal
    have params := (scope.param?_eq_none_iff _).mpr noParam
    have fields := (scope.field?_eq_none_iff _).mpr noField
    have classes := (scope.class?_eq_none_iff _).mpr noType
    simp only [resolve,locals,params,fields,type?,classes,Option.bind_none,(isCapital_iff _).mpr capital,if_true]
  | unresolved noLocal noParam noField noType small =>
    have locals := (find?_inForce_none _).mpr noLocal
    have params := (scope.param?_eq_none_iff _).mpr noParam
    have fields := (scope.field?_eq_none_iff _).mpr noField
    have classes := (scope.class?_eq_none_iff _).mpr noType
    simp only [resolve,locals,params,fields,type?,classes,Option.bind_none]
    rw [if_neg (mt (isCapital_iff _).mp small)]

end Scope

namespace Outline

/-- The classes from number `next` on lie in classes with smaller numbers, and own their methods. -/
def Nested (next : ClassId) (classes : List (Class Block)) : Prop :=
  ∀ k item, classes[k]? = some item →
    (∀ outer, item.outer = some outer → outer < next + k) ∧ ∀ method ∈ item.methods, method.owner = next + k

theorem Nested.append {next : ClassId} {early late : List (Class Block)} (first : Nested next early)
    (second : Nested (next + early.length) late) : Nested next (early ++ late) := by
  intro k item found
  rcases Nat.lt_or_ge k early.length with inside | behind
  · exact first k item ((List.getElem?_append_left inside).symm.trans found)
  · have given := second _ item ((List.getElem?_append_right behind).symm.trans found)
    rwa [Nat.add_assoc,Nat.add_sub_cancel' behind] at given

theorem nested_nil (next : ClassId) : Nested next [] := by simp [Nested]

theorem mem_methods_owner {owner : ClassId} {declaringType : String} {members : List Java.Member}
    {source : Method Block} (listed : source ∈ methods owner declaringType members) : source.owner = owner := by
  rw [methods_eq] at listed
  obtain ⟨member,_,picked⟩ := List.mem_filterMap.mp listed
  cases member <;> cases picked
  rfl

theorem Nested.cons {next : ClassId} {item : Class Block} {classes : List (Class Block)}
    (outer : ∀ around, item.outer = some around → around < next)
    (owners : ∀ method ∈ item.methods, method.owner = next) (rest : Nested (next + 1) classes) :
    Nested next (item :: classes) := by
  have first : Nested next [item] := by
    intro k other found
    cases k with
    | zero =>
      cases found
      exact ⟨outer,owners⟩
    | succ k => cases found
  exact first.append rest

theorem classesOfType_nested :
    (∀ id outer qualifier decl, (∀ around, outer = some around → around < id) →
      Nested id (classesOfType id outer qualifier decl)) ∧
    (∀ next owner qualifier members, owner < next →
      Nested next (classesOfMembers next owner qualifier members).2) := by
  apply classes_induction
  case type =>
    intro id outer qualifier decl inside earlier
    rw [classesOfType_eq]
    exact .cons earlier (fun method listed => mem_methods_owner listed) (inside (Nat.lt_succ_self id))
  case nil => exact fun next _ _ _ => nested_nil next
  case nested =>
    intro next owner qualifier decl rest first others earlier
    rw [classesOfMembers_type]
    refine (first fun around same => ?_).append (others (Nat.lt_add_right _ earlier))
    cases same
    exact earlier
  case other =>
    intro next owner qualifier member rest noType others
    rw [classesOfMembers_other noType]
    exact others

theorem classesOfTypes_nested (next : ClassId) (qualifier : String) (types : List Java.TypeDecl) :
    Nested next (classesOfTypes next qualifier types).2 := by
  induction types generalizing next with
  | nil => exact nested_nil next
  | cons decl rest ih => exact (classesOfType_nested.1 next none qualifier decl nofun).append (ih _)

end Outline

namespace ItemTree

theorem outline_nested (file : Java.CompilationUnit) : Outline.Nested 0 (outline file).classes :=
  Outline.classesOfTypes_nested 0 _ file.types

/-- Where each class lies in one with a smaller number, the classes around one are all those out to the top. -/
theorem chain_of_smaller {β : Type} (tree : ItemTree β)
    (smaller : ∀ (id : ClassId) item outer, tree.classes[id]? = some item → item.outer = some outer → outer < id)
    (steps : Nat) (id : ClassId) (enough : id < steps) : tree.Chain id (tree.chainFrom steps id) := by
  induction steps generalizing id with
  | zero => exact absurd enough (Nat.not_lt_zero id)
  | succ steps ih =>
    rw [chainFrom]
    cases around : (tree.classes[id]?).bind (·.outer) with
    | none => exact .top around
    | some outer =>
      obtain ⟨item,found,inside⟩ := Option.bind_eq_some_iff.mp around
      exact .inner around (ih outer (Nat.lt_of_lt_of_le (smaller id item outer found inside) (Nat.le_of_lt_succ enough)))

theorem outline_smaller (file : Java.CompilationUnit) (id : ClassId) (item : Class Block) (outer : ClassId)
    (found : (outline file).classes[id]? = some item) (inside : item.outer = some outer) : outer < id := by
  have smaller := (outline_nested file id item found).1 outer inside
  rwa [Nat.zero_add] at smaller

theorem outline_chain (file : Java.CompilationUnit) (steps : Nat) (id : ClassId) (enough : id < steps) :
    (outline file).Chain id ((outline file).chainFrom steps id) :=
  chain_of_smaller _ (outline_smaller file) steps id enough

/-- A method belongs to the class that lists it. -/
theorem outline_owner (file : Java.CompilationUnit) (source : Method Block)
    (member : source ∈ (outline file).methods) :
    ∃ item, (outline file).classes[source.owner]? = some item ∧ source ∈ item.methods := by
  obtain ⟨item,listed,own⟩ := List.mem_flatMap.mp member
  obtain ⟨k,found⟩ := List.mem_iff_getElem?.mp listed
  have owner := (outline_nested file k item found).2 source own
  rw [Nat.zero_add] at owner
  exact ⟨item,owner ▸ found,own⟩

/-- In a method of a file, each name in the table of its body stands in the body as it was read, and
is resolved to what it means there; the names of variables are those of its declarations. -/
structure Resolves (tree : ItemTree Block) (source : Method Block) (block : Block) (body : Body) : Prop where
  owner : ∃ item, tree.classes[source.owner]? = some item ∧ source ∈ item.methods
  names : ∃ chain, tree.Chain source.owner chain ∧ List.Forall₂ (fun use occurrence =>
    use.name = occurrence.name ∧ use.span = occurrence.span ∧
      ∀ resolution, occurrence.Means tree chain source.params resolution ↔ use.resolution = resolution)
    (body.exprs.toList.filterMap ExprNode.nameUse?) block.occurrences
  locals : body.locals.toList.map (·.name.text) = (declarations (block.events [])).map (·.name)
  valid : ∀ name id span, .name name (.localVar id) span ∈ body.exprs.toList →
    ∃ declared, body.locals[id]? = some declared ∧ declared.name.text = name

theorem names_resolve (text : Text) (source : Method Block) (block : Block)
    (member : source ∈ (outline (Java.parse text)).methods) (given : source.body = some block) :
    ∃ body, (source.resolved (outline (Java.parse text))).body = some body ∧
      (outline (Java.parse text)).Resolves source block body := by
  let scope : Scope Block := ⟨outline (Java.parse text),source.owner,source.params⟩
  refine ⟨Body.ofBlock scope block,by simp only [Method.resolved,Method.mapBody,given,Option.map_some,scope],
    outline_owner _ source member,⟨_,outline_chain _ _ _ (Nat.lt_succ_self source.owner),?_⟩,?_,?_⟩
  · rw [Body.ofBlock_occurrences scope block source,List.forall₂_map_left_iff,List.forall₂_same]
    refine fun occurrence _ => ⟨rfl,rfl,fun resolution => ⟨scope.resolve_of_means occurrence resolution,?_⟩⟩
    rintro rfl
    exact scope.means_resolve occurrence
  · rw [Body.ofBlock_locals scope block source]
    exact block.declarations_seen
  · intro name id span listed
    have used : ⟨name,.localVar id,span⟩ ∈ (Body.ofBlock scope block).exprs.toList.filterMap ExprNode.nameUse? :=
      List.mem_filterMap.mpr ⟨_,listed,rfl⟩
    rw [Body.ofBlock_names scope block source] at used
    obtain ⟨visit,met,same⟩ := List.mem_filterMap.mp used
    cases visit with
    | name text visible access place =>
      obtain ⟨rfl,resolved,rfl⟩ := NameUse.mk.inj (Option.some.inj same)
      obtain ⟨declared,found,named⟩ := Scope.resolve_eq_localVar (block.visits_known _ met) resolved
      rw [← Body.ofBlock_locals scope block source,Array.getElem?_toList] at found
      exact ⟨declared,found,named⟩
    | _ => cases same

/-- A variable of a block hides a parameter inside the block and not behind it. -/
theorem names_resolve_shadowing : ∃ source ∈ (outline (Java.parse
    "class A { int x; void m(int p) { { int p = x; p = 1; } p = 2; } }".toList)).methods,
    ∃ block body, source.body = some block ∧
      (body.exprs.toList.filterMap ExprNode.nameUse?).map (·.resolution) =
        [.field ⟨"x","A",false⟩,.localVar 0,.param 0] ∧
      (outline (Java.parse "class A { int x; void m(int p) { { int p = x; p = 1; } p = 2; } }".toList)).Resolves source block body := by
  have evaluated : ∃ source ∈ (outline (Java.parse
      "class A { int x; void m(int p) { { int p = x; p = 1; } p = 2; } }".toList)).methods,
      source.body.isSome = true ∧ (source.resolved (outline (Java.parse
        "class A { int x; void m(int p) { { int p = x; p = 1; } p = 2; } }".toList))).body.map
        (fun body => (body.exprs.toList.filterMap ExprNode.nameUse?).map (·.resolution)) =
          some [.field ⟨"x","A",false⟩,.localVar 0,.param 0] := by
    decide +kernel
  obtain ⟨source,member,bodied,found⟩ := evaluated
  obtain ⟨block,given⟩ := Option.isSome_iff_exists.mp bodied
  obtain ⟨body,tabled,resolved⟩ := names_resolve _ source block member given
  rw [tabled,Option.map_some,Option.some.injEq] at found
  exact ⟨source,member,block,body,given,found,resolved⟩

end ItemTree

end Transplant
