import Transplant.Proofs.Item.Resolution

/-! Qualified names. That of a class goes on from that of the class around it, so that among the
classes around a method no other has the qualified name of its own class, unless that is empty. -/
namespace Transplant

open Java (Block)

namespace Outline

theorem length_qualify_le (qualifier name : String) : qualifier.length ≤ (qualify qualifier name).length := by
  rw [qualify]
  split
  · rename_i none
    simp [String.isEmpty_iff.mp none]
  · simp only [String.length_append]
    omega

theorem length_qualify_lt {qualifier name : String} (named : qualify qualifier name ≠ "") :
    qualifier.length < (qualify qualifier name).length := by
  rw [qualify] at named ⊢
  split at named
  · rename_i none
    rw [if_pos none,String.isEmpty_iff.mp none]
    exact Nat.pos_of_ne_zero fun zero => named (String.length_eq_zero_iff.mp zero)
  · rename_i some
    rw [if_neg some]
    simp only [String.length_append]
    have dot : ".".length = 1 := rfl
    omega

theorem mem_methods_declaringType {owner : ClassId} {declaringType : String} {members : List Java.Member}
    {source : Method Block} (listed : source ∈ methods owner declaringType members) :
    source.declaringType = declaringType := by
  rw [methods_eq] at listed
  obtain ⟨member,_,picked⟩ := List.mem_filterMap.mp listed
  cases member <;> cases picked
  rfl

/-- The methods of the class carry its qualified name, which goes on from that of the class around. -/
structure Qualified (known : ClassId → Option (Class Block)) (item : Class Block) : Prop where
  methods : ∀ method ∈ item.methods, method.declaringType = item.qualifiedName
  around : ∀ outer, item.outer = some outer →
    ∃ other, known outer = some other ∧ item.qualifiedName = qualify other.qualifiedName item.name

theorem classesOfType_qualified (known : ClassId → Option (Class Block)) :
    (∀ id outer qualifier decl, NumberedFrom known id (classesOfType id outer qualifier decl) →
      (∀ number, outer = some number → ∃ other, known number = some other ∧ other.qualifiedName = qualifier) →
      ∀ item ∈ classesOfType id outer qualifier decl, Qualified known item) ∧
    (∀ next owner qualifier members,
      NumberedFrom known next (classesOfMembers next owner qualifier members).2 →
      (∃ other, known owner = some other ∧ other.qualifiedName = qualifier) →
      ∀ item ∈ (classesOfMembers next owner qualifier members).2, Qualified known item) := by
  apply classes_induction
  case type =>
    intro id outer qualifier decl inside numbered placed
    rw [classesOfType_eq] at numbered ⊢
    refine List.forall_mem_cons.mpr ⟨⟨fun method listed => mem_methods_declaringType listed,fun number same => ?_⟩,
      inside numbered.tail ⟨_,numbered.head,rfl⟩⟩
    obtain ⟨other,found,named⟩ := placed number same
    exact ⟨other,found,by rw [named]⟩
  case nil => exact fun _ _ _ _ _ _ listed => absurd listed List.not_mem_nil
  case nested =>
    intro next owner qualifier decl rest first others numbered placed
    rw [classesOfMembers_type] at numbered ⊢
    refine List.forall_mem_append.mpr ⟨first numbered.left fun number same => ?_,others numbered.right placed⟩
    cases same
    exact placed
  case other =>
    intro next owner qualifier member rest noType others
    rw [classesOfMembers_other noType]
    exact others

theorem classesOfTypes_qualified (known : ClassId → Option (Class Block)) (next : ClassId) (qualifier : String)
    (types : List Java.TypeDecl) (numbered : NumberedFrom known next (classesOfTypes next qualifier types).2) :
    ∀ item ∈ (classesOfTypes next qualifier types).2, Qualified known item := by
  induction types generalizing next with
  | nil => exact fun _ member => absurd member List.not_mem_nil
  | cons decl rest ih =>
    refine List.forall_mem_append.mpr ⟨?_,ih _ numbered.right⟩
    exact (classesOfType_qualified known).1 next none qualifier decl numbered.left nofun

end Outline

namespace ItemTree

variable (file : Java.CompilationUnit)

theorem outline_qualified : ∀ item ∈ (outline file).classes,
    Outline.Qualified (fun id => (outline file).classes[id]?) item :=
  Outline.classesOfTypes_qualified _ 0 _ file.types fun k item found => by
    rw [Nat.zero_add]
    exact found

/-- Qualified names do not get longer on the way out. -/
theorem chain_shorter {id : ClassId} {chain : List ClassId} (leads : (outline file).Chain id chain)
    {item : Class Block} (known : (outline file).classes[id]? = some item) :
    ∀ around ∈ chain.filterMap ((outline file).classes[·]?),
      around.qualifiedName.length ≤ item.qualifiedName.length := by
  induction leads generalizing item with
  | top outermost => simp [known]
  | @inner id outer others inside rest ih =>
    rw [known,Option.bind_some] at inside
    obtain ⟨other,found,named⟩ := (outline_qualified file item (List.mem_of_getElem? known)).around outer inside
    rw [List.filterMap_cons_some known]
    refine List.forall_mem_cons.mpr ⟨Nat.le_refl _,fun around member => Nat.le_trans (ih found around member) ?_⟩
    rw [named]
    exact Outline.length_qualify_le _ _

/-- Among the classes around a named class, no other has its qualified name. -/
theorem enclosing_apart (source : Method Block) (item : Class Block)
    (known : (outline file).classes[source.owner]? = some item) :
    ∃ rest, ((outline file).enclosing source.owner).filterMap ((outline file).classes[·]?) = item :: rest ∧
      (item.qualifiedName ≠ "" → ∀ around ∈ rest, around.qualifiedName ≠ item.qualifiedName) := by
  have leads := outline_chain file (source.owner + 1) source.owner (Nat.lt_succ_self _)
  rw [enclosing]
  generalize (outline file).chainFrom (source.owner + 1) source.owner = chain at leads
  cases leads with
  | top outermost => exact ⟨[],by simp [known],fun _ _ member => absurd member List.not_mem_nil⟩
  | inner inside rest =>
    rw [known,Option.bind_some] at inside
    obtain ⟨other,found,qualified⟩ := (outline_qualified file item (List.mem_of_getElem? known)).around _ inside
    refine ⟨_,List.filterMap_cons_some known,fun named around member same => ?_⟩
    have longer : other.qualifiedName.length < item.qualifiedName.length := by
      rw [qualified] at named ⊢
      exact Outline.length_qualify_lt named
    have shorter := chain_shorter file rest found around member
    rw [same] at shorter
    exact absurd longer (Nat.not_lt.mpr shorter)

/-- A method carries the qualified name of its class, which is the first of the classes around it. -/
theorem outline_home {source : Method Block} (listed : source ∈ (outline file).methods) : ∃ item rest,
    (outline file).classes[source.owner]? = some item ∧ source ∈ item.methods ∧
      source.declaringType = item.qualifiedName ∧
      ((outline file).enclosing source.owner).filterMap ((outline file).classes[·]?) = item :: rest ∧
      (item.qualifiedName ≠ "" → ∀ around ∈ rest, around.qualifiedName ≠ item.qualifiedName) := by
  obtain ⟨item,known,inside⟩ := outline_owner file source listed
  obtain ⟨rest,around,apart⟩ := enclosing_apart file source item known
  exact ⟨item,rest,known,inside,(outline_qualified file item (List.mem_of_getElem? known)).methods source inside,
    around,apart⟩

end ItemTree

end Transplant
