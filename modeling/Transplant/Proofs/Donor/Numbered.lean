import Mathlib.Order.Bounds.Basic
import Transplant.Proofs.Donor.Capture

/-! Numbers behind the names of local variables. The names that the caller uses get their numbers in the
order of the variables, each the smallest one that is still free. This fixes all new names, and the
caller's names matter as a set only. -/
namespace Transplant

open Java (Block offset)

namespace Donor

/-- The numbers by which a name becomes new, after the names in front of it have got theirs. -/
def freeNumbers (callerNames names : List String) (newName : String → String) (before : List String)
    (name : String) : Set Nat :=
  { number | 1 ≤ number ∧ name ++ toString number ∉ callerNames ∧ name ++ toString number ∉ names ∧
      ∀ earlier ∈ before, earlier ∈ callerNames → newName earlier ≠ name ++ toString number }

/-- New names for those of `names` that the caller uses. -/
structure Numbering (callerNames names : List String) (newName : String → String) : Prop where
  /-- A name that the caller does not use is kept. -/
  kept : ∀ name ∈ names, name ∉ callerNames → newName name = name
  /-- A name that the caller uses gets the smallest number that is free when its turn comes. -/
  least : ∀ before name after, names = before ++ name :: after → name ∈ callerNames →
    ∃ number, newName name = name ++ toString number ∧
      IsLeast (freeNumbers callerNames names newName before name) number
  /-- Different names stay different. -/
  inj : ∀ name ∈ names, ∀ other ∈ names, newName name = newName other → name = other
  /-- No name is one of the caller's afterwards. -/
  unused : ∀ name ∈ names, newName name ∉ callerNames
  /-- A name that was given out is none of the old ones. -/
  fresh : ∀ name ∈ names, name ∈ callerNames → newName name ∉ names

variable {callerNames otherNames names taken : List String} {newName other : String → String}

/-- What is kept and that the numbers are smallest determines the new names. -/
theorem Numbering.eq_of_same (numbering : Numbering callerNames names newName)
    (also : Numbering otherNames names other) (same : ∀ name, name ∈ callerNames ↔ name ∈ otherNames) :
    ∀ name ∈ names, newName name = other name := by
  -- The numbers of a name depend on the names in front of it, so these come first.
  have agree (before after : List String) (parted : names = before ++ after) :
      ∀ name ∈ before, newName name = other name := by
    induction before using List.reverseRecOn generalizing after with
    | nil => simp
    | append_singleton before name ih =>
      have split : names = before ++ name :: after := by simpa using parted
      have earlier := ih (name :: after) split
      intro listed member
      rcases List.mem_append.mp member with front | last
      · exact earlier listed front
      · obtain rfl := List.mem_singleton.mp last
        have inside : listed ∈ names := by simp [split]
        by_cases used : listed ∈ callerNames
        · obtain ⟨m,first,least⟩ := numbering.least before listed after split used
          obtain ⟨n,second,smallest⟩ := also.least before listed after split ((same listed).mp used)
          have numbers : freeNumbers callerNames names newName before listed =
              freeNumbers otherNames names other before listed := by
            ext number
            simp only [freeNumbers,Set.mem_ofPred_eq,same]
            refine and_congr_right fun _ => and_congr_right fun _ => and_congr_right fun _ => ?_
            exact forall₂_congr fun front among => by rw [earlier front among]
          rw [numbers] at least
          rw [first,second,least.unique smallest]
        · rw [numbering.kept listed inside used,also.kept listed inside (mt (same listed).mpr used)]
  exact agree names [] (by simp)

/-- What is given out for the names in front is taken when the others get their names. -/
theorem renamings_append (before after : List String) : renamings callerNames taken (before ++ after) =
    renamings callerNames taken before ++
      renamings callerNames (((renamings callerNames taken before).map (·.2)).reverse ++ taken) after := by
  induction before generalizing taken with
  | nil => rfl
  | cons name rest ih =>
    rw [List.cons_append,renamings,renamings]
    split
    · simp only [ih,List.cons_append,List.map_cons,List.reverse_cons,List.append_assoc,List.nil_append]
    · exact ih

end Donor

namespace Method

variable {method : Method Body} {callerNames : List String}

/-- The new name of a local name is chosen among all names that are taken when its turn comes. -/
theorem newName_eq_freshName {before after : List String} {name : String}
    (parted : method.localNames.map (·.name) = before ++ name :: after) (used : name ∈ callerNames) :
    method.newName callerNames name = Donor.freshName
      (((before.filter (callerNames.contains ·)).map (method.newName callerNames)).reverse ++
        (callerNames ++ method.localNames.map (·.name))) name := by
  have table := @renamingTable_eq method callerNames
  rw [renamingTable,parted,Donor.renamings_append,Donor.renamings,if_pos (List.contains_iff_mem.mpr used),
    List.filter_append,List.filter_cons_of_pos (List.contains_iff_mem.mpr used),List.map_append,List.map_cons,
    ← parted] at table
  have keys := congrArg List.length (Donor.renamings_keys callerNames
    (callerNames ++ method.localNames.map (·.name)) before)
  obtain ⟨front,back⟩ := List.append_inj table (by simpa using keys)
  have given := (Prod.mk.inj (List.cons.inj back).1).2
  rw [front,List.map_map] at given
  exact given.symm

/-- The new names of a method's variables. -/
theorem numbering (method : Method Body) (callerNames : List String) :
    Donor.Numbering callerNames (method.localNames.map (·.name)) (method.newName callerNames) where
  kept _ _ := newName_of_not_mem
  least := by
    intro before name after parted used
    obtain ⟨number,low,found,passed,free⟩ := Donor.freshName_eq
      (((before.filter (callerNames.contains ·)).map (method.newName callerNames)).reverse ++
        (callerNames ++ method.localNames.map (·.name))) name
    have numbers : Donor.freeNumbers callerNames (method.localNames.map (·.name)) (method.newName callerNames)
        before name = { number | 1 ≤ number ∧ name ++ toString number ∉
          ((before.filter (callerNames.contains ·)).map (method.newName callerNames)).reverse ++
            (callerNames ++ method.localNames.map (·.name)) } := by
      ext number
      simp only [Donor.freeNumbers,Set.mem_ofPred_eq,List.mem_append,List.mem_reverse,List.mem_map (l := before.filter _),
        List.mem_filter,List.contains_iff_mem]
      grind
    refine ⟨number,(newName_eq_freshName parted used).trans found,?_⟩
    rw [numbers]
    refine ⟨⟨low,free⟩,fun other ⟨first,unlisted⟩ => ?_⟩
    by_contra smaller
    exact unlisted (passed other first (by omega))
  inj _ listed _ also := newName_inj listed also
  unused _ := newName_not_mem
  fresh name listed used := fun again =>
    Donor.renamings_fresh _ (mem_renamingTable listed used) (List.mem_append_right _ again)

/-- What is written for the local variables in a block. -/
structure Numbered (method : Method Body) (text : Text) (site : CallSite) (imports : Imports) (block : Block)
    (newName : String → String) : Prop where
  numbering : Donor.Numbering site.usedNames (method.localNames.map (·.name)) newName
  /-- A declaration gets the new name of its variable. -/
  declared : ∀ declared, .declare declared ∈ block.visits → declared.name.span.start < declared.name.span.stop →
    declared.name.text ∈ method.localNames.map (·.name) ∧
      Edit.written (method.changes site imports) declared.name.span declared.name.text.toList =
        (newName declared.name.text).toList
  /-- So does a name that finds a variable. -/
  used : ∀ name visible access span id, .name name visible access span ∈ block.visits →
    (method.scopeIn text).resolve visible name = .localVar id →
    name ∈ method.localNames.map (·.name) ∧
      Edit.written (method.changes site imports) span name.toList = (newName name).toList

theorem ReadFrom.numbered {text : Text} {read : Block} (known : method.ReadFrom text read) (site : CallSite)
    (imports : Imports) : method.Numbered text site imports (read.mapSpans (Span.map (offset text)))
      (method.newName site.usedNames) where
  numbering := method.numbering site.usedNames
  declared := by
    intro declared member named
    refine ⟨mem_localNames ?_,known.written_declared site imports member named⟩
    rw [known.locals_eq]
    exact List.mem_filterMap.mpr ⟨_,member,rfl⟩
  used := by
    intro name visible access span id member resolved
    obtain ⟨declared,found,rfl⟩ := Scope.resolve_eq_localVar (known.visible_known member) resolved
    exact ⟨mem_localNames (List.mem_of_getElem? found),known.written_used site imports member resolved⟩

end Method

namespace Donor

/-- The blocks of a call come from one pass in which the local variables get their numbers. -/
theorem blocks_numbered (text : Text) (method : Method Body) (layout : Layout) (site : CallSite)
    (imports : Imports) (member : method ∈ (ItemTree.ofText text).methods) (bodied : method.body.isSome = true)
    (count : site.arguments.length = method.params.length) :
    ∃ block spans newName, method.body = some (Body.ofBlock (method.scopeIn text) block) ∧
      (Body.ofBlock (method.scopeIn text) block).selectSpans (!method.isVoid) site.mode = some spans ∧
      ((ofMethod text method layout).prepare.blocks site imports).1 =
        .ok (spans.map fun span => Block.ofPart layout (LineBreak.first text)
          (Edit.pass (method.changes site imports) span.start span.start (text.between span.start span.stop))) ∧
      method.Numbered text site imports block newName := by
  obtain ⟨body,given⟩ := Option.isSome_iff_exists.mp bodied
  obtain ⟨read,known⟩ := ItemTree.method_readFrom text method body member given
  obtain ⟨spans,selected,made⟩ := known.blocks_eq layout site imports _ known.body count
  exact ⟨_,spans,_,known.body,selected,made,known.numbered site imports⟩

/-- The caller's names and the other variables are passed over. -/
theorem blocks_numbered_passing : ∃ method ∈ (ItemTree.ofText
    "class A { int m() { int i = 0; int i2 = 1; return i + i2; } }".toList).methods,
    method.localNames.map (·.name) = ["i","i2"] ∧
    ["i","i2"].map (method.newName ["i","i1","i2","i21"]) = ["i3","i22"] ∧
    ∃ block newName, method.body = some (Body.ofBlock (method.scopeIn
      "class A { int m() { int i = 0; int i2 = 1; return i + i2; } }".toList) block) ∧
      method.Numbered "class A { int m() { int i = 0; int i2 = 1; return i + i2; } }".toList
        ⟨[],none,false,["i","i1","i2","i21"],.statement⟩ ⟨none,[]⟩ block newName := by
  have evaluated : ∃ method ∈ (ItemTree.ofText
      "class A { int m() { int i = 0; int i2 = 1; return i + i2; } }".toList).methods,
      method.localNames.map (·.name) = ["i","i2"] ∧
      ["i","i2"].map (method.newName ["i","i1","i2","i21"]) = ["i3","i22"] ∧
      method.body.isSome = true ∧ ([] : List Text).length = method.params.length := by
    decide +kernel
  obtain ⟨method,member,names,numbers,bodied,count⟩ := evaluated
  obtain ⟨block,_,newName,body,_,_,numbered⟩ := blocks_numbered _ method .standard
    ⟨[],none,false,["i","i1","i2","i21"],.statement⟩ ⟨none,[]⟩ member bodied count
  exact ⟨method,member,names,numbers,block,newName,body,numbered⟩

end Donor
end Transplant
