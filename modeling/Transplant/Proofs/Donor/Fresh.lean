import Mathlib.Data.List.Nodup
import Mathlib.Data.List.Perm.Subperm
import Transplant.Donor.Blocks
import Transplant.Proofs.Donor.Changes

/-! New names for local variables. A number that makes a name new is always found, so the names of
a body stay different from each other and become different from those of the caller. -/
namespace Transplant

namespace Donor

variable {taken callerNames names : List String} {name : String}

theorem eq_of_numbered {m n : Nat} (same : name ++ toString m = name ++ toString n) : m = n := by
  rw [String.append_right_inj,Nat.toString_eq_repr,Nat.toString_eq_repr,Nat.repr_eq_ofList_toDigits,
    Nat.repr_eq_ofList_toDigits,String.ofList_inj] at same
  rw [← Nat.ofDigitChars_toDigits (n := m) (b := 10) (by decide) (by decide),same,
    Nat.ofDigitChars_toDigits (by decide) (by decide)]

/-- The search passes over taken names only, and ends at a free one or at its last number. -/
theorem freshFrom_eq (taken : List String) (name : String) (tries suffix : Nat) :
    ∃ n, suffix ≤ n ∧ freshFrom taken name tries suffix = name ++ toString n ∧
      (∀ m, suffix ≤ m → m < n → name ++ toString m ∈ taken) ∧
      (name ++ toString n ∉ taken ∨ n = suffix + tries) := by
  induction tries generalizing suffix with
  | zero => exact ⟨suffix,Nat.le_refl _,rfl,fun m low high => by omega,.inr rfl⟩
  | succ tries ih =>
    by_cases used : name ++ toString suffix ∈ taken
    · obtain ⟨n,low,found,passed,last⟩ := ih (suffix + 1)
      refine ⟨n,by omega,?_,?_,?_⟩
      · rw [freshFrom,if_pos (List.contains_iff_mem.mpr used),found]
      · intro m first second
        rcases Nat.eq_or_lt_of_le first with rfl | later
        · exact used
        · exact passed m later second
      · exact last.imp_right fun reached => by omega
    · refine ⟨suffix,Nat.le_refl _,?_,fun m low high => by omega,.inl used⟩
      rw [freshFrom,if_neg (mt List.contains_iff_mem.mp used)]

/-- Among one number more than there are taken names, one gives a free name. -/
theorem freshName_eq (taken : List String) (name : String) :
    ∃ n, 1 ≤ n ∧ freshName taken name = name ++ toString n ∧
      (∀ m, 1 ≤ m → m < n → name ++ toString m ∈ taken) ∧ name ++ toString n ∉ taken := by
  obtain ⟨n,low,found,passed,last⟩ := freshFrom_eq taken name taken.length 1
  refine ⟨n,low,found,passed,?_⟩
  rcases last with free | rfl
  · exact free
  · intro used
    have all : ((List.range' 1 (taken.length + 1)).map fun m => name ++ toString m) ⊆ taken := by
      intro candidate member
      obtain ⟨m,inside,rfl⟩ := List.mem_map.mp member
      obtain ⟨first,second⟩ := List.mem_range'_1.mp inside
      rcases Nat.lt_or_ge m (1 + taken.length) with before | reached
      · exact passed m first before
      · rwa [show m = 1 + taken.length by omega]
    have different : ((List.range' 1 (taken.length + 1)).map fun m => name ++ toString m).Nodup :=
      List.Nodup.map (fun _ _ same => eq_of_numbered same) List.nodup_range'
    have count := (different.subperm all).length_le
    rw [List.length_map,List.length_range'] at count
    omega

theorem freshName_not_mem (taken : List String) (name : String) : freshName taken name ∉ taken := by
  obtain ⟨n,_,found,_,free⟩ := freshName_eq taken name
  rwa [found]

theorem renamings_fresh : ∀ pair ∈ renamings callerNames taken names, pair.2 ∉ taken := by
  induction names generalizing taken with
  | nil => simp [renamings]
  | cons name rest ih =>
    intro pair member
    unfold renamings at member
    split at member
    · rcases List.mem_cons.mp member with rfl | later
      · exact freshName_not_mem taken name
      · exact fun used => ih pair later (List.mem_cons_of_mem _ used)
    · exact ih pair member

theorem renamings_nodup : ((renamings callerNames taken names).map (·.2)).Nodup := by
  induction names generalizing taken with
  | nil => exact List.nodup_nil
  | cons name rest ih =>
    unfold renamings
    split
    · refine List.nodup_cons.mpr ⟨?_,ih⟩
      intro again
      obtain ⟨pair,later,same⟩ := List.mem_map.mp again
      exact renamings_fresh pair later (same ▸ List.mem_cons_self)
    · exact ih

end Donor

namespace Method

variable {method : Method Body} {callerNames : List String} {name other : String}

variable (method callerNames) in
/-- The new names that are given out, each with the name it replaces. -/
def renamingTable : List (String × String) :=
  Donor.renamings callerNames (callerNames ++ method.localNames.map (·.name)) (method.localNames.map (·.name))

theorem renamingTable_keys : (method.renamingTable callerNames).map (·.1) =
    (method.localNames.map (·.name)).filter (callerNames.contains ·) := Donor.renamings_keys _ _ _

theorem newName_of_not_mem (unused : name ∉ callerNames) : method.newName callerNames name = name := by
  have missing : (method.renamingTable callerNames).lookup name = none := by
    rw [List.lookup_eq_none_iff]
    intro pair member
    have key := List.mem_map_of_mem (f := (·.1)) member
    rw [renamingTable_keys,List.mem_filter,List.contains_iff_mem] at key
    simpa using fun same : name = pair.1 => unused (same ▸ key.2)
  rw [renamingTable] at missing
  simp only [newName,missing,Option.getD_none]

theorem renamingTable_eq : method.renamingTable callerNames =
    ((method.localNames.map (·.name)).filter (callerNames.contains ·)).map
      fun name => (name,method.newName callerNames name) :=
  Donor.renamings_localNames method callerNames

theorem mem_renamingTable (isLocal : name ∈ method.localNames.map (·.name)) (used : name ∈ callerNames) :
    (name,method.newName callerNames name) ∈ method.renamingTable callerNames := by
  rw [renamingTable_eq]
  exact List.mem_map_of_mem (List.mem_filter.mpr ⟨isLocal,List.contains_iff_mem.mpr used⟩)

/-- No local variable is called by a name of the caller afterwards. -/
theorem newName_not_mem (isLocal : name ∈ method.localNames.map (·.name)) :
    method.newName callerNames name ∉ callerNames := by
  by_cases used : name ∈ callerNames
  · have fresh := Donor.renamings_fresh _ (mem_renamingTable isLocal used)
    exact fun again => fresh (List.mem_append_left _ again)
  · rwa [newName_of_not_mem used]

/-- Different names stay different. -/
theorem newName_inj (isLocal : name ∈ method.localNames.map (·.name))
    (otherLocal : other ∈ method.localNames.map (·.name))
    (same : method.newName callerNames name = method.newName callerNames other) : name = other := by
  have unlike (first second : String) (given : first ∈ method.localNames.map (·.name))
      (used : first ∈ callerNames) (kept : second ∈ method.localNames.map (·.name)) :
      method.newName callerNames first ≠ second := by
    rintro rfl
    exact Donor.renamings_fresh _ (mem_renamingTable given used) (List.mem_append_right _ kept)
  by_cases used : name ∈ callerNames <;> by_cases otherUsed : other ∈ callerNames
  · have pairs := List.inj_on_of_nodup_map Donor.renamings_nodup (mem_renamingTable isLocal used)
      (mem_renamingTable otherLocal otherUsed) same
    exact congrArg Prod.fst pairs
  · rw [newName_of_not_mem otherUsed] at same
    exact absurd same (unlike name other isLocal used otherLocal)
  · rw [newName_of_not_mem used] at same
    exact absurd same.symm (unlike other name otherLocal otherUsed isLocal)
  · rwa [newName_of_not_mem used,newName_of_not_mem otherUsed] at same

end Method
end Transplant
