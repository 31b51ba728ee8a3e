import Mathlib.Data.List.Nodup
import Transplant.Proofs.Donor.Changes

/-! The changes of a body are, but for their order, what its mentions are edited as; so they keep
apart, and each of them stands where something is mentioned. -/
namespace Transplant

namespace Method

/-- The mentions are all that a method shows and declares. -/
structure Mentions (method : Method Body) (mentions : List (Finding ⊕ Local)) : Prop where
  shown : method.findings.map Finding.erase = mentions.filterMap Sum.getLeft?
  known : method.locals = mentions.filterMap Sum.getRight?

variable {method : Method Body} {mentions : List (Finding ⊕ Local)}

theorem Mentions.filterMap (given : method.Mentions mentions) (edit? : Finding → Option Edit)
    (same : ∀ finding, edit? finding.erase = edit? finding) :
    method.findings.filterMap edit? = mentions.filterMap fun mention => mention.getLeft?.bind edit? := by
  have erased : method.findings.filterMap edit? = (method.findings.map Finding.erase).filterMap edit? := by
    rw [List.filterMap_map]
    exact List.filterMap_congr fun finding _ => (same finding).symm
  rw [erased,given.shown,List.filterMap_filterMap]

theorem Mentions.uses (given : method.Mentions mentions) (index : Nat) (argument : Text) :
    (method.paramUses index).map (fun mention => Edit.mk mention.span argument) =
      mentions.filterMap (useChoice index argument) := by
  rw [paramUses,List.map_filterMap]
  have found := given.filterMap (fun finding => useChoice index argument (.inl finding)) ?_
  · refine Eq.trans (List.filterMap_congr fun finding _ => ?_) (found.trans (List.filterMap_congr fun mention _ => ?_))
    · cases finding with
      | param found mention =>
        simp only [useChoice]
        split <;> rfl
      | _ => rfl
    · cases mention <;> rfl
  · intro finding
    cases finding <;> rfl

theorem Mentions.receivers (given : method.Mentions mentions) (edit : ImplicitReceiver → Edit)
    (same : ∀ found, edit { found with expr := 0 } = edit found) :
    method.implicitReceivers.map edit = mentions.filterMap (receiverChoice edit) := by
  rw [implicitReceivers,List.map_filterMap]
  have found := given.filterMap (fun finding => receiverChoice edit (.inl finding)) ?_
  · refine Eq.trans (List.filterMap_congr fun finding _ => ?_) (found.trans (List.filterMap_congr fun mention _ => ?_))
    · cases finding <;> rfl
    · cases mention <;> rfl
  · intro finding
    cases finding with
    | receiver found => exact congrArg some (same found)
    | _ => rfl

theorem Mentions.declared (given : method.Mentions mentions) (name : String) (fresh : Text) :
    ((method.locals.filter (·.name.text == name)).map (·.name.span)).map (fun span => Edit.mk span fresh) =
      mentions.filterMap (declaredChoice name fresh) := by
  rw [given.known,List.map_map,List.filter_filterMap,List.map_filterMap]
  apply List.filterMap_congr
  intro mention _
  cases mention with
  | inl finding => rfl
  | inr declared =>
    by_cases same : declared.name.text = name
    · simp [declaredChoice,same]
    · simp [declaredChoice,same]

theorem Mentions.used (given : method.Mentions mentions) (name : String) (fresh : Text) :
    (method.findings.filterMap fun
      | .localVar id span =>
        if (method.locals[id]?).any (·.name.text == name) then some span else none
      | _ => none).map (fun span => Edit.mk span fresh) =
      mentions.filterMap (usedChoice method.locals name fresh) := by
  rw [List.map_filterMap]
  have found := given.filterMap (fun finding => usedChoice method.locals name fresh (.inl finding)) ?_
  · refine Eq.trans (List.filterMap_congr fun finding _ => ?_) (found.trans (List.filterMap_congr fun mention _ => ?_))
    · cases finding with
      | localVar id span =>
        simp only [usedChoice]
        split <;> rfl
      | _ => rfl
    · cases mention <;> rfl
  · intro finding
    cases finding <;> rfl

/-- A local name is changed where it is declared and where it is used. -/
theorem Mentions.names (given : method.Mentions mentions) (name : String) (fresh : Text) :
    ((method.spansOfLocal name).map fun span => Edit.mk span fresh).Perm
      (mentions.filterMap (declaredChoice name fresh) ++
        mentions.filterMap (usedChoice method.locals name fresh)) := by
  have sorted := (List.mergeSort_perm ((method.locals.filter (·.name.text == name)).map (·.name.span) ++
    method.findings.filterMap fun
      | .localVar id span =>
        if (method.locals[id]?).any (·.name.text == name) then some span else none
      | _ => none) Span.atMost).map fun span => Edit.mk span fresh
  rwa [List.map_append,given.declared,given.used] at sorted

variable (method) (site : CallSite) (imports : Imports)

/-- What the mentions in each role are edited as for a call. -/
def choices : List (Role × Choice) :=
  site.arguments.zipIdx.map (fun (argument,index) => (.use index,useChoice index argument)) ++
  site.receiver.toList.map (fun receiver => (.receiver,receiverChoice (receiverEdit receiver fun found =>
    if found.kind.isStatic && !site.receiverIsStatic then (imports.add found.declaringType).1.toList
    else receiver))) ++
  (method.localNames.filter (site.usedNames.contains ·.name)).flatMap fun entry =>
    [(.declared entry.name,declaredChoice entry.name (method.newName site.usedNames entry.name).toList),
      (.used entry.name,usedChoice method.locals entry.name (method.newName site.usedNames entry.name).toList)]

variable {method}

theorem Mentions.changes_perm (given : method.Mentions mentions) : (method.changes site imports).Perm
    ((method.choices site imports).flatMap fun choice => mentions.filterMap choice.2) := by
  simp only [changes,choices,List.flatMap_append]
  refine .append (.append (.of_eq ?_) (.of_eq ?_)) ?_
  · rw [argumentChanges,List.flatMap_map]
    exact List.flatMap_congr fun pair _ => given.uses pair.2 pair.1
  · rw [receiverChanges]
    cases site.receiver with
    | none => rfl
    | some receiver =>
      simp only [Option.toList_some,List.map_cons,List.map_nil,List.flatMap_cons,List.flatMap_nil,List.append_nil]
      exact given.receivers _ fun found => rfl
  · rw [nameChanges,List.flatMap_assoc]
    refine List.Perm.flatMap_left _ fun entry member => ?_
    obtain ⟨name,_,rfl⟩ := List.mem_map.mp (List.mem_filter.mp member).1
    simpa using given.names name (method.newName site.usedNames name).toList

theorem choices_of : ∀ choice ∈ method.choices site imports, Choice.Of method.locals choice.1 choice.2 := by
  intro choice member
  simp only [choices,List.mem_append,List.mem_map,List.mem_flatMap,List.mem_cons,List.not_mem_nil,or_false] at member
  rcases member with (⟨pair,_,rfl⟩ | ⟨receiver,_,rfl⟩) | ⟨entry,_,rfl | rfl⟩
  · exact useChoice_of _ _ _
  · exact receiverChoice_of _ _ _
  · exact declaredChoice_of _ _ _
  · exact usedChoice_of _ _ _

theorem choices_roles : (method.choices site imports).map (·.1) =
    (List.range' 0 site.arguments.length).map Role.use ++ site.receiver.toList.map (fun _ => Role.receiver) ++
      ((method.localNames.map (·.name)).filter (site.usedNames.contains ·)).flatMap fun name =>
        [Role.declared name,Role.used name] := by
  simp only [choices,List.map_append,List.map_map,List.map_flatMap,List.filter_map,List.flatMap_map,
    ← List.zipIdx_map_snd 0 site.arguments,Function.comp_def,List.map_cons,List.map_nil]

theorem choices_nodup : ((method.choices site imports).map (·.1)).Nodup := by
  have arguments : ((List.range' 0 site.arguments.length).map Role.use).Nodup :=
    List.Nodup.map (fun _ _ same => Role.use.inj same) List.nodup_range'
  have receivers : (site.receiver.toList.map fun _ => Role.receiver).Nodup := by
    cases site.receiver <;> simp
  have names : (((method.localNames.map (·.name)).filter (site.usedNames.contains ·)).flatMap fun name =>
      [Role.declared name,Role.used name]).Nodup := by
    refine List.nodup_flatMap.mpr ⟨fun name _ => by simp,?_⟩
    apply (method.localNames_nodup.filter _).imp
    intro first second different
    simpa [Function.onFun,List.Disjoint] using different
  rw [choices_roles,List.nodup_append',List.nodup_append']
  refine ⟨⟨arguments,receivers,?_⟩,names,?_⟩
  · simp [List.Disjoint]
  · rintro role fromCall inNames
    obtain ⟨name,_,named⟩ := List.mem_flatMap.mp inNames
    simp only [List.mem_append,List.mem_map] at fromCall
    rcases fromCall with ⟨index,_,rfl⟩ | ⟨receiver,_,rfl⟩
    · simp at named
    · simp at named

theorem Mentions.changes_apart (given : method.Mentions mentions) (before : mentions.Pairwise Mention.Before) :
    (method.changes site imports).Pairwise Edit.Apart :=
  ((given.changes_perm site imports).pairwise_iff fun apart => apart.symm).mpr
    (Choice.apart_flatMap (choices_of site imports) (choices_nodup site imports) before)

theorem Mentions.changes_site (given : method.Mentions mentions) :
    ∀ edit ∈ method.changes site imports, ∃ mention ∈ mentions, Mention.site? mention = some edit.span := by
  intro edit member
  obtain ⟨choice,listed,chosen⟩ := List.mem_flatMap.mp ((given.changes_perm site imports).mem_iff.mp member)
  obtain ⟨mention,inside,made⟩ := List.mem_filterMap.mp chosen
  exact ⟨mention,inside,(choices_of site imports choice listed).placed mention edit made⟩

end Method

end Transplant
