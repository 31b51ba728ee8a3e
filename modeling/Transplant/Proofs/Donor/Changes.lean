import Mathlib.Data.List.Pairwise
import Transplant.Donor.Blocks
import Transplant.Proofs.Donor.Sites
import Transplant.Proofs.Import

/-! The edits that are recorded for a call. Each list of them is chosen from what can be edited in a
body, and no two lists choose the same mention; so no two edits overlap. -/
namespace Transplant

/-- What a mention is edited as: the use of a parameter, a place for the receiver, or a local name
where it is declared or used. -/
inductive Role where
  | use (index : Nat)
  | receiver
  | declared (name : String)
  | used (name : String)
deriving DecidableEq

def Mention.role? (locals : List Local) : Finding ⊕ Local → Option Role
  | .inl (.param index _) => some (.use index)
  | .inl (.receiver _) => some .receiver
  | .inl (.localVar id _) => (locals[id]?).map fun declared => .used declared.name.text
  | .inr declared => some (.declared declared.name.text)
  | _ => none

/-- The edits of the mentions in one role. -/
abbrev Choice := Finding ⊕ Local → Option Edit

namespace Choice

/-- Edits are made where their mentions stand, and for mentions in one role. -/
structure Of (locals : List Local) (role : Role) (choice : Choice) : Prop where
  placed : ∀ mention edit, choice mention = some edit → Mention.site? mention = some edit.span
  role : ∀ mention edit, choice mention = some edit → Mention.role? locals mention = some role

variable {locals : List Local} {mentions : List (Finding ⊕ Local)} {choices : List (Role × Choice)}

theorem Of.apart {role : Role} {choice : Choice} (given : Of locals role choice)
    (before : mentions.Pairwise Mention.Before) : (mentions.filterMap choice).Pairwise Edit.Apart := by
  rw [List.pairwise_filterMap]
  apply before.imp
  intro m n order early first late second
  exact .inl (order _ _ (given.placed m early first) (given.placed n late second))

theorem Of.apart_of_ne {first second : Role} {choice other : Choice} (given : Of locals first choice)
    (also : Of locals second other) (different : first ≠ second) (before : mentions.Pairwise Mention.Before) :
    ∀ left ∈ mentions.filterMap choice, ∀ right ∈ mentions.filterMap other, left.Apart right := by
  intro left inFirst right inSecond
  obtain ⟨m,mMember,chosen⟩ := List.mem_filterMap.mp inFirst
  obtain ⟨n,nMember,picked⟩ := List.mem_filterMap.mp inSecond
  have distinct : m ≠ n := by
    rintro rfl
    have same := (given.role m left chosen).symm.trans (also.role m right picked)
    exact different (Option.some.inj same)
  have either : mentions.Pairwise fun m n => Mention.Before m n ∨ Mention.Before n m := before.imp .inl
  have symmetric : Std.Symm fun m n => Mention.Before m n ∨ Mention.Before n m := ⟨fun _ _ order => order.symm⟩
  rcases either.forall mMember nMember distinct with order | order
  · exact .inl (order _ _ (given.placed m left chosen) (also.placed n right picked))
  · exact .inr (order _ _ (also.placed n right picked) (given.placed m left chosen))

/-- Edits of mentions in different roles keep apart. -/
theorem apart_flatMap (given : ∀ choice ∈ choices, Of locals choice.1 choice.2)
    (distinct : (choices.map (·.1)).Nodup) (before : mentions.Pairwise Mention.Before) :
    (choices.flatMap fun choice => mentions.filterMap choice.2).Pairwise Edit.Apart := by
  rw [List.pairwise_flatMap]
  refine ⟨fun choice member => (given choice member).apart before,?_⟩
  apply List.Pairwise.imp_of_mem _ (List.pairwise_map.mp distinct)
  intro first second inFirst inSecond different
  exact (given first inFirst).apart_of_ne (given second inSecond) different before

end Choice

/-- Each use of the parameter number `index` becomes its argument. -/
def useChoice (index : Nat) (argument : Text) : Choice
  | .inl (.param found mention) => if found = index then some ⟨mention.span,argument⟩ else none
  | _ => none

/-- `this` becomes the receiver; at other places a qualifier is inserted. -/
def receiverEdit (receiver : Text) (qualifier : ImplicitReceiver → Text) (found : ImplicitReceiver) : Edit :=
  if found.kind = .this then ⟨found.span,receiver⟩ else .insert found.span.start (qualifier found ++ ['.'])

def receiverChoice (edit : ImplicitReceiver → Edit) : Choice
  | .inl (.receiver found) => some (edit found)
  | _ => none

/-- The name in the declarations of the variables called `name` becomes `fresh`. -/
def declaredChoice (name : String) (fresh : Text) : Choice
  | .inr declared => if declared.name.text == name then some ⟨declared.name.span,fresh⟩ else none
  | _ => none

/-- The name where variables called `name` are used becomes `fresh`. -/
def usedChoice (locals : List Local) (name : String) (fresh : Text) : Choice
  | .inl (.localVar id span) => if (locals[id]?).any (·.name.text == name) then some ⟨span,fresh⟩ else none
  | _ => none

theorem useChoice_of (locals : List Local) (index : Nat) (argument : Text) :
    Choice.Of locals (.use index) (useChoice index argument) := by
  refine ⟨fun mention edit chosen => ?_,fun mention edit chosen => ?_⟩
  all_goals
    match mention with
    | .inl (.param found use) =>
      simp only [useChoice,Option.ite_none_right_eq_some] at chosen
      obtain ⟨rfl,same⟩ := chosen
      cases same
      rfl

theorem receiverChoice_of (locals : List Local) (receiver : Text) (qualifier : ImplicitReceiver → Text) :
    Choice.Of locals .receiver (receiverChoice (receiverEdit receiver qualifier)) := by
  refine ⟨fun mention edit chosen => ?_,fun mention edit chosen => ?_⟩
  · match mention with
    | .inl (.receiver found) =>
      cases chosen
      simp only [receiverEdit,Mention.site?,Sum.elim_inl,Finding.site?]
      split <;> rfl
  · match mention with
    | .inl (.receiver found) => rfl

theorem declaredChoice_of (locals : List Local) (name : String) (fresh : Text) :
    Choice.Of locals (.declared name) (declaredChoice name fresh) := by
  refine ⟨fun mention edit chosen => ?_,fun mention edit chosen => ?_⟩
  all_goals
    match mention with
    | .inr declared =>
      simp only [declaredChoice,Option.ite_none_right_eq_some,beq_iff_eq] at chosen
      obtain ⟨rfl,same⟩ := chosen
      cases same
      rfl

theorem usedChoice_of (locals : List Local) (name : String) (fresh : Text) :
    Choice.Of locals (.used name) (usedChoice locals name fresh) := by
  refine ⟨fun mention edit chosen => ?_,fun mention edit chosen => ?_⟩
  · match mention with
    | .inl (.localVar id span) =>
      simp only [usedChoice,Option.ite_none_right_eq_some] at chosen
      cases chosen.2
      rfl
  · match mention with
    | .inl (.localVar id span) =>
      simp only [usedChoice,Option.ite_none_right_eq_some,Option.any_eq_true,beq_iff_eq] at chosen
      obtain ⟨⟨declared,found,rfl⟩,_⟩ := chosen
      simp [Mention.role?,found]

namespace Method

variable (method : Method Body)

/-- The new name of local variables whose name the caller uses. -/
def newName (callerNames : List String) (name : String) : String :=
  let names := method.localNames.map (·.name)
  ((Donor.renamings callerNames (callerNames ++ names) names).lookup name).getD name

/-- Every use of a parameter becomes the argument in its place. -/
def argumentChanges (arguments : List Text) : List Edit :=
  arguments.zipIdx.flatMap fun (argument,index) =>
    (method.paramUses index).map fun mention => ⟨mention.span,argument⟩

/-- Every place that relies on the own instance or class is reached through the receiver. -/
def receiverChanges (site : CallSite) (imports : Imports) : List Edit :=
  match site.receiver with
  | none => []
  | some receiver => method.implicitReceivers.map (receiverEdit receiver fun found =>
      if found.kind.isStatic && !site.receiverIsStatic then (imports.add found.declaringType).1.toList
      else receiver)

/-- Every occurrence of a local name that the caller uses becomes its new name. -/
def nameChanges (callerNames : List String) : List Edit :=
  (method.localNames.filter (callerNames.contains ·.name)).flatMap fun entry =>
    entry.spans.map fun span => ⟨span,(method.newName callerNames entry.name).toList⟩

/-- All changes of a body for a call. -/
def changes (site : CallSite) (imports : Imports) : List Edit :=
  method.argumentChanges site.arguments ++ method.receiverChanges site imports ++
    method.nameChanges site.usedNames

end Method

theorem nodup_eraseDups (names : List String) : names.eraseDups.Nodup := by
  induction length : names.length using Nat.strongRecOn generalizing names with
  | ind count ih =>
    cases names with
    | nil => simp
    | cons name rest =>
      rw [List.eraseDups_cons]
      refine List.nodup_cons.mpr ⟨by simp,ih _ ?_ _ rfl⟩
      have fewer := List.length_filter_le (fun other => !other == name) rest
      simp only [List.length_cons] at length
      omega

theorem Method.localNames_nodup (method : Method Body) : (method.localNames.map (·.name)).Nodup := by
  have names : method.localNames.map (·.name) = (method.locals.map (·.name.text)).eraseDups := by
    simp [localNames,Function.comp_def]
  rw [names]
  exact nodup_eraseDups _

namespace Donor

theorem renamings_keys (callerNames taken names : List String) :
    (renamings callerNames taken names).map (·.1) = names.filter (callerNames.contains ·) := by
  induction names generalizing taken with
  | nil => rfl
  | cons name rest ih =>
    rw [renamings,List.filter_cons]
    split
    · rw [List.map_cons,ih]
    · exact ih taken

/-- Pairs with different keys are found again by their keys. -/
theorem eq_map_lookup (pairs : List (String × String)) (distinct : (pairs.map (·.1)).Nodup) :
    pairs = (pairs.map (·.1)).map fun key => (key,(pairs.lookup key).getD key) := by
  induction pairs with
  | nil => rfl
  | cons pair rest ih =>
    obtain ⟨key,value⟩ := pair
    obtain ⟨fresh,others⟩ := List.nodup_cons.mp distinct
    have tail : (rest.map (·.1)).map (fun other => (other,(List.lookup other ((key,value) :: rest)).getD other)) =
        (rest.map (·.1)).map fun other => (other,(rest.lookup other).getD other) := by
      apply List.map_congr_left
      intro other member
      have different : (other == key) = false := by
        rw [beq_eq_false_iff_ne]
        rintro rfl
        exact fresh member
      rw [List.lookup_cons,different]
    rw [List.map_cons,List.map_cons,tail,← ih others]
    simp

variable {method : Method Body} (text : Text) (layout : Layout) (site : CallSite) (imports : Imports)

theorem argumentRewrites_edits (count : site.arguments.length = method.params.length) :
    ((ofMethod text method layout).prepare.argumentRewrites site.arguments).map Rewrite.edit =
      method.argumentChanges site.arguments := by
  have paired : ((ofMethod text method layout).prepare.parameters.zip site.arguments).map
      (fun pair => (pair.2,pair.1.uses)) =
      site.arguments.zipIdx.map fun pair => (pair.1,method.paramUses pair.2) := by
    apply List.ext_getElem
    · simp [prepare,ofMethod,count]
    · intro i _ _
      simp [prepare,ofMethod]
  have left : ((ofMethod text method layout).prepare.argumentRewrites site.arguments).map Rewrite.edit =
      (((ofMethod text method layout).prepare.parameters.zip site.arguments).map
        fun pair => (pair.2,pair.1.uses)).flatMap fun pair => pair.2.map fun mention => ⟨mention.span,pair.1⟩ := by
    simp [argumentRewrites,List.map_flatMap,List.flatMap_map,Rewrite.edit,Function.comp_def]
  rw [left,paired,Method.argumentChanges,List.flatMap_map]

/-- The table of new names has a row for each local name that the caller uses. -/
theorem renamings_localNames (method : Method Body) (callerNames : List String) :
    renamings callerNames (callerNames ++ method.localNames.map (·.name)) (method.localNames.map (·.name)) =
      ((method.localNames.map (·.name)).filter (callerNames.contains ·)).map
        fun name => (name,method.newName callerNames name) := by
  have distinct : ((renamings callerNames (callerNames ++ method.localNames.map (·.name))
      (method.localNames.map (·.name))).map (·.1)).Nodup := by
    rw [renamings_keys]
    exact method.localNames_nodup.filter _
  rw [eq_map_lookup _ distinct,renamings_keys]
  rfl

theorem renameRewrites_edits :
    ((ofMethod text method layout).prepare.renameRewrites site.usedNames).map Rewrite.edit =
      method.nameChanges site.usedNames := by
  have left : ((ofMethod text method layout).prepare.renameRewrites site.usedNames).map Rewrite.edit =
      (renamings site.usedNames (site.usedNames ++ method.localNames.map (·.name))
        (method.localNames.map (·.name))).flatMap fun pair =>
          (method.spansOfLocal pair.1).map fun span => ⟨span,pair.2.toList⟩ := by
    simp [renameRewrites,ofMethod,prepare,List.map_flatMap,Rewrite.edit,Function.comp_def]
  have right : method.nameChanges site.usedNames =
      ((method.localNames.map (·.name)).filter (site.usedNames.contains ·)).flatMap fun name =>
        (method.spansOfLocal name).map fun span => ⟨span,(method.newName site.usedNames name).toList⟩ := by
    simp only [Method.nameChanges,Method.localNames,List.filter_map,List.flatMap_map,List.map_map,Function.comp_def,
      List.map_id']
  rw [left,renamings_localNames,List.flatMap_map,right]

/-- All qualifiers are the same, as they name one type; so the imports recorded on the way do not
change them. -/
theorem receiverRewritesFrom_edits (receiver : Text) (receiverIsStatic : Bool) (type : String)
    (found : List ImplicitReceiver) (own : ∀ entry ∈ found, entry.declaringType = type) (current : Imports)
    (known : current.add type = imports.add type) :
    (receiverRewritesFrom receiver receiverIsStatic found current).1.map Rewrite.edit =
      found.map (receiverEdit receiver fun entry =>
        if entry.kind.isStatic && !receiverIsStatic then (imports.add entry.declaringType).1.toList
        else receiver) := by
  induction found generalizing current with
  | nil => rfl
  | cons entry rest ih =>
    have others := ih fun other member => own other (List.mem_cons_of_mem _ member)
    have mine := own entry List.mem_cons_self
    have again : (current.add type).2.add type = imports.add type := by rw [Imports.add_again,known]
    simp only [receiverRewritesFrom,receiverRewrite,receiverEdit,List.map_cons,mine]
    by_cases this : entry.kind = .this
    · simp only [this,if_true,Rewrite.edit]
      rw [others current known]
    · simp only [this,if_false]
      by_cases qualified : (entry.kind.isStatic && !receiverIsStatic) = true
      · simp only [qualified,if_true,Rewrite.edit,known]
        rw [others _ (known ▸ again)]
      · simp only [qualified,Bool.false_eq_true,if_false,Rewrite.edit]
        rw [others current known]

theorem receiverRewrites_edits
    (own : ∀ entry ∈ method.implicitReceivers, entry.declaringType = method.declaringType) :
    ((ofMethod text method layout).prepare.receiverRewrites site imports).1.map Rewrite.edit =
      method.receiverChanges site imports := by
  simp only [receiverRewrites,Method.receiverChanges]
  cases site.receiver with
  | none => rfl
  | some receiver => exact receiverRewritesFrom_edits imports receiver _ method.declaringType _ own imports rfl

end Donor

end Transplant
