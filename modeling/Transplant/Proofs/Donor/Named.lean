import Transplant.Proofs.Analysis.Uses
import Transplant.Proofs.Body.Sight
import Transplant.Proofs.Donor.Blocks
import Transplant.Proofs.Donor.Fresh

/-! The edits that a name gets. Nothing else is edited where a name stands, so a name is left as it
is, or gets the one edit that goes with what it stands for. -/
namespace Transplant

open Java (Seen Marks Spelled offset)

/-- The edits that begin at byte `here`. -/
def Edit.beginningAt (here : Nat) (edits : List Edit) : List Edit := edits.filter (·.span.start == here)

section

variable {tokens : List Java.Token} {visit : Visit} {k a b i j : Nat}

/-- A visit that is edited where a token begins takes up this token, which is a word. -/
theorem Java.Marks.of_site (marks : Marks tokens visit a b) {place : Span} (placed : visit.site? = some place)
    (start : place.start = 2 * k + 1) : a = k ∧ b = k + 1 ∧ Seen tokens k .ident := by
  cases marks with
  | name token found ident visible access =>
    cases placed
    obtain rfl : a = k := by simp only at start; omega
    exact ⟨rfl,rfl,token,found,ident⟩
  | this seen =>
    cases placed
    obtain rfl : a = k := by simp only at start; omega
    exact ⟨rfl,rfl,seen.ident⟩
  | call callee arity span opened begins named =>
    cases placed
    obtain rfl : a = k := by simp only [Span.empty] at start; omega
    exact ⟨rfl,rfl,named.ident⟩
  | create created span seen begins =>
    cases placed
    obtain rfl : a = k := by simp only [Span.empty] at start; omega
    exact ⟨rfl,rfl,seen.ident⟩
  | declare declared named here =>
    cases placed
    obtain rfl : a = k := by simp only [here] at start; omega
    exact ⟨rfl,rfl,named.ident⟩
  | unnamed declared unseen here =>
    cases placed
    simp only [here] at start
    omega
  | _ => cases placed

/-- What stands at other tokens is not edited where the word at token `k` begins. -/
theorem SiteIn.start_ne {text : Text} {span : Span} (site : SiteIn ((Java.tokens text).map (·.token)) a b span)
    (known : k < (Java.tokens text).length) (bound : b ≤ (Java.tokens text).length)
    (word : Seen ((Java.tokens text).map (·.token)) k .ident) (apart : b ≤ k ∨ k + 1 ≤ a) :
    offset text span.start ≠ offset text (2 * k + 1) := by
  have length := Java.offset_lt text known
  have behind (other : Nat) (low : 2 * k + 2 ≤ other) (inside : other ≤ 2 * (Java.tokens text).length + 1) :
      offset text other ≠ offset text (2 * k + 1) := by
    have := Java.offset_mono text low inside
    omega
  have before (other : Nat) (inside : other < k) (place : Nat) (low : place ≤ 2 * other + 1) :
      offset text place ≠ offset text (2 * k + 1) := by
    have first := Java.offset_mono text low (by omega)
    have second := Java.offset_lt text (show other < (Java.tokens text).length by omega)
    have third := Java.offset_mono text (show 2 * other + 2 ≤ 2 * k + 1 by omega) (by omega)
    omega
  rcases site with ⟨m,low,high,start,_⟩ | ⟨m,low,high,unseen,rfl⟩
  · rw [start]
    rcases apart with early | late
    · exact before m (by omega) _ (Nat.le_refl _)
    · exact behind _ (by omega) (by omega)
  · rcases apart with early | late
    · have other : m ≠ k := by
        rintro rfl
        exact unseen word
      exact before (k - 1) (by omega) _ (by simp only; omega)
    · exact behind _ (by simp only; omega) (by simp only; omega)

end

section

variable {β γ : Type} (scope : Scope β) (method : Method γ) {text : Text} {visits : List Visit} {visit : Visit}
  {i j k : Nat}

/-- Around the mentions of a word's visit, all others stand elsewhere. -/
theorem mentionsIn_split (spelled : Spelled ((Java.tokens text).map (·.token)) visits i j)
    (bound : j ≤ (Java.tokens text).length) (member : visit ∈ visits) {place : Span}
    (placed : visit.site? = some place) (begins : place.start = 2 * k + 1) :
    ∃ front back, mentionsIn scope method text visits =
        front ++ ((visit.move (offset text)).mentions scope method ++ back) ∧
      ∀ mention ∈ front ++ back, ∀ span, Mention.site? mention = some span → span.start ≠ offset text (2 * k + 1) := by
  obtain ⟨before,behind,rfl⟩ := List.append_of_mem member
  have ⟨_,tail,cross⟩ := List.pairwise_append.mp spelled.ordered
  have later := (List.pairwise_cons.mp tail).1
  refine ⟨mentionsIn scope method text before,mentionsIn scope method text behind,by simp [mentionsIn],?_⟩
  intro mention listed span here
  rcases List.mem_append.mp listed with early | late
  · obtain ⟨other,met,place,edited,rfl⟩ := mentionsIn_edited scope method mention early span here
    obtain ⟨a,b,c,d,first,second,order,last⟩ := cross other met visit List.mem_cons_self
    obtain ⟨rfl,rfl,word⟩ := second.of_site placed begins
    exact (first.site edited).start_ne (by omega) (by omega) word (.inl order)
  · obtain ⟨other,met,place,edited,rfl⟩ := mentionsIn_edited scope method mention late span here
    obtain ⟨a,b,c,d,first,second,order,last⟩ := later other met
    obtain ⟨rfl,rfl,word⟩ := first.of_site placed begins
    have reach := second.le
    exact (second.site edited).start_ne (by omega) (by omega) word (.inr order)

end

theorem Visit.eq_declare_of_move {g : Nat → Nat} {visit : Visit} {declared : Local}
    (moved : visit.move g = .declare declared) : ∃ read, visit = .declare read ∧ declared = read.move g := by
  cases visit <;> simp only [Visit.move,reduceCtorEq,Visit.declare.injEq] at moved
  exact ⟨_,rfl,moved.symm⟩

theorem eq_of_perm_short {α : Type} {left right : List α} (perm : left.Perm right) (short : right.length ≤ 1) :
    left = right := by
  match right with
  | [] => exact perm.eq_nil
  | [only] => exact List.perm_singleton.mp perm

namespace Method

variable {method : Method Body} {site : CallSite} {imports : Imports} {mention : Finding ⊕ Local} {role : Role}

/-- A mention is edited once at most, by the choice that goes with its role. -/
theorem choices_single {choice : Choice} {edit : Edit} (member : (role,choice) ∈ method.choices site imports)
    (made : choice mention = some edit) :
    (method.choices site imports).filterMap (fun choice => choice.2 mention) = [edit] := by
  have distinct := @choices_nodup method site imports
  have given := @choices_of method site imports
  obtain ⟨before,behind,parted⟩ := List.append_of_mem member
  have own := (given _ member).role mention edit made
  rw [parted,List.map_append,List.map_cons,List.nodup_middle,List.nodup_cons,← List.map_append] at distinct
  have silent (other : Role × Choice) (listed : other ∈ before ++ behind) : other.2 mention = none := by
    cases chosen : other.2 mention with
    | none => rfl
    | some also =>
      have inside : other ∈ method.choices site imports := by
        rw [parted]
        exact List.mem_append.mpr ((List.mem_append.mp listed).imp_right (List.mem_cons_of_mem _))
      have same := (given other inside).role mention also chosen
      rw [own] at same
      have again := List.mem_map_of_mem (f := (·.1)) listed
      rw [← Option.some.inj same] at again
      exact absurd again distinct.1
  have front : before.filterMap (fun choice => choice.2 mention) = [] :=
    List.filterMap_eq_nil_iff.mpr fun other listed => silent other (List.mem_append_left _ listed)
  have back : behind.filterMap (fun choice => choice.2 mention) = [] :=
    List.filterMap_eq_nil_iff.mpr fun other listed => silent other (List.mem_append_right _ listed)
  have here : ((role,choice) :: behind).filterMap (fun choice => choice.2 mention) =
      edit :: behind.filterMap (fun choice => choice.2 mention) := List.filterMap_cons_some made
  rw [parted,List.filterMap_append,here,front,back,List.nil_append]

theorem flatMap_choices_single (mention : Finding ⊕ Local) :
    (method.choices site imports).flatMap (fun choice => [mention].filterMap choice.2) =
      (method.choices site imports).filterMap fun choice => choice.2 mention := by
  rw [List.filterMap_eq_flatMap_toList]
  apply List.flatMap_congr
  intro choice _
  cases chosen : choice.2 mention <;> simp [chosen]

theorem choices_nothing (absent : ∀ role, Mention.role? method.locals mention = some role →
    role ∉ (method.choices site imports).map (·.1)) :
    (method.choices site imports).filterMap (fun choice => choice.2 mention) = [] := by
  apply List.filterMap_eq_nil_iff.mpr
  intro choice listed
  cases chosen : choice.2 mention with
  | none => rfl
  | some edit =>
    have role := (choices_of site imports choice listed).role mention edit chosen
    exact absurd (List.mem_map_of_mem listed) (absent _ role)

theorem mem_choices_use {index : Nat} {argument : Text} (given : site.arguments[index]? = some argument) :
    (Role.use index,useChoice index argument) ∈ method.choices site imports := by
  simp only [choices,List.mem_append,List.mem_map]
  exact .inl (.inl ⟨(argument,index),List.mem_zipIdx_iff_getElem?.mpr given,rfl⟩)

theorem mem_choices_receiver {receiver : Text} (given : site.receiver = some receiver) :
    (Role.receiver,receiverChoice (receiverEdit receiver fun found =>
      if found.kind.isStatic && !site.receiverIsStatic then (imports.add found.declaringType).1.toList
      else receiver)) ∈ method.choices site imports := by
  simp [choices,given]

theorem mem_localNames {declared : Local} (member : declared ∈ method.locals) :
    declared.name.text ∈ method.localNames.map (·.name) := by
  simp only [localNames,List.map_map,Function.comp_def,List.map_id',List.mem_eraseDups]
  exact List.mem_map_of_mem member

theorem mem_choices_names {name : String} (isLocal : name ∈ method.localNames.map (·.name))
    (used : name ∈ site.usedNames) :
    (Role.declared name,declaredChoice name (method.newName site.usedNames name).toList) ∈
        method.choices site imports ∧
      (Role.used name,usedChoice method.locals name (method.newName site.usedNames name).toList) ∈
        method.choices site imports := by
  obtain ⟨entry,listed,rfl⟩ := List.mem_map.mp isLocal
  have kept : entry ∈ method.localNames.filter (site.usedNames.contains ·.name) :=
    List.mem_filter.mpr ⟨listed,List.contains_iff_mem.mpr used⟩
  exact ⟨List.mem_append_right _ (List.mem_flatMap.mpr ⟨entry,kept,List.mem_cons_self⟩),
    List.mem_append_right _ (List.mem_flatMap.mpr ⟨entry,kept,List.mem_cons_of_mem _ (List.mem_singleton_self _)⟩)⟩

theorem not_mem_choices_names {name : String} (unused : name ∉ site.usedNames) :
    Role.declared name ∉ (method.choices site imports).map (·.1) ∧
      Role.used name ∉ (method.choices site imports).map (·.1) := by
  rw [choices_roles]
  simp [unused]

/-- What is put in front of a name, by what the name stands for. -/
def qualifier? (method : Method Body) (site : CallSite) (imports : Imports) : Resolution → Option Text
  | .field target =>
    if target.declaringType = method.declaringType then
      site.receiver.map fun receiver =>
        if target.isStatic && !site.receiverIsStatic then (imports.add target.declaringType).1.toList
        else receiver
    else none
  | _ => none

/-- What a name is edited as for a call, by what it stands for. -/
def nameEdits (method : Method Body) (site : CallSite) (imports : Imports) (name : String) (span : Span) :
    Resolution → List Edit
  | .param index => (site.arguments[index]?).toList.map fun argument => ⟨span,argument⟩
  | .localVar _ =>
    if site.usedNames.contains name then [⟨span,(method.newName site.usedNames name).toList⟩] else []
  | resolution => (method.qualifier? site imports resolution).toList.map fun qualifier =>
      .insert span.start (qualifier ++ ['.'])

theorem length_nameEdits {name : String} {span : Span} (resolution : Resolution) :
    (method.nameEdits site imports name span resolution).length ≤ 1 := by
  cases resolution with
  | param index => cases given : site.arguments[index]? <;> simp [nameEdits,given]
  | localVar id =>
    simp only [nameEdits]
    split <;> simp
  | field target => cases given : method.qualifier? site imports (.field target) <;> simp [nameEdits,given]
  | type | unresolved => simp [nameEdits,qualifier?]

theorem filterMap_choices_name (site : CallSite) (imports : Imports) (name : String) (access : Access) (span : Span) (resolution : Resolution)
    (isLocal : ∀ id, resolution = .localVar id → ∃ known, method.locals[id]? = some known ∧ known.name.text = name) :
    (method.choices site imports).flatMap (fun choice =>
      ((method.nameFindings 0 access span resolution).map Sum.inl).filterMap choice.2) =
      method.nameEdits site imports name span resolution := by
  cases resolution with
  | param index =>
    simp only [nameFindings,List.map_cons,List.map_nil,flatMap_choices_single,nameEdits]
    cases given : site.arguments[index]? with
    | none =>
      apply choices_nothing
      intro role same
      cases same
      rw [choices_roles]
      simpa using given
    | some argument => exact choices_single (mem_choices_use given) (by simp [useChoice])
  | localVar id =>
    obtain ⟨known,found,rfl⟩ := isLocal id rfl
    simp only [nameFindings,List.map_cons,List.map_nil,flatMap_choices_single,nameEdits,List.contains_iff_mem]
    by_cases used : known.name.text ∈ site.usedNames
    · rw [if_pos used]
      exact choices_single (mem_choices_names (mem_localNames (List.mem_of_getElem? found)) used).2
        (by simp [usedChoice,found])
    · rw [if_neg used]
      apply choices_nothing
      intro role same
      simp only [Mention.role?,found,Option.map_some,Option.some.injEq] at same
      subst same
      exact (not_mem_choices_names used).2
  | field target =>
    simp only [nameFindings,nameEdits,qualifier?]
    split
    · simp only [List.map_cons,List.map_nil,flatMap_choices_single]
      cases given : site.receiver with
      | none =>
        apply choices_nothing
        intro role same
        cases same
        rw [choices_roles]
        simp [given]
      | some receiver => exact choices_single (mem_choices_receiver given) rfl
    · simp
  | type | unresolved => simp [nameFindings,nameEdits,qualifier?]

theorem filterMap_choices_declared (site : CallSite) (imports : Imports) (declared : Local) (member : declared ∈ method.locals) :
    (method.choices site imports).flatMap (fun choice => [Sum.inr declared].filterMap choice.2) =
      if site.usedNames.contains declared.name.text then
        [⟨declared.name.span,(method.newName site.usedNames declared.name.text).toList⟩] else [] := by
  rw [flatMap_choices_single]
  by_cases used : declared.name.text ∈ site.usedNames
  · rw [if_pos (List.contains_iff_mem.mpr used)]
    exact choices_single (mem_choices_names (mem_localNames member) used).1 (by simp [declaredChoice])
  · rw [if_neg (mt List.contains_iff_mem.mp used)]
    apply choices_nothing
    intro role same
    cases same
    exact (not_mem_choices_names used).1

namespace ReadFrom

variable {text : Text} {read : Java.Block} {visit : Visit} {k : Nat} (site : CallSite) (imports : Imports)

/-- Where a word is visited begin just the edits of this visit. -/
theorem beginningAt_perm (known : method.ReadFrom text read) (member : visit ∈ read.visits) {word : Span}
    (placed : visit.site? = some word) (begins : word.start = 2 * k + 1) :
    (Edit.beginningAt (offset text (2 * k + 1)) (method.changes site imports)).Perm
      ((method.choices site imports).flatMap fun choice =>
        ((visit.move (offset text)).mentions (method.scopeIn text) method).filterMap choice.2) := by
  obtain ⟨i,j,bound,spelled⟩ := known.spelled
  obtain ⟨front,back,parted,away⟩ := mentionsIn_split (method.scopeIn text) method spelled bound member placed begins
  have perm := (known.mentions.changes_perm site imports).filter (·.span.start == offset text (2 * k + 1))
  rw [parted,List.filter_flatMap] at perm
  refine perm.trans (.of_eq (List.flatMap_congr fun choice listed => ?_))
  have given := choices_of site imports choice listed
  have elsewhere (mentions : List (Finding ⊕ Local)) (sub : mentions ⊆ front ++ back) :
      (mentions.filterMap choice.2).filter (·.span.start == offset text (2 * k + 1)) = [] := by
    rw [List.filter_eq_nil_iff]
    intro edit made
    obtain ⟨mention,inside,chosen⟩ := List.mem_filterMap.mp made
    simpa using away mention (sub inside) edit.span (given.placed mention edit chosen)
  have own : (((visit.move (offset text)).mentions (method.scopeIn text) method).filterMap choice.2).filter
      (·.span.start == offset text (2 * k + 1)) =
      ((visit.move (offset text)).mentions (method.scopeIn text) method).filterMap choice.2 := by
    rw [List.filter_eq_self]
    intro edit made
    obtain ⟨mention,inside,chosen⟩ := List.mem_filterMap.mp made
    obtain ⟨place,here,edited⟩ := Visit.editedAt_of_mention _ method _ mention inside edit.span
      (given.placed mention edit chosen)
    rw [Visit.site?_move,placed] at here
    cases here
    rcases edited with same | same <;> simp [same,Span.map,Span.empty,begins]
  rw [List.filterMap_append,List.filterMap_append,List.filter_append,List.filter_append,own,
    elsewhere front (List.subset_append_left _ _),elsewhere back (List.subset_append_right _ _),List.nil_append,
    List.append_nil]

theorem locals_eq (known : method.ReadFrom text read) :
    method.locals = (read.mapSpans (Span.map (offset text))).visits.filterMap Visit.declared? := by
  simp only [locals,known.body,Option.map_some,Option.getD_some,Body.ofBlock_locals _ _ method]

/-- The variables in force where a name stands are variables of the method. -/
theorem visible_known (known : method.ReadFrom text read) {name : String} {visible : Locals} {access : Access}
    {span : Span} (member : .name name visible access span ∈ (read.mapSpans (Span.map (offset text))).visits) :
    Known method.locals visible := by
  rw [known.locals_eq]
  exact (read.mapSpans (Span.map (offset text))).visits_known _ member

/-- A name is visited at a word of the text. -/
theorem name_place (known : method.ReadFrom text read) {name : String} {visible : Locals} {access : Access}
    {span : Span} (member : .name name visible access span ∈ (read.mapSpans (Span.map (offset text))).visits) :
    ∃ k < (Java.tokens text).length, .name name visible access ⟨2 * k + 1,2 * k + 2⟩ ∈ read.visits ∧
      span = ⟨offset text (2 * k + 1),offset text (2 * k + 2)⟩ := by
  rw [Java.Block.mapSpans_visits] at member
  obtain ⟨naming,met,moved⟩ := List.mem_map.mp member
  obtain ⟨place,rfl,rfl⟩ := Visit.eq_name_of_move moved
  obtain ⟨i,j,bound,spelled⟩ := known.spelled
  obtain ⟨k,m,_,last,marks⟩ := spelled.marked _ met
  cases marks
  exact ⟨k,by omega,met,rfl⟩

/-- Where a name stands begin just the edits that go with what it stands for. -/
theorem edits_of_name (known : method.ReadFrom text read) {name : String} {visible : Locals} {access : Access}
    {span : Span} (member : .name name visible access span ∈ (read.mapSpans (Span.map (offset text))).visits) :
    Edit.beginningAt span.start (method.changes site imports) =
      method.nameEdits site imports name span ((method.scopeIn text).resolve visible name) := by
  obtain ⟨k,_,met,rfl⟩ := known.name_place member
  have perm := known.beginningAt_perm site imports met rfl rfl
  simp only [Visit.move,Visit.mentions,Visit.findings,Visit.declared?,Option.toList_none,List.map_nil,
    List.append_nil] at perm
  rw [filterMap_choices_name] at perm
  · exact eq_of_perm_short perm (length_nameEdits _)
  · exact fun id => Scope.resolve_eq_localVar (known.visible_known member)

/-- Where a variable is declared by a word begins just the change of its name. -/
theorem edits_of_declaration (known : method.ReadFrom text read) {declared : Local}
    (member : .declare declared ∈ (read.mapSpans (Span.map (offset text))).visits)
    (named : declared.name.span.start < declared.name.span.stop) :
    Edit.beginningAt declared.name.span.start (method.changes site imports) =
      if site.usedNames.contains declared.name.text then
        [⟨declared.name.span,(method.newName site.usedNames declared.name.text).toList⟩] else [] := by
  have isLocal : declared ∈ method.locals := by
    rw [known.locals_eq]
    exact List.mem_filterMap.mpr ⟨_,member,rfl⟩
  rw [Java.Block.mapSpans_visits] at member
  obtain ⟨declaring,met,moved⟩ := List.mem_map.mp member
  obtain ⟨read,rfl,rfl⟩ := Visit.eq_declare_of_move moved
  obtain ⟨i,j,_,spelled⟩ := known.spelled
  obtain ⟨k,m,_,_,marks⟩ := spelled.marked _ met
  cases marks with
  | declare _ seen place =>
    have perm := known.beginningAt_perm site imports met (congrArg some place) rfl
    have single : ((Visit.declare read).move (offset text)).mentions (method.scopeIn text) method =
        [Sum.inr (read.move (offset text))] := rfl
    rw [single,filterMap_choices_declared site imports _ isLocal] at perm
    have start : (read.move (offset text)).name.span.start = offset text (2 * k + 1) := by
      simp [Local.move,Java.Ident.mapSpans,place,Span.map]
    rw [start]
    apply eq_of_perm_short perm
    split <;> simp
  | unnamed _ unseen place =>
    simp [Local.move,Java.Ident.mapSpans,place,Span.map] at named

end ReadFrom

end Method

end Transplant
