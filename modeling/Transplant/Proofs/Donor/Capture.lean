import Mathlib.Data.List.Find
import Transplant.Proofs.Donor.Named

/-! Renaming captures nothing that the caller has told of. In the blocks a name that stood for a
local variable finds this variable by its new name; a name that the caller uses finds no variable of
the body. A name left in place that the caller does not tell of can be captured. -/
namespace Transplant

open Java (Block offset)

/-- The words of a text that can be names. -/
def Java.words (text : Text) : List String :=
  ((tokens text).filter (·.token.kind == .ident)).map (·.token.text)

/-- What a pass writes in place of a word that begins where the span does. -/
def Edit.written (edits : List Edit) (span : Span) (word : Text) : Text :=
  insertedAt edits span.start ++ ((replacedAt? edits span.start).map (·.replacement)).getD word

theorem Edit.written_beginningAt (edits : List Edit) (span : Span) (word : Text) :
    written (beginningAt span.start edits) span word = written edits span word := by
  have inserted : insertedAt (beginningAt span.start edits) span.start = insertedAt edits span.start := by
    simp only [insertedAt,beginningAt,List.filter_filter]
    congr 2
    ext edit
    cases empty : edit.span == Span.empty span.start with
    | false => rfl
    | true => simp [beq_iff_eq.mp empty,Span.empty]
  have replaced : replacedAt? (beginningAt span.start edits) span.start = replacedAt? edits span.start := by
    simp only [replacedAt?,beginningAt,List.find?_filter]
    congr 1
    ext edit
    cases begins : edit.span.start == span.start <;> simp [replaces,begins]
  simp only [written,inserted,replaced]

theorem Edit.written_nothing (span : Span) (word : Text) : written [] span word = word := by
  simp [written,insertedAt,replacedAt?]

theorem Edit.written_replacement (span : Span) (word replacement : Text) (lasting : span.start < span.stop) :
    written [⟨span,replacement⟩] span word = replacement := by
  have other : (span == Span.empty span.start) = false := by
    rw [beq_eq_false_iff_ne]
    intro same
    rw [same] at lasting
    exact Nat.lt_irrefl _ lasting
  have length : span.isEmpty = false := by simp [Span.isEmpty]; omega
  simp [written,insertedAt,replacedAt?,replaces,other,length]

theorem Edit.written_insert (span : Span) (word inserted : Text) :
    written [.insert span.start inserted] span word = inserted ++ word := by
  simp [written,insertedAt,replacedAt?,replaces,Edit.insert,Span.empty,Span.isEmpty]

namespace Scope

variable {β : Type} {scope : Scope β} {visible : Locals} {name : String}

theorem resolve_of_absent (absent : ∀ entry ∈ visible, entry.1 ≠ name) :
    scope.resolve visible name = scope.resolve [] name := by
  have none : visible.find? (·.1 == name) = none := by simpa using absent
  simp only [resolve,none,List.find?_nil]

theorem absent_of_resolve (other : ∀ id, scope.resolve visible name ≠ .localVar id) :
    ∀ entry ∈ visible, entry.1 ≠ name := by
  intro entry member same
  cases found : visible.find? (·.1 == name) with
  | none => exact absurd same (by simpa using List.find?_eq_none.mp found entry member)
  | some first => exact other first.2 (resolve_eq_localVar_iff.mpr ⟨first,found,rfl⟩)

end Scope

namespace Method

variable (method : Method Body)

/-- The variables in force, by their new names. -/
def renamed (callerNames : List String) (visible : Locals) : Locals :=
  visible.map fun entry => (method.newName callerNames entry.1,entry.2)

variable {method} {β : Type} {scope : Scope β} {visible : Locals} {callerNames : List String} {name : String}

theorem isLocal_of_known (known : Known method.locals visible) {entry : String × LocalId} (member : entry ∈ visible) :
    entry.1 ∈ method.localNames.map (·.name) := by
  obtain ⟨declared,found,named⟩ := known entry member
  exact named ▸ mem_localNames (List.mem_of_getElem? found)

/-- A name that the caller uses finds no variable of the body. -/
theorem resolve_renamed_used (known : Known method.locals visible) (used : name ∈ callerNames) :
    scope.resolve (method.renamed callerNames visible) name = scope.resolve [] name := by
  apply Scope.resolve_of_absent
  intro entry member
  obtain ⟨before,listed,rfl⟩ := List.mem_map.mp member
  rintro rfl
  exact newName_not_mem (isLocal_of_known known listed) used

/-- A variable is found by its new name where it was found by its old one. -/
theorem resolve_renamed_local (known : Known method.locals visible) {id : LocalId}
    (resolved : scope.resolve visible name = .localVar id) :
    scope.resolve (method.renamed callerNames visible) (method.newName callerNames name) = .localVar id := by
  obtain ⟨declared,found,named⟩ := Scope.resolve_eq_localVar known resolved
  have isLocal : name ∈ method.localNames.map (·.name) := named ▸ mem_localNames (List.mem_of_getElem? found)
  have same : (method.renamed callerNames visible).find? (·.1 == method.newName callerNames name) =
      (visible.find? (·.1 == name)).map fun entry => (method.newName callerNames entry.1,entry.2) := by
    rw [renamed,List.find?_map]
    congr 1
    apply List.find?_congr
    intro entry member
    have other := isLocal_of_known known member
    rw [Function.comp_apply,Bool.eq_iff_iff,beq_iff_eq,beq_iff_eq]
    exact ⟨newName_inj other isLocal,congrArg (method.newName callerNames)⟩
  obtain ⟨entry,first,rfl⟩ := Scope.resolve_eq_localVar_iff.mp resolved
  rw [first] at same
  exact Scope.resolve_eq_localVar_iff.mpr ⟨_,same,rfl⟩

/-- What is written for the names of a body, and what this finds among the variables of the body by
their new names. -/
structure CaptureFree (method : Method Body) (text : Text) (site : CallSite) (imports : Imports) (block : Block) :
    Prop where
  /-- A declaration gets the new name of its variable. -/
  declared : ∀ declared, .declare declared ∈ block.visits → declared.name.span.start < declared.name.span.stop →
    Edit.written (method.changes site imports) declared.name.span declared.name.text.toList =
      (method.newName site.usedNames declared.name.text).toList
  /-- No variable has a name that the caller uses. -/
  fresh : ∀ declared, .declare declared ∈ block.visits →
    method.newName site.usedNames declared.name.text ∉ site.usedNames
  /-- No variable has a name that occurs in an argument or in the receiver. -/
  given : ∀ part ∈ site.arguments ++ site.receiver.toList, ∀ word ∈ Java.words part,
    ∀ declared, .declare declared ∈ block.visits → method.newName site.usedNames declared.name.text ≠ word
  /-- The name of a variable becomes its new name, by which this variable is found. -/
  localVar : ∀ name visible access span id, .name name visible access span ∈ block.visits →
    (method.scopeIn text).resolve visible name = .localVar id →
    Edit.written (method.changes site imports) span name.toList = (method.newName site.usedNames name).toList ∧
      (method.scopeIn text).resolve (method.renamed site.usedNames visible) (method.newName site.usedNames name) =
        .localVar id
  /-- The name of a parameter becomes its argument, whose words find no variable. -/
  param : ∀ name visible access span index argument, .name name visible access span ∈ block.visits →
    (method.scopeIn text).resolve visible name = .param index → site.arguments[index]? = some argument →
    Edit.written (method.changes site imports) span name.toList = argument ∧
      ∀ word ∈ Java.words argument, (method.scopeIn text).resolve (method.renamed site.usedNames visible) word =
        (method.scopeIn text).resolve [] word
  /-- Another name is qualified, or left in place; then it keeps what it stands for if the caller uses it. -/
  other : ∀ name visible access span, .name name visible access span ∈ block.visits →
    (∀ id, (method.scopeIn text).resolve visible name ≠ .localVar id) →
    (∀ index, (method.scopeIn text).resolve visible name ≠ .param index) →
    match method.qualifier? site imports ((method.scopeIn text).resolve visible name) with
    | some qualifier => Edit.written (method.changes site imports) span name.toList = qualifier ++ '.' :: name.toList
    | none => Edit.written (method.changes site imports) span name.toList = name.toList ∧
        (name ∈ site.usedNames → (method.scopeIn text).resolve (method.renamed site.usedNames visible) name =
          (method.scopeIn text).resolve visible name)

namespace ReadFrom

variable {text : Text} {read : Block} (site : CallSite) (imports : Imports)

theorem newName_fresh (known : method.ReadFrom text read) (declared : Local)
    (member : .declare declared ∈ (read.mapSpans (Span.map (offset text))).visits) :
    method.newName site.usedNames declared.name.text ∉ site.usedNames := by
  apply newName_not_mem
  apply mem_localNames
  rw [known.locals_eq]
  exact List.mem_filterMap.mpr ⟨_,member,rfl⟩

/-- The name in a declaration is written as the new name. -/
theorem written_declared (known : method.ReadFrom text read) {declared : Local}
    (member : .declare declared ∈ (read.mapSpans (Span.map (offset text))).visits)
    (named : declared.name.span.start < declared.name.span.stop) :
    Edit.written (method.changes site imports) declared.name.span declared.name.text.toList =
      (method.newName site.usedNames declared.name.text).toList := by
  rw [← Edit.written_beginningAt,known.edits_of_declaration site imports member named]
  split
  · exact Edit.written_replacement _ _ _ named
  · rename_i unused
    rw [Edit.written_nothing,newName_of_not_mem (mt List.contains_iff_mem.mpr unused)]

/-- The name of a variable is written as its new name. -/
theorem written_used (known : method.ReadFrom text read) {name : String} {visible : Locals} {access : Access}
    {span : Span} {id : LocalId}
    (member : .name name visible access span ∈ (read.mapSpans (Span.map (offset text))).visits)
    (resolved : (method.scopeIn text).resolve visible name = .localVar id) :
    Edit.written (method.changes site imports) span name.toList = (method.newName site.usedNames name).toList := by
  obtain ⟨k,inside,_,rfl⟩ := known.name_place member
  rw [← Edit.written_beginningAt,known.edits_of_name site imports member,resolved,nameEdits]
  split
  · exact Edit.written_replacement _ _ _ (Java.offset_lt text inside)
  · rename_i unused
    rw [Edit.written_nothing,newName_of_not_mem (mt List.contains_iff_mem.mpr unused)]

theorem captureFree (known : method.ReadFrom text read)
    (listed : ∀ part ∈ site.arguments ++ site.receiver.toList, ∀ word ∈ Java.words part, word ∈ site.usedNames) :
    method.CaptureFree text site imports (read.mapSpans (Span.map (offset text))) where
  declared := fun _ => known.written_declared site imports
  fresh := known.newName_fresh site
  given := by
    intro part among word spelled declared member same
    exact known.newName_fresh site declared member (same ▸ listed part among word spelled)
  localVar := by
    intro name visible access span id member resolved
    exact ⟨known.written_used site imports member resolved,resolve_renamed_local (known.visible_known member) resolved⟩
  param := by
    intro name visible access span index argument member resolved given
    obtain ⟨k,inside,_,rfl⟩ := known.name_place member
    refine ⟨?_,fun word spelled => resolve_renamed_used (known.visible_known member)
      (listed argument (List.mem_append_left _ (List.mem_of_getElem? given)) word spelled)⟩
    rw [← Edit.written_beginningAt,known.edits_of_name site imports member,resolved,nameEdits,given]
    exact Edit.written_replacement _ _ _ (Java.offset_lt text inside)
  other := by
    intro name visible access span member noLocal noParam
    have edits := known.edits_of_name site imports member
    rw [nameEdits] at edits
    rw [← Edit.written_beginningAt,edits]
    cases given : method.qualifier? site imports ((method.scopeIn text).resolve visible name) with
    | some qualifier =>
      have inserted := Edit.written_insert span name.toList (qualifier ++ ['.'])
      rwa [List.append_assoc,List.singleton_append] at inserted
    | none =>
      refine ⟨Edit.written_nothing span name.toList,?_⟩
      intro used
      rw [resolve_renamed_used (known.visible_known member) used,
        Scope.resolve_of_absent (Scope.absent_of_resolve noLocal)]
    · exact fun index same => noParam index same
    · exact fun id same => noLocal id same

end ReadFrom

end Method

namespace Donor

/-- The blocks of a call come from one pass with changes that capture nothing the caller has told of. -/
theorem blocks_captureFree (text : Text) (method : Method Body) (layout : Layout) (site : CallSite)
    (imports : Imports) (member : method ∈ (ItemTree.ofText text).methods) (bodied : method.body.isSome = true)
    (count : site.arguments.length = method.params.length)
    (listed : ∀ part ∈ site.arguments ++ site.receiver.toList, ∀ word ∈ Java.words part, word ∈ site.usedNames) :
    ∃ block spans, method.body = some (Body.ofBlock (method.scopeIn text) block) ∧
      (Body.ofBlock (method.scopeIn text) block).selectSpans (!method.isVoid) site.mode = some spans ∧
      ((ofMethod text method layout).prepare.blocks site imports).1 =
        .ok (spans.map fun span => Block.ofPart layout (LineBreak.first text)
          (Edit.pass (method.changes site imports) span.start span.start (text.between span.start span.stop))) ∧
      method.CaptureFree text site imports block := by
  obtain ⟨body,given⟩ := Option.isSome_iff_exists.mp bodied
  obtain ⟨read,known⟩ := ItemTree.method_readFrom text method body member given
  obtain ⟨spans,selected,made⟩ := known.blocks_eq layout site imports _ known.body count
  exact ⟨_,spans,known.body,selected,made,known.captureFree site imports listed⟩

/-- A local variable gives way to a field and to the words of an argument. -/
theorem blocks_captureFree_renaming : ∃ method ∈ (ItemTree.ofText
    "class A { int f; int m(int p) { int i = p; return i + f; } }".toList).methods,
    ∃ block, method.body = some (Body.ofBlock (method.scopeIn
      "class A { int f; int m(int p) { int i = p; return i + f; } }".toList) block) ∧
      method.CaptureFree "class A { int f; int m(int p) { int i = p; return i + f; } }".toList
        ⟨["i + i1".toList],none,false,["i","i1","f"],.statement⟩ ⟨none,[]⟩ block := by
  have evaluated : ∃ method ∈ (ItemTree.ofText
      "class A { int f; int m(int p) { int i = p; return i + f; } }".toList).methods,
      method.body.isSome = true ∧ ["i + i1".toList].length = method.params.length ∧
      ∀ part ∈ ["i + i1".toList] ++ (none : Option Text).toList, ∀ word ∈ Java.words part, word ∈ ["i","i1","f"] := by
    decide +kernel
  obtain ⟨method,member,bodied,count,listed⟩ := evaluated
  obtain ⟨block,_,body,_,_,free⟩ := blocks_captureFree _ method .standard
    ⟨["i + i1".toList],none,false,["i","i1","f"],.statement⟩ ⟨none,[]⟩ member bodied count listed
  exact ⟨method,member,block,body,free⟩

set_option maxRecDepth 20000 in
/-- A field that the caller does not tell of is captured by the new name of a variable. -/
theorem blocks_capturing : ∃ method ∈ (ItemTree.ofText
    "class A { int i1; int m() { int i = 2; return i + i1; } }".toList).methods,
    method.activation = [] ∧
    method.body.any (fun body => body.exprs.contains (.name "i1" (.field ⟨"i1","A",false⟩) ⟨50,52⟩)) = true ∧
    ((ofMethod "class A { int i1; int m() { int i = 2; return i + i1; } }".toList method .standard).prepare.blocks
      ⟨[],none,false,["i"],.statement⟩ ⟨none,[]⟩).1 = .ok ["int i1 = 2; return i1 + i1;".toList] := by
  have evaluated : (ItemTree.ofText "class A { int i1; int m() { int i = 2; return i + i1; } }".toList).methods.map
      (fun method => (method.activation,
        method.body.any (fun body => body.exprs.contains (.name "i1" (.field ⟨"i1","A",false⟩) ⟨50,52⟩)),
        ((ofMethod "class A { int i1; int m() { int i = 2; return i + i1; } }".toList method .standard).prepare.blocks
          ⟨[],none,false,["i"],.statement⟩ ⟨none,[]⟩).1)) =
      [([],true,.ok ["int i1 = 2; return i1 + i1;".toList])] := by
    cbv
  obtain ⟨method,listed,done⟩ := List.map_eq_singleton_iff.mp evaluated
  simp only [Prod.mk.injEq] at done
  exact ⟨method,listed ▸ List.mem_singleton_self method,done⟩

end Donor

end Transplant
