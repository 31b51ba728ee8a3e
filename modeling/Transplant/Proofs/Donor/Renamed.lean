import Transplant.Proofs.Body.Introduced
import Transplant.Proofs.Donor.Capture
import Transplant.Proofs.Item.Resolution

/-! The variables that take part in renaming. Each variable that the tree of a body introduces is known by
its name, with the word that declares it and every word that finds it, and at each of them it gives way to
a name of the caller. The tree has neither the variables of patterns nor the headers of `try`: these keep
their names. -/
namespace Transplant

open Java (Block offset)

/-- In a part of the text that is passed over, the place gets the replacement, and what stands before and
behind it is passed over by itself. -/
def Edit.Gives (text : Text) (edits : List Edit) (part place : Span) (replacement : Text) : Prop :=
  pass edits part.start part.start (text.between part.start part.stop) =
    pass edits part.start part.start (text.between part.start place.start) ++ (replacement ++
      pass edits place.stop place.stop (text.between place.stop part.stop))

theorem Edit.gives_replacement {text : Text} {edits : List Edit} {edit : Edit} (applicable : Applicable text edits)
    (ordered : ∀ edit ∈ edits, edit.Ordered) (member : edit ∈ edits) (lasting : edit.span.start < edit.span.stop)
    {part : Span} (atStart : text.isBoundary part.start = true) (atStop : text.isBoundary part.stop = true)
    (inside : part.contains edit.span = true) : Gives text edits part edit.span edit.replacement := by
  obtain ⟨low,high⟩ := (Span.contains_iff _ _).mp inside
  have fits := applicable.fits edit member
  have front := text.size_between part.start edit.span.start low atStart fits.atStart
  have own := text.size_between edit.span.start edit.span.stop (by omega) fits.atStart fits.atStop
  rw [Gives,text.between_trans part.start edit.span.start part.stop low (by omega) atStart fits.atStart atStop,
    text.between_trans edit.span.start edit.span.stop part.stop (by omega) high fits.atStart fits.atStop atStop]
  exact pass_around applicable.apart ordered member lasting _ _ _ (by omega) (by omega)

namespace Method

variable {method : Method Body}

/-- A name of variables is recorded with all their places. -/
theorem mem_localNames_iff {entry : LocalName} : entry ∈ method.localNames ↔
    entry.name ∈ method.locals.map (·.name.text) ∧ entry.spans = method.spansOfLocal entry.name := by
  simp only [localNames,List.mem_map,List.mem_eraseDups]
  constructor
  · rintro ⟨name,listed,rfl⟩
    exact ⟨listed,rfl⟩
  · rintro ⟨listed,spans⟩
    exact ⟨entry.name,listed,by rw [← spans]⟩

/-- The word is a place of the variables called `name`. -/
def HasPlace (method : Method Body) (name : String) (span : Span) : Prop :=
  ∃ entry ∈ method.localNames, entry.name = name ∧ span ∈ entry.spans

theorem hasPlace_of_mem {name : String} {span : Span} (isLocal : name ∈ method.locals.map (·.name.text))
    (member : span ∈ method.spansOfLocal name) : method.HasPlace name span :=
  ⟨⟨name,method.spansOfLocal name⟩,mem_localNames_iff.mpr ⟨isLocal,rfl⟩,rfl,member⟩

theorem hasPlace_declared {declared : Local} (member : declared ∈ method.locals) :
    method.HasPlace declared.name.text declared.name.span := by
  refine hasPlace_of_mem (List.mem_map_of_mem member) ?_
  simp only [spansOfLocal,List.mem_mergeSort,List.mem_append]
  exact .inl (List.mem_map_of_mem (List.mem_filter.mpr ⟨member,beq_self_eq_true _⟩))

theorem hasPlace_used {id : LocalId} {span : Span} {declared : Local} (shown : .localVar id span ∈ method.findings)
    (found : method.locals[id]? = some declared) : method.HasPlace declared.name.text span := by
  refine hasPlace_of_mem (List.mem_map_of_mem (List.mem_of_getElem? found)) ?_
  simp only [spansOfLocal,List.mem_mergeSort,List.mem_append]
  exact .inr (List.mem_filterMap.mpr ⟨_,shown,by simp [found]⟩)

/-- The variables of a body are known with their places, and have new names there for a caller that uses
their names. -/
structure Renamed (text : Text) (block : Block) (method : Method Body) : Prop where
  /-- Each variable is declared at one of its places. -/
  declared : ∀ name, block.Introduces name → method.HasPlace name.text name.span
  /-- A word that is used as a variable, but in a header of a `try`, is met as a name, and stands at a
  place of the variable that it finds. -/
  used : ∀ k word, VariableUse text block k word → (∀ visit ∈ block.visits, visit.passesOver word.span = false) →
    ∃ occurrence ∈ block.occurrences, occurrence.name = word.token.text ∧ occurrence.span = word.span ∧
      ∀ id, occurrence.Finds id → method.HasPlace occurrence.name occurrence.span
  /-- The new names are none of the caller. -/
  fresh : ∀ name span, method.HasPlace name span → ∀ callerNames, method.newName callerNames name ∉ callerNames
  /-- The blocks for a call are the selected parts after one pass in which each place of a name that the
  caller uses gets the new name. -/
  blocks : ∀ layout site imports, site.arguments.length = method.params.length →
    ∃ spans, (Body.ofBlock (method.scopeIn text) block).selectSpans (!method.isVoid) site.mode = some spans ∧
      ((Donor.ofMethod text method layout).prepare.blocks site imports).1 =
        .ok (spans.map fun span => Transplant.Block.ofPart layout (LineBreak.first text)
          (Edit.pass (method.changes site imports) span.start span.start (text.between span.start span.stop))) ∧
      ∀ name place, method.HasPlace name place → place.start < place.stop → name ∈ site.usedNames →
        ∀ part ∈ spans, part.contains place = true →
          Edit.Gives text (method.changes site imports) part place (method.newName site.usedNames name).toList

namespace ReadFrom

variable {text : Text} {read : Block}

theorem hasPlace_introduced (known : method.ReadFrom text read) {name : Java.Ident}
    (introduces : (read.mapSpans (Span.map (offset text))).Introduces name) : method.HasPlace name.text name.span := by
  obtain ⟨declared,met,rfl⟩ := introduces.declared
  apply hasPlace_declared
  rw [known.locals_eq]
  exact List.mem_filterMap.mpr ⟨_,met,rfl⟩

/-- A name that is met stands at a place of the variable that it finds. -/
theorem hasPlace_found (known : method.ReadFrom text read) {occurrence : Occurrence} {access : Access}
    (met : .name occurrence.name (inForce occurrence.place occurrence.before) access occurrence.span ∈
      (read.mapSpans (Span.map (offset text))).visits) {id : LocalId} (finds : occurrence.Finds id) :
    method.HasPlace occurrence.name occurrence.span := by
  have resolved : (method.scopeIn text).resolve (inForce occurrence.place occurrence.before) occurrence.name =
      .localVar id :=
    Scope.resolve_eq_localVar_iff.mpr ⟨_,(find?_inForce_iff occurrence (occurrence.name,id)).mpr ⟨rfl,finds⟩,rfl⟩
  obtain ⟨declared,found,named⟩ := Scope.resolve_eq_localVar (known.visible_known met) resolved
  have made : .localVar id occurrence.span ∈ (Visit.name occurrence.name (inForce occurrence.place occurrence.before)
      access occurrence.span).findings (method.scopeIn text) method := by
    rw [Visit.findings,resolved]
    exact List.mem_cons_self
  obtain ⟨finding,shown,same⟩ := found_of_visit known.body met made
  obtain rfl : finding = .localVar id occurrence.span := by cases finding <;> cases same; rfl
  exact named ▸ hasPlace_used shown found

theorem gives_newName (known : method.ReadFrom text read) (site : CallSite) (imports : Imports) {spans : List Span}
    (kept : RewriteLog.Kept text (method.changes site imports) spans) (name : String) (place : Span)
    (own : method.HasPlace name place) (lasting : place.start < place.stop) (used : name ∈ site.usedNames)
    (part : Span) (selected : part ∈ spans) (inside : part.contains place = true) :
    Edit.Gives text (method.changes site imports) part place (method.newName site.usedNames name).toList := by
  obtain ⟨entry,listed,rfl,placed⟩ := own
  obtain ⟨applicable,ordered⟩ := known.applicable site imports
  have member : (⟨place,(method.newName site.usedNames entry.name).toList⟩ : Edit) ∈ method.changes site imports := by
    refine List.mem_append_right _ (List.mem_flatMap.mpr ⟨entry,?_,List.mem_map_of_mem placed⟩)
    exact List.mem_filter.mpr ⟨listed,List.contains_iff_mem.mpr used⟩
  exact Edit.gives_replacement applicable ordered member lasting (kept.atStart part selected)
    (kept.atStop part selected) inside

end ReadFrom

/-- All variables that the tree of a body introduces take part in renaming, at all places outside of the
headers of `try`, if the method can be moved. -/
theorem variables_renamed (text : Text) (source : Method Block) (block : Block)
    (member : source ∈ (ItemTree.outline (Java.parse text)).methods) (given : source.body = some block)
    (clean : (source.resolved (.outline (Java.parse text))).activation = []) :
    (source.resolved (.outline (Java.parse text))).Renamed text block := by
  obtain ⟨read,rfl,isRead,_⟩ := ItemTree.body_read text source block member given
  have known : (source.resolved (.outline (Java.parse text))).ReadFrom text read :=
    ⟨by simp only [resolved,mapBody,given,Option.map_some,scopeIn],isRead⟩
  refine ⟨fun name => known.hasPlace_introduced,?_,?_,?_⟩
  · intro k word use outside
    rcases use.visited isRead (whole_of_activation _ _ _ known.body clean) with
      ⟨visible,access,met⟩ | ⟨visit,passed,inside⟩
    · have sighted : (⟨word.token.text,visible,word.span⟩ : Sighting) ∈
          (read.mapSpans (Span.map (offset text))).occurrences.map Occurrence.sighting := by
        rw [Java.Block.occurrences_seen]
        exact List.mem_filterMap.mpr ⟨_,met,rfl⟩
      obtain ⟨occurrence,listed,same⟩ := List.mem_map.mp sighted
      obtain ⟨named,seen,placed⟩ := Sighting.mk.inj same
      refine ⟨occurrence,listed,named,placed,fun id finds => ?_⟩
      rw [← named,← seen,← placed] at met
      exact known.hasPlace_found met finds
    · exact absurd ((outside visit passed).symm.trans inside) (by decide)
  · rintro name span ⟨entry,listed,rfl,_⟩ callerNames
    exact newName_not_mem (List.mem_map_of_mem listed)
  · intro layout site imports count
    obtain ⟨spans,selected,made⟩ := known.blocks_eq layout site imports _ known.body count
    obtain ⟨parts,again,kept⟩ := known.selected site imports _ known.body _ site.mode
    cases Option.some.inj (selected.symm.trans again)
    exact ⟨spans,selected,made,known.gives_newName site imports kept⟩

set_option maxRecDepth 20000 in
/-- The variables of a loop and of a clause. -/
theorem variables_renamed_loop : ∃ source ∈ (ItemTree.outline (Java.parse
    "class A { void m() { for (int i = 0;;) { try { f(i); } catch (E e) { g(e); } } } }".toList)).methods,
    ∃ block, source.body = some block ∧
      (source.resolved (.outline (Java.parse
        "class A { void m() { for (int i = 0;;) { try { f(i); } catch (E e) { g(e); } } } }".toList))).localNames =
        [⟨"i",[⟨30,31⟩,⟨49,50⟩]⟩,⟨"e",[⟨64,65⟩,⟨71,72⟩]⟩] ∧
      (source.resolved (.outline (Java.parse
        "class A { void m() { for (int i = 0;;) { try { f(i); } catch (E e) { g(e); } } } }".toList))).Renamed
        "class A { void m() { for (int i = 0;;) { try { f(i); } catch (E e) { g(e); } } } }".toList block := by
  have evaluated : (ItemTree.outline (Java.parse
      "class A { void m() { for (int i = 0;;) { try { f(i); } catch (E e) { g(e); } } } }".toList)).methods.map
      (fun source => (source.body.isSome,
        (source.resolved (.outline (Java.parse
          "class A { void m() { for (int i = 0;;) { try { f(i); } catch (E e) { g(e); } } } }".toList))).activation,
        (source.resolved (.outline (Java.parse
          "class A { void m() { for (int i = 0;;) { try { f(i); } catch (E e) { g(e); } } } }".toList))).localNames)) =
      [(true,[],[⟨"i",[⟨30,31⟩,⟨49,50⟩]⟩,⟨"e",[⟨64,65⟩,⟨71,72⟩]⟩])] := by
    cbv
  obtain ⟨source,only,found⟩ := List.map_eq_singleton_iff.mp evaluated
  simp only [Prod.mk.injEq] at found
  obtain ⟨bodied,clean,names⟩ := found
  obtain ⟨block,given⟩ := Option.isSome_iff_exists.mp bodied
  have member : source ∈ (ItemTree.outline (Java.parse
      "class A { void m() { for (int i = 0;;) { try { f(i); } catch (E e) { g(e); } } } }".toList)).methods := by
    rw [only]
    exact List.mem_singleton_self _
  exact ⟨source,member,block,given,names,variables_renamed _ source block member given clean⟩

set_option maxRecDepth 20000 in
/-- The variables of a pattern and of a header are none of the method, and keep names that the caller
uses; so does a variable where it is used in the header. -/
theorem variables_not_renamed :
    (∃ method ∈ (ItemTree.ofText "class A { void m(T p) { if (p instanceof S s) { f(s); } } }".toList).methods,
      method.activation = [] ∧ method.localNames = [] ∧
      ((Donor.ofMethod "class A { void m(T p) { if (p instanceof S s) { f(s); } } }".toList method
        .standard).prepare.blocks ⟨["a".toList],none,false,["s"],.statement⟩ ⟨none,[]⟩).1 =
        .ok ["if (a instanceof S s) { f(s); }".toList]) ∧
    ∃ method ∈ (ItemTree.ofText "class A { void m() { int i = 1; try (R r = f(i)) { g(r); } } }".toList).methods,
      method.activation = [] ∧ method.localNames = [⟨"i",[⟨25,26⟩]⟩] ∧
      ((Donor.ofMethod "class A { void m() { int i = 1; try (R r = f(i)) { g(r); } } }".toList method
        .standard).prepare.blocks ⟨[],none,false,["i","r"],.statement⟩ ⟨none,[]⟩).1 =
        .ok ["int i1 = 1; try (R r = f(i)) { g(r); }".toList] := by
  have pattern : (ItemTree.ofText "class A { void m(T p) { if (p instanceof S s) { f(s); } } }".toList).methods.map
      (fun method => (method.activation,method.localNames,
        ((Donor.ofMethod "class A { void m(T p) { if (p instanceof S s) { f(s); } } }".toList method
          .standard).prepare.blocks ⟨["a".toList],none,false,["s"],.statement⟩ ⟨none,[]⟩).1)) =
      [([],[],.ok ["if (a instanceof S s) { f(s); }".toList])] := by
    cbv
  have header : (ItemTree.ofText "class A { void m() { int i = 1; try (R r = f(i)) { g(r); } } }".toList).methods.map
      (fun method => (method.activation,method.localNames,
        ((Donor.ofMethod "class A { void m() { int i = 1; try (R r = f(i)) { g(r); } } }".toList method
          .standard).prepare.blocks ⟨[],none,false,["i","r"],.statement⟩ ⟨none,[]⟩).1)) =
      [([],[⟨"i",[⟨25,26⟩]⟩],.ok ["int i1 = 1; try (R r = f(i)) { g(r); }".toList])] := by
    cbv
  obtain ⟨first,inFirst,matched⟩ := List.map_eq_singleton_iff.mp pattern
  obtain ⟨second,inSecond,tried⟩ := List.map_eq_singleton_iff.mp header
  simp only [Prod.mk.injEq] at matched tried
  refine ⟨⟨first,?_,matched⟩,second,?_,tried⟩
  · rw [inFirst]
    exact List.mem_singleton_self _
  · rw [inSecond]
    exact List.mem_singleton_self _

end Method

end Transplant
