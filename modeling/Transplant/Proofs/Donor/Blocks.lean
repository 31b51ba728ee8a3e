import Mathlib
import Transplant.Proofs.Donor.Chosen
import Transplant.Proofs.Donor.Selected
import Transplant.Proofs.Item.Bodies

/-! The blocks of a method for a call, for any text that the method was read from. Nothing that the
reader, the tables or the findings record makes the edits collide, so there are always blocks; and
each is its part of the text after one pass with all changes. -/
namespace Transplant

open Java (Block CompilationUnit Spelled offset)

theorem Visit.mentions_getLeft? {β γ : Type} (scope : Scope β) (method : Method γ) (visit : Visit) :
    (visit.mentions scope method).filterMap Sum.getLeft? = visit.findings scope method := by
  simp [mentions,List.filterMap_map,Function.comp_def]

theorem Visit.mentions_getRight? {β γ : Type} (scope : Scope β) (method : Method γ) (visit : Visit) :
    (visit.mentions scope method).filterMap Sum.getRight? = visit.declared?.toList := by
  simp [mentions,List.filterMap_map,Function.comp_def]

/-- Receivers that are found stand for the class of the method itself. -/
theorem Visit.findings_declaringType {β γ : Type} (scope : Scope β) (method : Method γ) (visit : Visit)
    (found : ImplicitReceiver) (member : .receiver found ∈ visit.findings scope method) :
    found.declaringType = method.declaringType := by
  cases visit with
  | name text visible access place =>
    simp only [findings,Method.nameFindings] at member
    split at member
    · simp at member
    · simp at member
    · split at member
      · rename_i own
        cases List.mem_singleton.mp member
        exact own
      · simp at member
    · simp at member
    · simp at member
  | call callee arity place =>
    simp only [findings,Method.bareCallFindings] at member
    split at member
    · simp at member
    · split at member
      · simp at member
      · split at member
        · split at member
          · simp only [List.mem_cons,reduceCtorEq,List.not_mem_nil,or_false,false_or] at member
            cases member
            rfl
          · cases List.mem_singleton.mp member
            rfl
        · simp at member
  | this place =>
    cases List.mem_singleton.mp member
    rfl
  | create created place =>
    simp only [findings] at member
    split at member
    · cases List.mem_singleton.mp member
      rfl
    · simp at member
  | callOnThis callee arity place =>
    simp only [findings] at member
    split at member <;> simp at member
  | _ => simp [findings] at member

namespace Method.ReadFrom

variable {text : Text} {method : Method Body} {read : Block} (layout : Layout)
  (site : CallSite) (imports : Imports)

theorem mentions (known : method.ReadFrom text read) :
    method.Mentions (mentionsIn (method.scopeIn text) method text read.visits) where
  shown := by
    rw [findings_ofBlock (method.scopeIn text) _ method known.body,Java.Block.mapSpans_visits,mentionsIn,List.filterMap_flatMap]
    exact List.flatMap_congr fun visit _ => (visit.mentions_getLeft? _ method).symm
  known := by
    rw [locals,known.body,mentionsIn,List.filterMap_flatMap]
    simp only [Option.map_some,Option.getD_some,Body.ofBlock_locals _ _ method,Java.Block.mapSpans_visits]
    rw [List.filterMap_eq_flatMap_toList]
    exact List.flatMap_congr fun visit _ => (visit.mentions_getRight? _ method).symm

/-- All receivers that are found stand for one class. -/
theorem declaringType (known : method.ReadFrom text read) :
    ∀ found ∈ method.implicitReceivers, found.declaringType = method.declaringType := by
  intro found member
  obtain ⟨finding,shown,same⟩ := List.mem_filterMap.mp member
  have erased := List.mem_map_of_mem (f := Finding.erase) shown
  rw [findings_ofBlock (method.scopeIn text) _ method known.body] at erased
  obtain ⟨visit,_,made⟩ := List.mem_flatMap.mp erased
  cases finding with
  | receiver entry =>
    cases same
    exact visit.findings_declaringType _ method { found with expr := 0 } made
  | _ => cases same

/-- All that is changed for a call stands inside the text and keeps apart. -/
theorem applicable (known : method.ReadFrom text read) :
    Edit.Applicable text (method.changes site imports) ∧ ∀ edit ∈ method.changes site imports, edit.Ordered := by
  obtain ⟨i,j,bound,spelled⟩ := known.spelled
  have placed : ∀ edit ∈ method.changes site imports, ∃ place : Span, place.start ≤ place.stop ∧
      place.stop ≤ 2 * (Java.tokens text).length + 1 ∧ edit.span = place.map (offset text) := by
    intro edit member
    obtain ⟨mention,mentioned,here⟩ := known.mentions.changes_site site imports edit member
    obtain ⟨visit,met,place,edited,moved⟩ := mentionsIn_edited _ method mention mentioned _ here
    have := (spelled.site met edited).bounds
    exact ⟨place,by omega,by omega,moved⟩
  refine ⟨⟨?_,known.mentions.changes_apart site imports (mentionsIn_before _ method spelled bound)⟩,?_⟩
  · intro edit member
    obtain ⟨place,order,last,moved⟩ := placed edit member
    have atStart := Java.offset_isBoundary text place.start
    have atStop := Java.offset_isBoundary text place.stop
    constructor
    · rw [moved]
      exact text.le_size_of_isBoundary _ atStop
    · rw [moved]
      exact atStart
    · rw [moved]
      exact atStop
  · intro edit member
    obtain ⟨place,order,last,moved⟩ := placed edit member
    unfold Edit.Ordered
    rw [moved]
    exact Java.offset_mono text order last

/-- What is recorded for a call are the changes for it. -/
theorem log_edits (known : method.ReadFrom text read) (count : site.arguments.length = method.params.length) :
    let donor := (Donor.ofMethod text method layout).prepare
    (donor.argumentRewrites site.arguments ++ (donor.receiverRewrites site imports).1 ++
      donor.renameRewrites site.usedNames).map Rewrite.edit = method.changes site imports := by
  simp only [List.map_append,Method.changes]
  rw [Donor.argumentRewrites_edits text layout site count,
    Donor.receiverRewrites_edits text layout site imports known.declaringType,
    Donor.renameRewrites_edits text layout site]

/-- The parts that are selected keep clear of all changes. -/
theorem selected (known : method.ReadFrom text read) (body : Body) (given : method.body = some body)
    (hasValue : Bool) (mode : CallMode) : ∃ spans, body.selectSpans hasValue mode = some spans ∧
      RewriteLog.Kept text (method.changes site imports) spans := by
  cases given.symm.trans known.body
  obtain ⟨_,_,inside,_,_,reading⟩ := known.isRead
  obtain ⟨i,j,bound,spelled⟩ := known.spelled
  have count : ((Java.tokens text).map (·.token)).length = (Java.tokens text).length := List.length_map _
  obtain ⟨spans,selected,moved⟩ := Java.Block.selectSpans_moved reading inside (offset text)
    (fun first second order last => Java.offset_mono text order (by rwa [count] at last)) hasValue mode
  refine ⟨_,(Body.ofBlock_selectSpans _ _ method hasValue mode).trans moved,?_⟩
  exact selected.kept _ method spelled bound _ (known.mentions.changes_site site imports)

/-- The blocks for a call are the selected parts, each after one pass with all changes. -/
theorem blocks_eq (known : method.ReadFrom text read) (body : Body) (given : method.body = some body)
    (count : site.arguments.length = method.params.length) :
    ∃ spans, body.selectSpans (!method.isVoid) site.mode = some spans ∧
      ((Donor.ofMethod text method layout).prepare.blocks site imports).1 =
        .ok (spans.map fun span => Block.ofPart layout (LineBreak.first text)
          (Edit.pass (method.changes site imports) span.start span.start (text.between span.start span.stop))) := by
  obtain ⟨spans,found,kept⟩ := known.selected site imports body given (!method.isVoid) site.mode
  obtain ⟨applicable,ordered⟩ := known.applicable site imports
  have edits := known.log_edits layout site imports count
  refine ⟨spans,found,?_⟩
  have prepared : (Donor.ofMethod text method layout).prepare.isPrepared = true := rfl
  have own : (Donor.ofMethod text method layout).prepare.method = method := rfl
  have selecting : body.selectSpans (Donor.ofMethod text method layout).prepare.hasReturnValue site.mode =
      some spans := found
  simp only [Donor.blocks,prepared,own,given,count,Donor.blocks.cut,selecting,Bool.not_true,Bool.false_eq_true,if_false,
    ne_eq,not_true_eq_false]
  rw [← edits] at kept applicable ordered ⊢
  have extracted := Snapshot.extract_kept (.ofText text) _ spans layout kept applicable ordered
  exact congrArg (Except.mapError TransplantError.edit) extracted

end Method.ReadFrom

namespace Donor

variable (text : Text) (method : Method Body) (layout : Layout) (site : CallSite) (imports : Imports)

/-- A method with a body, of any text, has blocks for every call with as many arguments as it has
parameters. -/
theorem blocks_isOk (member : method ∈ (ItemTree.ofText text).methods) (bodied : method.body.isSome = true) (count : site.arguments.length = method.params.length) :
    ∃ blocks, ((ofMethod text method layout).prepare.blocks site imports).1 = .ok blocks := by
  obtain ⟨body,given⟩ := Option.isSome_iff_exists.mp bodied
  obtain ⟨read,known⟩ := ItemTree.method_readFrom text method body member given
  obtain ⟨spans,_,done⟩ := known.blocks_eq layout site imports body given count
  exact ⟨_,done⟩

/-- A method that returns its parameter. -/
theorem blocks_isOk_returning : ∃ method ∈ (ItemTree.ofText
    "class A { int m(int p) { return p; } }".toList).methods,
    ∃ blocks, ((ofMethod "class A { int m(int p) { return p; } }".toList method
      .standard).prepare.blocks ⟨["1".toList],some "a".toList,false,["q"],.expression⟩ ⟨none,[]⟩).1 = .ok blocks := by
  have evaluated : ∃ method ∈ (ItemTree.ofText
      "class A { int m(int p) { return p; } }".toList).methods,
      method.body.isSome = true ∧ ["1".toList].length = method.params.length := by
    decide +kernel
  obtain ⟨method,member,bodied,count⟩ := evaluated
  exact ⟨method,member,blocks_isOk _ method _ _ _ member bodied count⟩

/-- Blocks that are given are the selected parts of the text in their order, each after one pass
with all changes for the call. -/
theorem blocks_eq_pass (member : method ∈ (ItemTree.ofText text).methods) (blocks : List Text)
    (done : ((ofMethod text method layout).prepare.blocks site imports).1 = .ok blocks) :
    ∃ body spans, method.body = some body ∧ body.selectSpans (!method.isVoid) site.mode = some spans ∧
      blocks = spans.map fun span => Block.ofPart layout (LineBreak.first text)
        (Edit.pass (method.changes site imports) span.start span.start
          (text.between span.start span.stop)) := by
  have prepared : (ofMethod text method layout).prepare.isPrepared = true := rfl
  have own : (ofMethod text method layout).prepare.method = method := rfl
  have count : site.arguments.length = method.params.length := by
    by_contra different
    simp [Donor.blocks,prepared,own,different] at done
  obtain ⟨body,given⟩ : ∃ body, method.body = some body := by
    cases bodied : method.body with
    | none => simp [Donor.blocks,prepared,own,count,bodied] at done
    | some body => exact ⟨body,rfl⟩
  obtain ⟨read,known⟩ := ItemTree.method_readFrom text method body member given
  obtain ⟨spans,found,expected⟩ := known.blocks_eq layout site imports body given count
  exact ⟨body,spans,given,found,Except.ok.inj (done.symm.trans expected)⟩

set_option maxRecDepth 20000 in
/-- A body that returns a value has two parts, with its own changes in each. -/
theorem blocks_eq_pass_returning : ∃ method ∈ (ItemTree.ofText
    "class A { int m(int p) { int q = p; return q; } }".toList).methods,
    ∃ body spans, method.body = some body ∧ body.selectSpans (!method.isVoid) .expression = some spans ∧
      ["int q1 = 1;".toList,"q1".toList] = spans.map fun span => Block.ofPart .standard
        (LineBreak.first "class A { int m(int p) { int q = p; return q; } }".toList)
        (Edit.pass (method.changes ⟨["1".toList],none,false,["q"],.expression⟩ ⟨none,[]⟩) span.start span.start
          (Text.between "class A { int m(int p) { int q = p; return q; } }".toList span.start span.stop)) := by
  have evaluated : (ItemTree.ofText "class A { int m(int p) { int q = p; return q; } }".toList).methods.map
      (fun method => ((ofMethod "class A { int m(int p) { int q = p; return q; } }".toList method
        .standard).prepare.blocks ⟨["1".toList],none,false,["q"],.expression⟩ ⟨none,[]⟩).1) =
      [.ok ["int q1 = 1;".toList,"q1".toList]] := by
    cbv
  obtain ⟨method,listed,done⟩ := List.map_eq_singleton_iff.mp evaluated
  have member : method ∈ (ItemTree.ofText "class A { int m(int p) { int q = p; return q; } }".toList).methods := by
    rw [listed]
    exact List.mem_singleton_self method
  exact ⟨method,member,blocks_eq_pass _ method _ _ _ member _ done⟩

end Donor

end Transplant
