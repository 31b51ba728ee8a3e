import Transplant.Proofs.Body.Entries
import Transplant.Proofs.Body.Move
import Transplant.Proofs.Item.Placement

/-! The bodies of the methods of a text. Each was read among the tokens of the text: what its tables
name is spelled there, and no two of their entries are named at one place. -/
namespace Transplant

open Java (Ident Block Token SeenWord Marks Spelled offset)

namespace Method

/-- What the names in the body of a method of the text are resolved in. -/
def scopeIn (text : Text) (method : Method Body) : Scope Block :=
  ⟨.outline (Java.parse text),method.owner,method.params⟩

/-- The body of the method was read among the tokens of the text. -/
structure ReadFrom (text : Text) (method : Method Body) (read : Block) : Prop where
  body : method.body = some (Body.ofBlock (method.scopeIn text) (read.mapSpans (Span.map (offset text))))
  isRead : read.IsRead ((Java.tokens text).map (·.token))

end Method

theorem ItemTree.method_readFrom (text : Text) (method : Method Body) (body : Body)
    (member : method ∈ (ofText text).methods) (given : method.body = some body) :
    ∃ read, method.ReadFrom text read := by
  rw [ofText,ofUnit_methods] at member
  obtain ⟨source,listed,rfl⟩ := List.mem_map.mp member
  obtain ⟨b,own,_⟩ := Option.map_eq_some_iff.mp given
  obtain ⟨read,rfl,isRead,_⟩ := ItemTree.body_read text source b listed own
  refine ⟨read,?_,isRead⟩
  simp only [Method.resolved,Method.mapBody,own,Option.map_some,Method.scopeIn]

theorem Method.ReadFrom.spelled {text : Text} {method : Method Body} {read : Block}
    (known : method.ReadFrom text read) : ∃ i j, j ≤ (Java.tokens text).length ∧
    Spelled ((Java.tokens text).map (·.token)) read.visits i j := by
  obtain ⟨_,_,bound,_,_,reading⟩ := known.isRead
  obtain ⟨start,stop,_,sequence,closed⟩ := reading.parts
  refine ⟨start,stop,?_,sequence.walkTop .start⟩
  rw [List.length_map] at bound
  exact Nat.le_trans closed.le bound

/-- Where expressions are named by a word of their own and variables are declared by a name. -/
def Body.nameSites (body : Body) : List Span :=
  (body.exprs.toList.filterMap ExprNode.spelling?).map (·.span) ++
    (body.locals.toList.map (·.name.span)).filter (!·.isEmpty)

/-- What the tables name is spelled in the text, and each place of the text is named once at most. -/
structure Body.Places (text : Text) (body : Body) : Prop where
  names : ∀ name resolution span, .name name resolution span ∈ body.exprs.toList →
    text.slice? span = some name.toList
  this : ∀ span, .this span ∈ body.exprs.toList → text.slice? span = some "this".toList
  calls : ∀ callee args target span, .call none callee args target span ∈ body.exprs.toList →
    text.slice? callee.span = some callee.text.toList ∧ span.start = callee.span.start
  locals : ∀ declared ∈ body.locals.toList,
    text.slice? declared.name.span = some declared.name.text.toList ∧
      (declared.name.text = "" ↔ declared.name.span.isEmpty = true)
  apart : body.nameSites.Pairwise Span.Apart

namespace Visit

/-- The place of a word that names the visit. -/
def nameSite? : Visit → Option Span
  | .name _ _ _ span => some span
  | .this span => some span
  | .call callee _ _ => some callee.span
  | .declare declared => some declared.name.span
  | _ => none

theorem nameSite?_move (g : Nat → Nat) (visit : Visit) :
    (visit.move g).nameSite? = visit.nameSite?.map (Span.map g) := by
  cases visit <;> rfl

/-- A visit names an expression or a variable. -/
theorem nameSites_perm (visits : List Visit) : (visits.filterMap nameSite?).Perm
    ((visits.filterMap spelling?).map (·.span) ++ (visits.filterMap declared?).map (·.name.span)) := by
  induction visits with
  | nil => exact .nil
  | cons visit rest ih =>
    cases visit with
    | declare declared =>
      simp only [List.filterMap_cons,nameSite?,spelling?,declared?,List.map_cons]
      exact (ih.cons _).trans List.perm_middle.symm
    | name | this | call => exact ih.cons _
    | _ => exact ih

end Visit

section

variable {text : Text} {visit : Visit} {k i j : Nat}

/-- A word of the text has at least one character. -/
theorem Java.SeenWord.spelled {word : String} (seen : SeenWord ((Java.tokens text).map (·.token)) k word) :
    text.slice? (Span.map (offset text) ⟨2 * k + 1,2 * k + 2⟩) = some word.toList ∧ word ≠ "" ∧
      offset text (2 * k + 1) < offset text (2 * k + 2) := by
  obtain ⟨token,found,same⟩ := seen
  rw [List.getElem?_map] at found
  obtain ⟨placed,known,rfl⟩ := Option.map_eq_some_iff.mp found
  simp only [Token.isWord,Bool.and_eq_true,beq_iff_eq] at same
  have slice := Java.slice?_token known
  have length := Java.offset_lt text (List.getElem?_eq_some_iff.mp known).1
  rw [Java.token_span known,same.2] at slice
  refine ⟨slice,?_,length⟩
  rintro rfl
  have ordered := Nat.le_of_lt length
  have first := Java.offset_isBoundary text (2 * k + 1)
  have second := Java.offset_isBoundary text (2 * k + 2)
  rw [Text.slice?_eq_some text _ ordered first second] at slice
  have size := Text.size_between text _ _ ordered first second
  rw [Option.some.inj slice] at size
  simp only [String.toList_empty,Text.size_nil] at size
  omega

/-- A visit is named by one word, or between two tokens when its word is missing. -/
theorem Java.Marks.nameSite {tokens : List Token} {span : Span} (marks : Marks tokens visit i j)
    (placed : visit.nameSite? = some span) : 2 * i ≤ span.start ∧ span.stop ≤ 2 * j ∧
      (span = ⟨2 * i + 1,2 * i + 2⟩ ∨ span = ⟨2 * i,2 * i⟩) := by
  have word (place : Span) (here : place = ⟨2 * i + 1,2 * i + 2⟩) : 2 * i ≤ place.start ∧
      place.stop ≤ 2 * (i + 1) ∧ (place = ⟨2 * i + 1,2 * i + 2⟩ ∨ place = ⟨2 * i,2 * i⟩) := by
    subst here
    exact ⟨Nat.le_succ _,Nat.le_refl _,.inl rfl⟩
  cases marks with
  | name | this =>
    cases placed
    exact word _ rfl
  | call callee arity _ opened start named place =>
    cases placed
    exact word _ place
  | declare declared named place =>
    cases placed
    exact word _ place
  | unnamed declared unseen place empty =>
    cases placed
    rw [place]
    exact ⟨Nat.le_refl _,Nat.le_refl _,.inr rfl⟩
  | _ => cases placed

/-- What names an expression is a word, with which the expression begins. -/
theorem Java.Marks.spelled {tokens : List Token} {spelling : Spelling} (marks : Marks tokens visit i j)
    (named : visit.spelling? = some spelling) : SeenWord tokens i spelling.text ∧
      spelling.span = ⟨2 * i + 1,2 * i + 2⟩ ∧ spelling.front = spelling.span.start := by
  cases marks with
  | name token found ident =>
    cases named
    exact ⟨⟨token,found,by simp [Token.isWord,ident]⟩,rfl,rfl⟩
  | this seen =>
    cases named
    exact ⟨seen,rfl,rfl⟩
  | call callee arity span opened start seen place =>
    cases named
    exact ⟨seen,place,by simp only [start,place]⟩
  | _ => cases named

/-- A variable is declared by a word, or between two tokens when it is missing. -/
theorem Java.Marks.declared {tokens : List Token} {declared : Local} (marks : Marks tokens visit i j)
    (made : visit.declared? = some declared) :
    (SeenWord tokens i declared.name.text ∧ declared.name.span = ⟨2 * i + 1,2 * i + 2⟩) ∨
      (declared.name.text = "" ∧ declared.name.span = ⟨2 * i,2 * i⟩) := by
  cases marks with
  | declare _ named place =>
    cases made
    exact .inl ⟨named,place⟩
  | unnamed _ unseen place empty =>
    cases made
    exact .inr ⟨empty,place⟩
  | _ => cases made

end

def Spelling.move (g : Nat → Nat) (spelling : Spelling) : Spelling :=
  ⟨spelling.text,spelling.span.map g,g spelling.front⟩

namespace Visit

theorem spelling?_move (g : Nat → Nat) (visit : Visit) :
    (visit.move g).spelling? = visit.spelling?.map (Spelling.move g) := by
  cases visit <;> rfl

theorem declared?_move (g : Nat → Nat) (visit : Visit) :
    (visit.move g).declared? = visit.declared?.map (Local.move g) := by
  cases visit <;> rfl

end Visit

namespace Method.ReadFrom

variable {text : Text} {method : Method Body} {read : Block}

/-- What names an expression of a body stands in the text. -/
theorem spelling_stands (known : method.ReadFrom text read) (spelling : Spelling)
    (named : spelling ∈ (Body.ofBlock (method.scopeIn text)
      (read.mapSpans (Span.map (offset text)))).exprs.toList.filterMap ExprNode.spelling?) :
    text.slice? spelling.span = some spelling.text.toList ∧ spelling.front = spelling.span.start := by
  have met := (Body.ofBlock_spellings (method.scopeIn text) _ method).subset named
  rw [Java.Block.mapSpans_visits,List.filterMap_map] at met
  obtain ⟨visit,member,same⟩ := List.mem_filterMap.mp met
  rw [Function.comp_apply,Visit.spelling?_move] at same
  obtain ⟨source,own,rfl⟩ := Option.map_eq_some_iff.mp same
  obtain ⟨i,j,_,spelled⟩ := known.spelled
  obtain ⟨k,m,_,_,marks⟩ := spelled.marked visit member
  obtain ⟨seen,place,front⟩ := marks.spelled own
  simp only [Spelling.move,place,front]
  exact ⟨seen.spelled.1,rfl⟩

theorem local_stands (known : method.ReadFrom text read) (declared : Local)
    (listed : declared ∈ (Body.ofBlock (method.scopeIn text)
      (read.mapSpans (Span.map (offset text)))).locals.toList) :
    text.slice? declared.name.span = some declared.name.text.toList ∧
      (declared.name.text = "" ↔ declared.name.span.isEmpty = true) := by
  rw [Body.ofBlock_locals _ _ method,Java.Block.mapSpans_visits,List.filterMap_map] at listed
  obtain ⟨visit,member,same⟩ := List.mem_filterMap.mp listed
  rw [Function.comp_apply,Visit.declared?_move] at same
  obtain ⟨source,own,rfl⟩ := Option.map_eq_some_iff.mp same
  obtain ⟨i,j,_,spelled⟩ := known.spelled
  obtain ⟨k,m,_,_,marks⟩ := spelled.marked visit member
  rcases marks.declared own with ⟨seen,place⟩ | ⟨empty,place⟩
  · obtain ⟨slice,filled,length⟩ := seen.spelled
    simp only [Local.move,Java.Ident.mapSpans,place]
    exact ⟨slice,by simp [filled,Span.isEmpty,Span.map,Nat.ne_of_lt length]⟩
  · have boundary := Java.offset_isBoundary text (2 * k)
    simp only [Local.move,Java.Ident.mapSpans,place,empty]
    refine ⟨?_,by simp [Span.isEmpty,Span.map]⟩
    rw [Text.slice?_eq_some text _ (Nat.le_refl _) boundary boundary]
    exact congrArg some (text.between_self _ boundary)

/-- The words that are named in a body stand one behind the other. -/
theorem nameSites_apart (known : method.ReadFrom text read) : (Body.ofBlock (method.scopeIn text)
    (read.mapSpans (Span.map (offset text)))).nameSites.Pairwise Span.Apart := by
  obtain ⟨i,j,bound,spelled⟩ := known.spelled
  have ascending : ((read.mapSpans (Span.map (offset text))).visits.filterMap Visit.nameSite?).Pairwise
      Span.Apart := by
    rw [Java.Block.mapSpans_visits,List.filterMap_map,List.pairwise_filterMap]
    refine spelled.ordered.imp ?_
    intro first second ⟨a,b,c,d,early,late,order,last⟩ front frontPlaced back backPlaced
    rw [Function.comp_apply,Visit.nameSite?_move] at frontPlaced backPlaced
    obtain ⟨left,leftPlaced,rfl⟩ := Option.map_eq_some_iff.mp frontPlaced
    obtain ⟨right,rightPlaced,rfl⟩ := Option.map_eq_some_iff.mp backPlaced
    have before := early.nameSite leftPlaced
    have after := late.nameSite rightPlaced
    have inside : right.start ≤ 2 * (Java.tokens text).length + 1 := by
      rcases after.2.2 with rfl | rfl <;> simp only at after ⊢ <;> omega
    exact .inl (Java.offset_mono text (by omega) inside)
  have sites := (Visit.nameSites_perm (read.mapSpans (Span.map (offset text))).visits).symm
  have named := (Body.ofBlock_spellings (method.scopeIn text) (read.mapSpans (Span.map (offset text))) method).map
    (·.span)
  have all := (named.append_right _).trans sites
  have apart := (all.symm.pairwise_iff fun given => Or.symm given).mp ascending
  rw [← Body.ofBlock_locals (method.scopeIn text) _ method] at apart
  exact apart.sublist (List.Sublist.append (List.Sublist.refl _) List.filter_sublist)

end Method.ReadFrom

/-- In a body of a method of any text, names, calls without a receiver, `this` and variables stand
where the tables say, each at a place of its own. -/
theorem ItemTree.body_places (text : Text) (method : Method Body) (body : Body)
    (member : method ∈ (ofText text).methods) (given : method.body = some body) : body.Places text := by
  obtain ⟨read,known⟩ := method_readFrom text method body member given
  have same := Option.some.inj (given.symm.trans known.body)
  have stands {node : ExprNode} {spelling : Spelling} (listed : node ∈ body.exprs.toList)
      (named : node.spelling? = some spelling) := known.spelling_stands spelling
    (same ▸ List.mem_filterMap.mpr ⟨node,listed,named⟩)
  refine ⟨fun _ _ _ listed => (stands listed rfl).1,fun _ listed => (stands listed rfl).1,
    fun _ _ _ _ listed => stands listed rfl,fun declared listed => ?_,?_⟩
  · exact known.local_stands declared (same ▸ listed)
  · rw [same]
    exact known.nameSites_apart

/-- Five places are named in this body, the variable among them where it is declared. -/
theorem ItemTree.body_places_returning : ∃ method ∈ (ofText
    "class A { int m(int p) { int q = p; return this.n + f(q); } }".toList).methods,
    ∃ body, method.body = some body ∧ body.nameSites = [⟨33,34⟩,⟨43,47⟩,⟨54,55⟩,⟨52,53⟩,⟨29,30⟩] ∧
      body.Places "class A { int m(int p) { int q = p; return this.n + f(q); } }".toList := by
  have evaluated : ∃ method ∈ (ofText
      "class A { int m(int p) { int q = p; return this.n + f(q); } }".toList).methods,
      method.body.map Body.nameSites = some [⟨33,34⟩,⟨43,47⟩,⟨54,55⟩,⟨52,53⟩,⟨29,30⟩] := by
    decide +kernel
  obtain ⟨method,member,sites⟩ := evaluated
  obtain ⟨body,given,same⟩ := Option.map_eq_some_iff.mp sites
  exact ⟨method,member,body,given,same,body_places _ method body member given⟩

end Transplant
