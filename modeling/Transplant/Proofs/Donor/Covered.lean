import Transplant.Proofs.Donor.Selected
import Transplant.Proofs.Item.Bodies

/-! What the spans selected from a body cover. The statements at the top of a body lie in order, and the
value of a `return` stands between the word and the semicolon, so nothing of the `return` is covered but
the value, and this with a gap in front of it. -/
namespace Transplant

open Java (Block Expr Stmt offset)

/-- From the first to the last of some spans. -/
def Span.hull (parts : List Span) : List Span :=
  match parts.head?,parts.getLast? with
  | some first,some last => [⟨first.start,last.stop⟩]
  | _,_ => []

namespace Span.Surrounds

variable {around last : Span} {parts : List Span}

theorem hull_eq (surrounds : around.Surrounds parts) : (parts = [] ∧ Span.hull parts = []) ∨
    ∃ whole, Span.hull parts = [whole] ∧ whole.start < whole.stop ∧ around.contains whole = true ∧
      (∀ part ∈ parts, whole.contains part = true) ∧ ∃ last ∈ parts, whole.stop = last.stop := by
  cases parts with
  | nil => exact .inl ⟨rfl,rfl⟩
  | cons first rest =>
    obtain ⟨lasting,inside,ascending⟩ := surrounds
    obtain ⟨front,last,parted⟩ : ∃ front last, first :: rest = front ++ [last] :=
      ⟨_,_,(List.dropLast_append_getLast (List.cons_ne_nil first rest)).symm⟩
    have isFirst : (front ++ [last]).head? = some first := parted ▸ rfl
    have same : Span.hull (first :: rest) = [⟨first.start,last.stop⟩] := by
      simp only [Span.hull,parted,List.getLast?_concat,isFirst]
    have isLast : last ∈ first :: rest := by simp [parted]
    have low : ∀ part ∈ first :: rest, first.start ≤ part.start := by
      intro part member
      rcases List.mem_cons.mp member with rfl | later
      · exact Nat.le_refl _
      · have lasts := lasting first (by simp)
        have behind := (List.pairwise_cons.mp ascending).1 part later
        omega
    have high : ∀ part ∈ first :: rest, part.stop ≤ last.stop := by
      rw [parted] at ascending ⊢
      intro part member
      rcases List.mem_append.mp member with earlier | same
      · have lasts := lasting last isLast
        have behind := (List.pairwise_append.mp ascending).2.2 part earlier last (by simp)
        omega
      · rw [List.mem_singleton.mp same]
    have firstInside := (Span.contains_iff _ _).mp (inside first (by simp))
    have lastInside := (Span.contains_iff _ _).mp (inside last isLast)
    have lasts := lasting first (by simp)
    have reaches := high first (by simp)
    refine .inr ⟨_,same,by simp only; omega,?_,?_,last,isLast,rfl⟩
    · exact (Span.contains_iff _ _).mpr ⟨firstInside.1,lastInside.2⟩
    · exact fun part member => (Span.contains_iff _ _).mpr ⟨low part member,high part member⟩

theorem ordered (surrounds : around.Surrounds parts) :
    ∀ first last, parts.head? = some first → parts.getLast? = some last → first.start ≤ last.stop := by
  intro first last isFirst isLast
  rcases surrounds.hull_eq with ⟨rfl,_⟩ | ⟨whole,same,lasts,_⟩
  · cases isFirst
  · simp only [Span.hull,isFirst,isLast,List.cons.injEq,and_true] at same
    rw [← same] at lasts
    exact Nat.le_of_lt lasts

end Span.Surrounds

namespace Body

variable (body : Body)

/-- The statements that are selected whole: all but a `return` at the end. -/
def leading : List StmtId := if body.lastReturn?.isSome then body.statements.dropLast else body.statements

/-- The span of a `return` at the end and what it returns. -/
def Ends (value : Option ExprId) (whole : Span) : Prop :=
  body.lastReturn? = some value ∧ body.statements.getLast?.bind body.stmtSpan? = some whole

def exprSpan? (id : ExprId) : Option Span := (body.exprs[id]?).map (·.span)

/-- The statement lies in one of the spans. -/
def Covered (spans : List Span) (id : StmtId) : Prop :=
  ∃ part, body.stmtSpan? id = some part ∧ ∃ span ∈ spans, span.contains part = true

/-- What holds of the spans that are selected from a body. -/
structure Selection (hasValue : Bool) (mode : CallMode) (spans : List Span) : Prop where
  few : spans.length ≤ 2
  lasting : ∀ span ∈ spans, span.start < span.stop
  inside : ∀ span ∈ spans, body.span.contains span = true
  gapped : spans.Pairwise fun first second => first.stop < second.start
  two : spans.length = 2 ↔ hasValue = true ∧ mode = .expression ∧ 2 ≤ body.statements.length ∧
    ∃ e, body.lastReturn? = some (some e)
  leading : ∀ id ∈ body.leading, body.Covered spans id
  all : hasValue = true → mode = .statement → ∀ id ∈ body.statements, body.Covered spans id
  value : hasValue = true → mode = .expression → ∀ e whole, body.Ends (some e) whole →
    ∃ own ∈ spans, body.exprSpan? e = some own ∧ whole.contains own = true
  /-- Nothing else of a `return` at the end is covered. -/
  only : hasValue = false ∨ mode = .expression → ∀ value whole, body.Ends value whole → ∀ span ∈ spans,
    span.stop ≤ whole.start ∨ hasValue = true ∧ value.bind body.exprSpan? = some span

/-- The statements of a body have their spans in order, and a value returned at the end stands inside of
its statement. -/
structure InOrder (parts : List Span) : Prop where
  known : body.statements.map body.stmtSpan? = parts.map some
  surrounds : body.span.Surrounds parts
  returned : ∀ e, body.lastReturn? = some (some e) → ∃ own whole, body.Ends (some e) whole ∧
    body.exprSpan? e = some own ∧ whole.start < own.start ∧ own.start < own.stop ∧ own.stop < whole.stop

variable {body} {parts : List Span} {around whole : Span} {ids : List StmtId} {value : Option ExprId}

theorem statementSpans_eq_hull (known : ids.map body.stmtSpan? = parts.map some)
    (surrounds : around.Surrounds parts) : body.statementSpans ids = some (Span.hull parts) := by
  have found (id : Option StmtId) (part : Option Span) (same : id.map body.stmtSpan? = part.map some) :
      id.bind body.stmtSpan? = part := by
    cases id <;> cases part <;> simp_all
  have first := congrArg List.head? known
  have last := congrArg List.getLast? known
  rw [List.head?_map,List.head?_map] at first
  rw [List.getLast?_map,List.getLast?_map] at last
  simp only [statementSpans,found _ _ first,found _ _ last,Span.hull]
  cases isFirst : parts.head? with
  | none => rfl
  | some head =>
    cases isLast : parts.getLast? with
    | none => rfl
    | some tail => simp only [Span.ofBounds?,if_pos (surrounds.ordered _ _ isFirst isLast),Option.map_some]

theorem covered_of_mem (known : ids.map body.stmtSpan? = parts.map some) {spans : List Span}
    (covers : ∀ part ∈ parts, ∃ span ∈ spans, span.contains part = true) : ∀ id ∈ ids, body.Covered spans id := by
  intro id member
  have found : body.stmtSpan? id ∈ parts.map some := known ▸ List.mem_map_of_mem member
  obtain ⟨part,listed,same⟩ := List.mem_map.mp found
  exact ⟨part,same.symm,covers part listed⟩

theorem hull_covers (surrounds : around.Surrounds parts) :
    ∀ part ∈ parts, ∃ span ∈ Span.hull parts, span.contains part = true := by
  rcases surrounds.hull_eq with ⟨rfl,_⟩ | ⟨whole,same,_,_,covers,_⟩
  · nofun
  · exact fun part member => ⟨whole,by simp [same],covers part member⟩

theorem Ends.unique {other : Option ExprId} {place : Span} (ends : body.Ends value whole)
    (again : body.Ends other place) : place = whole :=
  Option.some.inj (again.2.symm.trans ends.2)

theorem ends_of_lastReturn (returns : body.lastReturn? = some value) : ∃ whole, body.Ends value whole := by
  have found := returns
  rw [lastReturn?_eq,Option.bind_eq_some_iff] at found
  obtain ⟨node,found,_⟩ := found
  obtain ⟨last,isLast,stored⟩ := Option.bind_eq_some_iff.mp found
  exact ⟨node.span,returns,by rw [isLast,Option.bind_some,stmtSpan?,stored]; rfl⟩

/-- A `return` at the end comes behind the spans of the other statements. -/
theorem InOrder.parted (inOrder : body.InOrder parts) (ends : body.Ends value whole) :
    ∃ front, parts = front ++ [whole] ∧ body.statements.dropLast.map body.stmtSpan? = front.map some ∧
      body.leading = body.statements.dropLast ∧ body.statements ≠ [] := by
  obtain ⟨returns,isLast⟩ := ends
  obtain ⟨last,found,placed⟩ := Option.bind_eq_some_iff.mp isLast
  have notEmpty : body.statements ≠ [] := by
    rintro none
    rw [none] at found
    cases found
  have known := inOrder.known
  rw [← List.dropLast_append_getLast notEmpty,List.map_append,List.map_singleton] at known
  rw [List.getLast?_eq_some_getLast notEmpty,Option.some.injEq] at found
  rw [found,placed] at known
  obtain ⟨front,back,rfl,early,late⟩ := List.map_eq_append_iff.mp known.symm
  obtain ⟨one,rfl,same⟩ := List.map_eq_singleton_iff.mp late
  cases same
  exact ⟨front,rfl,early.symm,by rw [leading,returns]; rfl,notEmpty⟩

/-- Selecting the statements in front of a `return`, or all statements, gives one span at most. -/
theorem Selection.ofHull {hasValue : Bool} {mode : CallMode} (surrounds : body.span.Surrounds parts)
    (other : ¬(hasValue = true ∧ mode = .expression ∧ 2 ≤ body.statements.length ∧
      ∃ e, body.lastReturn? = some (some e)))
    (leading : ∀ id ∈ body.leading, body.Covered (Span.hull parts) id)
    (all : hasValue = true → mode = .statement → ∀ id ∈ body.statements, body.Covered (Span.hull parts) id)
    (none : hasValue = true → mode = .expression → ∀ e, body.lastReturn? ≠ some (some e))
    (before : hasValue = false ∨ mode = .expression → ∀ value whole, body.Ends value whole →
      ∀ part ∈ parts, part.stop ≤ whole.start) :
    body.Selection hasValue mode (Span.hull parts) where
  few := by rcases surrounds.hull_eq with ⟨_,same⟩ | ⟨whole,same,_⟩ <;> simp [same]
  lasting := by
    rcases surrounds.hull_eq with ⟨_,same⟩ | ⟨whole,same,lasts,_⟩
    · simp [same]
    · simpa [same] using lasts
  inside := by
    rcases surrounds.hull_eq with ⟨_,same⟩ | ⟨whole,same,_,inside,_⟩
    · simp [same]
    · simpa [same] using inside
  gapped := by rcases surrounds.hull_eq with ⟨_,same⟩ | ⟨whole,same,_⟩ <;> simp [same]
  two := by
    refine iff_of_false ?_ other
    rcases surrounds.hull_eq with ⟨_,same⟩ | ⟨whole,same,_⟩ <;> simp [same]
  leading := leading
  all := all
  value := fun valued inExpr e whole ends => absurd ends.1 (none valued inExpr e)
  only := by
    intro partly value whole ends span member
    rcases surrounds.hull_eq with ⟨_,same⟩ | ⟨hull,same,_,_,_,last,listed,stop⟩
    · simp [same] at member
    · rw [same,List.mem_singleton] at member
      subst member
      exact .inl (stop ▸ before partly value whole ends last listed)

/-- Selecting the statements in front of a `return` and the value it gives. -/
theorem Selection.ofBoth {e : ExprId} {front : List Span} {own : Span} (surrounds : body.span.Surrounds (front ++ [whole]))
    (count : body.statements.length = front.length + 1) (ends : body.Ends (some e) whole)
    (leading : ∀ id ∈ body.leading, body.Covered (Span.hull front) id) (stored : body.exprSpan? e = some own)
    (gap : whole.start < own.start) (lasts : own.start < own.stop) (semicolon : own.stop < whole.stop) :
    body.Selection true .expression (Span.hull front ++ [own]) := by
  have before := (List.pairwise_append.mp surrounds.ascending).2.2
  have around := (Span.contains_iff _ _).mp (surrounds.inside whole (by simp))
  have early : ∀ span ∈ Span.hull front, span.start < span.stop ∧ body.span.contains span = true ∧
      span.stop ≤ whole.start := by
    rcases (surrounds.of_sublist (List.sublist_append_left front [whole])).hull_eq with
      ⟨_,same⟩ | ⟨hull,same,lasts,inside,_,last,listed,stop⟩
    · simp [same]
    · intro span member
      rw [same,List.mem_singleton] at member
      subst member
      exact ⟨lasts,inside,stop ▸ before last listed whole (by simp)⟩
  have size : (Span.hull front).length = 0 ∧ front = [] ∨ (Span.hull front).length = 1 ∧ front ≠ [] := by
    rcases (surrounds.of_sublist (List.sublist_append_left front [whole])).hull_eq with
      ⟨none,same⟩ | ⟨hull,same,_,_,_,last,listed,_⟩
    · exact .inl ⟨by rw [same]; rfl,none⟩
    · exact .inr ⟨by rw [same]; rfl,List.ne_nil_of_mem listed⟩
  constructor
  case few =>
    rw [List.length_append,List.length_singleton]
    omega
  case lasting =>
    simp only [List.forall_mem_append,List.forall_mem_singleton]
    exact ⟨fun span member => (early span member).1,lasts⟩
  case inside =>
    simp only [List.forall_mem_append,List.forall_mem_singleton]
    exact ⟨fun span member => (early span member).2.1,(Span.contains_iff _ _).mpr (by omega)⟩
  case gapped =>
    refine List.pairwise_append.mpr ⟨?_,List.pairwise_singleton _ _,?_⟩
    · match same : Span.hull front with
      | [] => exact .nil
      | [_] => exact List.pairwise_singleton _ _
      | _ :: _ :: _ => simp [same] at size
    · intro span member last isLast
      rw [List.mem_singleton.mp isLast]
      exact Nat.lt_of_le_of_lt (early span member).2.2 gap
  case two =>
    have filled : front ≠ [] ↔ 2 ≤ body.statements.length := by
      rw [count,← List.length_pos_iff]
      omega
    rw [List.length_append,List.length_singleton,← filled]
    refine ⟨fun two => ⟨rfl,rfl,?_,e,ends.1⟩,fun given => ?_⟩
    · rcases size with ⟨none,_⟩ | ⟨_,some⟩
      · omega
      · exact some
    · rcases size with ⟨_,none⟩ | ⟨one,_⟩
      · exact absurd none given.2.2.1
      · omega
  case leading =>
    intro id member
    obtain ⟨part,placed,span,listed,contained⟩ := leading id member
    exact ⟨part,placed,span,List.mem_append_left _ listed,contained⟩
  case all => nofun
  case value =>
    intro _ _ other place again
    cases ends.unique again
    cases ends.1.symm.trans again.1
    exact ⟨own,by simp,stored,(Span.contains_iff _ _).mpr (by omega)⟩
  case only =>
    intro _ value place again span member
    cases ends.unique again
    cases ends.1.symm.trans again.1
    rcases List.mem_append.mp member with listed | isOwn
    · exact .inl (early span listed).2.2
    · exact .inr ⟨rfl,by rw [List.mem_singleton.mp isOwn]; exact stored⟩

/-- What is selected from a body in order. -/
theorem InOrder.selects (inOrder : body.InOrder parts) (hasValue : Bool) (mode : CallMode) :
    ∃ spans, body.selectSpans hasValue mode = some spans ∧ body.Selection hasValue mode spans := by
  obtain ⟨known,surrounds,returned⟩ := inOrder
  have allSpans := statementSpans_eq_hull known surrounds
  have allCovered := covered_of_mem known (hull_covers surrounds)
  cases returns : body.lastReturn? with
  | none =>
    refine ⟨_,by simpa only [selectSpans,returns] using allSpans,.ofHull surrounds (by simp [returns]) ?_
      (fun _ _ => allCovered) (by simp [returns]) ?_⟩
    · simpa [leading,returns] using allCovered
    · exact fun _ value whole ends => absurd ends.1 (by simp [returns])
  | some value =>
    obtain ⟨whole,ends⟩ := ends_of_lastReturn returns
    obtain ⟨front,rfl,early,led,notEmpty⟩ := InOrder.parted ⟨known,surrounds,returned⟩ ends
    have frontSurrounds := surrounds.of_sublist (List.sublist_append_left front [whole])
    have frontSpans := statementSpans_eq_hull early frontSurrounds
    have frontCovered := covered_of_mem early (hull_covers frontSurrounds)
    have before : ∀ value place, body.Ends value place → ∀ part ∈ front, part.stop ≤ place.start := by
      intro value place again part member
      rw [ends.unique again]
      exact (List.pairwise_append.mp surrounds.ascending).2.2 part member whole (by simp)
    cases hasValue with
    | false =>
      exact ⟨_,by simpa only [selectSpans,returns] using frontSpans,.ofHull frontSurrounds (by simp)
        (led ▸ frontCovered) (by simp) (by simp) fun _ => before⟩
    | true =>
      cases mode with
      | statement =>
        refine ⟨_,by simpa only [selectSpans,returns] using allSpans,.ofHull surrounds (by simp) ?_
          (fun _ _ => allCovered) (by simp) (by simp)⟩
        exact led ▸ fun id member => allCovered id (List.dropLast_subset _ member)
      | expression =>
        cases value with
        | none =>
          refine ⟨_,?_,.ofHull frontSurrounds (by simp [returns]) (led ▸ frontCovered) (by simp)
            (by simp [returns]) fun _ => before⟩
          simp [selectSpans,returns,frontSpans,exprSpans]
        | some e =>
          obtain ⟨own,place,again,stored,gap,lasts,semicolon⟩ := returned e returns
          cases ends.unique again
          have count : body.statements.length = front.length + 1 := by
            simpa using congrArg List.length known
          refine ⟨_,?_,.ofBoth surrounds count ends (led ▸ frontCovered) stored gap lasts semicolon⟩
          obtain ⟨node,entered,span⟩ := Option.map_eq_some_iff.mp stored
          simp [selectSpans,returns,frontSpans,exprSpans,entered,span]

theorem mem_root {β : Type} (scope : Scope β) (block : Block) :
    .block (ofBlock scope block).statements (ofBlock scope block).span ∈ (ofBlock scope block).stmts.toList := by
  simp [statements,span,ofBlock_eq,StmtNode.span]

/-- What is returned at the end of a body, among the tokens it was read from. -/
structure Returning (body : Body) (text : Text) (e : ExprId) (value : Expr) (i k : Nat) : Prop where
  before : i + 1 < k
  semicolon : Java.Seen ((Java.tokens text).map (·.token)) k .semicolon
  isRead : Expr.Read ((Java.tokens text).map (·.token)) (i + 1) value k
  ran : Java.Parser.expr (.on ((Java.tokens text).map (·.token)) (i + 1)) =
    (value,.on ((Java.tokens text).map (·.token)) k)
  stored : body.exprSpan? e = some (value.span.map (offset text))
  ends : body.Ends (some e) (Span.map (offset text) ⟨2 * i + 1,2 * (k + 1)⟩)

end Body

namespace Method.ReadFrom

variable {text : Text} {method : Method Body} {read : Block} {body : Body} {e : ExprId}

theorem returning (known : method.ReadFrom text read) (given : method.body = some body)
    (returns : body.lastReturn? = some (some e)) : ∃ value i k, body.Returning text e value i k := by
  cases given.symm.trans known.body
  obtain ⟨_,_,inside,_,_,reading⟩ := known.isRead
  obtain ⟨start,stop,_,sequence,closed⟩ := reading.parts
  obtain ⟨whole,ends⟩ := Body.ends_of_lastReturn returns
  rcases forall₂_ends (Body.ofBlock_stands (method.scopeIn text) (read.mapSpans (Span.map (offset text))) method) with
    ⟨none,_⟩ | ⟨_,_,last,s,_,_,_,isLast,listed,node,found,span,stands⟩
  · have other := ends.2
    rw [Body.ofBlock_statements,none] at other
    cases other
  have value : node.value? = some (some e) := by
    rw [← returns,Body.lastReturn?_eq,Body.ofBlock_statements,isLast,Option.bind_some,found,Option.bind_some]
  obtain ⟨statements,around⟩ := read
  simp only [Block.mapSpans,Stmt.mapSpansAll_eq_map,List.getLast?_map,Option.map_eq_some_iff] at listed sequence
  obtain ⟨own,isOwn,rfl⟩ := listed
  obtain ⟨front,rfl⟩ := List.getLast?_eq_some_iff.mp isOwn
  obtain ⟨i,_,ownRead⟩ := sequence.split
  rw [value,Stmt.mapSpans_value?] at stands
  match valued : own.value?,stands with
  | some (some returned),⟨entry,entered,placed⟩ =>
    obtain ⟨_,values⟩ := ownRead.returned _ valued
    obtain ⟨k,before,semicolon,rfl,isRead,ran⟩ := values returned rfl
    refine ⟨returned,i,k,before,semicolon,isRead,ran,?_,returns,?_⟩
    · rw [Body.exprSpan?,(Body.ofBlock_holds _ _).exprs e entry entered,Option.map_some,placed,Expr.mapSpans_span]
    · rw [Body.ofBlock_statements,isLast,Option.bind_some,Body.stmtSpan?,found,Option.map_some,span,Stmt.mapSpans_span,
        ownRead.span]

end Method.ReadFrom

/-- The value stands inside of the `return`: a token begins it, and another one ends the statement. -/
theorem Body.Returning.placed {text : Text} {body : Body} {e : ExprId} {value : Expr} {i k : Nat}
    (returning : body.Returning text e value i k) :
    ∃ own whole, body.Ends (some e) whole ∧ body.exprSpan? e = some own ∧ whole.start < own.start ∧
      own.start < own.stop ∧ own.stop < whole.stop := by
  obtain ⟨before,semicolon,isRead,_,stored,ends⟩ := returning
  have known := semicolon.lt
  have start := isRead.start
  have stop := isRead.stop
  rw [List.length_map] at known
  refine ⟨_,_,ends,stored,?_,?_,?_⟩
  · exact Java.TokenBetween.offset_lt ⟨i,by omega,by simp only; omega,by omega⟩ (by omega)
  · exact Java.TokenBetween.offset_lt ⟨i + 1,by omega,by omega,by omega⟩ (by omega)
  · exact Java.TokenBetween.offset_lt ⟨k,by omega,by omega,by simp only; omega⟩ (by simp only; omega)

theorem ItemTree.body_inOrder {text : Text} {method : Method Body} {body : Body}
    (member : method ∈ (ofText text).methods) (given : method.body = some body) : ∃ parts, body.InOrder parts := by
  obtain ⟨read,known⟩ := method_readFrom text method body member given
  have root : .block body.statements body.span ∈ body.stmts.toList := by
    cases given.symm.trans known.body
    exact Body.mem_root _ _
  obtain ⟨parts,placed,surrounds⟩ := (Text.trees_lie text).2.blocks method member body given _ _ root
  refine ⟨parts,placed,surrounds,fun e returns => ?_⟩
  obtain ⟨value,i,k,returning⟩ := known.returning given returns
  exact returning.placed

/-- Whatever the body of a method and the call are, spans are selected, and they cover the statements
in front of a `return` at the end and of the `return` what the call needs. -/
theorem Body.selects_covered (text : Text) (method : Method Body) (body : Body)
    (member : method ∈ (ItemTree.ofText text).methods) (given : method.body = some body) (hasValue : Bool)
    (mode : CallMode) : ∃ spans, body.selectSpans hasValue mode = some spans ∧ body.Selection hasValue mode spans := by
  obtain ⟨parts,inOrder⟩ := ItemTree.body_inOrder member given
  exact inOrder.selects hasValue mode

/-- A statement and the value returned behind it. -/
theorem Body.selects_covered_both : ∃ method ∈ (ItemTree.ofText
    "class A { int m(int p) { int q = p; return q; } }".toList).methods, ∃ body, method.body = some body ∧
      body.selectSpans true .expression = some [⟨25,35⟩,⟨43,44⟩] ∧
      body.Selection true .expression [⟨25,35⟩,⟨43,44⟩] := by
  have evaluated : ∃ method ∈ (ItemTree.ofText "class A { int m(int p) { int q = p; return q; } }".toList).methods,
      method.body.map (·.selectSpans true .expression) = some (some [⟨25,35⟩,⟨43,44⟩]) := by
    decide +kernel
  obtain ⟨method,member,selected⟩ := evaluated
  obtain ⟨body,given,selected⟩ := Option.map_eq_some_iff.mp selected
  obtain ⟨spans,found,covered⟩ := selects_covered _ method body member given true .expression
  cases selected.symm.trans found
  exact ⟨method,member,body,given,selected,covered⟩

end Transplant
