import Transplant.Proofs.Donor.Cut
import Transplant.Proofs.Donor.Sites
import Transplant.Proofs.Java.Spans

/-! The parts of a body that are selected for a call, among the tokens it was read from. A part ends
where another one or the rest of the body begins, so everything that can be edited lies inside of a
part or outside. -/
namespace Transplant

open Java (Expr Stmt Block Token SeenWord Spelled offset)

namespace Java

theorem Stmt.mapSpans_value? (f : Span → Span) (s : Stmt) :
    (s.mapSpans f).value? = s.value?.map (Option.map (Expr.mapSpans f)) := by
  cases s <;> rfl

/-- The last statement of a body leaves it without interruption. -/
theorem Stmt.walk_returned {s : Stmt} {value : Option Expr} (returned : s.value? = some value) (sight : Sight) :
    s.walk true sight = Expr.walkOption sight.visible value := by
  cases s <;> cases returned
  rfl

theorem Stmt.walkTop_append_one (init : List Stmt) (last : Stmt) (sight : Sight) :
    Stmt.walkTop sight (init ++ [last]) =
      Stmt.walkAll sight init ++ last.walk true (Stmt.afterAll sight init) := by
  induction init generalizing sight with
  | nil => rfl
  | cons first rest ih =>
    have tail := ih (first.after sight)
    rw [Stmt.walkAll,Stmt.afterAll,List.append_assoc,← tail]
    cases rest <;> rfl

variable {tokens : List Token} {i m j : Nat}

theorem Stmt.Sequence.le {list : List Stmt} (sequence : Stmt.Sequence tokens list i j) : i ≤ j :=
  (sequence.walkAll .start).le

theorem Stmt.Sequence.split {init : List Stmt} {last : Stmt} (sequence : Stmt.Sequence tokens (init ++ [last]) i j) :
    ∃ m, Stmt.Sequence tokens init i m ∧ Stmt.Read tokens m last j := by
  induction init generalizing i with
  | nil =>
    cases sequence with
    | cons first others =>
      cases others
      exact ⟨i,.nil i,first⟩
  | cons s rest ih =>
    cases sequence with
    | cons first others =>
      obtain ⟨m,front,read⟩ := ih others
      exact ⟨m,.cons first front,read⟩

end Java

/-- From the start of token `i` to the end of the token before `j`, unless there is none. -/
def tokensBetween (i j : Nat) : List Span := if i < j then [⟨2 * i + 1,2 * j⟩] else []

variable {tokens : List Token} {i m j : Nat}

/-- Some statements and what stands between them, moved to the text. -/
theorem Java.Stmt.Sequence.spansOf {list : List Stmt} (sequence : Stmt.Sequence tokens list i j) (g : Nat → Nat)
    (up : ∀ first second, first ≤ second → second ≤ 2 * j → g first ≤ g second) :
    Stmt.spansOf (list.map (Stmt.mapSpans (Span.map g))) = some ((tokensBetween i j).map (Span.map g)) := by
  cases sequence with
  | nil => simp [Stmt.spansOf,tokensBetween]
  | @cons s rest _ k _ first others =>
    have start : s.span.start = 2 * i + 1 := by rw [first.span]
    have lasting : i < j := Nat.lt_of_lt_of_le first.before others.le
    have last : ∃ last, (s :: rest).getLast? = some last ∧ last.span.stop = 2 * j := by
      rcases List.eq_nil_or_concat rest with rfl | ⟨init,last,rfl⟩
      · cases others
        exact ⟨s,rfl,by rw [first.span]⟩
      · rw [List.concat_eq_append] at others ⊢
        obtain ⟨_,_,read⟩ := others.split
        exact ⟨last,List.getLast?_concat (l := s :: init),by rw [read.span]⟩
    obtain ⟨last,found,stop⟩ := last
    have ordered := up (2 * i + 1) (2 * j) (by omega) (Nat.le_refl _)
    have ending : ((s :: rest).map (Stmt.mapSpans (Span.map g))).getLast? = some (last.mapSpans (Span.map g)) := by
      rw [List.getLast?_map,found,Option.map_some]
    have whole : Stmt.spansOf ((s :: rest).map (Stmt.mapSpans (Span.map g))) =
        (Span.ofBounds? (g (2 * i + 1)) (g (2 * j))).map fun span => [span] := by
      rw [Stmt.spansOf,ending,List.map_cons,List.head?_cons]
      simp only [Stmt.mapSpans_span,Span.map,start,stop]
    rw [whole,Span.ofBounds?,if_pos ordered,tokensBetween,if_pos lasting]
    rfl

/-- What is selected from a body with some visits: nothing, statements from the first on, the value
of a `return`, or both. -/
inductive Selected (tokens : List Token) : List Visit → List Span → Prop where
  | nothing (visits : List Visit) : Selected tokens visits []
  | leading {front rest : List Visit} {i m j : Nat} (first : Spelled tokens front i m)
      (others : Spelled tokens rest m j) (some : i < m) (known : j ≤ tokens.length) :
      Selected tokens (front ++ rest) [⟨2 * i + 1,2 * m⟩]
  | value {visits : List Visit} {i j stop : Nat} (all : Spelled tokens visits i j)
      (order : 2 * i + 1 ≤ stop) (reach : 2 * j ≤ stop ∧ stop ≤ 2 * j + 1) (known : j ≤ tokens.length) :
      Selected tokens visits [⟨2 * i + 1,stop⟩]
  | both {front rest : List Visit} {i m j stop : Nat} (first : Spelled tokens front i m) (some : i < m)
      (word : SeenWord tokens m "return") (others : Spelled tokens rest (m + 1) j)
      (order : 2 * (m + 1) + 1 ≤ stop) (reach : 2 * j ≤ stop ∧ stop ≤ 2 * j + 1) (known : j ≤ tokens.length) :
      Selected tokens (front ++ rest) [⟨2 * i + 1,2 * m⟩,⟨2 * (m + 1) + 1,stop⟩]

namespace Selected

theorem ofTokens {front rest : List Visit} (first : Spelled tokens front i m) (others : Spelled tokens rest m j)
    (known : j ≤ tokens.length) : Selected tokens (front ++ rest) (tokensBetween i m) := by
  unfold tokensBetween
  split
  · rename_i some
    exact .leading first others some known
  · exact .nothing _

/-- The value of the last statement is a part of its own. -/
theorem ofReturned {init : List Stmt} {last : Stmt} {e : Expr} (front : Stmt.Sequence tokens init i m)
    (returning : Stmt.Read tokens m last j) (returned : last.value? = some (some e)) (known : j ≤ tokens.length) :
    Selected tokens (Stmt.walkTop .start (init ++ [last])) (tokensBetween i m ++ [e.span]) := by
  obtain ⟨word,given⟩ := returning.returned _ returned
  obtain ⟨k,_,_,inside,read,_⟩ := given e rfl
  have span : e.span = ⟨2 * (m + 1) + 1,e.span.stop⟩ := by rw [← read.start]
  have order : 2 * (m + 1) + 1 ≤ e.span.stop := read.start ▸ read.order
  have bound : k ≤ tokens.length := by omega
  have last := read.walked (Stmt.afterAll .start init).visible .read
  rw [Stmt.walkTop_append_one,Stmt.walk_returned returned,span]
  cases front with
  | nil =>
    simp only [tokensBetween,Nat.lt_irrefl,if_false,List.nil_append,Stmt.walkAll]
    exact .value last order read.stop bound
  | @cons s rest _ l _ first others =>
    have lasting : i < m := Nat.lt_of_lt_of_le first.before others.le
    simp only [tokensBetween,if_pos lasting,List.singleton_append]
    exact .both ((Stmt.Sequence.cons first others).walkAll .start) lasting word last order read.stop bound

end Selected

/-- The spans selected from a body whose spans are moved are moved parts of the body. -/
theorem Java.Block.selectSpans_moved {b : Block} {k : Nat} (read : Block.Read tokens i b k) (known : k ≤ tokens.length)
    (g : Nat → Nat) (up : ∀ first second, first ≤ second → second ≤ 2 * tokens.length + 1 → g first ≤ g second)
    (hasValue : Bool) (mode : CallMode) : ∃ spans, Selected tokens b.visits spans ∧
      (b.mapSpans (Span.map g)).selectSpans hasValue mode = some (spans.map (Span.map g)) := by
  obtain ⟨start,stop,_,sequence,closed⟩ := read.parts
  have bound : stop ≤ tokens.length := Nat.le_trans closed.le known
  obtain ⟨statements,span⟩ := b
  simp only [Block.mapSpans,Block.selectSpans,Block.visits,Stmt.mapSpansAll_eq_map] at sequence ⊢
  have all : ∃ spans, Selected tokens (Stmt.walkTop .start statements) spans ∧
      Stmt.spansOf (statements.map (Stmt.mapSpans (Span.map g))) = some (spans.map (Span.map g)) :=
    ⟨tokensBetween start stop,by simpa using Selected.ofTokens (sequence.walkTop .start) (.nil stop) bound,
      sequence.spansOf g fun first second order inside => up first second order (by omega)⟩
  rcases List.eq_nil_or_concat statements with rfl | ⟨init,last,rfl⟩
  · exact all
  · rw [List.concat_eq_append] at sequence all ⊢
    obtain ⟨m,front,returning⟩ := sequence.split
    have middle : m < stop := returning.before
    have leading : Stmt.spansOf (init.map (Stmt.mapSpans (Span.map g))) =
        some ((tokensBetween start m).map (Span.map g)) :=
      front.spansOf g fun first second order inside => up first second order (by omega)
    have shorter : Selected tokens (Stmt.walkTop .start (init ++ [last])) (tokensBetween start m) := by
      rw [Stmt.walkTop_append_one]
      exact Selected.ofTokens (front.walkAll .start) (returning.walked true _) bound
    have ending : (init ++ [last]).map (Stmt.mapSpans (Span.map g)) =
        init.map (Stmt.mapSpans (Span.map g)) ++ [last.mapSpans (Span.map g)] := by simp
    rw [ending] at all ⊢
    simp only [List.getLast?_concat,List.dropLast_concat,Option.bind_some,Stmt.mapSpans_value?]
    cases returned : last.value? with
    | none => exact all
    | some value =>
      cases hasValue with
      | false => exact ⟨_,shorter,leading⟩
      | true =>
        cases mode with
        | statement => exact all
        | expression =>
          cases value with
          | none => exact ⟨_,shorter,by simp [leading]⟩
          | some e =>
            refine ⟨_,Selected.ofReturned front returning returned bound,?_⟩
            simp [leading,Expr.mapSpans_span]

namespace Selected

variable {visits : List Visit} {spans : List Span}

theorem few (selected : Selected tokens visits spans) : spans.length ≤ 2 := by
  cases selected <;> simp

theorem bounds (selected : Selected tokens visits spans) :
    ∀ span ∈ spans, span.start ≤ span.stop ∧ span.stop ≤ 2 * tokens.length + 1 := by
  intro span member
  cases selected with
  | nothing => cases member
  | leading first others some known =>
    have := others.le
    cases List.mem_singleton.mp member
    simp only
    omega
  | value all order reach known =>
    cases List.mem_singleton.mp member
    simp only
    omega
  | both first some word others order reach known =>
    have := others.le
    simp only [List.mem_cons,List.not_mem_nil,or_false] at member
    rcases member with rfl | rfl
    · simp only
      omega
    · simp only
      omega

/-- Inside of each part or outside. -/
theorem clear (selected : Selected tokens visits spans) (visit : Visit) (member : visit ∈ visits) (place : Span)
    (edited : visit.EditedAt place) : ∀ span ∈ spans,
      span.contains place = true ∨ place.stop ≤ span.start ∨ span.stop ≤ place.start := by
  have inside (i m stop : Nat) (site : SiteIn tokens i m place) (reach : 2 * m ≤ stop) :
      Span.contains ⟨2 * i + 1,stop⟩ place = true ∨ place.stop ≤ 2 * i + 1 := by
    rw [Span.contains_iff]
    rcases site with ⟨k,low,high,start,last⟩ | ⟨k,low,high,_,rfl⟩
    · simp only
      omega
    · simp only
      omega
  intro span listed
  cases selected with
  | nothing => cases listed
  | leading first others some known =>
    cases List.mem_singleton.mp listed
    rcases List.mem_append.mp member with early | late
    · exact (inside _ _ _ (first.site early edited) (Nat.le_refl _)).imp_right .inl
    · exact .inr (.inr (others.site late edited).bounds.1)
  | value all order reach known =>
    cases List.mem_singleton.mp listed
    exact (inside _ _ _ (all.site member edited) reach.1).imp_right .inl
  | both first some word others order reach known =>
    simp only [List.mem_cons,List.not_mem_nil,or_false] at listed
    rcases List.mem_append.mp member with early | late
    · have site := first.site early edited
      rcases listed with rfl | rfl
      · exact (inside _ _ _ site (Nat.le_refl _)).imp_right .inl
      · have := site.bounds
        exact .inr (.inl (by simp only; omega))
    · have site := others.site late edited
      rcases listed with rfl | rfl
      · have := site.bounds
        exact .inr (.inr (by simp only; omega))
      · exact (inside _ _ _ site reach.1).imp_right .inl

/-- Two parts have the word `return` between them, and nothing is edited at the end of the first. -/
theorem ascending (selected : Selected tokens visits spans) : spans.Pairwise fun first second =>
    first.stop ≤ second.start ∧ Java.TokenBetween tokens.length first.start second.start ∧
      ∀ visit ∈ visits, ∀ place, visit.EditedAt place → Java.TokenBetween tokens.length place.start first.stop ∨
        Java.TokenBetween tokens.length first.stop place.stop := by
  cases selected with
  | nothing => exact .nil
  | leading => exact List.pairwise_singleton _ _
  | value => exact List.pairwise_singleton _ _
  | @both front rest i m j stop first some word others order reach known =>
    have before := others.le
    refine List.pairwise_pair.mpr ⟨by simp only; omega,⟨i,by omega,by simp only; omega,by simp only; omega⟩,?_⟩
    intro visit member place edited
    rcases List.mem_append.mp member with early | late
    · rcases first.site early edited with ⟨k,low,high,start,last⟩ | ⟨k,low,high,unseen,rfl⟩
      · exact .inl ⟨k,by omega,by omega,by simp only; omega⟩
      · have other : k ≠ m := by
          rintro rfl
          exact unseen word.ident
        exact .inl ⟨k,by omega,by simp only; omega,by simp only; omega⟩
    · have := (others.site late edited).bounds
      exact .inr ⟨m,by omega,by simp only; omega,by omega⟩

variable {β γ : Type} (scope : Scope β) (method : Method γ) {text : Text}

/-- The parts of a text keep clear of all edits of what is mentioned in them. -/
theorem kept (selected : Selected ((Java.tokens text).map (·.token)) visits spans)
    (spelled : Spelled ((Java.tokens text).map (·.token)) visits i j) (known : j ≤ (Java.tokens text).length)
    (edits : List Edit) (sites : ∀ edit ∈ edits, ∃ mention ∈ mentionsIn scope method text visits,
      Mention.site? mention = some edit.span) :
    RewriteLog.Kept text edits (spans.map (Span.map (offset text))) := by
  have count : ((Java.tokens text).map (·.token)).length = (Java.tokens text).length := List.length_map _
  have bounds := selected.bounds
  have ascending := selected.ascending
  rw [count] at bounds ascending
  have placed (edit : Edit) (member : edit ∈ edits) : ∃ visit ∈ visits, ∃ place,
      visit.EditedAt place ∧ (place.start ≤ place.stop ∧ place.stop ≤ 2 * (Java.tokens text).length + 1) ∧
        edit.span = place.map (offset text) := by
    obtain ⟨mention,mentioned,site⟩ := sites edit member
    obtain ⟨visit,met,place,edited,moved⟩ := mentionsIn_edited scope method mention mentioned _ site
    have := (spelled.site met edited).bounds
    exact ⟨visit,met,place,edited,by omega,moved⟩
  refine ⟨by rw [List.length_map]; exact selected.few,?_,?_,?_,?_,?_⟩
  · intro moved member
    obtain ⟨span,listed,rfl⟩ := List.mem_map.mp member
    exact Java.offset_mono text (bounds span listed).1 (bounds span listed).2
  · intro moved member
    obtain ⟨span,_,rfl⟩ := List.mem_map.mp member
    exact Java.offset_isBoundary text _
  · intro moved member
    obtain ⟨span,_,rfl⟩ := List.mem_map.mp member
    exact Java.offset_isBoundary text _
  · refine List.pairwise_map.mpr (ascending.imp_of_mem ?_)
    intro first second inFirst inSecond ⟨apart,starts,edge⟩
    have known := bounds second inSecond
    refine ⟨Java.offset_mono text apart (by omega),starts.offset_lt (by omega),fun edit member inside => ?_⟩
    obtain ⟨visit,met,place,edited,last,moved⟩ := placed edit member
    have reach := ((Span.contains_iff _ _).mp inside).2
    rw [moved] at reach ⊢
    rcases edge visit met place edited with early | late
    · exact early.offset_lt (bounds first inFirst).2
    · exact absurd (late.offset_lt last.2) (Nat.not_lt.mpr reach)
  · intro moved listed edit member
    obtain ⟨span,inSpans,rfl⟩ := List.mem_map.mp listed
    obtain ⟨visit,met,place,edited,last,moved⟩ := placed edit member
    have order := bounds span inSpans
    rw [moved]
    rcases selected.clear visit met place edited span inSpans with inside | before | behind
    · obtain ⟨low,high⟩ := (Span.contains_iff _ _).mp inside
      exact .inl ((Span.contains_iff _ _).mpr
        ⟨Java.offset_mono text low (by omega),Java.offset_mono text high order.2⟩)
    · exact .inr (.inl (Java.offset_mono text before (by omega)))
    · exact .inr (.inr (Java.offset_mono text behind (by omega)))

end Selected

end Transplant
