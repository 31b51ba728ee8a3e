import Transplant.Edit.Apply
import Transplant.Proofs.Body.Move
import Transplant.Proofs.Body.Table
import Transplant.Proofs.Edit.Rewrite
import Transplant.Proofs.Item.Classes

/-! The places that edits are made for. Each of them is one token, the front of one token or, for a
variable without a name, a place between two tokens; and they stand in the order of the source. -/
namespace Transplant

open Java (Seen Marks Spelled)

/-- The place where a visit can be edited. -/
def Visit.site? : Visit → Option Span
  | .name _ _ _ span => some span
  | .this span => some span
  | .call _ _ span => some (.empty span.start)
  | .create _ span => some (.empty span.start)
  | .declare declared => some declared.name.span
  | _ => none

/-- The place where a finding is edited. -/
def Finding.site? : Finding → Option Span
  | .param _ mention => some mention.span
  | .localVar _ span => some span
  | .receiver found => some (if found.kind = .this then found.span else .empty found.span.start)
  | _ => none

theorem Visit.site?_move (g : Nat → Nat) (visit : Visit) :
    (visit.move g).site? = visit.site?.map (Span.map g) := by
  cases visit <;> rfl

/-- An edit at a place takes it up or stands in front of it. -/
def Visit.EditedAt (visit : Visit) (span : Span) : Prop :=
  ∃ place, visit.site? = some place ∧ (span = place ∨ span = .empty place.start)

section

variable {β γ : Type} (scope : Scope β) (method : Method γ)

/-- A finding is edited where its visit stands. -/
theorem Visit.editedAt_of_finding (visit : Visit) (finding : Finding)
    (member : finding ∈ visit.findings scope method) (span : Span) (placed : finding.site? = some span) :
    visit.EditedAt span := by
  cases visit with
  | name text visible access place =>
    refine ⟨place,rfl,?_⟩
    simp only [Visit.findings,Method.nameFindings] at member
    split at member
    · cases List.mem_singleton.mp member
      exact .inl (Option.some.inj placed).symm
    · cases List.mem_singleton.mp member
      exact .inl (Option.some.inj placed).symm
    · split at member
      · cases List.mem_singleton.mp member
        exact .inr (Option.some.inj placed).symm
      · exact absurd member List.not_mem_nil
    · exact absurd member List.not_mem_nil
    · exact absurd member List.not_mem_nil
  | this place =>
    cases List.mem_singleton.mp member
    exact ⟨place,rfl,.inl (Option.some.inj placed).symm⟩
  | call callee arity place =>
    refine ⟨_,rfl,.inl ?_⟩
    simp only [Visit.findings,Method.bareCallFindings] at member
    split at member
    · cases List.mem_singleton.mp member
      cases placed
    · split at member
      · exact absurd member List.not_mem_nil
      · split at member
        · split at member
          · rcases List.mem_cons.mp member with rfl | member
            · cases placed
            · cases List.mem_singleton.mp member
              exact (Option.some.inj placed).symm
          · cases List.mem_singleton.mp member
            exact (Option.some.inj placed).symm
        · exact absurd member List.not_mem_nil
  | create created place =>
    refine ⟨_,rfl,.inl ?_⟩
    simp only [Visit.findings] at member
    split at member
    · cases List.mem_singleton.mp member
      exact (Option.some.inj placed).symm
    · exact absurd member List.not_mem_nil
  | callOnThis callee arity place =>
    simp only [Visit.findings] at member
    split at member
    · cases List.mem_singleton.mp member
      cases placed
    · exact absurd member List.not_mem_nil
  | super place | missing place | anonymous place | leave place | unsupported place =>
    cases List.mem_singleton.mp member
    cases placed
  | type place | binding place | declare declared | resources place =>
    exact absurd member List.not_mem_nil

/-- What can be edited on account of a visit: what it shows and the variable it declares. -/
def Visit.mentions (visit : Visit) : List (Finding ⊕ Local) :=
  (visit.findings scope method).map .inl ++ visit.declared?.toList.map .inr

def Mention.site? : Finding ⊕ Local → Option Span :=
  Sum.elim Finding.site? fun declared => some declared.name.span

/-- The first is edited before the second. -/
def Mention.Before (first second : Finding ⊕ Local) : Prop :=
  ∀ early late, Mention.site? first = some early → Mention.site? second = some late →
    early.stop ≤ late.start

theorem Visit.editedAt_of_mention (visit : Visit) (mention : Finding ⊕ Local)
    (member : mention ∈ visit.mentions scope method) (span : Span)
    (placed : Mention.site? mention = some span) : visit.EditedAt span := by
  rcases List.mem_append.mp member with inside | inside
  · obtain ⟨finding,shown,rfl⟩ := List.mem_map.mp inside
    exact visit.editedAt_of_finding scope method finding shown span placed
  · obtain ⟨declared,given,rfl⟩ := List.mem_map.mp inside
    cases visit with
    | declare met =>
      cases List.mem_singleton.mp given
      exact ⟨_,rfl,.inl (Option.some.inj placed).symm⟩
    | _ => exact absurd given List.not_mem_nil

/-- A visit is edited once at most. -/
theorem Visit.mentions_once (visit : Visit) : ((visit.mentions scope method).filterMap Mention.site?).length ≤ 1 := by
  cases visit with
  | call callee arity span =>
    simp only [mentions,findings,Method.bareCallFindings,declared?,Option.toList_none,List.map_nil,List.append_nil]
    repeat' split
    all_goals simp [Mention.site?,Finding.site?,List.filterMap_cons]
  | name text visible access span =>
    simp only [mentions,findings,Method.nameFindings,declared?,Option.toList_none,List.map_nil,List.append_nil]
    repeat' split
    all_goals simp [Mention.site?,Finding.site?]
  | callOnThis callee arity span =>
    simp only [mentions,findings,declared?,Option.toList_none,List.map_nil,List.append_nil]
    split <;> simp [Mention.site?,Finding.site?,List.filterMap_cons]
  | create created span =>
    simp only [mentions,findings,declared?,Option.toList_none,List.map_nil,List.append_nil]
    split <;> simp [Mention.site?,Finding.site?]
  | _ => simp [mentions,findings,declared?,Mention.site?,Finding.site?,List.filterMap_cons]

/-- What is edited on account of one visit stands in any order that is asked for. -/
theorem Visit.mentions_pairwise (visit : Visit) (order : Span → Span → Prop) :
    (visit.mentions scope method).Pairwise fun first second => ∀ early late,
      Mention.site? first = some early → Mention.site? second = some late → order early late := by
  have once := visit.mentions_once scope method
  have alone : ((visit.mentions scope method).filterMap Mention.site?).Pairwise order := by
    cases placed : (visit.mentions scope method).filterMap Mention.site? with
    | nil => exact .nil
    | cons site rest =>
      rw [placed] at once
      rw [List.eq_nil_of_length_eq_zero (Nat.le_zero.mp (Nat.le_of_succ_le_succ once))]
      exact List.pairwise_singleton _ _
  refine (List.pairwise_filterMap.mp alone).imp ?_
  exact fun given early late first second => given early first late second

theorem Visit.mentions_before (visit : Visit) : (visit.mentions scope method).Pairwise Mention.Before :=
  visit.mentions_pairwise scope method fun early late => early.stop ≤ late.start

end

/-- Between token `i` and token `j` the span is one token, the front of one, or a place between two
tokens of which the second is no word. -/
def SiteIn (tokens : List Java.Token) (i j : Nat) (span : Span) : Prop :=
  (∃ k, i ≤ k ∧ k < j ∧ span.start = 2 * k + 1 ∧ (span.stop = 2 * k + 1 ∨ span.stop = 2 * k + 2)) ∨
  ∃ k, i ≤ k ∧ k ≤ j ∧ ¬ Seen tokens k .ident ∧ span = ⟨2 * k,2 * k⟩

variable {tokens : List Java.Token} {i j : Nat}

theorem SiteIn.bounds {span : Span} (site : SiteIn tokens i j span) :
    2 * i ≤ span.start ∧ span.start ≤ span.stop ∧ span.stop ≤ 2 * j := by
  rcases site with ⟨k,low,high,start,stop⟩ | ⟨k,low,high,_,rfl⟩
  · omega
  · simp only
    omega

theorem SiteIn.widen {span : Span} {a b : Nat} (site : SiteIn tokens i j span) (low : a ≤ i) (high : j ≤ b) :
    SiteIn tokens a b span := by
  rcases site with ⟨k,after,before,placed⟩ | ⟨k,after,before,placed⟩
  · exact .inl ⟨k,by omega,by omega,placed⟩
  · exact .inr ⟨k,by omega,by omega,placed⟩

theorem Java.Marks.site {visit : Visit} {span : Span} (marks : Marks tokens visit i j)
    (edited : visit.EditedAt span) : SiteIn tokens i j span := by
  obtain ⟨place,placed,given⟩ := edited
  cases marks with
  | name token found ident visible access =>
    cases placed
    refine .inl ⟨i,Nat.le_refl i,Nat.lt_succ_self i,?_⟩
    rcases given with rfl | rfl <;> simp [Span.empty]
  | this seen =>
    cases placed
    refine .inl ⟨i,Nat.le_refl i,Nat.lt_succ_self i,?_⟩
    rcases given with rfl | rfl <;> simp [Span.empty]
  | call callee arity span opened start =>
    cases placed
    refine .inl ⟨i,Nat.le_refl i,Nat.lt_succ_self i,?_⟩
    rcases given with rfl | rfl <;> simp [Span.empty,start]
  | create created span seen start =>
    cases placed
    refine .inl ⟨i,Nat.le_refl i,Nat.lt_succ_self i,?_⟩
    rcases given with rfl | rfl <;> simp [Span.empty,start]
  | declare declared named here =>
    cases placed
    refine .inl ⟨i,Nat.le_refl i,Nat.lt_succ_self i,?_⟩
    rcases given with rfl | rfl <;> simp [Span.empty,here]
  | unnamed declared unseen here =>
    cases placed
    refine .inr ⟨i,Nat.le_refl i,Nat.le_refl i,unseen,?_⟩
    rcases given with rfl | rfl <;> simp [Span.empty,here]
  | _ => cases placed

theorem Java.Spelled.site {visits : List Visit} {visit : Visit} {span : Span} (spelled : Spelled tokens visits i j)
    (member : visit ∈ visits) (edited : visit.EditedAt span) : SiteIn tokens i j span := by
  obtain ⟨a,b,low,high,marks⟩ := spelled.marked visit member
  exact (marks.site edited).widen low high

theorem Visit.EditedAt.of_move {g : Nat → Nat} {visit : Visit} {span : Span}
    (edited : (visit.move g).EditedAt span) : ∃ place, visit.EditedAt place ∧ span = place.map g := by
  obtain ⟨moved,placed,given⟩ := edited
  rw [Visit.site?_move,Option.map_eq_some_iff] at placed
  obtain ⟨place,here,rfl⟩ := placed
  rcases given with rfl | rfl
  · exact ⟨place,⟨place,here,.inl rfl⟩,rfl⟩
  · exact ⟨.empty place.start,⟨place,here,.inr rfl⟩,rfl⟩

section

variable {β γ : Type} (scope : Scope β) (method : Method γ) {text : Text} {visits : List Visit}

/-- All that can be edited in a stretch of a text, in the order of the source. -/
def mentionsIn (text : Text) (visits : List Visit) : List (Finding ⊕ Local) :=
  (visits.map (Visit.move (Java.offset text))).flatMap (Visit.mentions scope method)

theorem mentionsIn_edited (mention : Finding ⊕ Local) (member : mention ∈ mentionsIn scope method text visits)
    (span : Span) (placed : Mention.site? mention = some span) :
    ∃ visit ∈ visits, ∃ place, visit.EditedAt place ∧ span = place.map (Java.offset text) := by
  obtain ⟨moved,listed,shown⟩ := List.mem_flatMap.mp member
  obtain ⟨visit,met,rfl⟩ := List.mem_map.mp listed
  exact ⟨visit,met,(Visit.editedAt_of_mention scope method _ mention shown span placed).of_move⟩

theorem mentionsIn_before (spelled : Spelled ((Java.tokens text).map (·.token)) visits i j)
    (bound : j ≤ (Java.tokens text).length) : (mentionsIn scope method text visits).Pairwise Mention.Before := by
  rw [mentionsIn,List.pairwise_flatMap]
  refine ⟨fun visit _ => visit.mentions_before scope method,List.pairwise_map.mpr (spelled.ordered.imp ?_)⟩
  intro first second ⟨a,b,c,d,early,late,order,last⟩ m inFirst n inSecond stopping starting placedFirst placedSecond
  obtain ⟨left,editedFirst,rfl⟩ :=
    (Visit.editedAt_of_mention scope method _ m inFirst stopping placedFirst).of_move
  obtain ⟨right,editedSecond,rfl⟩ :=
    (Visit.editedAt_of_mention scope method _ n inSecond starting placedSecond).of_move
  have before := (early.site editedFirst).bounds
  have after := (late.site editedSecond).bounds
  exact Java.offset_mono text (by omega) (by omega)

end

end Transplant
