import Transplant.Proofs.Analysis.Uses

/-! Where `super` is reported. In the tokens of a body it is met for itself, called, or lies in a part
that was not read, and each of these is reported; behind a dot it is taken for the name of a member, and
the header of a `try` is passed over. -/
namespace Transplant

open Java (Block Token Seen SeenWord Quiet Marks Spelled offset)

/-- Word number `k` of the text is `super` where the body can say it: not as a member behind a dot, and
in no type, annotation or label. -/
structure SuperUse (text : Text) (body : Block) (k : Nat) (word : Java.PlacedToken) : Prop where
  found : (Java.tokens text)[k]? = some word
  inside : body.span.contains word.span = true
  met : OpenWord ((Java.tokens text).map (·.token)) k "super"
  plain : ∀ visit ∈ body.visits, visit.declares word.span = false

instance (text : Text) (body : Block) (k : Nat) (word : Java.PlacedToken) : Decidable (SuperUse text body k word) :=
  decidable_of_iff ((Java.tokens text)[k]? = some word ∧ body.span.contains word.span = true ∧
      OpenWord ((Java.tokens text).map (·.token)) k "super" ∧
      ∀ visit ∈ body.visits, visit.declares word.span = false)
    ⟨fun ⟨found,inside,met,plain⟩ => ⟨found,inside,met,plain⟩,
      fun use => ⟨use.found,use.inside,use.met,use.plain⟩⟩

/-- The visit is `super` itself or a call of it. -/
def Visit.IsSuper : Visit → Prop
  | .super _ => True
  | .call callee _ _ => callee.text = "super"
  | _ => False

theorem Visit.IsSuper.move {visit : Visit} (met : visit.IsSuper) (g : Nat → Nat) : (visit.move g).IsSuper := by
  cases visit with
  | super => trivial
  | call => exact met
  | _ => cases met

/-- Of the visits of one word, `super` has its own. -/
theorem OpenWord.super_of_marks {tokens : List Token} {k : Nat} (word : OpenWord tokens k "super") {visit : Visit}
    (marks : Marks tokens visit k (k + 1)) (single : visit.isWord = true) : visit.IsSuper := by
  cases marks with
  | name token found ident visible access ordinary =>
    exact absurd (SeenWord.unique ⟨token,found,by simp [Token.isWord,ident]⟩ word.seen) ordinary.2
  | super => trivial
  | call callee arity span opened start named => exact SeenWord.unique named word.seen
  | this seen => exact absurd (SeenWord.unique word.seen seen) (by decide)
  | create created span seen start => exact absurd (SeenWord.unique word.seen seen) (by decide)
  | _ => cases single

theorem Visit.IsSuper.found {β γ : Type} (scope : Scope β) (method : Method γ) {visit : Visit} (met : visit.IsSuper) :
    ∃ span, .superMention span ∈ visit.findings scope method := by
  cases visit with
  | super span => exact ⟨span,List.mem_cons_self⟩
  | call callee arity span =>
    have named : callee.text = "super" := met
    refine ⟨span,?_⟩
    rw [findings,Method.bareCallFindings,if_pos named]
    exact List.mem_cons_self
  | _ => cases met

theorem Visit.IsUnread.found {β γ : Type} (scope : Scope β) (method : Method γ) {visit : Visit} (unread : visit.IsUnread) :
    ∃ span, .unread span ∈ visit.findings scope method ∨ .unsupported span ∈ visit.findings scope method := by
  cases visit with
  | missing span | anonymous span => exact ⟨span,.inl List.mem_cons_self⟩
  | unsupported span => exact ⟨span,.inr List.mem_cons_self⟩
  | _ => cases unread

namespace Method

/-- Each `super`, and each part that was not read, is reported as an error. -/
theorem error_reported {method : Method Body} (bodied : method.body.isSome = true) {span : Span}
    (listed : span ∈ method.superMentions ∨ span ∈ method.unsupportedStatements ∨ span ∈ method.unreadExpressions) :
    ∃ problem ∈ method.activation, problem.severity = .error ∧
      problem.code ∈ ["super-reference","unsupported-statement","unsupported-expression"] := by
  have some : method.body.isNone = false := by simpa using bodied
  simp only [activation,some,Bool.false_eq_true,if_false,List.mem_append]
  rcases listed with mention | unsupported | unread
  · exact ⟨_,.inl (.inl (.inl (.inr (List.mem_map_of_mem mention)))),rfl,by simp⟩
  · exact ⟨_,.inl (.inr (List.mem_map_of_mem unsupported)),rfl,by simp⟩
  · exact ⟨_,.inr (List.mem_map_of_mem unread),rfl,by simp⟩

/-- A `super` that stands in no header of a `try` is reported as an error, as such or with the part in
which it stands. -/
theorem super_reported (text : Text) (source : Method Block) (body : Block) (k : Nat) (word : Java.PlacedToken)
    (member : source ∈ (ItemTree.outline (Java.parse text)).methods) (given : source.body = some body)
    (use : SuperUse text body k word) (outside : ∀ visit ∈ body.visits, visit.passesOver word.span = false) :
    ∃ problem ∈ (source.resolved (.outline (Java.parse text))).activation, problem.severity = .error ∧
      problem.code ∈ ["super-reference","unsupported-statement","unsupported-expression"] := by
  obtain ⟨read,rfl,isRead,_⟩ := ItemTree.body_read text source body member given
  have tabled : (source.resolved (.outline (Java.parse text))).body = some (Body.ofBlock
      ⟨.outline (Java.parse text),source.owner,source.params⟩ (read.mapSpans (Span.map (offset text)))) := by
    simp only [resolved,mapBody,given,Option.map_some]
  have bodied := Option.isSome_iff_exists.mpr ⟨_,tabled⟩
  obtain ⟨visit,met,kind⟩ := isRead.word_visited use.found use.inside (use.met.not_quiet (by decide)) use.plain
  have listed : visit.move (offset text) ∈ (read.mapSpans (Span.map (offset text))).visits := by
    rw [Java.Block.mapSpans_visits]
    exact List.mem_map_of_mem met
  rcases kind with ⟨marks,single⟩ | unread | passed
  · obtain ⟨span,made⟩ := ((use.met.super_of_marks marks single).move (offset text)).found _ _
    exact error_reported bodied (.inl (superMention_of_visit tabled listed made))
  · obtain ⟨span,made | made⟩ := (unread.move (offset text)).found _ _
    · exact error_reported bodied (.inr (.inr (unread_of_visit tabled listed made)))
    · exact error_reported bodied (.inr (.inl (unsupported_of_visit tabled listed made)))
  · exact absurd ((outside _ listed).symm.trans passed) (by decide)

/-- A call on `super` in an argument is reported. -/
theorem super_reported_argument : ∃ source ∈ (ItemTree.outline (Java.parse
    "class A { void m() { k(super.n(1)); } }".toList)).methods,
    ∃ problem ∈ (source.resolved (.outline (Java.parse "class A { void m() { k(super.n(1)); } }".toList))).activation,
      problem.severity = .error := by
  have evaluated : ∃ source ∈ (ItemTree.outline (Java.parse "class A { void m() { k(super.n(1)); } }".toList)).methods,
      ∃ body ∈ source.body.toList,
        SuperUse "class A { void m() { k(super.n(1)); } }".toList body 10 ⟨⟨.ident,"super"⟩,⟨23,28⟩⟩ ∧
        ∀ visit ∈ body.visits, visit.passesOver ⟨23,28⟩ = false := by
    decide +kernel
  obtain ⟨source,member,body,given,use,outside⟩ := evaluated
  obtain ⟨problem,listed,error,_⟩ := super_reported _ source body 10 ⟨⟨.ident,"super"⟩,⟨23,28⟩⟩ member
    (Option.mem_toList.mp given) use outside
  exact ⟨source,member,problem,listed,error⟩

/-- Nothing is reported of `super` behind a dot, nor of one in the header of a `try`. -/
theorem super_unreported :
    (∃ method ∈ (ItemTree.ofText "class A { void m() { T.super.n(); } }".toList).methods,
      method.activation = [] ∧ method.body.any (·.span.contains ⟨23,28⟩) = true ∧
      (Java.tokens "class A { void m() { T.super.n(); } }".toList)[10]? = some ⟨⟨.ident,"super"⟩,⟨23,28⟩⟩) ∧
    ∃ method ∈ (ItemTree.ofText "class A { void m() { try (R r = super.open()) { } } }".toList).methods,
      method.activation = [] ∧ method.body.any (·.span.contains ⟨32,37⟩) = true ∧
      (Java.tokens "class A { void m() { try (R r = super.open()) { } } }".toList)[13]? =
        some ⟨⟨.ident,"super"⟩,⟨32,37⟩⟩ := by
  decide +kernel

end Method

end Transplant
