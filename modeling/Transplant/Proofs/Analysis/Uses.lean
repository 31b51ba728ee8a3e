import Transplant.Proofs.Body.Move
import Transplant.Proofs.Body.Table
import Transplant.Proofs.Item.Classes

/-! Which uses of a parameter are found. Nothing between the braces of a body is left out by its
visits, so a method that can be moved has all uses of its parameters recorded, but for those in the
header of a `try`, which is passed over without a finding. -/
namespace Transplant

open Java (Block Token Seen SeenWord Quiet Marks Spelled argumentsEnd annotatedEnd reservedWords offset)

instance (tokens : List Token) (k : Nat) (kind : Token.Kind) : Decidable (Seen tokens k kind) :=
  decidable_of_iff ((tokens[k]?).any (·.kind == kind) = true) (by simp [Seen,Option.any_eq_true])

instance (tokens : List Token) (k : Nat) (word : String) : Decidable (SeenWord tokens k word) :=
  decidable_of_iff ((tokens[k]?).any (·.isWord word) = true) (by simp [SeenWord,Option.any_eq_true])

/-- The word at token `k` is none of Java's and may be a variable as far as the tokens around it
tell: it is not called, no member behind a dot, and stands in no type arguments, annotation or
label. -/
structure FreeWord (tokens : List Token) (k : Nat) (name : String) : Prop where
  seen : SeenWord tokens k name
  free : name ∉ reservedWords
  notCalled : ¬ Seen tokens (k + 1) .parenOpen
  notMember : ∀ dot < tokens.length, Seen tokens dot .dot → k ≠ argumentsEnd tokens (dot + 1)
  notArgument : ∀ front < k, Seen tokens front .dot ∨ SeenWord tokens front "new" →
    argumentsEnd tokens (front + 1) ≤ k
  notAnnotated : ∀ sign < tokens.length, Seen tokens sign .atSign → sign ≤ k → annotatedEnd tokens sign ≤ k
  notLabel : ∀ jump < k, SeenWord tokens jump "break" ∨ SeenWord tokens jump "continue" → k ≠ jump + 1

instance (tokens : List Token) (k : Nat) (name : String) : Decidable (FreeWord tokens k name) :=
  decidable_of_iff (SeenWord tokens k name ∧ name ∉ reservedWords ∧ ¬ Seen tokens (k + 1) .parenOpen ∧
      (∀ dot < tokens.length, Seen tokens dot .dot → k ≠ argumentsEnd tokens (dot + 1)) ∧
      (∀ front < k, Seen tokens front .dot ∨ SeenWord tokens front "new" → argumentsEnd tokens (front + 1) ≤ k) ∧
      (∀ sign < tokens.length, Seen tokens sign .atSign → sign ≤ k → annotatedEnd tokens sign ≤ k) ∧
      ∀ jump < k, SeenWord tokens jump "break" ∨ SeenWord tokens jump "continue" → k ≠ jump + 1)
    ⟨fun ⟨seen,free,called,member,argument,annotated,label⟩ =>
        ⟨seen,free,called,member,argument,annotated,label⟩,
      fun word => ⟨word.seen,word.free,word.notCalled,word.notMember,word.notArgument,word.notAnnotated,word.notLabel⟩⟩

/-- The word at token `k` may be met for itself as far as the tokens around it tell: it is no member
behind a dot, and stands in no type arguments, annotation or label. -/
structure OpenWord (tokens : List Token) (k : Nat) (name : String) : Prop where
  seen : SeenWord tokens k name
  notMember : ∀ dot < tokens.length, Seen tokens dot .dot → k ≠ argumentsEnd tokens (dot + 1)
  notArgument : ∀ front < k, Seen tokens front .dot ∨ SeenWord tokens front "new" →
    argumentsEnd tokens (front + 1) ≤ k
  notAnnotated : ∀ sign < tokens.length, Seen tokens sign .atSign → sign ≤ k → annotatedEnd tokens sign ≤ k
  notLabel : ∀ jump < k, SeenWord tokens jump "break" ∨ SeenWord tokens jump "continue" → k ≠ jump + 1

instance (tokens : List Token) (k : Nat) (name : String) : Decidable (OpenWord tokens k name) :=
  decidable_of_iff (SeenWord tokens k name ∧
      (∀ dot < tokens.length, Seen tokens dot .dot → k ≠ argumentsEnd tokens (dot + 1)) ∧
      (∀ front < k, Seen tokens front .dot ∨ SeenWord tokens front "new" → argumentsEnd tokens (front + 1) ≤ k) ∧
      (∀ sign < tokens.length, Seen tokens sign .atSign → sign ≤ k → annotatedEnd tokens sign ≤ k) ∧
      ∀ jump < k, SeenWord tokens jump "break" ∨ SeenWord tokens jump "continue" → k ≠ jump + 1)
    ⟨fun ⟨seen,member,argument,annotated,label⟩ => ⟨seen,member,argument,annotated,label⟩,
      fun word => ⟨word.seen,word.notMember,word.notArgument,word.notAnnotated,word.notLabel⟩⟩

namespace Visit

/-- The place is part of a type, or a name is declared there. -/
def declares (place : Span) : Visit → Bool
  | .type span => span.contains place
  | .binding span => span.contains place
  | .declare declared => declared.name.span == place
  | _ => false

/-- The name at the place stands for a local variable. -/
def isLocalAt (name : String) (place : Span) : Visit → Bool
  | .name text visible _ span => span == place && text == name && visible.any (·.1 == name)
  | _ => false

/-- What is passed over with the place in it. -/
def passesOver (place : Span) : Visit → Bool
  | .resources header => header.contains place
  | _ => false

end Visit

/-- Word number `k` of the text is a variable that is used in the body: not one that is declared,
and no part of a type. -/
structure VariableUse (text : Text) (body : Block) (k : Nat) (word : Java.PlacedToken) : Prop where
  found : (Java.tokens text)[k]? = some word
  inside : body.span.contains word.span = true
  free : FreeWord ((Java.tokens text).map (·.token)) k word.token.text
  plain : ∀ visit ∈ body.visits, visit.declares word.span = false

instance (text : Text) (body : Block) (k : Nat) (word : Java.PlacedToken) : Decidable (VariableUse text body k word) :=
  decidable_of_iff ((Java.tokens text)[k]? = some word ∧ body.span.contains word.span = true ∧
      FreeWord ((Java.tokens text).map (·.token)) k word.token.text ∧
      ∀ visit ∈ body.visits, visit.declares word.span = false)
    ⟨fun ⟨found,inside,free,plain⟩ => ⟨found,inside,free,plain⟩,
      fun use => ⟨use.found,use.inside,use.free,use.plain⟩⟩

/-- The visit shows that something was not read. -/
def Visit.IsUnread : Visit → Prop
  | .missing _ => True
  | .anonymous _ => True
  | .unsupported _ => True
  | _ => False

theorem Visit.IsUnread.move {visit : Visit} (unread : visit.IsUnread) (g : Nat → Nat) : (visit.move g).IsUnread := by
  cases visit <;> trivial

/-- The visit is that of a single word. -/
def Visit.isWord : Visit → Bool
  | .name _ _ _ _ => true
  | .this _ => true
  | .super _ => true
  | .call _ _ _ => true
  | .create _ _ => true
  | _ => false

section

variable {tokens : List Token} {visits : List Visit} {i j k : Nat} {name : String}

theorem SeenWord.unique {other : String} (first : SeenWord tokens k name) (second : SeenWord tokens k other) :
    name = other := by
  obtain ⟨token,found,same⟩ := first
  obtain ⟨_,again,also⟩ := second
  cases found.symm.trans again
  simp only [Token.isWord,Bool.and_eq_true,beq_iff_eq] at same also
  exact same.2.symm.trans also.2

theorem OpenWord.not_quiet (word : OpenWord tokens k name) (met : name ∉ Java.passedWords) : ¬ Quiet tokens k := by
  intro quiet
  cases quiet with
  | symbol token found other =>
    obtain ⟨_,again,kind⟩ := word.seen.ident
    cases found.symm.trans again
    exact other kind
  | word text seen passed =>
    cases SeenWord.unique word.seen seen
    exact met passed
  | member dot seen place => exact word.notMember dot seen.lt seen place
  | typeArgument front seen low high => exact Nat.not_le.mpr high (word.notArgument front low seen)
  | annotated sign seen low high => exact Nat.not_le.mpr high (word.notAnnotated sign seen.lt seen low)
  | label jump seen place => exact word.notLabel jump (by omega) seen place

theorem FreeWord.not_quiet (word : FreeWord tokens k name) : ¬ Quiet tokens k :=
  OpenWord.not_quiet ⟨word.seen,word.notMember,word.notArgument,word.notAnnotated,word.notLabel⟩
    fun passed => word.free (List.mem_of_mem_filter passed)

/-- What takes up token `k` is this word alone, or a part of the source that is met as a whole. -/
theorem Java.Marks.takes {visit : Visit} (marks : Marks tokens visit i j) (low : i ≤ k) (high : k < j) :
    (i = k ∧ j = k + 1 ∧ visit.isWord = true) ∨
    (∃ span, (visit = .type span ∨ visit = .binding span ∨ visit = .resources span) ∧
      span.start ≤ 2 * k + 1 ∧ 2 * k + 2 ≤ span.stop ∧ span.stop ≤ 2 * j + 1) ∨
    (∃ declared, visit = .declare declared ∧ declared.name.span = ⟨2 * k + 1,2 * k + 2⟩) ∨ visit.IsUnread := by
  cases marks with
  | name | this | super | call | create => exact .inl ⟨by omega,by omega,rfl⟩
  | type span order start stop => exact .inr (.inl ⟨span,.inl rfl,by omega,by omega,by omega⟩)
  | binding span order start stop => exact .inr (.inl ⟨span,.inr (.inl rfl),by omega,by omega,by omega⟩)
  | resources span order start stop => exact .inr (.inl ⟨span,.inr (.inr rfl),by omega,by omega,by omega⟩)
  | declare declared named place =>
    have here : k = i := by omega
    subst here
    exact .inr (.inr (.inl ⟨declared,rfl,place⟩))
  | missing | anonymous | unsupported => exact .inr (.inr (.inr trivial))
  | _ => omega

/-- Of the visits of one word, a free word has that of a name. -/
theorem FreeWord.name_of_marks (word : FreeWord tokens k name) {visit : Visit} (marks : Marks tokens visit k (k + 1))
    (single : visit.isWord = true) : ∃ visible access, visit = .name name visible access ⟨2 * k + 1,2 * k + 2⟩ := by
  cases marks with
  | name token found ident visible access =>
    have same : name = token.text := SeenWord.unique word.seen ⟨token,found,by simp [Token.isWord,ident]⟩
    exact ⟨visible,access,by rw [same]⟩
  | this seen | super seen => exact absurd (SeenWord.unique word.seen seen ▸ by decide) word.free
  | create created span seen start => exact absurd (SeenWord.unique word.seen seen ▸ by decide) word.free
  | call callee arity span opened => exact absurd opened word.notCalled
  | _ => cases single

end

section

variable {text : Text} {read : Block} {k : Nat} {word : Java.PlacedToken}

/-- A word of a body that is not quiet, declared or part of a type is met for itself, or lies in a part
that was not read or in a header that is passed over. -/
theorem Java.Block.IsRead.word_visited (isRead : read.IsRead ((Java.tokens text).map (·.token)))
    (found : (Java.tokens text)[k]? = some word)
    (inside : (read.mapSpans (Span.map (offset text))).span.contains word.span = true)
    (loud : ¬ Quiet ((Java.tokens text).map (·.token)) k)
    (plain : ∀ visit ∈ (read.mapSpans (Span.map (offset text))).visits, visit.declares word.span = false) :
    ∃ visit ∈ read.visits, Marks ((Java.tokens text).map (·.token)) visit k (k + 1) ∧ visit.isWord = true ∨
      visit.IsUnread ∨ (visit.move (offset text)).passesOver word.span = true := by
  obtain ⟨i,j,bound,_,span,reading⟩ := isRead
  have known : k < (Java.tokens text).length := (List.getElem?_eq_some_iff.mp found).1
  have place : word.span = ⟨offset text (2 * k + 1),offset text (2 * k + 2)⟩ := Java.token_span found
  have moved : (read.mapSpans (Span.map (offset text))).span = Span.map (offset text) ⟨2 * i + 1,2 * j⟩ := by
    rw [← span]
    cases read
    rfl
  rw [List.length_map] at bound
  rw [moved,place,Java.contains_token_iff known (by simp only; omega) (by simp only; omega)] at inside
  simp only at inside
  simp only [Java.Block.mapSpans_visits] at plain
  rcases reading.visited.covered (k := k) (by omega) (by omega) with quiet | ⟨visit,member,a,b,marks,low,high,last⟩
  · exact absurd quiet loud
  · have listed : visit.move (offset text) ∈ read.visits.map (Visit.move (offset text)) :=
      List.mem_map_of_mem member
    refine ⟨visit,member,?_⟩
    rcases marks.takes low high with ⟨rfl,rfl,single⟩ | ⟨span,kind,start,stop,reach⟩ | ⟨declared,rfl,here⟩ | unread
    · exact .inl ⟨marks,single⟩
    · have contained : (span.map (offset text)).contains word.span = true := by
        rw [place,Java.contains_token_iff known (by omega) (by omega)]
        exact ⟨start,stop⟩
      rcases kind with rfl | rfl | rfl
      · exact absurd ((plain _ listed).symm.trans contained) (by decide)
      · exact absurd ((plain _ listed).symm.trans contained) (by decide)
      · exact .inr (.inr contained)
    · have moved := plain _ listed
      simp only [Visit.move,Visit.declares,Local.move,Java.Ident.mapSpans,here,place,Span.map,beq_self_eq_true] at moved
      cases moved
    · exact .inr (.inl unread)

/-- A variable is met by its name or stands in a header that is passed over, as long as everything
in the body was read. -/
theorem VariableUse.visited (use : VariableUse text (read.mapSpans (Span.map (offset text))) k word)
    (isRead : read.IsRead ((Java.tokens text).map (·.token)))
    (whole : ∀ visit ∈ (read.mapSpans (Span.map (offset text))).visits, ¬ visit.IsUnread) :
    (∃ visible access, .name word.token.text visible access word.span ∈
      (read.mapSpans (Span.map (offset text))).visits) ∨
    ∃ visit ∈ (read.mapSpans (Span.map (offset text))).visits, visit.passesOver word.span = true := by
  obtain ⟨found,inside,free,plain⟩ := use
  obtain ⟨visit,member,met⟩ := isRead.word_visited found inside free.not_quiet plain
  have listed : visit.move (offset text) ∈ (read.mapSpans (Span.map (offset text))).visits := by
    rw [Java.Block.mapSpans_visits]
    exact List.mem_map_of_mem member
  rcases met with ⟨marks,single⟩ | unread | passed
  · obtain ⟨visible,access,rfl⟩ := free.name_of_marks marks single
    exact .inl ⟨visible,access,Java.token_span found ▸ listed⟩
  · exact absurd (unread.move _) (whole _ listed)
  · exact .inr ⟨_,listed,passed⟩

theorem Visit.eq_name_of_move {g : Nat → Nat} {visit : Visit} {name : String} {visible : Locals} {access : Access}
    {span : Span} (moved : visit.move g = .name name visible access span) :
    ∃ place, visit = .name name visible access place ∧ span = place.map g := by
  cases visit <;> simp only [Visit.move,reduceCtorEq,Visit.name.injEq] at moved
  obtain ⟨rfl,rfl,rfl,rfl⟩ := moved
  exact ⟨_,rfl,rfl⟩

theorem Visit.eq_resources_of_move {g : Nat → Nat} {visit : Visit} {span : Span}
    (moved : visit.move g = .resources span) : ∃ place, visit = .resources place ∧ span = place.map g := by
  cases visit <;> simp only [Visit.move,reduceCtorEq,Visit.resources.injEq] at moved
  exact ⟨_,rfl,moved.symm⟩

/-- A name that is recorded does not stand in a header that is passed over. -/
theorem recorded_outside (known : k < (Java.tokens text).length)
    (isRead : read.IsRead ((Java.tokens text).map (·.token))) (name : String) (visible : Locals) (access : Access)
    (header : Span)
    (named : .name name visible access ⟨offset text (2 * k + 1),offset text (2 * k + 2)⟩ ∈
      (read.mapSpans (Span.map (offset text))).visits)
    (passed : .resources header ∈ (read.mapSpans (Span.map (offset text))).visits) :
    header.contains ⟨offset text (2 * k + 1),offset text (2 * k + 2)⟩ = false := by
  obtain ⟨i,j,bound,_,_,reading⟩ := isRead
  rw [List.length_map] at bound
  rw [Java.Block.mapSpans_visits] at named passed
  obtain ⟨naming,nameMember,nameMoved⟩ := List.mem_map.mp named
  obtain ⟨passing,passMember,passMoved⟩ := List.mem_map.mp passed
  obtain ⟨place,rfl,same⟩ := Visit.eq_name_of_move nameMoved
  obtain ⟨front,rfl,rfl⟩ := Visit.eq_resources_of_move passMoved
  have here : (place.map (offset text)).contains ⟨offset text (2 * k + 1),offset text (2 * k + 2)⟩ = true := by
    rw [← same,Span.contains_iff]
    exact ⟨Nat.le_refl _,Nat.le_refl _⟩
  rw [Bool.eq_false_iff]
  intro inside
  obtain ⟨a,b,c,d,name,pass,apart,nameLast,passLast⟩ :=
    reading.visited.apart _ _ nameMember passMember (by simp)
  cases name
  cases pass with
  | resources _ order start stop =>
    rw [Java.contains_token_iff known (by simp only; omega) (by simp only; omega)] at here
    rw [Java.contains_token_iff known (by omega) (by omega)] at inside
    simp only at here
    omega

end

/-- Only a name shows the use of a parameter. -/
theorem Visit.name_of_param {β γ : Type} (scope : Scope β) (method : Method γ) (visit : Visit) (index : Nat)
    (mention : ParamUse) (made : .param index mention ∈ visit.findings scope method) :
    ∃ name visible access, visit = .name name visible access mention.span ∧
      scope.resolve visible name = .param index := by
  cases visit with
  | name text visible access place =>
    simp only [findings,Method.nameFindings] at made
    split at made
    · rename_i found resolved
      cases List.mem_singleton.mp made
      exact ⟨text,visible,access,rfl,resolved⟩
    · simp at made
    · split at made <;> simp at made
    · simp at made
    · simp at made
  | call callee arity place =>
    simp only [findings,Method.bareCallFindings] at made
    repeat' split at made
    all_goals simp at made
  | create created place =>
    simp only [findings] at made
    split at made <;> simp at made
  | callOnThis callee arity place =>
    simp only [findings] at made
    split at made <;> simp at made
  | _ => simp [findings] at made

namespace Method

/-- What a visit shows is found, with the number of an expression. -/
theorem found_of_visit {β : Type} {scope : Scope β} {block : Block} {method : Method Body}
    (given : method.body = some (Body.ofBlock scope block)) {visit : Visit} (member : visit ∈ block.visits)
    {finding : Finding} (made : finding ∈ visit.findings scope method) : ∃ found ∈ method.findings, found.erase = finding := by
  have listed : finding ∈ method.findings.map Finding.erase := by
    rw [findings_ofBlock scope block method given]
    exact List.mem_flatMap.mpr ⟨visit,member,made⟩
  exact List.mem_map.mp listed

theorem superMention_of_visit {β : Type} {scope : Scope β} {block : Block} {method : Method Body}
    (given : method.body = some (Body.ofBlock scope block)) {visit : Visit} (member : visit ∈ block.visits)
    {span : Span} (made : .superMention span ∈ visit.findings scope method) : span ∈ method.superMentions := by
  obtain ⟨found,inside,same⟩ := found_of_visit given member made
  cases found <;> cases same
  exact List.mem_filterMap.mpr ⟨_,inside,rfl⟩

theorem unread_of_visit {β : Type} {scope : Scope β} {block : Block} {method : Method Body}
    (given : method.body = some (Body.ofBlock scope block)) {visit : Visit} (member : visit ∈ block.visits)
    {span : Span} (made : .unread span ∈ visit.findings scope method) : span ∈ method.unreadExpressions := by
  obtain ⟨found,inside,same⟩ := found_of_visit given member made
  cases found <;> cases same
  exact List.mem_filterMap.mpr ⟨_,inside,rfl⟩

theorem unsupported_of_visit {β : Type} {scope : Scope β} {block : Block} {method : Method Body}
    (given : method.body = some (Body.ofBlock scope block)) {visit : Visit} (member : visit ∈ block.visits)
    {span : Span} (made : .unsupported span ∈ visit.findings scope method) : span ∈ method.unsupportedStatements := by
  obtain ⟨found,inside,same⟩ := found_of_visit given member made
  cases found <;> cases same
  exact List.mem_filterMap.mpr ⟨_,inside,rfl⟩

/-- A method without findings that speak against moving it was read as a whole. -/
theorem whole_of_activation {β : Type} (scope : Scope β) (block : Block) (method : Method Body)
    (given : method.body = some (Body.ofBlock scope block)) (clean : method.activation = []) :
    ∀ visit ∈ block.visits, ¬ visit.IsUnread := by
  simp only [activation,given,Option.isNone_some,Bool.false_eq_true,if_false,List.append_eq_nil_iff,
    List.map_eq_nil_iff] at clean
  obtain ⟨⟨_,unsupported⟩,unread⟩ := clean
  have noUnread (visit : Visit) (member : visit ∈ block.visits) (span : Span)
      (made : .unread span ∈ visit.findings scope method) : False := by
    have listed := unread_of_visit given member made
    rw [unread] at listed
    cases listed
  have noUnsupported (visit : Visit) (member : visit ∈ block.visits) (span : Span)
      (made : .unsupported span ∈ visit.findings scope method) : False := by
    have listed := unsupported_of_visit given member made
    rw [unsupported] at listed
    cases listed
  intro visit member isUnread
  cases visit with
  | missing span => exact noUnread _ member span List.mem_cons_self
  | anonymous span => exact noUnread _ member span List.mem_cons_self
  | unsupported span => exact noUnsupported _ member span List.mem_cons_self
  | _ => exact isUnread

/-- A parameter is used where a name stands that is resolved to it. -/
theorem mem_paramUses {β : Type} (scope : Scope β) (block : Block) (method : Method Body)
    (given : method.body = some (Body.ofBlock scope block)) (index : Nat) (span : Span) :
    span ∈ (method.paramUses index).map (·.span) ↔ ∃ name visible access,
      .name name visible access span ∈ block.visits ∧ scope.resolve visible name = .param index := by
  have erased := findings_ofBlock scope block method given
  constructor
  · intro listed
    obtain ⟨mention,used,rfl⟩ := List.mem_map.mp listed
    obtain ⟨finding,found,same⟩ := List.mem_filterMap.mp used
    have shown := List.mem_map_of_mem (f := Finding.erase) found
    rw [erased] at shown
    obtain ⟨visit,member,made⟩ := List.mem_flatMap.mp shown
    cases finding with
    | param number here =>
      simp only [Option.ite_none_right_eq_some,Option.some.injEq] at same
      obtain ⟨rfl,rfl⟩ := same
      obtain ⟨name,visible,access,rfl,resolved⟩ := visit.name_of_param scope method _ _ made
      exact ⟨name,visible,access,member,resolved⟩
    | _ => cases same
  · rintro ⟨name,visible,access,member,resolved⟩
    have shown : .param index ⟨0,span,access⟩ ∈ method.findings.map Finding.erase := by
      rw [erased]
      refine List.mem_flatMap.mpr ⟨_,member,?_⟩
      rw [Visit.findings,resolved]
      exact List.mem_cons_self
    obtain ⟨finding,found,same⟩ := List.mem_map.mp shown
    cases finding <;> cases same
    rename_i mention
    exact List.mem_map.mpr ⟨mention,List.mem_filterMap.mpr ⟨_,found,by simp⟩,rfl⟩

/-- In a method that can be moved, the use of a parameter that no local variable hides is recorded
just when it stands in no header of a `try`. -/
theorem mem_paramUses_iff (text : Text) (source : Method Block) (body : Block) (k index : Nat)
    (word : Java.PlacedToken) (member : source ∈ (ItemTree.outline (Java.parse text)).methods)
    (given : source.body = some body)
    (clean : (source.resolved (.outline (Java.parse text))).activation = [])
    (use : VariableUse text body k word)
    (named : source.params.findIdx? (·.name.text == word.token.text) = some index)
    (unhidden : ∀ visit ∈ body.visits, visit.isLocalAt word.token.text word.span = false) :
    word.span ∈ ((source.resolved (.outline (Java.parse text))).paramUses index).map (·.span) ↔
      ∀ visit ∈ body.visits, visit.passesOver word.span = false := by
  obtain ⟨read,rfl,isRead,_⟩ := ItemTree.body_read text source body member given
  have known : k < (Java.tokens text).length := (List.getElem?_eq_some_iff.mp use.found).1
  have place : word.span = ⟨offset text (2 * k + 1),offset text (2 * k + 2)⟩ := Java.token_span use.found
  have tabled : (source.resolved (.outline (Java.parse text))).body = some (Body.ofBlock
      ⟨.outline (Java.parse text),source.owner,source.params⟩ (read.mapSpans (Span.map (offset text)))) := by
    simp only [resolved,mapBody,given,Option.map_some]
  rw [mem_paramUses _ _ _ tabled]
  constructor
  · rintro ⟨name,visible,access,met,_⟩ visit passed
    cases visit with
    | resources header =>
      rw [place] at met ⊢
      exact recorded_outside known isRead name visible access header met passed
    | _ => rfl
  · intro outside
    rcases use.visited isRead (whole_of_activation _ _ _ tabled clean) with ⟨visible,access,met⟩ | ⟨visit,passed,inside⟩
    · refine ⟨_,visible,access,met,?_⟩
      have free : visible.find? (·.1 == word.token.text) = none := by
        have hidden := unhidden _ met
        simpa [Visit.isLocalAt] using hidden
      simp only [Scope.resolve,free,Scope.param?,named]
    · rw [outside visit passed] at inside
      cases inside

/-- An argument of a call is recorded. -/
theorem mem_paramUses_argument : ∃ source ∈ (ItemTree.outline (Java.parse
    "class A { void m(R p) { use(p); } }".toList)).methods,
    ⟨28,29⟩ ∈ ((source.resolved (.outline (Java.parse
      "class A { void m(R p) { use(p); } }".toList))).paramUses 0).map (·.span) := by
  have evaluated : ∃ source ∈ (ItemTree.outline (Java.parse "class A { void m(R p) { use(p); } }".toList)).methods,
      ∃ body ∈ source.body.toList,
        (source.resolved (.outline (Java.parse "class A { void m(R p) { use(p); } }".toList))).activation = [] ∧
        VariableUse "class A { void m(R p) { use(p); } }".toList body 12 ⟨⟨.ident,"p"⟩,⟨28,29⟩⟩ ∧
        source.params.findIdx? (·.name.text == "p") = some 0 ∧
        (∀ visit ∈ body.visits, visit.isLocalAt "p" ⟨28,29⟩ = false) ∧
        ∀ visit ∈ body.visits, visit.passesOver ⟨28,29⟩ = false := by
    decide +kernel
  obtain ⟨source,member,body,given,clean,use,named,unhidden,outside⟩ := evaluated
  exact ⟨source,member,(mem_paramUses_iff _ source body 12 0 ⟨⟨.ident,"p"⟩,⟨28,29⟩⟩ member
    (Option.mem_toList.mp given) clean use named unhidden).mpr outside⟩

/-- A parameter in the header of a `try` is not recorded, and nothing speaks against moving the
method. -/
theorem header_not_recorded : ∃ source ∈ (ItemTree.outline (Java.parse
    "class A { void m(R p) { try (R r = p) { } } }".toList)).methods, ∃ body ∈ source.body.toList,
      (source.resolved (.outline (Java.parse
        "class A { void m(R p) { try (R r = p) { } } }".toList))).activation = [] ∧
      VariableUse "class A { void m(R p) { try (R r = p) { } } }".toList body 15 ⟨⟨.ident,"p"⟩,⟨35,36⟩⟩ ∧
      source.params.findIdx? (·.name.text == "p") = some 0 ∧
      (∀ visit ∈ body.visits, visit.isLocalAt "p" ⟨35,36⟩ = false) ∧
      ⟨35,36⟩ ∉ ((source.resolved (.outline (Java.parse
        "class A { void m(R p) { try (R r = p) { } } }".toList))).paramUses 0).map (·.span) := by
  decide +kernel

end Method

end Transplant
