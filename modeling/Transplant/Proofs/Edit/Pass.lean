import Mathlib.Data.List.Pairwise
import Transplant.Proofs.Edit.Stretch

/-! Edits looked up where they stand. A pass over a stretch asks at each byte which edits begin
there; in which order the edits were recorded matters for those at one place only. -/
namespace Transplant.Edit

/-- What is inserted in front of byte `here`. -/
def insertedAt (edits : List Edit) (here : Nat) : Text :=
  (edits.filter fun edit => edit.span == .empty here).flatMap (·.replacement)

def replaces (here : Nat) (edit : Edit) : Bool := edit.span.start == here && !edit.span.isEmpty

/-- The edit that takes the place of the bytes from `here` on. -/
def replacedAt? (edits : List Edit) (here : Nat) : Option Edit := edits.find? (replaces here)

/-- One pass from left to right over a text that begins at byte `here`. The bytes up to `resume`
have been replaced already. -/
def pass (edits : List Edit) (here resume : Nat) : Text → Text
  | [] => insertedAt edits here
  | c :: rest =>
    if here < resume then pass edits (here + c.utf8Size) resume rest
    else
      insertedAt edits here ++ match replacedAt? edits here with
        | some edit => edit.replacement ++ pass edits (here + c.utf8Size) edit.span.stop rest
        | none => c :: pass edits (here + c.utf8Size) here rest

variable {text : Text} {here resume stop : Nat} {edit : Edit} {edits left right : List Edit}

theorem pass_resume {first second : Nat} (firstDone : first ≤ here) (secondDone : second ≤ here)
    (part : Text) : pass edits here first part = pass edits here second part := by
  cases part with
  | nil => rfl
  | cons c rest => simp [pass,Nat.not_lt.mpr firstDone,Nat.not_lt.mpr secondDone]

/-- A pass asks for nothing but what stands in its stretch. -/
theorem pass_congr (part : Text)
    (inserted : ∀ place, here ≤ place → place ≤ here + part.size →
      insertedAt left place = insertedAt right place)
    (replaced : ∀ place, here ≤ place → place < here + part.size →
      replacedAt? left place = replacedAt? right place) :
    pass left here resume part = pass right here resume part := by
  induction part generalizing here resume with
  | nil => exact inserted here (Nat.le_refl _) (by simp)
  | cons c rest ih =>
    have positive := c.utf8Size_pos
    simp only [Text.size] at inserted replaced
    have tail (resume : Nat) : pass left (here + c.utf8Size) resume rest =
        pass right (here + c.utf8Size) resume rest :=
      ih (fun place low high => inserted place (by omega) (by omega))
        fun place low high => replaced place (by omega) (by omega)
    simp only [pass,tail]
    rw [inserted here (by omega) (by omega),replaced here (by omega) (by omega)]

/-- Bytes that have been replaced are passed over. -/
theorem pass_skip (part rest : Text) (reaches : here + part.size = resume) :
    pass edits here resume (part ++ rest) = pass edits resume resume rest := by
  induction part generalizing here with
  | nil =>
    simp only [Text.size_nil,Nat.add_zero] at reaches
    rw [reaches,List.nil_append]
  | cons c part ih =>
    have positive := c.utf8Size_pos
    simp only [Text.size] at reaches
    rw [List.cons_append,pass,if_pos (by omega)]
    exact ih (by omega)

theorem insertedAt_of_forall_ne (other : ∀ edit ∈ edits, edit.span ≠ .empty here) :
    insertedAt edits here = [] := by
  have none : edits.filter (fun edit => edit.span == .empty here) = [] := by
    simpa [List.filter_eq_nil_iff] using other
  simp [insertedAt,none]

theorem replacedAt?_of_forall_ne (other : ∀ edit ∈ edits, edit.span.start ≠ here) :
    replacedAt? edits here = none := by
  simp only [replacedAt?,List.find?_eq_none,replaces,Bool.and_eq_true,beq_iff_eq,not_and]
  intro edit member same
  exact absurd same (other edit member)

/-- Bytes before the first edit are copied. -/
theorem pass_copy (part rest : Text)
    (clear : ∀ edit ∈ edits, edit.span.start < here ∨ here + part.size ≤ edit.span.start) :
    pass edits here here (part ++ rest) =
      part ++ pass edits (here + part.size) (here + part.size) rest := by
  induction part generalizing here with
  | nil => simp
  | cons c part ih =>
    have positive := c.utf8Size_pos
    simp only [Text.size] at clear ⊢
    have away : ∀ edit ∈ edits, edit.span.start ≠ here := by
      intro edit member same
      have side := clear edit member
      omega
    have silent : insertedAt edits here = [] :=
      insertedAt_of_forall_ne fun edit member same => away edit member (by rw [same,Span.empty])
    rw [List.cons_append,pass,if_neg (Nat.lt_irrefl _),silent,replacedAt?_of_forall_ne away,
      List.nil_append,pass_resume (by omega) (Nat.le_refl (here + c.utf8Size)),ih]
    · simp [Nat.add_assoc]
    · intro edit member
      have side := clear edit member
      omega

/-- An edit that begins before the stretch shows nowhere in it. -/
theorem pass_cons_before (earlier : edit.span.start < here) (part : Text) :
    pass (edit :: edits) here resume part = pass edits here resume part := by
  apply pass_congr
  · intro place low _
    have other : (edit.span == Span.empty place) = false := by
      rw [beq_eq_false_iff_ne]
      intro same
      rw [same] at earlier
      simp only [Span.empty] at earlier
      omega
    simp [insertedAt,other]
  · intro place low _
    have other : (edit.span.start == place) = false := by simp; omega
    simp [replacedAt?,replaces,other]

theorem pass_insert (part : Text) (empty : edit.span = .empty here) :
    pass (edit :: edits) here here part = edit.replacement ++ pass edits here here part := by
  have inserted : insertedAt (edit :: edits) here = edit.replacement ++ insertedAt edits here := by
    simp [insertedAt,empty]
  cases part with
  | nil => exact inserted
  | cons c rest =>
    have positive := c.utf8Size_pos
    have replaced : replacedAt? (edit :: edits) here = replacedAt? edits here := by
      simp [replacedAt?,replaces,empty,Span.empty,Span.isEmpty]
    have later (resume : Nat) : pass (edit :: edits) (here + c.utf8Size) resume rest =
        pass edits (here + c.utf8Size) resume rest :=
      pass_cons_before (by simp only [empty,Span.empty]; omega) rest
    simp only [pass,Nat.lt_irrefl,if_false,inserted,replaced,later,List.append_assoc]

theorem pass_replace (part rest : Text) (starts : edit.span.start = here)
    (stops : here + part.size = edit.span.stop) (nonempty : here < edit.span.stop)
    (behind : ∀ later ∈ edits, edit.span.stop ≤ later.span.start) :
    pass (edit :: edits) here here (part ++ rest) =
      edit.replacement ++ pass edits edit.span.stop edit.span.stop rest := by
  cases part with
  | nil =>
    simp only [Text.size_nil] at stops
    omega
  | cons c part =>
    simp only [Text.size] at stops
    have silent : insertedAt (edit :: edits) here = [] := by
      apply insertedAt_of_forall_ne
      intro later member same
      rcases List.mem_cons.mp member with rfl | inside
      · rw [same] at nonempty
        exact Nat.lt_irrefl _ nonempty
      · have far := behind later inside
        rw [same] at far
        simp only [Span.empty] at far
        omega
    have found : replacedAt? (edit :: edits) here = some edit := by
      have lasting : (edit.span.start == edit.span.stop) = false := by simp; omega
      simp only [replacedAt?,List.find?_cons,replaces,starts,Span.isEmpty,beq_self_eq_true,
        Bool.true_and]
      rw [starts] at lasting
      simp [lasting]
    rw [List.cons_append,pass,if_neg (Nat.lt_irrefl _),silent,found,List.nil_append]
    simp only
    rw [pass_skip part rest (by omega),pass_cons_before (by omega)]

/-- On edits in order, looking up is taking them in turn. -/
theorem pass_eq_rewriteTo (order : here ≤ stop) (atHere : text.isBoundary here = true)
    (atStop : text.isBoundary stop = true) (within : Within text here stop edits) :
    pass edits here here (text.between here stop) = rewriteTo text here stop edits := by
  induction edits generalizing here with
  | nil =>
    have copied : pass [] here here (text.between here stop ++ []) = _ := pass_copy _ _ (by simp)
    simpa [pass,insertedAt,rewriteTo] using copied
  | cons edit rest ih =>
    obtain ⟨fits,after,length,inside⟩ := within.head
    have gap := text.size_between here edit.span.start after atHere fits.atStart
    have clear : ∀ other ∈ edit :: rest, other.span.start < here ∨
        here + (text.between here edit.span.start).size ≤ other.span.start := by
      intro other member
      rcases List.mem_cons.mp member with rfl | later
      · omega
      · have behind := within.tail.after other later
        omega
    have head : pass (edit :: rest) here here (text.between here stop) =
        text.between here edit.span.start ++
          pass (edit :: rest) edit.span.start edit.span.start (text.between edit.span.start stop) := by
      rw [text.between_trans here edit.span.start stop after (Nat.le_trans length inside) atHere
        fits.atStart atStop,pass_copy _ _ clear,show here + (text.between here edit.span.start).size =
        edit.span.start by omega]
    rw [head,rewriteTo,List.append_assoc,← ih inside fits.atStop within.tail]
    congr 1
    rcases Nat.lt_or_eq_of_le length with lasting | empty
    · rw [text.between_trans edit.span.start edit.span.stop stop length inside fits.atStart fits.atStop
        atStop]
      have size := text.size_between edit.span.start edit.span.stop length fits.atStart fits.atStop
      exact pass_replace _ _ rfl (by omega) lasting within.tail.after
    · rw [← empty]
      exact pass_insert _ (by rw [Span.empty,show edit.span = ⟨edit.span.start,edit.span.stop⟩ from rfl,← empty])

theorem insertedAt_sorted (edits : List Edit) (here : Nat) :
    insertedAt (sorted edits) here = insertedAt edits here := by
  rw [insertedAt,(sorted_stable edits).kept,insertedAt]

/-- At most one edit replaces the bytes at a place: two of them would overlap. -/
theorem replacedAt?_unique (ordered : ∀ edit ∈ edits, Ordered edit) (apart : edits.Pairwise Apart)
    {first second : Edit} (inFirst : first ∈ edits) (inSecond : second ∈ edits)
    (left : replaces here first = true) (right : replaces here second = true) : first = second := by
  have symmetric : Std.Symm Apart := ⟨fun _ _ apart => apart.symm⟩
  by_contra distinct
  have keep := apart.forall inFirst inSecond distinct
  have firstOrdered := ordered first inFirst
  have secondOrdered := ordered second inSecond
  simp only [replaces,Span.isEmpty,Bool.and_eq_true,beq_iff_eq,Bool.not_eq_true',
    beq_eq_false_iff_ne,ne_eq] at left right
  unfold Apart at keep
  unfold Ordered at firstOrdered secondOrdered
  omega

theorem find?_eq_of_mem_iff {α : Type} (wanted : α → Bool) {left right : List α}
    (members : ∀ a, a ∈ left ↔ a ∈ right)
    (unique : ∀ a ∈ right, ∀ b ∈ right, wanted a = true → wanted b = true → a = b) :
    left.find? wanted = right.find? wanted := by
  cases found : right.find? wanted with
  | none =>
    rw [List.find?_eq_none] at found ⊢
    exact fun a member => found a ((members a).mp member)
  | some b =>
    have inside := List.mem_of_find?_eq_some found
    have suits := List.find?_some found
    cases other : left.find? wanted with
    | none =>
      rw [List.find?_eq_none] at other
      exact absurd suits (other b ((members b).mpr inside))
    | some a =>
      rw [unique a ((members a).mp (List.mem_of_find?_eq_some other)) b inside
        (List.find?_some other) suits]

/-- A pass over a span makes the edits inside the span, in span order, when no edit lies across one
of its ends. -/
theorem pass_eq_sorted (edits : List Edit) (span : Span) (order : span.start ≤ span.stop)
    (atStart : text.isBoundary span.start = true) (atStop : text.isBoundary span.stop = true)
    (applicable : Applicable text edits) (ordered : ∀ edit ∈ edits, Ordered edit)
    (clear : ∀ edit ∈ edits, span.contains edit.span = true ∨ edit.span.stop ≤ span.start ∨
      span.stop ≤ edit.span.start) :
    pass edits span.start span.start (text.between span.start span.stop) =
      rewriteTo text span.start span.stop
        (sorted (edits.filter fun edit => span.contains edit.span)) := by
  have size := text.size_between span.start span.stop order atStart atStop
  have part : Applicable text (edits.filter fun edit => span.contains edit.span) :=
    ⟨fun edit member => applicable.fits edit (List.mem_filter.mp member).1,
      applicable.apart.sublist List.filter_sublist⟩
  have partOrdered : ∀ edit ∈ edits.filter (fun edit => span.contains edit.span), Ordered edit :=
    fun edit member => ordered edit (List.mem_filter.mp member).1
  have within := within_sorted part partOrdered fun edit member =>
    (Span.contains_iff _ _).mp (List.mem_filter.mp member).2
  rw [← pass_eq_rewriteTo order atStart atStop within]
  apply pass_congr
  · intro place low high
    rw [insertedAt_sorted]
    simp only [insertedAt,List.filter_filter]
    congr 1
    apply List.filter_congr
    intro edit _
    cases here : edit.span == Span.empty place with
    | false => rfl
    | true =>
      rw [beq_iff_eq] at here
      simp only [here,Bool.true_and]
      exact ((Span.contains_iff _ _).mpr ⟨low,by simp only [Span.empty]; omega⟩).symm
  · intro place low high
    have local? : replacedAt? (edits.filter fun edit => span.contains edit.span) place =
        replacedAt? edits place := by
      simp only [replacedAt?,← List.head?_filter,List.filter_filter]
      congr 1
      apply List.filter_congr
      intro edit member
      cases begins : replaces place edit with
      | false => simp
      | true =>
        have side := clear edit member
        have length := ordered edit member
        simp only [replaces,Span.isEmpty,Bool.and_eq_true,beq_iff_eq,Bool.not_eq_true',
          beq_eq_false_iff_ne,ne_eq] at begins
        unfold Ordered at length
        rcases side with inside | before | behind
        · simp [inside]
        · omega
        · omega
    rw [← local?]
    exact (find?_eq_of_mem_iff _ (mem_sorted _) fun a inA b inB =>
      replacedAt?_unique partOrdered part.apart inA inB).symm

/-- Up to a place that an edit replaces and no other one reaches over, a pass goes on by itself. -/
theorem pass_front (front rest : Text) (c : Char) (done : resume ≤ here + front.size)
    (clear : ∀ other ∈ edits, other.span.start < here + front.size → other.span.stop ≤ here + front.size)
    (found : replacedAt? edits (here + front.size) = some edit) :
    pass edits here resume (front ++ c :: rest) = pass edits here resume front ++ (edit.replacement ++
      pass edits (here + front.size + c.utf8Size) edit.span.stop rest) := by
  induction front generalizing here resume with
  | nil =>
    simp only [Text.size_nil,Nat.add_zero] at done found ⊢
    simp only [List.nil_append,pass,Nat.not_lt.mpr done,if_false,found]
  | cons d front ih =>
    have positive := d.utf8Size_pos
    simp only [Text.size] at done clear found
    simp only [← Nat.add_assoc] at clear found
    have goOn (next : Nat) (reached : next ≤ here + d.utf8Size + Text.size front) :
        pass edits (here + d.utf8Size) next (front ++ c :: rest) = pass edits (here + d.utf8Size) next front ++
          (edit.replacement ++ pass edits (here + d.utf8Size + Text.size front + c.utf8Size) edit.span.stop rest) :=
      ih reached clear found
    simp only [List.cons_append,pass,Text.size,← Nat.add_assoc]
    by_cases skipped : here < resume
    · rw [if_pos skipped,if_pos skipped,goOn resume (by omega)]
    · rw [if_neg skipped,if_neg skipped]
      cases replaced : replacedAt? edits here with
      | some other =>
        have inside := List.mem_of_find?_eq_some replaced
        have begins := List.find?_some replaced
        simp only [replaces,Bool.and_eq_true,beq_iff_eq] at begins
        have reached := clear other inside (by omega)
        simp only [goOn other.span.stop reached,List.append_assoc]
      | none => simp only [goOn here (by omega),List.cons_append,List.append_assoc]

/-- What an edit replaces is replaced in a pass, and the parts before and behind it are passed over
each by itself. -/
theorem pass_around (apart : edits.Pairwise Apart) (ordered : ∀ edit ∈ edits, Ordered edit) (member : edit ∈ edits)
    (lasting : edit.span.start < edit.span.stop) (front part back : Text)
    (starts : here + front.size = edit.span.start) (stops : edit.span.start + part.size = edit.span.stop) :
    pass edits here here (front ++ (part ++ back)) = pass edits here here front ++ (edit.replacement ++
      pass edits edit.span.stop edit.span.stop back) := by
  have replaced : replaces edit.span.start edit = true := by simp [replaces,Span.isEmpty]; omega
  have found : replacedAt? edits edit.span.start = some edit := by
    have some : (edits.find? (replaces edit.span.start)).isSome = true := List.find?_isSome.mpr ⟨edit,member,replaced⟩
    obtain ⟨other,first⟩ := Option.isSome_iff_exists.mp some
    rw [replacedAt?,first,replacedAt?_unique ordered apart (List.mem_of_find?_eq_some first) member
      (List.find?_some first) replaced]
  have clear : ∀ other ∈ edits, other.span.start < edit.span.start → other.span.stop ≤ edit.span.start := by
    intro other inside before
    have symmetric : Std.Symm Apart := ⟨fun _ _ apart => apart.symm⟩
    have distinct : other ≠ edit := by
      rintro rfl
      exact Nat.lt_irrefl _ before
    rcases apart.forall inside member distinct with early | late
    · exact early
    · omega
  cases part with
  | nil =>
    simp only [Text.size_nil] at stops
    omega
  | cons c part =>
    simp only [Text.size] at stops
    rw [List.cons_append,pass_front front (part ++ back) c (by omega) (by rwa [starts]) (by rwa [starts]),starts,
      pass_skip part back (by omega)]

end Transplant.Edit
