import Transplant.Proofs.Edit.Alone
import Transplant.Proofs.Edit.Marker
import Transplant.Proofs.Text.Bytes

/-! Markers in a performed edit. A marker may begin or end inside a character, so where it comes
to lie is counted over the bytes; its own text can be sliced when it splits no character. -/
namespace Transplant

namespace Edit

/-- The bytes from `here` up to `stop`, with each of the edits made in turn. -/
def rewriteBytes (stored : List UInt8) (here stop : Nat) : List Edit → List UInt8
  | [] => part stored here stop
  | edit :: rest =>
    part stored here edit.span.start ++ (Text.bytes edit.replacement ++
      rewriteBytes stored edit.span.stop stop rest)

variable {text : Text} {stored : List UInt8} {here middle stop : Nat} {edits left right : List Edit}

theorem bytes_rewriteTo (order : here ≤ stop) (atHere : text.isBoundary here = true)
    (atStop : text.isBoundary stop = true) (within : Within text here stop edits) :
    Text.bytes (rewriteTo text here stop edits) = rewriteBytes (Text.bytes text) here stop edits := by
  induction edits generalizing here with
  | nil => exact text.bytes_between here stop order atHere atStop
  | cons edit rest ih =>
    obtain ⟨fits,after,_,inside⟩ := within.head
    simp only [rewriteTo,rewriteBytes,Text.bytes_append,List.append_assoc]
    rw [text.bytes_between here edit.span.start after atHere fits.atStart,
      ih inside fits.atStop within.tail]

theorem rewriteBytes_part (first : here ≤ middle) (second : middle ≤ stop)
    (behind : Within text middle stop right) :
    rewriteBytes stored here stop right = part stored here middle ++ rewriteBytes stored middle stop right := by
  cases right with
  | nil => exact part_trans first second
  | cons edit rest =>
    simp only [rewriteBytes]
    rw [part_trans first behind.head.2.1,List.append_assoc]

/-- Bytes can be parted everywhere, so the ends of the stretches need not be boundaries. -/
theorem rewriteBytes_append (first : here ≤ middle) (second : middle ≤ stop)
    (before : Within text here middle left) (behind : Within text middle stop right) :
    rewriteBytes stored here stop (left ++ right) =
      rewriteBytes stored here middle left ++ rewriteBytes stored middle stop right := by
  induction left generalizing here with
  | nil => exact rewriteBytes_part first second behind
  | cons edit rest ih =>
    simp only [List.cons_append,rewriteBytes]
    rw [ih before.head.2.2.2 before.tail]
    simp only [List.append_assoc]

theorem length_rewriteBytes (order : here ≤ stop) (fits : stop ≤ stored.length)
    (within : Within text here stop edits) :
    ((rewriteBytes stored here stop edits).length : Int) =
      (stop : Int) - here + (edits.map delta).sum := by
  induction edits generalizing here with
  | nil =>
    simp only [rewriteBytes,length_part order fits,List.map_nil,List.sum_nil]
    omega
  | cons edit rest ih =>
    obtain ⟨_,after,length,inside⟩ := within.head
    have tail := ih inside within.tail
    simp only [rewriteBytes,List.length_append,Text.length_bytes,
      length_part after (Nat.le_trans length (Nat.le_trans inside fits)),List.map_cons,List.sum_cons,
      delta,Span.length] at tail ⊢
    omega

end Edit

/-- What stands before the first of the spans, between one and the next, and behind the last. -/
def gaps (stored : List UInt8) (here : Nat) : List Span → List (List UInt8)
  | [] => [stored.drop here]
  | span :: rest => part stored here span.start :: gaps stored span.stop rest

namespace Marker

/-- Where the markers come to lie that follow those in `front`. -/
def movedFrom (front : List Marker) : List Marker → List Span
  | [] => []
  | marker :: rest => marker.moved (front ++ rest) :: movedFrom (front ++ [marker]) rest

theorem mapIdx_moved (front markers : List Marker) :
    markers.mapIdx (fun i marker => marker.moved ((front ++ markers).eraseIdx (front.length + i))) =
      movedFrom front markers := by
  induction markers generalizing front with
  | nil => rfl
  | cons marker rest ih =>
    have tail := ih (front ++ [marker])
    simp only [List.append_assoc,List.singleton_append,List.length_append,List.length_singleton] at tail
    rw [List.mapIdx_cons,movedFrom,← tail]
    congr 1
    · simp [List.eraseIdx_append_of_length_le]
    · simp only [Nat.add_assoc,Nat.add_comm 1]

/-- What the edits of the markers in `front` make of the bytes up to `here`. -/
def reached (text : Text) (front : List Marker) (here : Nat) : List UInt8 :=
  Edit.rewriteBytes (Text.bytes text) 0 here (Edit.sorted (front.flatMap (·.edits)))

variable {text : Text} {front rest : List Marker} {marker : Marker} {here : Nat}

theorem reached_gap (low : here ≤ marker.span.start)
    (before : Edit.Within text 0 here (Edit.sorted (front.flatMap (·.edits)))) :
    reached text front marker.span.start = reached text front here ++
      part (Text.bytes text) here marker.span.start := by
  have nothing : Edit.Within text here marker.span.start [] :=
    ⟨by simp,by simp,List.Pairwise.nil,by simp,by simp⟩
  have parted : Edit.rewriteBytes (Text.bytes text) 0 marker.span.start (_ ++ []) = _ :=
    Edit.rewriteBytes_append (Nat.zero_le here) low before nothing
  rwa [List.append_nil] at parted

theorem Lined.reached_own (lined : Lined text (front ++ marker :: rest)) :
    reached text (front ++ [marker]) marker.span.stop = reached text front marker.span.start ++
      Edit.rewriteBytes (Text.bytes text) marker.span.start marker.span.stop (Edit.sorted marker.edits) := by
  have split := lined.split
  unfold reached
  rw [← Edit.rewriteBytes_append (Nat.zero_le _) (lined.order marker (by simp)) split.before split.own,
    ← Edit.sorted_append_within split.before split.own]
  simp

theorem Lined.moved_reached (lined : Lined text (front ++ marker :: rest)) :
    marker.moved (front ++ rest) = ⟨(reached text front marker.span.start).length,
      (reached text (front ++ [marker]) marker.span.stop).length⟩ := by
  have split := lined.split
  have order := lined.order marker (by simp)
  have inside := lined.inside marker (by simp)
  rw [← text.length_bytes] at inside
  have frontLength := Edit.length_rewriteBytes (Nat.zero_le _) (Nat.le_trans order inside) split.before
  have ownLength := Edit.length_rewriteBytes order inside split.own
  rw [sum_sorted] at frontLength ownLength
  rw [lined.reached_own,List.length_append]
  simp only [moved,split.earlier,reached,Span.length,Span.mk.injEq]
  omega

theorem Lined.bytes_rewriteAll (lined : Lined text (front ++ marker :: rest)) :
    Text.bytes (rewriteAll text (front ++ marker :: rest)) =
      reached text (front ++ [marker]) marker.span.stop ++
        Edit.rewriteBytes (Text.bytes text) marker.span.stop text.size
          (Edit.sorted (rest.flatMap (·.edits))) := by
  have split := lined.split
  have order := lined.order marker (by simp)
  have inside := lined.inside marker (by simp)
  have behind := split.own.append order inside split.behind
  have whole := split.before.append (Nat.zero_le _) (Nat.le_trans order inside) behind
  rw [rewriteAll,lined.sorted_eq,Edit.bytes_rewriteTo (Nat.zero_le _) text.isBoundary_zero
    text.isBoundary_full whole,Edit.rewriteBytes_append (Nat.zero_le _) (Nat.le_trans order inside)
    split.before behind,Edit.rewriteBytes_append order inside split.own split.behind,lined.reached_own,
    List.append_assoc]
  rfl

theorem Lined.within_next (lined : Lined text (front ++ marker :: rest)) :
    Edit.Within text 0 marker.span.stop (Edit.sorted ((front ++ [marker]).flatMap (·.edits))) := by
  have split := lined.split
  have both := split.before.append (Nat.zero_le _) (lined.order marker (by simp)) split.own
  rw [← Edit.sorted_append_within split.before split.own] at both
  simpa using both

theorem Lined.next (lined : Lined text (front ++ marker :: rest)) :
    Lined text ((front ++ [marker]) ++ rest) := by
  rwa [List.append_assoc,List.singleton_append]

theorem Lined.below_next (lined : Lined text (front ++ marker :: rest)) :
    ∀ later ∈ rest, marker.span.stop ≤ later.span.start := by
  have tail := (List.pairwise_append.mp lined.ascending).2.1
  exact fun later member => ((List.pairwise_cons.mp tail).1 later member).1

/-- Each moved span begins behind all that was made of the text before it. -/
theorem Lined.moved_ascending (lined : Lined text (front ++ rest))
    (low : ∀ marker ∈ rest, here ≤ marker.span.start)
    (before : Edit.Within text 0 here (Edit.sorted (front.flatMap (·.edits)))) :
    ((movedFrom front rest).Pairwise fun first second => first.stop ≤ second.start) ∧
      ∀ span ∈ movedFrom front rest, (reached text front here).length ≤ span.start ∧
        span.start ≤ span.stop ∧ span.stop ≤ (rewriteAll text (front ++ rest)).size := by
  induction rest generalizing front here with
  | nil => simp [movedFrom]
  | cons marker rest ih =>
    obtain ⟨apart,behind⟩ := ih lined.next lined.below_next lined.within_next
    have gap := congrArg List.length (reached_gap (low marker (by simp)) before)
    have own := congrArg List.length lined.reached_own
    have whole := congrArg List.length lined.bytes_rewriteAll
    simp only [List.length_append,Text.length_bytes] at gap own whole
    simp only [List.append_assoc,List.singleton_append] at behind
    simp only [movedFrom,lined.moved_reached,List.pairwise_cons,List.forall_mem_cons]
    refine ⟨⟨fun span member => (behind span member).1,apart⟩,⟨by omega,by omega,by omega⟩,?_⟩
    intro span member
    have far := behind span member
    exact ⟨by omega,far.2⟩

/-- The bytes between the moved spans are the bytes between the markers. -/
theorem Lined.gaps_moved (lined : Lined text (front ++ rest))
    (low : ∀ marker ∈ rest, here ≤ marker.span.start)
    (before : Edit.Within text 0 here (Edit.sorted (front.flatMap (·.edits))))
    (whole : Text.bytes (rewriteAll text (front ++ rest)) = reached text front here ++
      Edit.rewriteBytes (Text.bytes text) here text.size (Edit.sorted (rest.flatMap (·.edits)))) :
    gaps (Text.bytes (rewriteAll text (front ++ rest))) (reached text front here).length
        (movedFrom front rest) =
      gaps (Text.bytes text) here (rest.map (·.span)) := by
  induction rest generalizing front here with
  | nil =>
    simp only [movedFrom,gaps,List.map_nil]
    rw [whole,List.drop_left,List.flatMap_nil,Edit.sorted,List.mergeSort_nil,Edit.rewriteBytes,
      ← text.length_bytes,← drop_eq_part]
  | cons marker rest ih =>
    have tail := ih lined.next lined.below_next lined.within_next (by
      rw [List.append_assoc,List.singleton_append]
      exact lined.bytes_rewriteAll)
    rw [List.append_assoc,List.singleton_append] at tail
    simp only [movedFrom,lined.moved_reached,gaps,List.map_cons]
    rw [tail,lined.bytes_rewriteAll,lined.reached_own,reached_gap (low marker (by simp)) before,
      List.append_assoc,List.append_assoc,List.length_append,part_append]

theorem reached_nil : reached text [] 0 = [] := by
  simp [reached,Edit.sorted,Edit.rewriteBytes,part]

theorem Lined.bytes_rewriteAll_eq {markers : List Marker} (lined : Lined text markers) :
    Text.bytes (rewriteAll text markers) =
      Edit.rewriteBytes (Text.bytes text) 0 text.size (Edit.sorted (markers.flatMap (·.edits))) :=
  Edit.bytes_rewriteTo (Nat.zero_le _) text.isBoundary_zero text.isBoundary_full
    (Edit.within_sorted lined.applicable lined.ordered fun edit member =>
      ⟨Nat.zero_le _,(lined.applicable.fits edit member).inside⟩)

/-- Slicing a marker's moved span gives what its own edits make of its text alone. -/
theorem Lined.slice_alone (lined : Lined text (front ++ marker :: rest)) (lineBreak : LineBreak)
    (atStart : text.isBoundary marker.span.start = true)
    (atStop : text.isBoundary marker.span.stop = true) :
    ∃ own made, Snapshot.slice ⟨text,lineBreak⟩ marker.span = .ok own ∧
      Edit.apply own (marker.edits.map (Edit.relative marker.span.start)) = .ok made ∧
      Snapshot.slice ⟨rewriteAll text (front ++ marker :: rest),lineBreak⟩
        (marker.moved (front ++ rest)) = .ok made := by
  have order := lined.order marker (by simp)
  have edits : marker.edits.Sublist ((front ++ marker :: rest).flatMap (·.edits)) := by
    rw [List.flatMap_append,List.flatMap_cons]
    exact (List.sublist_append_left _ _).trans (List.sublist_append_right _ _)
  refine ⟨text.between marker.span.start marker.span.stop,_,?_,?_,lined.slice_moved lineBreak atStart atStop⟩
  · have found := Text.slice?_eq_some text marker.span order atStart atStop
    rw [Snapshot.slice,if_neg (Nat.not_lt.mpr (lined.inside marker (by simp))),found]
  · apply Edit.apply_relative order atStart atStop
    · exact ⟨fun edit member => lined.applicable.fits edit (edits.subset member),
        lined.applicable.apart.sublist edits⟩
    · exact fun edit member => lined.ordered edit (edits.subset member)
    · exact fun edit member => (Span.contains_iff _ _).mp (lined.own marker (by simp) edit member)

theorem checks_of_check {markers : List Marker} (passed : check text markers = .ok ()) :
    ((markers.map (·.span)).mergeSort Span.atMost).forM (checkBounds text.size) = .ok () ∧
      checkApart ((markers.map (·.span)).mergeSort Span.atMost) = .ok () ∧
      markers.forM (fun marker => marker.edits.forM marker.checkInside) = .ok () := by
  obtain ⟨_,bounds,passed⟩ := Edit.bind_eq_ok_iff.mp passed
  obtain ⟨_,apart,inside⟩ := Edit.bind_eq_ok_iff.mp passed
  exact ⟨bounds,apart,inside⟩

/-- What the checks ask of the markers, and of each edit of a marker. -/
theorem inside_of_check {markers : List Marker} (checked : check text markers = .ok ()) :
    (∀ marker ∈ markers, marker.span.stop ≤ text.size) ∧
      ∀ marker ∈ markers, ∀ edit ∈ marker.edits, marker.span.contains edit.span = true := by
  obtain ⟨bounds,_,own⟩ := checks_of_check checked
  simp only [Edit.forM_eq_ok_iff] at bounds own
  refine ⟨?_,?_⟩
  · intro marker member
    have bound := bounds marker.span (List.mem_mergeSort.mpr (List.mem_map_of_mem member))
    unfold checkBounds at bound
    split at bound
    · cases bound
    · omega
  · intro marker member edit mine
    have inside := own marker member edit mine
    unfold checkInside at inside
    split at inside
    · assumption
    · cases inside

end Marker

namespace Snapshot

variable {snapshot : Snapshot} {markers : List Marker} {outcome : EditOutcome}

/-- What is performed has passed the checks, and its text is that of all edits. -/
theorem steps_of_perform (done : snapshot.perform markers = .ok outcome) :
    Marker.check snapshot.text markers = .ok () ∧
      ∃ text, Edit.apply snapshot.text (markers.flatMap (·.edits)) = .ok text ∧
        outcome = ⟨⟨text,snapshot.lineBreak⟩,
          markers.mapIdx fun i marker => marker.moved (markers.eraseIdx i)⟩ := by
  obtain ⟨_,checked,done⟩ := Edit.bind_eq_ok_iff.mp done
  obtain ⟨text,applied,done⟩ := Edit.bind_eq_ok_iff.mp done
  exact ⟨checked,text,applied,(Except.ok.inj done).symm⟩

theorem lined_of_perform (lasting : ∀ marker ∈ markers, marker.span.start < marker.span.stop)
    (ascending : markers.Pairwise fun first second => first.span.stop ≤ second.span.start)
    (ordered : ∀ edit ∈ markers.flatMap (·.edits), edit.Ordered)
    (done : snapshot.perform markers = .ok outcome) : Marker.Lined snapshot.text markers := by
  obtain ⟨checked,text,applied,_⟩ := steps_of_perform done
  obtain ⟨inside,own⟩ := Marker.inside_of_check checked
  refine ⟨fun marker member => Nat.le_of_lt (lasting marker member),inside,?_,own,ordered,
    ((Edit.apply_eq_ok_iff _ _ _ ordered).mp applied).1⟩
  apply ascending.imp_of_mem
  intro first second inFirst _ apart
  exact ⟨apart,Nat.lt_of_lt_of_le (lasting first inFirst) apart⟩

/-- Lasting markers in the order of the text are followed through the edits: their spans stay in
order and apart, all bytes outside them stay as they are, and a marker that splits no character
ends up around what its own edits make of its text. -/
theorem perform_follows (snapshot : Snapshot) (markers : List Marker) (outcome : EditOutcome)
    (lasting : ∀ marker ∈ markers, marker.span.start < marker.span.stop)
    (ascending : markers.Pairwise fun first second => first.span.stop ≤ second.span.start)
    (ordered : ∀ edit ∈ markers.flatMap (·.edits), edit.Ordered)
    (done : snapshot.perform markers = .ok outcome) :
    (outcome.spans.Pairwise fun first second => first.stop ≤ second.start) ∧
    (∀ span ∈ outcome.spans, span.start ≤ span.stop ∧ span.stop ≤ outcome.snapshot.text.size) ∧
    List.Forall₂ (fun span marker =>
      snapshot.text.isBoundary marker.span.start = true →
      snapshot.text.isBoundary marker.span.stop = true →
      ∃ own made, snapshot.slice marker.span = .ok own ∧
        Edit.apply own (marker.edits.map (Edit.relative marker.span.start)) = .ok made ∧
        outcome.snapshot.slice span = .ok made) outcome.spans markers ∧
    gaps (Text.bytes outcome.snapshot.text) 0 outcome.spans =
      gaps (Text.bytes snapshot.text) 0 (markers.map (·.span)) := by
  have lined := lined_of_perform lasting ascending ordered done
  obtain rfl : _ = outcome := Except.ok.inj ((snapshot.perform_eq_ok markers lined).symm.trans done)
  have spans := Marker.mapIdx_moved [] markers
  simp only [List.nil_append,List.length_nil,Nat.zero_add] at spans
  have nothing : Edit.Within snapshot.text 0 0 (Edit.sorted (([] : List Marker).flatMap (·.edits))) := by
    constructor <;> simp [Edit.sorted,Edit.Ascending]
  have low : ∀ marker ∈ markers, 0 ≤ marker.span.start := fun _ _ => Nat.zero_le _
  have whole : Marker.Lined snapshot.text ([] ++ markers) := lined
  obtain ⟨apart,inside⟩ := whole.moved_ascending low nothing
  have kept := whole.gaps_moved low nothing (by
    rw [Marker.reached_nil,List.nil_append,List.nil_append]
    exact lined.bytes_rewriteAll_eq)
  rw [Marker.reached_nil] at kept
  refine ⟨?_,?_,?_,?_⟩
  · rw [spans]
    exact apart
  · rw [spans]
    exact fun span member => (inside span member).2
  · rw [List.forall₂_iff_get]
    refine ⟨by simp,?_⟩
    intro i _ member atStart atStop
    obtain ⟨parted,others⟩ := parted_at markers i member
    have around := lined
    rw [parted] at around
    have sliced := around.slice_alone snapshot.lineBreak atStart atStop
    rw [← parted,← others] at sliced
    simpa only [List.get_eq_getElem,List.getElem_mapIdx] using sliced
  · rw [spans]
    exact kept

/-- Two markers that touch at byte 2 and both insert there. -/
def touching : List Marker :=
  [⟨⟨0,2⟩,[.insert 2 ['p'],⟨⟨0,2⟩,['x','y','z']⟩]⟩,⟨⟨2,3⟩,[.insert 2 ['q'],.delete ⟨2,3⟩]⟩]

theorem perform_follows_touching :
    ∃ outcome, perform ⟨['é','b','c'],.lf⟩ touching = .ok outcome ∧
      (outcome.spans.Pairwise fun first second => first.stop ≤ second.start) ∧
      gaps (Text.bytes outcome.snapshot.text) 0 outcome.spans = [[],[],[99]] := by
  have lined : Marker.Lined ['é','b','c'] touching :=
    ⟨by decide,by decide,by decide,by decide,by decide,⟨by decide,by decide⟩⟩
  have done := perform_eq_ok ⟨['é','b','c'],.lf⟩ touching lined
  obtain ⟨apart,_,_,kept⟩ := perform_follows _ _ _ (by decide) (by decide) (by decide) done
  exact ⟨_,done,apart,kept.trans (by decide)⟩

/-- A marker around half a character: it is performed, and its span cannot be sliced. -/
theorem perform_halves :
    ∃ outcome, perform ⟨['é'],.lf⟩ [⟨⟨0,1⟩,[]⟩] = .ok outcome ∧ outcome.spans = [⟨0,1⟩] ∧
      outcome.snapshot.slice ⟨0,1⟩ = .error (.notBoundary 0) := by
  have lined : Marker.Lined ['é'] [⟨⟨0,1⟩,[]⟩] :=
    ⟨by decide,by decide,by decide,by decide,by decide,⟨by decide,by decide⟩⟩
  have kept : Marker.rewriteAll ['é'] [⟨⟨0,1⟩,[]⟩] = ['é'] := by
    simp only [Marker.rewriteAll,List.flatMap_cons,List.flatMap_nil,List.append_nil,Edit.sorted,
      List.mergeSort_nil,Edit.rewriteTo]
    decide
  refine ⟨_,perform_eq_ok ⟨['é'],.lf⟩ _ lined,by decide,?_⟩
  rw [kept]
  decide

end Snapshot
end Transplant
