import Transplant.Proofs.Edit.Stretch

/-! The normal form of a list of edits. Joining leaves no two edits that touch, so that the next one
begins behind an untouched byte, and a list like that is its own normal form. -/
namespace Transplant.Edit

/-- Edits that fit the text and ascend with at least one byte between them. -/
structure Normal (text : Text) (edits : List Edit) : Prop where
  fits : ∀ edit ∈ edits, Fits text edit
  ordered : ∀ edit ∈ edits, Ordered edit
  gapped : edits.Pairwise fun first second => first.span.stop < second.span.start

variable {text : Text} {here : Nat} {edit : Edit} {edits rest : List Edit}

theorem Normal.applicable (normal : Normal text edits) : Applicable text edits where
  fits := normal.fits
  apart := normal.gapped.imp fun near => .inl (Nat.le_of_lt near)

/-- Joining keeps edits in the part of the text that they lie in. -/
theorem Within.coalesced (within : Within text here text.size edits) :
    Within text here text.size (coalesce edits) := by
  obtain ⟨ascending,fits,ordered,after⟩ := coalesce_ascending text edits within.fits within.ordered within.ascending
  exact ⟨fits,ordered,ascending,after here within.after,fun edit member => (fits edit member).inside⟩

theorem joinNext_gapped (ordered : ∀ later ∈ rest, Ordered later)
    (follows : ∀ later ∈ rest, edit.span.stop ≤ later.span.start)
    (gapped : rest.Pairwise fun first second => first.span.stop < second.span.start) :
    (joinNext edit rest).Pairwise fun first second => first.span.stop < second.span.start := by
  cases rest with
  | nil => exact List.pairwise_singleton _ _
  | cons next rest =>
    have behind := (List.pairwise_cons.mp gapped).1
    simp only [joinNext]
    split
    · exact List.pairwise_cons.mpr ⟨behind,gapped.tail⟩
    · rename_i distant
      have near : edit.span.stop < next.span.start :=
        Nat.lt_of_le_of_ne (follows next (by simp)) distant
      refine List.pairwise_cons.mpr ⟨fun later member => ?_,gapped⟩
      rcases List.mem_cons.mp member with rfl | further
      · exact near
      · have length := ordered next (by simp)
        have far := behind later further
        unfold Ordered at length
        omega

theorem Within.coalesce_gapped (within : Within text here text.size edits) :
    (coalesce edits).Pairwise fun first second => first.span.stop < second.span.start := by
  induction edits generalizing here with
  | nil => exact .nil
  | cons edit rest ih =>
    have joined := within.tail.coalesced
    exact joinNext_gapped joined.ordered joined.after (ih within.tail)

/-- Joined with the edit that begins where it ends, an edit adds what both of them add. -/
theorem joinNext_delta (own : Ordered edit) (ordered : ∀ later ∈ rest, Ordered later) :
    ((joinNext edit rest).map delta).sum = edit.delta + (rest.map delta).sum := by
  cases rest with
  | nil => simp [joinNext]
  | cons next rest =>
    have length := ordered next (by simp)
    unfold Ordered at own length
    simp only [joinNext]
    split
    · simp only [List.map_cons,List.sum_cons,delta,Span.length,Text.size_append]
      omega
    · rfl

theorem Within.coalesce_delta (within : Within text here text.size edits) :
    ((coalesce edits).map delta).sum = (edits.map delta).sum := by
  induction edits generalizing here with
  | nil => rfl
  | cons edit rest ih =>
    change ((joinNext edit (coalesce rest)).map delta).sum = _
    rw [joinNext_delta (within.ordered edit (by simp)) within.tail.coalesced.ordered,ih within.tail,
      List.map_cons,List.sum_cons]

theorem coalesce_of_gapped (gapped : edits.Pairwise fun first second => first.span.stop < second.span.start) :
    coalesce edits = edits := by
  induction edits with
  | nil => rfl
  | cons edit rest ih =>
    change joinNext edit (coalesce rest) = _
    rw [ih gapped.tail]
    cases rest with
    | nil => rfl
    | cons next rest =>
      have near := (List.pairwise_cons.mp gapped).1 next (by simp)
      rw [joinNext,if_neg (Nat.ne_of_lt near)]

theorem Normal.sorted_eq (normal : Normal text edits) : sorted edits = edits := by
  apply List.mergeSort_of_pairwise
  refine normal.gapped.imp_of_mem fun {first second} inFirst _ near => ?_
  have length := normal.ordered first inFirst
  unfold Ordered at length
  exact (Span.atMost_iff _ _).mpr (.inl (by omega))

theorem Normal.normalize_eq (normal : Normal text edits) : normalize text edits = .ok edits := by
  refine (normalize_eq_ok_iff text edits edits normal.ordered).mpr ⟨normal.applicable,?_⟩
  rw [normal.sorted_eq,coalesce_of_gapped normal.gapped]

/-- What a list of edits is brought into lies in the text, ascends, and leaves a byte between any two
edits. It is its own normal form, makes the same text of the text, and adds as many bytes. -/
theorem normalize_normal (text : Text) (edits normal : List Edit) (ordered : ∀ edit ∈ edits, Ordered edit)
    (done : normalize text edits = .ok normal) :
    Normal text normal ∧ normalize text normal = .ok normal ∧
    (∃ result, apply text edits = .ok result ∧ apply text normal = .ok result) ∧
    (normal.map delta).sum = (edits.map delta).sum := by
  obtain ⟨applicable,rfl⟩ := (normalize_eq_ok_iff text edits normal ordered).mp done
  have within := within_whole applicable ordered
  have canonical : Normal text (coalesce (sorted edits)) :=
    ⟨within.coalesced.fits,within.coalesced.ordered,within.coalesce_gapped⟩
  have again := canonical.normalize_eq
  refine ⟨canonical,again,⟨applyNormal text (coalesce (sorted edits)),?_,?_⟩,?_⟩
  · rw [apply,done]
    rfl
  · rw [apply,again]
    rfl
  · rw [within.coalesce_delta]
    exact ((List.mergeSort_perm edits _).map delta).sum_eq

/-- Two chains of edits that touch, an untouched byte between them. -/
def chains : List Edit :=
  [.insert 2 ['p'],⟨⟨0,2⟩,['x']⟩,.insert 2 ['q'],.delete ⟨3,4⟩,.insert 0 ['r'],⟨⟨4,6⟩,['y','z','y']⟩]

theorem normalize_normal_chains :
    ∃ normal, normalize ['é','b','c','ö'] chains = .ok normal ∧ Normal ['é','b','c','ö'] normal ∧
      normalize ['é','b','c','ö'] normal = .ok normal ∧ (normal.map delta).sum = 2 := by
  have ordered : ∀ edit ∈ chains, Ordered edit := by decide
  have done : normalize ['é','b','c','ö'] chains = .ok (coalesce (sorted chains)) :=
    (normalize_eq_ok_iff _ _ _ ordered).mpr ⟨⟨by decide,by decide⟩,rfl⟩
  obtain ⟨canonical,again,_,grown⟩ := normalize_normal _ _ _ ordered done
  exact ⟨_,done,canonical,again,grown.trans (by decide)⟩

end Transplant.Edit
