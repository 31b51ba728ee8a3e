import Transplant.Proofs.Edit.Rewrite

/-! Rewriting one stretch of a text. A pass over the whole text is the pass over its stretches one
after the other, and each stretch grows by the edits inside it. -/
namespace Transplant.Edit

/-- The text from byte `here` up to `stop`, with each of the edits made in turn. -/
def rewriteTo (text : Text) (here stop : Nat) : List Edit → Text
  | [] => text.between here stop
  | edit :: rest =>
    text.between here edit.span.start ++ edit.replacement ++ rewriteTo text edit.span.stop stop rest

/-- What has to hold of edits for a pass from `here` to `stop`: they fit, come one after the other
and leave neither end of the stretch. -/
structure Within (text : Text) (here stop : Nat) (edits : List Edit) : Prop where
  fits : ∀ edit ∈ edits, Fits text edit
  ordered : ∀ edit ∈ edits, Ordered edit
  ascending : Ascending edits
  after : ∀ edit ∈ edits, here ≤ edit.span.start
  before : ∀ edit ∈ edits, edit.span.stop ≤ stop

variable {text : Text} {here middle stop : Nat} {edit : Edit} {edits left right : List Edit}

theorem Within.tail (within : Within text here stop (edit :: edits)) :
    Within text edit.span.stop stop edits :=
  ⟨fun later member => within.fits later (by simp [member]),
    fun later member => within.ordered later (by simp [member]),within.ascending.tail,
    (List.pairwise_cons.mp within.ascending).1,
    fun later member => within.before later (by simp [member])⟩

theorem Within.head (within : Within text here stop (edit :: edits)) :
    Fits text edit ∧ here ≤ edit.span.start ∧ edit.span.start ≤ edit.span.stop ∧
      edit.span.stop ≤ stop :=
  ⟨within.fits edit (by simp),within.after edit (by simp),within.ordered edit (by simp),
    within.before edit (by simp)⟩

/-- Passes over neighbouring stretches make one pass. -/
theorem Within.append (first : here ≤ middle) (second : middle ≤ stop)
    (before : Within text here middle left) (behind : Within text middle stop right) :
    Within text here stop (left ++ right) where
  fits := fun edit member => (List.mem_append.mp member).elim (before.fits edit) (behind.fits edit)
  ordered := fun edit member =>
    (List.mem_append.mp member).elim (before.ordered edit) (behind.ordered edit)
  ascending := List.pairwise_append.mpr ⟨before.ascending,behind.ascending,
    fun early inLeft late inRight =>
      Nat.le_trans (before.before early inLeft) (behind.after late inRight)⟩
  after := fun edit member => (List.mem_append.mp member).elim (before.after edit)
    fun inRight => Nat.le_trans first (behind.after edit inRight)
  before := fun edit member => (List.mem_append.mp member).elim
    (fun inLeft => Nat.le_trans (before.before edit inLeft) second) (behind.before edit)

theorem rewriteFrom_eq_rewriteTo (here : Nat) (edits : List Edit) (atHere : text.isBoundary here = true)
    (fits : ∀ edit ∈ edits, Fits text edit) :
    rewriteFrom text here edits = rewriteTo text here text.size edits := by
  induction edits generalizing here with
  | nil =>
    have whole := text.after_eq_append here text.size (text.le_size_of_isBoundary here atHere) atHere
      text.isBoundary_full
    simpa [rewriteFrom,rewriteTo,text.after_full] using whole
  | cons edit rest ih =>
    simp only [rewriteFrom,rewriteTo]
    rw [ih edit.span.stop (fits edit (by simp)).atStop fun later member => fits later (by simp [member])]

/-- A stretch may begin with untouched text. -/
theorem rewriteTo_between (first : here ≤ middle) (second : middle ≤ stop)
    (atHere : text.isBoundary here = true) (atMiddle : text.isBoundary middle = true)
    (atStop : text.isBoundary stop = true) (within : Within text middle stop edits) :
    rewriteTo text here stop edits = text.between here middle ++ rewriteTo text middle stop edits := by
  cases edits with
  | nil => exact text.between_trans here middle stop first second atHere atMiddle atStop
  | cons edit rest =>
    obtain ⟨fits,after,_,_⟩ := within.head
    simp only [rewriteTo]
    rw [text.between_trans here middle edit.span.start first after atHere atMiddle fits.atStart]
    simp only [List.append_assoc]

/-- Edits before and behind a boundary are made in the stretches before and behind it. -/
theorem rewriteTo_append (second : middle ≤ stop) (first : here ≤ middle)
    (atHere : text.isBoundary here = true) (atMiddle : text.isBoundary middle = true)
    (atStop : text.isBoundary stop = true) (before : Within text here middle left)
    (behind : Within text middle stop right) :
    rewriteTo text here stop (left ++ right) =
      rewriteTo text here middle left ++ rewriteTo text middle stop right := by
  induction left generalizing here with
  | nil => exact rewriteTo_between first second atHere atMiddle atStop behind
  | cons edit rest ih =>
    obtain ⟨fits,_,_,inside⟩ := before.head
    simp only [List.cons_append,rewriteTo]
    rw [ih inside fits.atStop before.tail]
    simp only [List.append_assoc]

theorem size_rewriteTo (order : here ≤ stop) (atHere : text.isBoundary here = true)
    (atStop : text.isBoundary stop = true) (within : Within text here stop edits) :
    ((rewriteTo text here stop edits).size : Int) = (stop : Int) - here + (edits.map delta).sum := by
  induction edits generalizing here with
  | nil =>
    simp only [rewriteTo,text.size_between here stop order atHere atStop,List.map_nil,List.sum_nil]
    omega
  | cons edit rest ih =>
    obtain ⟨fits,after,length,inside⟩ := within.head
    have tail := ih inside fits.atStop within.tail
    simp only [rewriteTo,Text.size_append,text.size_between here edit.span.start after atHere fits.atStart,
      List.map_cons,List.sum_cons,delta,Span.length] at tail ⊢
    omega

/-- In span order, edits that can be made together and lie in a stretch form a pass over it. -/
theorem within_sorted (applicable : Applicable text edits) (ordered : ∀ edit ∈ edits, Ordered edit)
    (inside : ∀ edit ∈ edits, here ≤ edit.span.start ∧ edit.span.stop ≤ stop) :
    Within text here stop (sorted edits) where
  fits := by simpa only [mem_sorted] using applicable.fits
  ordered := by simpa only [mem_sorted] using ordered
  ascending := (ascending_sorted_iff edits ordered).mpr applicable.apart
  after := by simpa only [mem_sorted] using fun edit member => (inside edit member).1
  before := by simpa only [mem_sorted] using fun edit member => (inside edit member).2

theorem within_whole (applicable : Applicable text edits) (ordered : ∀ edit ∈ edits, Ordered edit) :
    Within text 0 text.size (sorted edits) :=
  within_sorted applicable ordered fun edit member =>
    ⟨Nat.zero_le _,(applicable.fits edit member).inside⟩

theorem sorted_append_within (before : Within text here middle (sorted left))
    (behind : Within text middle stop (sorted right)) :
    sorted (left ++ right) = sorted left ++ sorted right := by
  apply sorted_append
  intro first inLeft second inRight
  rw [← mem_sorted] at inLeft inRight
  have early := before.before first inLeft
  have late := behind.after second inRight
  have firstLength := before.ordered first inLeft
  have secondLength := behind.ordered second inRight
  unfold Ordered at firstLength secondLength
  rw [Span.atMost_iff]
  omega

end Transplant.Edit
