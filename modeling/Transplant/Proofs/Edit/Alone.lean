import Transplant.Proofs.Edit.Stretch

/-! A stretch of a text on its own. The edits inside it, counted from its start, make of it what
they make of it in the whole text. -/
namespace Transplant

namespace Text

variable {text : Text} {start first second stop : Nat}

theorem isBoundary_between (low : start ≤ first) (high : first ≤ stop)
    (atStart : isBoundary text start = true) (atFirst : isBoundary text first = true)
    (atStop : isBoundary text stop = true) :
    isBoundary (between text start stop) (first - start) = true := by
  rw [between_trans text start first stop low high atStart atFirst atStop,
    ← size_between text start first low atStart atFirst]
  exact isBoundary_size _ _

theorem after_between (low : start ≤ first) (high : first ≤ stop)
    (atStart : isBoundary text start = true) (atFirst : isBoundary text first = true)
    (atStop : isBoundary text stop = true) :
    after (between text start stop) (first - start) = between text first stop := by
  rw [between_trans text start first stop low high atStart atFirst atStop,
    ← size_between text start first low atStart atFirst,after_append]

theorem between_between (low : start ≤ first) (middle : first ≤ second) (high : second ≤ stop)
    (atStart : isBoundary text start = true) (atFirst : isBoundary text first = true)
    (atSecond : isBoundary text second = true) (atStop : isBoundary text stop = true) :
    between (between text start stop) (first - start) (second - start) = between text first second := by
  have head := size_between text start first low atStart atFirst
  have inner := size_between text first second middle atFirst atSecond
  rw [between_trans text start first stop low (Nat.le_trans middle high) atStart atFirst atStop,
    between_trans text first second stop middle high atFirst atSecond atStop,← head,
    show second - start = (between text start first).size + (between text first second).size by omega]
  exact between_append _ _ _

end Text

namespace Edit

/-- The edit as it is counted from byte `start` on. -/
def relative (start : Nat) (edit : Edit) : Edit := ⟨edit.span.map (· - start),edit.replacement⟩

variable {text : Text} {start here stop : Nat} {edits : List Edit}

theorem sorted_relative (ordered : ∀ edit ∈ edits, Ordered edit)
    (after : ∀ edit ∈ edits, start ≤ edit.span.start) :
    sorted (edits.map (relative start)) = (sorted edits).map (relative start) := by
  apply (sorted_stable _).unique
  refine ⟨?_,?_⟩
  · rw [List.pairwise_map]
    apply (sorted_stable edits).ascending.imp_of_mem
    intro first second inFirst inSecond order
    have low := after first ((mem_sorted _ _).mp inFirst)
    have other := after second ((mem_sorted _ _).mp inSecond)
    rw [Span.atMost_iff] at order ⊢
    simp only [relative,Span.map]
    omega
  · intro span
    have same : ∀ edit ∈ edits, ((relative start edit).span == span) =
        (edit.span == span.map (· + start)) := by
      intro edit member
      have low := after edit member
      have length := ordered edit member
      unfold Ordered at length
      rw [Bool.eq_iff_iff,beq_iff_eq,beq_iff_eq]
      obtain ⟨⟨first,last⟩,_⟩ := edit
      obtain ⟨left,right⟩ := span
      simp only [relative,Span.map,Span.mk.injEq] at low length ⊢
      omega
    rw [List.filter_map,List.filter_map]
    congr 1
    calc (sorted edits).filter (fun edit => (relative start edit).span == span)
        = (sorted edits).filter (fun edit => edit.span == span.map (· + start)) :=
          List.filter_congr fun edit member => same edit ((mem_sorted _ _).mp member)
      _ = edits.filter (fun edit => edit.span == span.map (· + start)) := (sorted_stable edits).kept _
      _ = edits.filter (fun edit => (relative start edit).span == span) :=
          List.filter_congr fun edit member => (same edit member).symm

theorem rewriteFrom_relative (low : start ≤ here) (high : here ≤ stop)
    (atStart : text.isBoundary start = true) (atHere : text.isBoundary here = true)
    (atStop : text.isBoundary stop = true) (within : Within text here stop edits) :
    rewriteFrom (text.between start stop) (here - start) (edits.map (relative start)) =
      rewriteTo text here stop edits := by
  induction edits generalizing here with
  | nil => exact Text.after_between low high atStart atHere atStop
  | cons edit rest ih =>
    obtain ⟨fits,after,length,inside⟩ := within.head
    have tail := ih (by omega) inside fits.atStop within.tail
    simp only [List.map_cons,rewriteFrom,rewriteTo,relative,Span.map] at tail ⊢
    rw [tail,Text.between_between low after (Nat.le_trans length inside) atStart atHere fits.atStart atStop]

theorem Fits.relative {edit : Edit} (fits : Fits text edit) (ordered : Ordered edit)
    (low : start ≤ edit.span.start) (high : edit.span.stop ≤ stop)
    (atStart : text.isBoundary start = true) (atStop : text.isBoundary stop = true) :
    Fits (text.between start stop) (edit.relative start) := by
  unfold Ordered at ordered
  refine ⟨?_,?_,?_⟩
  · rw [text.size_between start stop (by omega) atStart atStop]
    exact Nat.sub_le_sub_right high start
  · exact Text.isBoundary_between low (Nat.le_trans ordered high) atStart fits.atStart atStop
  · exact Text.isBoundary_between (Nat.le_trans low ordered) high atStart fits.atStop atStop

/-- On its own a stretch is rewritten as in the whole text. -/
theorem apply_relative (order : start ≤ stop) (atStart : text.isBoundary start = true)
    (atStop : text.isBoundary stop = true) (applicable : Applicable text edits)
    (ordered : ∀ edit ∈ edits, Ordered edit)
    (inside : ∀ edit ∈ edits, start ≤ edit.span.start ∧ edit.span.stop ≤ stop) :
    apply (text.between start stop) (edits.map (relative start)) =
      .ok (rewriteTo text start stop (sorted edits)) := by
  have onItsOwn : ∀ edit ∈ edits.map (relative start), Ordered edit := by
    intro edit member
    obtain ⟨edit,given,rfl⟩ := List.mem_map.mp member
    exact Nat.sub_le_sub_right (ordered edit given) start
  apply (apply_eq_ok_iff _ _ _ onItsOwn).mpr
  refine ⟨⟨?_,?_⟩,?_⟩
  · intro edit member
    obtain ⟨edit,given,rfl⟩ := List.mem_map.mp member
    obtain ⟨low,high⟩ := inside edit given
    exact (applicable.fits edit given).relative (ordered edit given) low high atStart atStop
  · rw [List.pairwise_map]
    exact applicable.apart.imp (Or.imp (Nat.sub_le_sub_right · start) (Nat.sub_le_sub_right · start))
  · have low : ∀ edit ∈ edits, start ≤ edit.span.start := fun edit given => (inside edit given).1
    have pass := rewriteFrom_relative (Nat.le_refl start) order atStart atStart atStop
      (within_sorted applicable ordered inside)
    rw [sorted_relative ordered low,← pass,Nat.sub_self]

end Edit
end Transplant
