import Transplant.Text.Basic

/-! Cutting a text at its boundaries. Between two boundaries stands exactly one part of the text,
and every question about offsets becomes one about how the text is put together. -/
namespace Transplant.Text

/-- The bytes from `start` up to `stop`. -/
def between (text : Text) (start stop : Nat) : Text := after (before text stop) start

@[simp] theorem size_nil : size [] = 0 := rfl

@[simp] theorem before_append (left right : Text) : before (left ++ right) (size left) = left := by
  simp [before,cut_append]

@[simp] theorem after_append (left right : Text) : after (left ++ right) (size left) = right := by
  simp [after,cut_append]

theorem append_inj_of_size {front back first rest : Text} (same : front ++ back = first ++ rest)
    (long : size front = size first) : front = first ∧ back = rest := by
  have cut := cut_append front back
  rw [same,long,cut_append] at cut
  exact ⟨(congrArg Prod.fst cut).symm,(congrArg Prod.snd cut).symm⟩

theorem eq_nil_of_size (text : Text) (empty : size text = 0) : text = [] := by
  cases text with
  | nil => rfl
  | cons c rest =>
    have positive := c.utf8Size_pos
    simp only [size] at empty
    omega

theorem isBoundary_size (left right : Text) : isBoundary (left ++ right) (size left) = true :=
  (isBoundary_iff _ _).mpr ⟨left,right,rfl,rfl⟩

theorem isBoundary_zero (text : Text) : isBoundary text 0 = true := isBoundary_size [] text

theorem isBoundary_full (text : Text) : isBoundary text (size text) = true := by
  simpa using isBoundary_size text []

theorem le_size_of_isBoundary (text : Text) (offset : Nat) (boundary : isBoundary text offset = true) :
    offset ≤ size text := by
  obtain ⟨left,right,rfl,rfl⟩ := (isBoundary_iff _ _).mp boundary
  simp [size_append]

/-- Two boundaries part the text in three. -/
theorem split_boundaries (text : Text) (start stop : Nat) (ordered : start ≤ stop)
    (first : isBoundary text start = true) (second : isBoundary text stop = true) :
    ∃ left middle right, text = left ++ (middle ++ right) ∧ size left = start ∧
      size left + size middle = stop := by
  obtain ⟨left,tail,rfl,rfl⟩ := (isBoundary_iff _ _).mp first
  obtain ⟨head,right,same,rfl⟩ := (isBoundary_iff _ _).mp second
  rcases List.append_eq_append_iff.mp same with ⟨middle,rfl,rfl⟩ | ⟨middle,rfl,rfl⟩
  · exact ⟨left,middle,right,rfl,rfl,(size_append left middle).symm⟩
  · have empty : middle = [] := by
      apply eq_nil_of_size
      rw [size_append] at ordered
      omega
    subst empty
    exact ⟨head,[],tail,by simp,by simp,by simp⟩

theorem between_append (left middle right : Text) :
    between (left ++ (middle ++ right)) (size left) (size left + size middle) = middle := by
  rw [← size_append,← List.append_assoc,between,before_append,after_append]

theorem between_self (text : Text) (offset : Nat) (boundary : isBoundary text offset = true) :
    between text offset offset = [] := by
  obtain ⟨left,right,rfl,rfl⟩ := (isBoundary_iff _ _).mp boundary
  simpa using between_append left [] right

theorem before_eq_append (text : Text) (start stop : Nat) (ordered : start ≤ stop)
    (first : isBoundary text start = true) (second : isBoundary text stop = true) :
    before text stop = before text start ++ between text start stop := by
  obtain ⟨left,middle,right,rfl,rfl,rfl⟩ := split_boundaries text start stop ordered first second
  rw [between_append,before_append,← size_append,← List.append_assoc,before_append]

theorem after_eq_append (text : Text) (start stop : Nat) (ordered : start ≤ stop)
    (first : isBoundary text start = true) (second : isBoundary text stop = true) :
    after text start = between text start stop ++ after text stop := by
  obtain ⟨left,middle,right,rfl,rfl,rfl⟩ := split_boundaries text start stop ordered first second
  rw [between_append,after_append,← size_append,← List.append_assoc,after_append]

theorem size_between (text : Text) (start stop : Nat) (ordered : start ≤ stop)
    (first : isBoundary text start = true) (second : isBoundary text stop = true) :
    size (between text start stop) = stop - start := by
  obtain ⟨left,middle,right,rfl,rfl,rfl⟩ := split_boundaries text start stop ordered first second
  rw [between_append]
  omega

/-- What follows a part cut off at a boundary can be exchanged. -/
theorem before_before_append (text rest : Text) (offset : Nat)
    (boundary : isBoundary text offset = true) :
    before (before text offset ++ rest) offset = before text offset := by
  obtain ⟨left,right,rfl,rfl⟩ := (isBoundary_iff _ _).mp boundary
  simp

theorem after_before_append (text rest : Text) (offset : Nat)
    (boundary : isBoundary text offset = true) : after (before text offset ++ rest) offset = rest := by
  obtain ⟨left,right,rfl,rfl⟩ := (isBoundary_iff _ _).mp boundary
  simp

theorem before_zero (text : Text) : before text 0 = [] := before_append [] text

theorem after_full (text : Text) : after text (size text) = [] := by
  simpa using after_append text []

theorem size_after (text : Text) (offset : Nat) (boundary : isBoundary text offset = true) :
    size (after text offset) = size text - offset := by
  obtain ⟨left,right,rfl,rfl⟩ := (isBoundary_iff _ _).mp boundary
  rw [after_append,size_append]
  omega

theorem between_trans (text : Text) (start middle stop : Nat) (first : start ≤ middle)
    (second : middle ≤ stop) (atStart : isBoundary text start = true)
    (atMiddle : isBoundary text middle = true) (atStop : isBoundary text stop = true) :
    between text start stop = between text start middle ++ between text middle stop := by
  have whole := before_eq_append text start stop (Nat.le_trans first second) atStart atStop
  rw [before_eq_append text middle stop second atMiddle atStop,
    before_eq_append text start middle first atStart atMiddle,List.append_assoc] at whole
  exact (List.append_cancel_left whole).symm

/-- A slice exists between two boundaries and is what stands between them. -/
theorem slice?_eq_some (text : Text) (span : Span) (ordered : span.start ≤ span.stop)
    (first : isBoundary text span.start = true) (second : isBoundary text span.stop = true) :
    slice? text span = some (between text span.start span.stop) := by
  simp [slice?,ordered,first,second,between]

theorem slice?_eq_none_iff (text : Text) (span : Span) (ordered : span.start ≤ span.stop) :
    slice? text span = none ↔ isBoundary text span.start = false ∨ isBoundary text span.stop = false := by
  cases first : isBoundary text span.start <;> cases second : isBoundary text span.stop <;>
    simp [slice?,ordered,first,second]

theorem slice?_append (left middle right : Text) :
    slice? (left ++ (middle ++ right)) ⟨size left,size left + size middle⟩ = some middle := by
  have start := isBoundary_size left (middle ++ right)
  have stop := isBoundary_size (left ++ middle) right
  rw [size_append,List.append_assoc] at stop
  rw [slice?_eq_some _ _ (Nat.le_add_right _ _) start stop,between_append]

end Transplant.Text
