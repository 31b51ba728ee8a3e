import Transplant.Java.Source
import Transplant.Proofs.Text.Cut

/-! Where the boundaries between tokens lie in the text. They come in the order of their numbers,
none splits a character, and a token takes up at least one byte. -/
namespace Transplant.Java

/-- The byte at which a boundary lies; zero for numbers behind the last one. -/
def offset (text : Text) (boundary : Nat) : Nat := (boundaries text (tokens text))[boundary]?.getD 0

theorem byteSpan_boundaries (text : Text) :
    byteSpan (boundaries text (tokens text)) = Span.map (offset text) := rfl

/-- Tokens one behind the other from byte `here` on, each between two boundaries of the text and
spelled as the text is there. -/
def Placed (text : Text) (here : Nat) : List PlacedToken → Prop
  | [] => True
  | token :: rest =>
    here ≤ token.span.start ∧ token.span.start < token.span.stop ∧
      text.isBoundary token.span.start = true ∧ text.isBoundary token.span.stop = true ∧
      text.between token.span.start token.span.stop = token.token.text.toList ∧
      Placed text token.span.stop rest

theorem tokensFrom_placed (front text : Text) :
    Placed (front ++ text) front.size (tokensFrom front.size text) := by
  induction length : text.length using Nat.strongRecOn generalizing front text with
  | ind count ih =>
    rw [tokensFrom]
    split
    · trivial
    · rename_i blanks c rest gap
      have whole := scanGap_append .blank text
      have part := scanToken_append c rest
      rw [gap] at whole
      let taken := c :: (scanToken c rest).2.1
      let left := (scanToken c rest).2.2
      have parted : front ++ text = (front ++ blanks) ++ (taken ++ left) := by
        simp only [taken,left,List.cons_append,part,List.append_assoc]
        rw [← whole]
      have start : (front ++ blanks).size = front.size + blanks.size := Text.size_append _ _
      have stop : ((front ++ blanks) ++ taken).size = front.size + blanks.size + Text.size taken := by
        rw [Text.size_append,start]
      have shorter : left.length < count := by
        have all := congrArg List.length whole
        have some := congrArg List.length part
        simp only [List.length_append,List.length_cons,left] at all some ⊢
        omega
      have lasting : 0 < Text.size taken := by
        have positive := c.utf8Size_pos
        simp only [taken,Text.size]
        omega
      refine ⟨Nat.le_add_right _ _,Nat.lt_add_of_pos_right lasting,?_,?_,?_,?_⟩
      · simp only [parted,← start]
        exact Text.isBoundary_size _ _
      · change Text.isBoundary _ (front.size + blanks.size + Text.size taken) = true
        rw [parted,← List.append_assoc,← stop]
        exact Text.isBoundary_size _ _
      · change Text.between _ (front.size + blanks.size) (front.size + blanks.size + Text.size taken) =
          (String.ofList taken).toList
        rw [parted,← start,Text.between_append,String.toList_ofList]
      · have tail := ih _ shorter ((front ++ blanks) ++ taken) left rfl
        rw [stop,List.append_assoc,← parted] at tail
        exact tail

theorem tokens_placed (text : Text) : Placed text 0 (tokens text) := tokensFrom_placed [] text

/-- The ends of all tokens. -/
def ends (tokens : List PlacedToken) : List Nat :=
  tokens.flatMap fun token => [token.span.start,token.span.stop]

theorem offset_eq (text : Text) (boundary : Nat) :
    offset text boundary = (0 :: (ends (tokens text) ++ [text.size]))[boundary]?.getD 0 := by
  simp [offset,boundaries,ends]

theorem length_ends (tokens : List PlacedToken) : (ends tokens).length = 2 * tokens.length := by
  induction tokens with
  | nil => rfl
  | cons token rest ih =>
    simp only [ends,List.flatMap_cons,List.length_append,List.length_cons,List.length_nil] at ih ⊢
    omega

variable {text : Text} {here : Nat}

theorem Placed.ascending {tokens : List PlacedToken} (placed : Placed text here tokens)
    (inside : here ≤ text.size) : (here :: (ends tokens ++ [text.size])).Pairwise (· ≤ ·) := by
  induction tokens generalizing here with
  | nil => simp [ends,inside]
  | cons token rest ih =>
    obtain ⟨after,length,_,atStop,_,behind⟩ := placed
    have tail := ih behind (text.le_size_of_isBoundary _ atStop)
    have later := (List.pairwise_cons.mp tail).1
    change (here :: token.span.start :: token.span.stop :: (ends rest ++ [text.size])).Pairwise (· ≤ ·)
    refine List.pairwise_cons.mpr ⟨?_,List.pairwise_cons.mpr ⟨?_,tail⟩⟩
    · intro place member
      rcases List.mem_cons.mp member with rfl | member
      · exact after
      · rcases List.mem_cons.mp member with rfl | member
        · omega
        · have far := later place member
          omega
    · intro place member
      rcases List.mem_cons.mp member with rfl | member
      · omega
      · have far := later place member
        omega

theorem Placed.isBoundary {tokens : List PlacedToken} (placed : Placed text here tokens) :
    ∀ place ∈ ends tokens, text.isBoundary place = true := by
  induction tokens generalizing here with
  | nil => simp [ends]
  | cons token rest ih =>
    obtain ⟨_,_,atStart,atStop,_,behind⟩ := placed
    have tail := ih behind
    intro place member
    simp only [ends,List.flatMap_cons,List.mem_append,List.mem_cons,List.not_mem_nil,or_false] at member
    rcases member with (rfl | rfl) | member
    · exact atStart
    · exact atStop
    · exact tail place member

theorem ends_getElem? (tokens : List PlacedToken) (k : Nat) (token : PlacedToken)
    (found : tokens[k]? = some token) :
    (ends tokens)[2 * k]? = some token.span.start ∧ (ends tokens)[2 * k + 1]? = some token.span.stop := by
  induction tokens generalizing k with
  | nil => simp at found
  | cons first rest ih =>
    cases k with
    | zero =>
      have same : first = token := by simpa using found
      subst same
      simp [ends]
    | succ k =>
      have tail := ih k (by simpa using found)
      simpa [ends,show 2 * (k + 1) = 2 * k + 1 + 1 by omega] using tail

/-- Boundaries lie in the order of their numbers. -/
theorem offset_mono (text : Text) {first second : Nat} (order : first ≤ second)
    (known : second ≤ 2 * (tokens text).length + 1) : offset text first ≤ offset text second := by
  have up := (tokens_placed text).ascending (Nat.zero_le _)
  have size : (0 :: (ends (tokens text) ++ [text.size])).length = 2 * (tokens text).length + 2 := by
    simp [length_ends]
  rcases Nat.lt_or_eq_of_le order with below | rfl
  · rw [offset_eq,offset_eq,List.getElem?_eq_getElem (by omega),List.getElem?_eq_getElem (by omega)]
    exact List.pairwise_iff_getElem.mp up first second _ _ below
  · exact Nat.le_refl _

theorem offset_isBoundary (text : Text) (boundary : Nat) :
    text.isBoundary (offset text boundary) = true := by
  rw [offset_eq]
  cases found : (0 :: (ends (tokens text) ++ [text.size]))[boundary]? with
  | none => exact text.isBoundary_zero
  | some place =>
    have member := List.mem_of_getElem? found
    simp only [List.mem_cons,List.mem_append,List.not_mem_nil,or_false] at member
    rcases member with rfl | member | rfl
    · exact text.isBoundary_zero
    · exact (tokens_placed text).isBoundary place member
    · exact text.isBoundary_full

/-- Token number `k` stands between boundaries `2 * k + 1` and `2 * k + 2`. -/
theorem token_span {k : Nat} {token : PlacedToken} (found : (tokens text)[k]? = some token) :
    token.span = ⟨offset text (2 * k + 1),offset text (2 * k + 2)⟩ := by
  obtain ⟨start,stop⟩ := ends_getElem? (tokens text) k token found
  have bound := (List.getElem?_eq_some_iff.mp found).1
  have size := length_ends (tokens text)
  rw [offset_eq,offset_eq,List.getElem?_cons_succ,List.getElem?_cons_succ,
    List.getElem?_append_left (by omega),List.getElem?_append_left (by omega),start,stop]
  rfl

theorem Placed.between {tokens : List PlacedToken} (placed : Placed text here tokens) :
    ∀ token ∈ tokens, text.between token.span.start token.span.stop = token.token.text.toList := by
  induction tokens generalizing here with
  | nil => simp
  | cons first rest ih =>
    obtain ⟨_,_,_,_,spelled,behind⟩ := placed
    exact List.forall_mem_cons.mpr ⟨spelled,ih behind⟩

/-- A token has at least one byte. -/
theorem offset_lt (text : Text) {k : Nat} (known : k < (tokens text).length) :
    offset text (2 * k + 1) < offset text (2 * k + 2) := by
  have lasting (here : Nat) (all : List PlacedToken) (placed : Placed text here all) :
      ∀ token ∈ all, token.span.start < token.span.stop := by
    induction all generalizing here with
    | nil => simp
    | cons first rest ih =>
      obtain ⟨_,length,_,_,_,behind⟩ := placed
      intro token member
      rcases List.mem_cons.mp member with rfl | inside
      · exact length
      · exact ih _ behind token inside
  have found := List.getElem?_eq_getElem known
  have length := lasting 0 _ (tokens_placed text) _ (List.getElem_mem known)
  rwa [token_span found] at length

/-- What is cut out of the text where a token stands is how it is spelled. -/
theorem slice?_token {k : Nat} {token : PlacedToken} (found : (tokens text)[k]? = some token) :
    text.slice? token.span = some token.token.text.toList := by
  have known := (List.getElem?_eq_some_iff.mp found).1
  have length := offset_lt text known
  have spelled := (tokens_placed text).between token (List.mem_of_getElem? found)
  rw [token_span found] at spelled ⊢
  rw [Text.slice?_eq_some text _ (Nat.le_of_lt length) (offset_isBoundary text _) (offset_isBoundary text _),spelled]

/-- A whole token stands between the two boundaries. -/
def TokenBetween (count : Nat) (first second : Nat) : Prop := ∃ k < count, first ≤ 2 * k + 1 ∧ 2 * k + 2 ≤ second

theorem TokenBetween.offset_lt {text : Text} {first second : Nat}
    (between : TokenBetween (tokens text).length first second) (known : second ≤ 2 * (tokens text).length + 1) :
    offset text first < offset text second := by
  obtain ⟨k,inside,low,high⟩ := between
  calc
    offset text first ≤ offset text (2 * k + 1) := offset_mono text low (by omega)
    _ < offset text (2 * k + 2) := Java.offset_lt text inside
    _ ≤ offset text second := offset_mono text high known

/-- Tokens that begin at the same place are the same. -/
theorem offset_token {text : Text} {k n : Nat} (first : k < (tokens text).length) (second : n < (tokens text).length)
    (same : offset text (2 * k + 1) = offset text (2 * n + 1)) : k = n := by
  have apart {i j : Nat} (order : i < j) (inside : j < (tokens text).length) :
      offset text (2 * i + 1) < offset text (2 * j + 1) :=
    TokenBetween.offset_lt ⟨i,by omega,by omega,by omega⟩ (by omega)
  rcases Nat.lt_trichotomy k n with order | rfl | order
  · exact absurd same (Nat.ne_of_lt (apart order second))
  · rfl
  · exact absurd same.symm (Nat.ne_of_lt (apart order first))

/-- Token number `k` stands between two boundaries of the text just when it does so by its number. -/
theorem contains_token_iff {text : Text} {k : Nat} (known : k < (tokens text).length) {span : Span}
    (start : span.start ≤ 2 * (tokens text).length + 1) (stop : span.stop ≤ 2 * (tokens text).length + 1) :
    (span.map (offset text)).contains ⟨offset text (2 * k + 1),offset text (2 * k + 2)⟩ = true ↔
      span.start ≤ 2 * k + 1 ∧ 2 * k + 2 ≤ span.stop := by
  have length := offset_lt text known
  rw [Span.contains_iff]
  constructor
  · rintro ⟨low,high⟩
    constructor
    · apply Nat.le_of_not_lt
      intro behind
      have := offset_mono text (show 2 * k + 2 ≤ span.start by omega) start
      simp only [Span.map] at low
      omega
    · apply Nat.le_of_not_lt
      intro before
      have := offset_mono text (show span.stop ≤ 2 * k + 1 by omega) (by omega)
      simp only [Span.map] at high
      omega
  · rintro ⟨low,high⟩
    exact ⟨offset_mono text low (by omega),offset_mono text high stop⟩

end Transplant.Java
