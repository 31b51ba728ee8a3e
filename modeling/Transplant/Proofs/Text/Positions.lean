import Transplant.Proofs.Text.Rows

/-! Offsets and positions. An offset lies in the last line that begins at it or before it, which makes
positions and offsets inverse to each other, but for the offset inside a break of two characters. -/
namespace Transplant

/-- Lines before each other, and in one line columns before each other. -/
def Position.AtMost (first second : Position) : Prop :=
  first.line < second.line ∨ first.line = second.line ∧ first.column ≤ second.column

instance (first second : Position) : Decidable (first.AtMost second) := inferInstanceAs (Decidable (_ ∨ _))

namespace LineTable

/-- Lines one behind the other from byte zero on. -/
structure Ruled (table : LineTable) : Prop where
  head : ∃ line, table.lines[0]? = some line ∧ line.start = 0
  ordered : ∀ line ∈ table.lines, line.start ≤ line.stop
  inside : ∀ line ∈ table.lines, line.stop ≤ table.size
  ascending : table.lines.IsChain fun line next => line.stop < next.start

/-- The offset lies in line number `i`, or in the break behind it. -/
structure OnLine (lines : List Span) (offset i : Nat) (line : Span) : Prop where
  found : lines[i]? = some line
  reached : line.start ≤ offset
  ahead : ∀ next, lines[i + 1]? = some next → offset < next.start

variable {table : LineTable} {lines : List Span} {line other : Span} {offset later i j : Nat}

theorem exists_onLine (found : lines[0]? = some line) (reached : line.start ≤ offset) :
    ∃ i line, OnLine lines offset i line := by
  induction lines generalizing line with
  | nil => cases found
  | cons first rest ih =>
    obtain rfl : first = line := Option.some.inj found
    by_cases behind : ∃ next, rest[0]? = some next ∧ next.start ≤ offset
    · obtain ⟨next,listed,further⟩ := behind
      obtain ⟨i,line,on⟩ := ih listed further
      exact ⟨i + 1,line,on.found,on.reached,on.ahead⟩
    · refine ⟨0,first,rfl,reached,fun next listed => ?_⟩
      exact Nat.lt_of_not_le fun further => behind ⟨next,listed,further⟩

theorem Ruled.starts (ruled : table.Ruled) : (table.lines.map (·.start)).Pairwise (· < ·) := by
  refine List.isChain_iff_pairwise.mp ((List.isChain_map _).mpr ?_)
  refine ruled.ascending.imp_of_mem_imp fun line next inside _ before => ?_
  exact Nat.lt_of_le_of_lt (ruled.ordered line inside) before

theorem Ruled.stop_lt (ruled : table.Ruled) (found : table.lines[i]? = some line)
    (behind : table.lines[i + 1]? = some other) : line.stop < other.start := by
  obtain ⟨_,rfl⟩ := List.getElem?_eq_some_iff.mp found
  obtain ⟨inside,rfl⟩ := List.getElem?_eq_some_iff.mp behind
  exact List.isChain_iff_getElem.mp ruled.ascending i inside

theorem Ruled.start_lt (ruled : table.Ruled) (first : table.lines[i]? = some line)
    (second : table.lines[j]? = some other) (order : i < j) : line.start < other.start := by
  obtain ⟨inside,rfl⟩ := List.getElem?_eq_some_iff.mp first
  obtain ⟨known,rfl⟩ := List.getElem?_eq_some_iff.mp second
  exact List.pairwise_iff_getElem.mp (List.pairwise_map.mp ruled.starts) i j inside known order

theorem Ruled.start_le (ruled : table.Ruled) (first : table.lines[i]? = some line)
    (second : table.lines[j]? = some other) (order : i ≤ j) : line.start ≤ other.start := by
  rcases Nat.lt_or_eq_of_le order with before | rfl
  · exact Nat.le_of_lt (ruled.start_lt first second before)
  · exact Nat.le_of_eq (congrArg Span.start (Option.some.inj (first.symm.trans second)))

/-- The lines that begin at an offset or before it are those up to its own. -/
theorem Ruled.takeWhile_eq (ruled : table.Ruled) (on : OnLine table.lines offset i line) :
    table.lines.takeWhile (·.start ≤ offset) = table.lines.take (i + 1) := by
  have reached : ∀ other ∈ table.lines.take (i + 1), decide (other.start ≤ offset) = true := by
    intro other member
    obtain ⟨j,listed⟩ := List.mem_iff_getElem?.mp member
    rw [List.getElem?_take] at listed
    split at listed
    · rename_i upTo
      have before := ruled.start_le listed on.found (Nat.le_of_lt_succ upTo)
      exact decide_eq_true (Nat.le_trans before on.reached)
    · cases listed
  have stops : (table.lines.drop (i + 1)).takeWhile (·.start ≤ offset) = [] := by
    cases rest : table.lines.drop (i + 1) with
    | nil => rfl
    | cons next rest =>
      have listed : table.lines[i + 1]? = some next := by
        rw [← List.head?_drop,rest,List.head?_cons]
      have ahead := on.ahead next listed
      rw [List.takeWhile_cons_of_neg (by simpa using ahead)]
  calc
    table.lines.takeWhile (·.start ≤ offset)
      = (table.lines.take (i + 1) ++ table.lines.drop (i + 1)).takeWhile (·.start ≤ offset) := by
        rw [List.take_append_drop]
    _ = table.lines.take (i + 1) := by rw [List.takeWhile_append_of_pos reached,stops,List.append_nil]

/-- The line of an offset is the last one that begins at the offset or before it. -/
theorem Ruled.position_eq (ruled : table.Ruled) (on : OnLine table.lines (min offset table.size) i line) :
    table.position offset = ⟨i,min (min offset table.size) line.stop - line.start⟩ := by
  have inside := (List.getElem?_eq_some_iff.mp on.found).1
  have count : (table.lines.take (i + 1)).length = i + 1 := by
    rw [List.length_take]
    omega
  have last : (table.lines.take (i + 1)).getLast? = some line := by
    rw [List.getLast?_eq_getElem?,count,Nat.add_sub_cancel,List.getElem?_take_of_lt (Nat.lt_succ_self i),on.found]
  simp only [position,ruled.takeWhile_eq on,last,count,Nat.add_sub_cancel]

theorem Ruled.exists_onLine (ruled : table.Ruled) (offset : Nat) : ∃ i line, OnLine table.lines offset i line := by
  obtain ⟨first,listed,start⟩ := ruled.head
  exact LineTable.exists_onLine listed (by omega)

theorem offset?_found {place : Position} (found : table.lines[place.line]? = some line)
    (small : line.start + place.column < UInt32.size) : table.offset? place =
      if line.start + place.column ≤ line.stop then some (line.start + place.column) else none := by
  rw [offset?,found]
  simp only [bind,Option.bind,Nat.mod_eq_of_lt small]

/-- A position leads back to its offset, and from inside a break to the end of its line. -/
theorem Ruled.offset?_position (ruled : table.Ruled) (on : OnLine table.lines (min offset table.size) i line)
    (small : min offset table.size < UInt32.size) :
    table.offset? (table.position offset) = some (min (min offset table.size) line.stop) := by
  have order := ruled.ordered line (List.mem_of_getElem? on.found)
  have reached := on.reached
  have sum : line.start + (min (min offset table.size) line.stop - line.start) =
      min (min offset table.size) line.stop := by omega
  rw [ruled.position_eq on,offset?_found on.found (by rw [sum]; omega),sum,if_pos (Nat.min_le_right _ _)]

theorem Ruled.position_offset? (ruled : table.Ruled) {place : Position}
    (small : ∀ line, table.lines[place.line]? = some line → line.start + place.column < UInt32.size)
    (found : table.offset? place = some offset) : table.position offset = place := by
  cases listed : table.lines[place.line]? with
  | none =>
    rw [offset?,listed] at found
    cases found
  | some line =>
    rw [offset?_found listed (small line listed)] at found
    split at found
    · rename_i inLine
      obtain rfl := Option.some.inj found
      have inside := ruled.inside line (List.mem_of_getElem? listed)
      have least : min (line.start + place.column) table.size = line.start + place.column := by omega
      have on : OnLine table.lines (min (line.start + place.column) table.size) place.line line := by
        rw [least]
        refine ⟨listed,Nat.le_add_right _ _,fun next behind => ?_⟩
        exact Nat.lt_of_le_of_lt inLine (ruled.stop_lt listed behind)
      rw [ruled.position_eq on,least,Nat.min_eq_left inLine,Nat.add_sub_cancel_left]
    · cases found

theorem Ruled.position_mono (ruled : table.Ruled) (order : offset ≤ later) :
    (table.position offset).AtMost (table.position later) := by
  obtain ⟨i,line,on⟩ := ruled.exists_onLine (min offset table.size)
  obtain ⟨j,other,onOther⟩ := ruled.exists_onLine (min later table.size)
  rw [ruled.position_eq on,ruled.position_eq onOther]
  rcases Nat.lt_trichotomy i j with before | rfl | behind
  · exact .inl before
  · obtain rfl := Option.some.inj (on.found.symm.trans onOther.found)
    exact .inr ⟨rfl,by simp only; omega⟩
  · -- The line behind the later offset begins at the earlier one or before it.
    have inside := (List.getElem?_eq_some_iff.mp on.found).1
    obtain ⟨next,listed⟩ : ∃ next, table.lines[j + 1]? = some next :=
      ⟨_,List.getElem?_eq_getElem (show j + 1 < table.lines.length by omega)⟩
    have ahead := onOther.ahead next listed
    have before := ruled.start_le listed on.found behind
    have reached := on.reached
    omega

end LineTable

namespace Text

open LineTable

variable {text first left right : Text} {others : List (LineBreak × Text)} {line : Span} {offset i : Nat}

/-- The offset lies between the two characters of a break. -/
def InsideBreak (text : Text) (offset : Nat) : Prop :=
  ∃ left right, text = left ++ '\r' :: '\n' :: right ∧ offset = left.size + 1

theorem insideBreak_iff (text : Text) (offset : Nat) : InsideBreak text offset ↔
    0 < offset ∧ text.isBoundary (offset - 1) = true ∧ ['\r','\n'] <+: text.after (offset - 1) := by
  constructor
  · rintro ⟨left,right,rfl,rfl⟩
    rw [Nat.add_sub_cancel,after_append]
    exact ⟨Nat.succ_pos _,isBoundary_size _ _,right,rfl⟩
  · rintro ⟨positive,boundary,right,same⟩
    obtain ⟨left,tail,rfl,size⟩ := (isBoundary_iff _ _).mp boundary
    rw [← size,after_append] at same
    exact ⟨left,right,by rw [← same]; rfl,by omega⟩

instance (text : Text) (offset : Nat) : Decidable (InsideBreak text offset) :=
  decidable_of_iff _ (insideBreak_iff text offset).symm

/-- A line of the text ends with the text or in front of a break, behind which the next one begins. -/
theorem Rows.ends (rows : Rows text first others) (front : Text)
    (found : (spansOf front.size first others)[i]? = some line) : ∃ left right,
      front ++ text = left ++ right ∧ line.start ≤ line.stop ∧ line.stop = left.size ∧
        match (spansOf front.size first others)[i + 1]? with
        | none => right = []
        | some next => ∃ lineBreak more, right = LineBreak.text lineBreak ++ more ∧
            next.start = left.size + lineBreak.text.size := by
  induction rows generalizing front i with
  | @last row inLine =>
    cases i with
    | zero =>
      cases found
      exact ⟨front ++ row,[],by simp,Nat.le_add_right _ _,(size_append _ _).symm,rfl⟩
    | succ i => simp [spansOf] at found
  | @broken row rest next lineBreak others _ _ _ ih =>
    cases i with
    | zero =>
      cases found
      refine ⟨front ++ row,lineBreak.text ++ rest,by simp,Nat.le_add_right _ _,(size_append _ _).symm,?_⟩
      cases others <;> exact ⟨lineBreak,rest,rfl,by simp [size_append]⟩
    | succ i =>
      have behind := @ih i (front ++ (row ++ lineBreak.text))
      rw [size_append,size_append,← Nat.add_assoc] at behind
      simp only [List.append_assoc] at behind
      exact behind found

theorem size_break (lineBreak : LineBreak) : 0 < lineBreak.text.size := by
  cases lineBreak <;> decide

theorem ofText_lines (rows : Rows text first others) : (ofText text).lines = spansOf 0 first others :=
  rows.spansFrom 0

/-- Each line of a table of a text ends with the text or in front of a break. -/
theorem ofText_ends (found : (ofText text).lines[i]? = some line) : ∃ left right,
    text = left ++ right ∧ line.start ≤ line.stop ∧ line.stop = left.size ∧
      match (ofText text).lines[i + 1]? with
      | none => right = []
      | some next => ∃ lineBreak more, right = LineBreak.text lineBreak ++ more ∧
          next.start = left.size + lineBreak.text.size := by
  obtain ⟨first,others,rows⟩ := exists_rows text
  rw [ofText_lines rows] at found ⊢
  exact rows.ends [] found

theorem ofText_ruled (text : Text) : (ofText text).Ruled where
  head := by
    obtain ⟨first,others,rows⟩ := exists_rows text
    rw [ofText_lines rows]
    cases others <;> exact ⟨_,rfl,rfl⟩
  ordered := by
    intro line member
    obtain ⟨i,found⟩ := List.mem_iff_getElem?.mp member
    obtain ⟨_,_,_,order,_⟩ := ofText_ends found
    exact order
  inside := by
    intro line member
    obtain ⟨i,found⟩ := List.mem_iff_getElem?.mp member
    obtain ⟨left,right,parted,_,stop,_⟩ := ofText_ends found
    have whole : (ofText text).size = left.size + right.size := by rw [ofText,parted,size_append]
    omega
  ascending := by
    refine List.isChain_iff_getElem.mpr fun i inside => ?_
    obtain ⟨left,right,_,_,stop,behind⟩ := ofText_ends (List.getElem?_eq_getElem (Nat.lt_of_succ_lt inside))
    rw [List.getElem?_eq_getElem inside] at behind
    obtain ⟨lineBreak,_,_,start⟩ := behind
    have positive := size_break lineBreak
    omega

theorem spansFrom_head (start here : Nat) (text : Text) :
    ∃ stop others, spansFrom start here text = ⟨start,stop⟩ :: others := by
  fun_induction spansFrom start here text with
  | case5 start here c rest _ _ _ ih => exact ih
  | _ => exact ⟨_,_,rfl⟩

/-- Where a break of two characters stands, a line ends before it and another one begins behind it. -/
theorem spansFrom_crLf (start here : Nat) (left right : Text) : ∃ before line next after,
    spansFrom start here (left ++ '\r' :: '\n' :: right) = before ++ line :: next :: after ∧
      line.stop = here + left.size ∧ next.start = here + left.size + 2 := by
  induction left using breaks_induct generalizing start here with
  | nil =>
    obtain ⟨stop,others,listed⟩ := spansFrom_head (here + 2) (here + 2) right
    exact ⟨[],⟨start,here⟩,⟨here + 2,stop⟩,others,by simp [spansFrom,listed],rfl,rfl⟩
  | broken lineBreak rest whole ih =>
    have still : lineBreak = .cr → (rest ++ '\r' :: '\n' :: right).head? ≠ some '\n' := by
      intro back
      cases rest with
      | nil => simp
      | cons c rest => simpa using whole back
    obtain ⟨before,line,next,after,listed,stop,begins⟩ := ih (here + lineBreak.text.size) (here + lineBreak.text.size)
    refine ⟨⟨start,here⟩ :: before,line,next,after,?_,?_,?_⟩
    · rw [List.append_assoc,spansFrom_break lineBreak still,listed,List.cons_append]
    · rw [stop,size_append,Nat.add_assoc]
    · rw [begins,size_append,Nat.add_assoc here]
  | plain c rest inLine ih =>
    have passed := spansFrom_row (show InLine [c] by simpa [InLine] using inLine) start here (rest ++ '\r' :: '\n' :: right)
    obtain ⟨before,line,next,after,listed,stop,begins⟩ := ih start (here + Text.size [c])
    have whole : size (c :: rest) = size [c] + rest.size := size_append [c] rest
    refine ⟨before,line,next,after,passed.trans listed,?_,?_⟩
    · rw [stop,whole,Nat.add_assoc]
    · rw [begins,whole,Nat.add_assoc here]

theorem onLine_insideBreak (left right : Text) : ∃ i line,
    OnLine (ofText (left ++ '\r' :: '\n' :: right)).lines (left.size + 1) i line ∧ line.stop = left.size := by
  obtain ⟨before,line,next,after,listed,stop,start⟩ := spansFrom_crLf 0 0 left right
  rw [Nat.zero_add] at stop start
  have found : (ofText (left ++ '\r' :: '\n' :: right)).lines[before.length]? = some line := by
    rw [ofText,listed,List.getElem?_append_right (Nat.le_refl _),Nat.sub_self,List.getElem?_cons_zero]
  have behind : (ofText (left ++ '\r' :: '\n' :: right)).lines[before.length + 1]? = some next := by
    rw [ofText,listed,List.getElem?_append_right (Nat.le_add_right _ 1),Nat.add_sub_cancel_left]
    rfl
  refine ⟨_,line,⟨found,?_,fun other again => ?_⟩,stop⟩
  · have order := (ofText_ruled _).ordered line (List.mem_of_getElem? found)
    omega
  · obtain rfl := Option.some.inj (behind.symm.trans again)
    omega

/-- Outside of breaks an offset lies no further than the end of its line. -/
theorem le_stop_of_outside (on : OnLine (ofText text).lines offset i line) (inside : offset ≤ text.size)
    (outside : ¬InsideBreak text offset) : offset ≤ line.stop := by
  obtain ⟨left,right,parted,_,stop,behind⟩ := ofText_ends on.found
  apply Nat.le_of_not_lt
  intro further
  cases next : (ofText text).lines[i + 1]? with
  | none =>
    rw [next] at behind
    rw [parted,behind,List.append_nil] at inside
    omega
  | some other =>
    have ahead := on.ahead other next
    rw [next] at behind
    obtain ⟨lineBreak,more,rfl,start⟩ := behind
    cases lineBreak with
    | crLf =>
      have wide : LineBreak.crLf.text.size = 2 := rfl
      exact outside ⟨left,more,parted,by omega⟩
    | lf =>
      have wide : LineBreak.lf.text.size = 1 := rfl
      omega
    | cr =>
      have wide : LineBreak.cr.text.size = 1 := rfl
      omega

/-- Positions and offsets are converted into each other. Each offset comes back from its position, only
from inside a break the end of the line before it; offsets behind the end stand for the end; each position
that has an offset comes back; positions are in the order of their offsets, and lines lie apart in the
order of their numbers. -/
theorem positions_convert (text : Text) :
    let table := ofText text
    (∀ offset : UInt32, offset.toNat ≤ text.size → ¬InsideBreak text offset.toNat →
      table.offset? (table.position offset.toNat) = some offset.toNat) ∧
    (∀ (offset : UInt32) (left right : Text), text = left ++ '\r' :: '\n' :: right →
      offset.toNat = left.size + 1 →
      ∃ line, table.lines[(table.position offset.toNat).line]? = some line ∧ line.stop = left.size ∧
        table.offset? (table.position offset.toNat) = some line.stop) ∧
    (∀ offset, text.size ≤ offset → table.position offset = table.position text.size) ∧
    (∀ place offset,
      (∀ line, table.lines[place.line]? = some line → line.start + place.column < UInt32.size) →
      table.offset? place = some offset → table.position offset = place) ∧
    (∀ first second, first ≤ second → (table.position first).AtMost (table.position second)) ∧
    (table.lines.map (·.start)).Pairwise (· < ·) ∧ (∀ line ∈ table.lines, line.start ≤ line.stop) ∧
    table.lines.IsChain (fun line next => line.stop < next.start) := by
  have ruled := ofText_ruled text
  refine ⟨?_,?_,?_,fun _ _ => ruled.position_offset?,fun _ _ => ruled.position_mono,ruled.starts,ruled.ordered,
    ruled.ascending⟩
  · intro offset inside outside
    have least : min offset.toNat (ofText text).size = offset.toNat := Nat.min_eq_left inside
    obtain ⟨i,line,on⟩ := ruled.exists_onLine offset.toNat
    have short := le_stop_of_outside on inside outside
    rw [ruled.offset?_position (least.symm ▸ on) (least.symm ▸ offset.toNat_lt),least,Nat.min_eq_left short]
  · rintro offset left right rfl place
    have inside : offset.toNat ≤ (ofText (left ++ '\r' :: '\n' :: right)).size := by
      rw [ofText,size_append,place]
      simp only [size]
      have back : '\r'.utf8Size = 1 := rfl
      omega
    have least := Nat.min_eq_left inside
    obtain ⟨i,line,on,stop⟩ := onLine_insideBreak left right
    rw [← place] at on
    refine ⟨line,?_,stop,?_⟩
    · rw [ruled.position_eq (least.symm ▸ on)]
      exact on.found
    · rw [ruled.offset?_position (least.symm ▸ on) (least.symm ▸ offset.toNat_lt),least,
        Nat.min_eq_right (by omega)]
  · intro offset behind
    have least : min offset (ofText text).size = min text.size (ofText text).size := by
      simp only [ofText]
      omega
    simp only [position,least]

theorem positions_convert_mixed :
    let table := ofText mixed
    (¬InsideBreak mixed 5 ∧ table.offset? (table.position 5) = some 5) ∧
    (InsideBreak mixed 2 ∧ table.offset? (table.position 2) = some 1) ∧
    (mixed.size ≤ 42 ∧ table.position 42 = table.position mixed.size) ∧
    (table.offset? ⟨1,3⟩ = some 6 ∧ table.position 6 = ⟨1,3⟩) ∧
    (table.position 2).AtMost (table.position 5) := by
  obtain ⟨outside,inside,behind,back,order,_⟩ := positions_convert mixed
  have lines : (ofText mixed).lines[1]? = some ⟨3,6⟩ := by decide +kernel
  refine ⟨⟨by decide +kernel,outside 5 (by decide +kernel) (by decide +kernel)⟩,⟨by decide +kernel,?_⟩,
    ⟨by decide +kernel,behind 42 (by decide +kernel)⟩,⟨by decide +kernel,?_⟩,order 2 5 (by decide)⟩
  · obtain ⟨line,_,stop,place⟩ := inside 2 ['a'] "bé\rc\n".toList (by decide +kernel) (by decide +kernel)
    exact place.trans (congrArg some stop)
  · refine back ⟨1,3⟩ 6 (fun line listed => ?_) (by decide +kernel)
    obtain rfl := Option.some.inj (lines.symm.trans listed)
    decide

end Text
end Transplant
