import Transplant.Proofs.Text.Cut

/-! Texts as the bytes they are stored in. Bytes can be cut everywhere, also inside a character;
at boundaries the cuts of a text and of its bytes agree. -/
namespace Transplant

/-- The bytes from `start` up to `stop`. -/
def part (bytes : List UInt8) (start stop : Nat) : List UInt8 := (bytes.take stop).drop start

variable {stored : List UInt8} {start middle stop : Nat}

theorem length_part (order : start ≤ stop) (inside : stop ≤ stored.length) :
    (part stored start stop).length = stop - start := by
  simp only [part,List.length_drop,List.length_take]
  omega

theorem part_trans (first : start ≤ middle) (second : middle ≤ stop) :
    part stored start stop = part stored start middle ++ part stored middle stop := by
  have front : stored.take middle = (stored.take stop).take middle := by
    rw [List.take_take,Nat.min_eq_left second]
  simp only [part,front]
  generalize stored.take stop = head
  calc head.drop start = (head.take middle ++ head.drop middle).drop start := by
        rw [List.take_append_drop]
    _ = (head.take middle).drop start ++ head.drop middle := by
        rw [List.drop_append]
        rcases Nat.le_total middle head.length with reach | short
        · rw [List.length_take,Nat.min_eq_left reach,Nat.sub_eq_zero_of_le first,List.drop_zero]
        · rw [List.drop_eq_nil_of_le short,List.drop_nil]

theorem part_append (front middle back : List UInt8) :
    part (front ++ (middle ++ back)) front.length (front.length + middle.length) = middle := by
  simp [part,← List.append_assoc,← List.length_append]

theorem drop_eq_part (bytes : List UInt8) (start : Nat) : bytes.drop start = part bytes start bytes.length := by
  simp [part]

namespace Text

/-- How a text is stored. -/
def bytes (text : Text) : List UInt8 := text.flatMap String.utf8EncodeChar

@[simp] theorem bytes_append (left right : Text) : bytes (left ++ right) = bytes left ++ bytes right :=
  List.flatMap_append

@[simp] theorem length_bytes (text : Text) : (bytes text).length = size text := by
  induction text with
  | nil => rfl
  | cons c rest ih =>
    change (String.utf8EncodeChar c ++ bytes rest).length = _
    rw [List.length_append,String.length_utf8EncodeChar,ih,size]

theorem bytes_between (text : Text) (start stop : Nat) (ordered : start ≤ stop)
    (first : isBoundary text start = true) (second : isBoundary text stop = true) :
    bytes (between text start stop) = part (bytes text) start stop := by
  obtain ⟨left,middle,right,rfl,rfl,rfl⟩ := split_boundaries text start stop ordered first second
  rw [between_append,bytes_append,bytes_append,← length_bytes left,← length_bytes middle,part_append]

end Text
end Transplant
