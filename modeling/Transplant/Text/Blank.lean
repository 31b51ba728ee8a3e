import Transplant.Text.Basic

/-! The White_Space characters, and lines made of nothing else. -/
namespace Transplant.Text

def isSpace (c : Char) : Bool :=
  let code := c.toNat
  (9 ≤ code && code ≤ 13) || code == 0x20 || code == 0x85 || code == 0xA0 || code == 0x1680 ||
    (0x2000 ≤ code && code ≤ 0x200A) || code == 0x2028 || code == 0x2029 || code == 0x202F ||
    code == 0x205F || code == 0x3000

def isBlank (line : Text) : Bool := line.all isSpace

theorem isSpace_of_isWhitespace (c : Char) (space : c.isWhitespace = true) : isSpace c = true := by
  simp only [Char.isWhitespace,Bool.or_eq_true,decide_eq_true_eq] at space
  rcases space with ((rfl | rfl) | rfl) | rfl <;> decide

end Transplant.Text
