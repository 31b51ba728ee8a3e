/-! Half-open ranges of byte offsets. -/
namespace Transplant

structure Span where
  start : Nat
  stop : Nat
deriving DecidableEq, Repr, Inhabited

namespace Span

/-- The span between two bounds; `none` when they are given in the wrong order. -/
def ofBounds? (start stop : Nat) : Option Span :=
  if start ≤ stop then some ⟨start,stop⟩ else none

/-- The span from `start` to `stop`, empty at `start` when `stop` lies before it. -/
def upTo (start stop : Nat) : Span := ⟨start,max start stop⟩

def empty (offset : Nat) : Span := ⟨offset,offset⟩

def length (span : Span) : Nat := span.stop - span.start

def isEmpty (span : Span) : Bool := span.start == span.stop

def contains (outer inner : Span) : Bool :=
  outer.start ≤ inner.start && inner.stop ≤ outer.stop

/-- Spans in the order of their starts, at one start the shorter first. -/
def atMost (first second : Span) : Bool :=
  first.start < second.start || (first.start == second.start && first.stop ≤ second.stop)

def map (f : Nat → Nat) (span : Span) : Span := ⟨f span.start,f span.stop⟩

def render (span : Span) : String := s!"{span.start}..{span.stop}"

theorem upTo_start (start stop : Nat) : (upTo start stop).start = start := rfl

theorem upTo_eq {start stop : Nat} (ordered : start ≤ stop) : upTo start stop = ⟨start,stop⟩ :=
  congrArg (Span.mk start) (Nat.max_eq_right ordered)

theorem upTo_ordered (start stop : Nat) : (upTo start stop).start ≤ (upTo start stop).stop := by
  simp only [upTo]
  omega

theorem ofBounds?_eq_some_iff (start stop : Nat) (span : Span) :
    ofBounds? start stop = some span ↔ start ≤ stop ∧ span = ⟨start,stop⟩ := by
  simp only [ofBounds?]
  split
  · rename_i ordered
    exact ⟨fun same => ⟨ordered,(Option.some.inj same).symm⟩,fun given => by rw [given.2]⟩
  · rename_i reversed
    exact ⟨fun same => (nomatch same),fun given => absurd given.1 reversed⟩

theorem contains_iff (outer inner : Span) :
    outer.contains inner = true ↔ outer.start ≤ inner.start ∧ inner.stop ≤ outer.stop := by
  simp [contains]

end Span
end Transplant
