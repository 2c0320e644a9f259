import Reprint.Position

/-!
# Spans of a text

A span is a half-open piece `[start, stop)` of a text.  `Bounds` is a
pair of positions as it may come from outside, and `Span` is a pair
whose start is not after its stop, so no operation on spans has to check
that again.

Two spans intersect when each starts strictly before the other stops.
Spans that touch do not intersect, and an empty span intersects only a
span that surrounds it on both sides.
-/

namespace Reprint

/-- Two positions that may be in either order. -/
structure Bounds where
  start : Position
  stop : Position
deriving DecidableEq, Repr

/-- Bounds are empty when both positions are the same. -/
def Bounds.isEmpty (b : Bounds) : Bool := b.start = b.stop

/-- A half-open piece of a text. -/
structure Span extends Bounds where
  start_le_stop : start ≤ stop
deriving DecidableEq

namespace Span

/-- The empty span at a position. -/
def point (p : Position) : Span := ⟨⟨p, p⟩, Position.le_refl p⟩

instance : Inhabited Span := ⟨point default⟩

/-- The span between two positions in either order. -/
def between (p q : Position) : Span :=
  ⟨⟨p.earlier q, p.later q⟩, Position.earlier_le_later p q⟩

/-- The smallest span that covers both. -/
def union (a b : Span) : Span :=
  ⟨⟨a.start.earlier b.start, a.stop.later b.stop⟩,
    Position.le_trans (Position.earlier_le_left _ _)
      (Position.le_trans a.start_le_stop (Position.left_le_later _ _))⟩

/-- Strict overlap. -/
def intersects (a b : Span) : Bool := a.start < b.stop && b.start < a.stop

/-- Whether the second span lies within the first. -/
def contains (a b : Span) : Bool := a.start ≤ b.start && b.stop ≤ a.stop

/-- Whether a position lies within the span or at one of its ends. -/
def touches (a : Span) (p : Position) : Bool := a.start ≤ p && p ≤ a.stop

/-- The union of the spans that are there. -/
def join : Option Span → Option Span → Option Span
  | some a, some b => some (a.union b)
  | some a, none => some a
  | none, b => b

@[simp] theorem join_none_right (a : Option Span) : join a none = a := by
  cases a <;> rfl

theorem intersects_comm (a b : Span) : a.intersects b = b.intersects a := by
  simp [intersects, Bool.and_comm]

theorem union_contains_left (a b : Span) : (a.union b).contains a = true := by
  simp [contains, union, Position.earlier_le_left, Position.left_le_later]

theorem union_contains_right (a b : Span) : (a.union b).contains b = true := by
  simp [contains, union, Position.earlier_le_right, Position.right_le_later]

/-- A span is shown with a bracket at its start, which belongs to it, and
a parenthesis at its stop, which does not. -/
instance : ToString Span where
  toString s := "[" ++ toString s.start ++ ", " ++ toString s.stop ++ ")"

end Span

end Reprint
