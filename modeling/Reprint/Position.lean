import Reprint.Text

/-!
# Positions in a text

A position names a place between characters: a line, counted from one,
and a column, the number of characters of that line before the place.
Positions are ordered by line and then by column; `Position.le_total`,
`Position.le_trans` and `Position.le_antisymm` make this a linear order.
-/

namespace Reprint

/-- A place between characters. -/
structure Position where
  /-- The line, counted from one. -/
  line : Nat
  /-- The number of characters of the line before the place. -/
  column : Nat
deriving DecidableEq, Repr

namespace Position

/-- The start of the first line. -/
def origin : Position := ⟨1, 0⟩

instance : Inhabited Position := ⟨origin⟩

/-- The place before the character with the given number, counted from
one.  A number of zero stands for the first character. -/
def before (line index : Nat) : Position := ⟨line, index - 1⟩

/-- The place after the character with the given number. -/
def behind (line index : Nat) : Position := ⟨line, index⟩

/-! ## Order -/

instance : LT Position where
  lt p q := p.line < q.line ∨ p.line = q.line ∧ p.column < q.column

instance : LE Position where
  le p q := p.line < q.line ∨ p.line = q.line ∧ p.column ≤ q.column

theorem lt_def {p q : Position} :
    p < q ↔ p.line < q.line ∨ p.line = q.line ∧ p.column < q.column := Iff.rfl

theorem le_def {p q : Position} :
    p ≤ q ↔ p.line < q.line ∨ p.line = q.line ∧ p.column ≤ q.column := Iff.rfl

instance (p q : Position) : Decidable (p < q) := decidable_of_iff' _ lt_def

instance (p q : Position) : Decidable (p ≤ q) := decidable_of_iff' _ le_def

@[simp] theorem le_refl (p : Position) : p ≤ p := Or.inr ⟨rfl, Nat.le_refl _⟩

theorem le_trans {p q r : Position} (hpq : p ≤ q) (hqr : q ≤ r) : p ≤ r := by
  rw [le_def] at *
  omega

theorem le_total (p q : Position) : p ≤ q ∨ q ≤ p := by
  rw [le_def, le_def]
  omega

theorem not_le {p q : Position} : ¬ p ≤ q ↔ q < p := by
  rw [le_def, lt_def]
  omega

theorem le_antisymm {p q : Position} (hpq : p ≤ q) (hqp : q ≤ p) : p = q := by
  rw [le_def] at *
  cases p
  cases q
  simp_all
  omega

theorem le_of_lt {p q : Position} (h : p < q) : p ≤ q := by
  rw [lt_def] at h
  rw [le_def]
  omega

/-- The earlier of two positions. -/
def earlier (p q : Position) : Position := if p ≤ q then p else q

/-- The later of two positions. -/
def later (p q : Position) : Position := if p ≤ q then q else p

theorem earlier_le_left (p q : Position) : earlier p q ≤ p := by
  unfold earlier
  split
  · exact le_refl p
  · next h => exact (le_total p q).resolve_left h

theorem earlier_le_right (p q : Position) : earlier p q ≤ q := by
  unfold earlier
  split
  · assumption
  · exact le_refl q

theorem left_le_later (p q : Position) : p ≤ later p q := by
  unfold later
  split
  · assumption
  · exact le_refl p

theorem right_le_later (p q : Position) : q ≤ later p q := by
  unfold later
  split
  · exact le_refl q
  · next h => exact (le_total p q).resolve_left h

theorem earlier_le_later (p q : Position) : earlier p q ≤ later p q :=
  le_trans (earlier_le_left p q) (left_le_later p q)

/-- A position is shown as its line and column with a colon between. -/
instance : ToString Position where
  toString p := toString p.line ++ ":" ++ toString p.column

end Position

end Reprint
