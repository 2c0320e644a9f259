import Reprint.Source.Basic

/-!
# Unions of spans

`Tree.grow` replaces the span of a node by its union with another one.
The lemmas here say when that changes nothing: a second union with the
same span (`Span.union_union_right`), and a union with a span that lies
within (`Span.union_eq_left`).  A union of valid spans is valid
(`Source.validateBounds_union`).
-/

namespace Reprint

namespace Position

theorem eq_iff {p q : Position} : p = q ↔ p.line = q.line ∧ p.column = q.column := by
  cases p
  cases q
  simp

theorem earlier_eq_left {p q : Position} (h : p ≤ q) : p.earlier q = p := if_pos h

theorem later_eq_right {p q : Position} (h : p ≤ q) : p.later q = q := if_pos h

theorem earlier_eq_right {p q : Position} (h : q ≤ p) : p.earlier q = q := by
  unfold earlier
  split
  · next hpq => exact le_antisymm hpq h
  · rfl

theorem later_eq_left {p q : Position} (h : q ≤ p) : p.later q = p := by
  unfold later
  split
  · next hpq => exact le_antisymm h hpq
  · rfl

theorem earlier_eq_or (p q : Position) : p.earlier q = p ∨ p.earlier q = q := by
  unfold earlier
  split
  · exact Or.inl rfl
  · exact Or.inr rfl

theorem later_eq_or (p q : Position) : p.later q = p ∨ p.later q = q := by
  unfold later
  split
  · exact Or.inr rfl
  · exact Or.inl rfl

end Position

namespace Span

theorem ext {a b : Span} (hstart : a.start = b.start) (hstop : a.stop = b.stop) : a = b := by
  obtain ⟨⟨_, _⟩, _⟩ := a
  obtain ⟨⟨_, _⟩, _⟩ := b
  simp_all

theorem contains_iff {a b : Span} : a.contains b = true ↔ a.start ≤ b.start ∧ b.stop ≤ a.stop := by
  simp [contains]

@[simp] theorem contains_self (a : Span) : a.contains a = true := by
  simp [contains]

theorem contains_trans {a b c : Span} (hab : a.contains b = true) (hbc : b.contains c = true) :
    a.contains c = true := by
  rw [contains_iff] at *
  exact ⟨Position.le_trans hab.1 hbc.1, Position.le_trans hbc.2 hab.2⟩

/-- A union is the smallest span that covers both. -/
theorem contains_union {a b c : Span} (ha : c.contains a = true) (hb : c.contains b = true) :
    c.contains (a.union b) = true := by
  rw [contains_iff] at *
  constructor
  · rcases Position.earlier_eq_or a.start b.start with h | h
    · exact Position.le_trans ha.1 (h ▸ Position.le_refl _)
    · exact Position.le_trans hb.1 (h ▸ Position.le_refl _)
  · rcases Position.later_eq_or a.stop b.stop with h | h
    · exact Position.le_trans (h ▸ Position.le_refl _) ha.2
    · exact Position.le_trans (h ▸ Position.le_refl _) hb.2

/-- A union with a span that lies within is no change. -/
theorem union_eq_left {a b : Span} (h : a.contains b = true) : a.union b = a := by
  simp only [contains, Bool.and_eq_true, decide_eq_true_eq] at h
  exact ext (Position.earlier_eq_left h.1) (Position.later_eq_left h.2)

/-- The second of two equal unions is no change. -/
theorem union_union_right (a b : Span) : (a.union b).union b = a.union b :=
  union_eq_left (union_contains_right a b)

theorem start_between {p q : Position} (h : p ≤ q) : (between p q).start = p :=
  Position.earlier_eq_left h

theorem stop_between {p q : Position} (h : p ≤ q) : (between p q).stop = q :=
  Position.later_eq_right h

theorem between_start_stop (a : Span) : between a.start a.stop = a :=
  ext (start_between a.start_le_stop) (stop_between a.start_le_stop)

/-- The union with a span that lies in front. -/
theorem union_ahead {a b : Span} (h : b.stop ≤ a.start) : a.union b = between b.start a.stop := by
  have hstart := Position.le_trans b.start_le_stop h
  have hstop := Position.le_trans h a.start_le_stop
  refine Span.ext ?_ ?_
  · rw [start_between (Position.le_trans hstart a.start_le_stop)]
    exact Position.earlier_eq_right hstart
  · rw [stop_between (Position.le_trans hstart a.start_le_stop)]
    exact Position.later_eq_left hstop

/-- The union with a span that lies behind. -/
theorem union_behind {a b : Span} (h : a.stop ≤ b.start) : a.union b = between a.start b.stop := by
  have hstart := Position.le_trans a.start_le_stop h
  have hstop := Position.le_trans h b.start_le_stop
  refine Span.ext ?_ ?_
  · rw [start_between (Position.le_trans hstart b.start_le_stop)]
    exact Position.earlier_eq_left hstart
  · rw [stop_between (Position.le_trans hstart b.start_le_stop)]
    exact Position.later_eq_right hstop

end Span

namespace Source

theorem isValid_of_validate {s : Source} {p : Position} (h : s.validate p = .ok ()) :
    s.isValid p = true := by
  unfold validate at h
  split at h
  · assumption
  · cases h

theorem validate_eq_ok {s : Source} {p : Position} (h : s.isValid p = true) :
    s.validate p = .ok () := if_pos h

/-- Bounds are valid when both of their ends are. -/
theorem validateBounds_eq_ok_iff {s : Source} {b : Bounds} :
    s.validateBounds b = .ok () ↔ s.isValid b.start = true ∧ s.isValid b.stop = true := by
  constructor
  · intro h
    unfold validateBounds at h
    cases hstart : s.validate b.start with
    | error e =>
      rw [hstart] at h
      cases h
    | ok =>
      rw [hstart] at h
      exact ⟨isValid_of_validate hstart, isValid_of_validate h⟩
  · rintro ⟨hstart, hstop⟩
    unfold validateBounds
    rw [validate_eq_ok hstart, validate_eq_ok hstop]
    rfl

/-- The union of two valid spans is valid. -/
theorem validateBounds_union {s : Source} {a b : Span}
    (ha : s.validateBounds a.toBounds = .ok ()) (hb : s.validateBounds b.toBounds = .ok ()) :
    s.validateBounds (a.union b).toBounds = .ok () := by
  rw [validateBounds_eq_ok_iff] at *
  constructor
  · show s.isValid (a.start.earlier b.start) = true
    rcases Position.earlier_eq_or a.start b.start with h | h <;> rw [h]
    · exact ha.1
    · exact hb.1
  · show s.isValid (a.stop.later b.stop) = true
    rcases Position.later_eq_or a.stop b.stop with h | h <;> rw [h]
    · exact ha.2
    · exact hb.2

/-- The text of a valid span can be cut out. -/
theorem extract_span {s : Source} {a : Span} (h : s.validateBounds a.toBounds = .ok ()) :
    s.extract a.toBounds = .ok (s.slice a.toBounds) := by
  unfold extract
  rw [h]
  exact if_pos a.start_le_stop

end Source

end Reprint
