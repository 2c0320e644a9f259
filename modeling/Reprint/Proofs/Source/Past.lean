import Reprint.SourceMap.Basic
import Reprint.Proofs.Source.Place

/-!
# Positions reached by reading

`Position.pastText` moves a position past a text, one character after the
other, and only forward (`Position.lt_pastText`).  A text that holds no line
feed moves it along its line (`Position.pastText_of_row`).

Reading a source from its start up to an offset leads to the position with that
offset (`Source.place_eq_pastText`).
-/

namespace Reprint

namespace Position

@[simp] theorem pastText_nil (p : Position) : p.pastText [] = p := rfl

@[simp] theorem pastText_cons (p : Position) (c : Char) (t : Text) :
    p.pastText (c :: t) = (p.past c).pastText t := rfl

@[simp] theorem pastText_append (p : Position) (t u : Text) :
    p.pastText (t ++ u) = (p.pastText t).pastText u := List.foldl_append

theorem lt_of_lt_of_le {p q r : Position} (hpq : p < q) (hqr : q ≤ r) : p < r := by
  rw [lt_def] at *
  rw [le_def] at hqr
  omega

theorem lt_past (p : Position) (c : Char) : p < p.past c := by
  rw [lt_def, past]
  split
  · exact Or.inl (Nat.lt_succ_self _)
  · exact Or.inr ⟨rfl, Nat.lt_succ_self _⟩

theorem le_pastText (p : Position) (t : Text) : p ≤ p.pastText t := by
  induction t generalizing p with
  | nil => exact le_refl p
  | cons c rest ih => exact le_trans (le_of_lt (lt_past p c)) (ih (p.past c))

/-- A position past a character is another one. -/
theorem lt_pastText (p : Position) {t : Text} (h : t ≠ []) : p < p.pastText t := by
  cases t with
  | nil => exact absurd rfl h
  | cons c rest => exact lt_of_lt_of_le (lt_past p c) (le_pastText (p.past c) rest)

/-- Past a text without a line feed. -/
theorem pastText_of_row {row : Text} (h : '\n' ∉ row) (p : Position) :
    p.pastText row = ⟨p.line, p.column + row.length⟩ := by
  induction row generalizing p with
  | nil => rfl
  | cons c rest ih =>
    rw [List.mem_cons, not_or] at h
    rw [pastText_cons, past, if_neg (Ne.symm h.1), ih h.2]
    simp only [List.length_cons]
    congr 1
    omega

/-- A text of so many characters leads no further than so many lines or
columns. -/
theorem pastText_le (p : Position) (t : Text) :
    (p.pastText t).line ≤ p.line + t.length ∧ (p.pastText t).column ≤ p.column + t.length := by
  induction t generalizing p with
  | nil => simp
  | cons c rest ih =>
    have hrest := ih (p.past c)
    have hpast : (p.past c).line ≤ p.line + 1 ∧ (p.past c).column ≤ p.column + 1 := by
      rw [past]
      split <;> simp
    rw [pastText_cons, List.length_cons]
    omega

end Position

namespace Source

/-- The position so many characters into the lines is reached by reading
them. -/
theorem locate_eq_pastText {rows : List Text} (hrows : rows ≠ []) (hfeed : ∀ row ∈ rows, '\n' ∉ row)
    {line k : Nat} (hk : k ≤ (Text.unlines rows).length) :
    locate line rows k = Position.pastText ⟨line, 0⟩ ((Text.unlines rows).take k) := by
  induction rows generalizing line k with
  | nil => exact absurd rfl hrows
  | cons row rest ih =>
    have hrow : ∀ k, '\n' ∉ row.take k := fun k hin =>
      hfeed row List.mem_cons_self (List.mem_of_mem_take hin)
    by_cases hrest : rest = []
    · subst hrest
      rw [unlines_singleton] at hk ⊢
      rw [locate_of_le (Or.inr rfl), Position.pastText_of_row (hrow k), List.length_take,
        Nat.min_eq_left hk, Nat.zero_add]
    · rw [Text.unlines_cons_of_ne_nil hrest] at hk ⊢
      by_cases hle : k ≤ row.length
      · rw [locate_of_le (Or.inl hle), List.take_append_of_le_length hle,
          Position.pastText_of_row (hrow k), List.length_take, Nat.min_eq_left hle, Nat.zero_add]
      · obtain ⟨j, rfl⟩ : ∃ j, k = row.length + 1 + j := ⟨k - (row.length + 1), by omega⟩
        have hj : j ≤ (Text.unlines rest).length := by
          rw [List.length_append, List.length_cons] at hk
          omega
        have htake : (row ++ '\n' :: Text.unlines rest).take (row.length + 1 + j) =
            row ++ '\n' :: (Text.unlines rest).take j := by
          rw [List.take_append, List.take_of_length_le (by omega),
            show row.length + 1 + j - row.length = j + 1 by omega, List.take_succ_cons]
        rw [locate_of_lt (by omega) hrest, ← locate_succ, htake,
          show row.length + 1 + j - (row.length + 1) = j by omega, Position.pastText_append,
          Position.pastText_of_row (hfeed row List.mem_cons_self), Position.pastText_cons,
          Position.past, if_pos rfl]
        exact ih hrest (fun r hr => hfeed r (List.mem_cons_of_mem _ hr)) hj

/-- Reading a source up to an offset leads to the position with that offset. -/
theorem place_eq_pastText {s : Source} {k : Nat} (hk : k ≤ s.charCount) :
    s.place k = Position.origin.pastText (s.text.take k) :=
  locate_eq_pastText s.lines_ne_nil s.not_mem_of_mem hk

theorem place_ofText {t : Text} {k : Nat} (hk : k ≤ t.length) :
    (ofText t).place k = Position.origin.pastText (t.take k) := by
  have hplace := @place_eq_pastText (ofText t) k (by rw [charCount_ofText]; exact hk)
  rwa [text_ofText] at hplace

/-- No line and no column is further than the number of characters. -/
theorem place_fits {s : Source} {k : Nat} (hk : k ≤ s.charCount) :
    (s.place k).line - 1 ≤ s.charCount ∧ (s.place k).column ≤ s.charCount := by
  obtain ⟨hline, hcolumn⟩ := Position.pastText_le .origin (s.text.take k)
  have hlength : (s.text.take k).length = k := by
    rw [List.length_take]
    exact Nat.min_eq_left hk
  rw [← place_eq_pastText hk, hlength, Position.origin] at hline hcolumn
  dsimp only at hline hcolumn
  omega

/-- Reading on from one offset to another. -/
theorem place_pastText {s : Source} {j k : Nat} (hjk : j ≤ k) (hk : k ≤ s.charCount) :
    s.place k = (s.place j).pastText (s.text.piece j k) := by
  rw [place_eq_pastText hk, place_eq_pastText (by omega), ← Position.pastText_append]
  congr 1
  have hpiece := Text.piece_append (show 0 ≤ j by omega) hjk (t := s.text)
  unfold Text.piece at hpiece ⊢
  exact hpiece.symm

end Source

namespace Text

/-- The first part of a piece is a piece that begins at the same offset. -/
theorem piece_of_append {t first rest : Text} {a b : Nat} (hab : a ≤ b) (hb : b ≤ t.length)
    (h : t.piece a b = first ++ rest) :
    a + first.length ≤ b ∧ t.piece a (a + first.length) = first := by
  have hlength := length_piece (a := a) hb
  rw [h, List.length_append] at hlength
  have hle : a + first.length ≤ b := by omega
  refine ⟨hle, ?_⟩
  have hwhole := piece_append (t := t) (show a ≤ a + first.length by omega) hle
  rw [h] at hwhole
  refine (List.append_inj hwhole ?_).1
  rw [length_piece (by omega), Nat.add_sub_cancel_left]

end Text

end Reprint
