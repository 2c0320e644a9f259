import Mathlib.Logic.Basic
import Reprint.Source.Step
import Reprint.Proofs.Source.Past

/-!
# Steps and offsets

A step to a neighbouring position is one more character before the position, or one
less.

* `Source.offset_of_next` says what a step forward does to the offset.  It is the only
  lemma here that looks at lines: within a line the column grows, and from its end the
  line break counts as one character (`Source.lineStart_succ`).
* `Source.next_eq_ok_iff` and `Source.previous_eq_ok_iff` say when there is a step and
  where it leads, in offsets.
* `Source.Numbered` puts together what the offsets of a source say about its
  positions, and `Source.numbered_ofText` proves it of every text.
-/

namespace Reprint.Source

variable {s : Source} {p q : Position} {k : Nat}

/-! ## Positions and their numbers -/

theorem positionAt_place (hk : k ≤ s.charCount) : s.positionAt k = .ok (s.place k) := if_pos hk

theorem positionAt_eq_ok_iff : s.positionAt k = .ok p ↔ k ≤ s.charCount ∧ p = s.place k := by
  constructor
  · intro h
    unfold positionAt at h
    split at h
    · next hk => exact ⟨hk, (Except.ok.inj h).symm⟩
    · cases h
  · rintro ⟨hk, rfl⟩
    exact positionAt_place hk

theorem validate_eq_ok_iff : s.validate p = .ok () ↔ s.isValid p = true :=
  ⟨isValid_of_validate, validate_eq_ok⟩

/-! ## Lines -/

theorem lineLength?_eq_some_iff {line length : Nat} :
    s.lineLength? line = some length ↔
      ∃ n row, line = n + 1 ∧ s.lines[n]? = some row ∧ row.length = length := by
  unfold lineLength?
  cases line with
  | zero => simp [line?]
  | succ n => simp [line?]

theorem isValid_iff_lineLength? :
    s.isValid p = true ↔ ∃ length, s.lineLength? p.line = some length ∧ p.column ≤ length := by
  unfold isValid
  cases s.lineLength? p.line <;> simp

theorem exists_lineLength?_succ {line : Nat} (h : line < s.size) :
    ∃ length, s.lineLength? (line + 1) = some length :=
  ⟨_, lineLength?_eq_some_iff.2 ⟨line, s.lines[line], rfl, List.getElem?_eq_getElem h, rfl⟩⟩

/-- A line starts behind the one before it and its line break. -/
theorem lineStart_succ {line length : Nat} (h : s.lineLength? line = some length) :
    s.lineStart (line + 1) = s.lineStart line + (length + 1) := by
  obtain ⟨n, row, rfl, hrow, rfl⟩ := lineLength?_eq_some_iff.1 h
  have hfold : ∀ (rows : List Text) (start : Nat),
      rows.foldr (fun row n => row.length + 1 + n) start =
        rows.foldr (fun row n => row.length + 1 + n) 0 + start := by
    intro rows start
    induction rows with
    | nil => simp
    | cons first rest ih =>
      rw [List.foldr_cons, List.foldr_cons, ih]
      omega
  unfold lineStart
  rw [Nat.add_sub_cancel, Nat.add_sub_cancel, List.take_add_one, hrow, List.foldr_append, hfold]
  rfl

/-- The last position is at the end of the last line. -/
theorem lineLength?_stop (s : Source) : s.lineLength? s.stop.line = some s.stop.column := by
  have hpos := List.length_pos_iff.2 s.lines_ne_nil
  refine lineLength?_eq_some_iff.2 ⟨s.lines.length - 1, s.lines.getLast s.lines_ne_nil, ?_, ?_, rfl⟩
  · show s.lines.length = _
    omega
  · rw [List.getElem?_eq_getElem (by omega), List.getLast_eq_getElem]

/-- At the end of the last line there is nothing but the end of the source. -/
theorem eq_stop_of_end {length : Nat} (hline : s.lineLength? p.line = some length)
    (hend : p.column = length) (hlast : ¬ p.line < s.size) : p = s.stop := by
  have hstop : p.line = s.stop.line := by
    obtain ⟨n, row, hn, hrow, -⟩ := lineLength?_eq_some_iff.1 hline
    have hlt := (List.getElem?_eq_some_iff.1 hrow).1
    show p.line = s.lines.length
    unfold size at hlast
    omega
  have hwidth := lineLength?_stop s
  rw [← hstop, hline, Option.some_inj] at hwidth
  exact Position.eq_iff.2 ⟨hstop, hend.trans hwidth⟩

theorem offset_of_isValid (h : s.isValid p = true) :
    s.offset p = .ok (s.lineStart p.line + p.column) := by
  rw [offset, validate_eq_ok h]
  rfl

/-! ## One step -/

/-- A step forward is refused at the end, and everywhere else within the source it
leads to the position with one more character before it. -/
theorem offset_of_next (hoffset : s.offset p = .ok k) :
    p = s.stop ∧ s.next p = .error (.noStep p .atEnd) ∨
      ∃ q, s.next p = .ok q ∧ s.offset q = .ok (k + 1) := by
  have hvalid : s.isValid p = true := by
    obtain ⟨hk, rfl⟩ := offset_eq_ok_iff.1 hoffset
    exact isValid_place hk
  obtain rfl := Except.ok.inj (hoffset.symm.trans (offset_of_isValid hvalid))
  obtain ⟨length, hlength, hcolumn⟩ := isValid_iff_lineLength?.1 hvalid
  unfold next
  rw [hlength]
  dsimp only
  by_cases hlt : p.column < length
  · have hstep : s.isValid ⟨p.line, p.column + 1⟩ = true :=
      isValid_iff_lineLength?.2 ⟨length, hlength, hlt⟩
    refine .inr ⟨⟨p.line, p.column + 1⟩, if_pos hlt, ?_⟩
    rw [offset_of_isValid hstep, Nat.add_assoc]
  · have hend : p.column = length := by omega
    rw [if_neg hlt]
    by_cases hmore : p.line < s.size
    · obtain ⟨width, hnext⟩ := exists_lineLength?_succ hmore
      have hstep : s.isValid ⟨p.line + 1, 0⟩ = true :=
        isValid_iff_lineLength?.2 ⟨width, hnext, Nat.zero_le _⟩
      refine .inr ⟨⟨p.line + 1, 0⟩, if_pos (by simp [hend, hmore]), ?_⟩
      rw [offset_of_isValid hstep, lineStart_succ hlength, hend]
      rfl
    · exact .inl ⟨eq_stop_of_end hlength hend hmore, if_neg (by simp [hmore])⟩

/-- There is no step from a place outside the source. -/
theorem isValid_of_next (h : s.next p = .ok q) : s.isValid p = true := by
  unfold next at h
  cases hlength : s.lineLength? p.line with
  | none =>
    rw [hlength] at h
    cases h
  | some length =>
    refine isValid_iff_lineLength?.2 ⟨length, hlength, ?_⟩
    rw [hlength] at h
    dsimp only at h
    by_cases hlt : p.column < length
    · exact Nat.le_of_lt hlt
    · rw [if_neg hlt] at h
      by_cases hend : p.column = length
      · exact Nat.le_of_eq hend
      · rw [if_neg (by simp [hend])] at h
        cases h

/-- A step forward is one more character. -/
theorem next_eq_ok_iff : s.next p = .ok q ↔ ∃ k, s.offset p = .ok k ∧ s.offset q = .ok (k + 1) := by
  constructor
  · intro h
    obtain ⟨k, hk, rfl⟩ := exists_place_of_isValid (isValid_of_next h)
    rcases offset_of_next (offset_place hk) with ⟨_, hrefused⟩ | ⟨q', hnext, hoffset⟩
    · rw [h] at hrefused
      cases hrefused
    · cases h.symm.trans hnext
      exact ⟨k, offset_place hk, hoffset⟩
  · rintro ⟨k, hp, hq⟩
    have hle := (offset_eq_ok_iff.1 hq).1
    rcases offset_of_next hp with ⟨rfl, _⟩ | ⟨q', hnext, hoffset⟩
    · rw [← place_charCount, offset_place (Nat.le_refl _)] at hp
      cases hp
      omega
    · rwa [(offset_eq_ok_iff.1 hq).2, ← (offset_eq_ok_iff.1 hoffset).2]

/-- A step forward leads back to where a step backward came from. -/
theorem next_of_previous (h : s.previous p = .ok q) : s.next q = .ok p := by
  unfold previous at h
  cases hlength : s.lineLength? p.line with
  | none =>
    rw [hlength] at h
    cases h
  | some length =>
    obtain ⟨n, row, hn, hrow, rfl⟩ := lineLength?_eq_some_iff.1 hlength
    have hsize : n < s.size := (List.getElem?_eq_some_iff.1 hrow).1
    rw [hlength] at h
    dsimp only at h
    by_cases hpast : row.length < p.column
    · rw [if_pos hpast] at h
      cases h
    · rw [if_neg hpast] at h
      by_cases hcolumn : 0 < p.column
      · rw [if_pos hcolumn] at h
        cases h
        unfold next
        rw [hlength]
        dsimp only
        rw [if_pos (by omega)]
        exact congrArg Except.ok (Position.eq_iff.2 ⟨rfl, Nat.sub_add_cancel hcolumn⟩)
      · rw [if_neg hcolumn] at h
        cases hbefore : s.lineLength? (p.line - 1) with
        | none =>
          rw [hbefore] at h
          cases h
        | some before =>
          rw [hbefore] at h
          cases h
          unfold next
          dsimp only
          rw [hbefore]
          dsimp only
          rw [if_neg (Nat.lt_irrefl _), if_pos (by simp; omega)]
          exact congrArg Except.ok (Position.eq_iff.2 ⟨show p.line - 1 + 1 = _ by omega,
            show 0 = _ by omega⟩)

/-- A step backward leads back to where a step forward came from. -/
theorem previous_of_next (h : s.next q = .ok p) : s.previous p = .ok q := by
  unfold next at h
  cases hlength : s.lineLength? q.line with
  | none =>
    rw [hlength] at h
    cases h
  | some length =>
    rw [hlength] at h
    dsimp only at h
    unfold previous
    by_cases hlt : q.column < length
    · rw [if_pos hlt] at h
      cases h
      dsimp only
      rw [hlength]
      dsimp only
      rw [if_neg (by omega), if_pos (Nat.succ_pos _)]
      rfl
    · rw [if_neg hlt] at h
      by_cases hmore : (decide (q.column = length) && decide (q.line < s.size)) = true
      · rw [if_pos hmore] at h
        cases h
        rw [Bool.and_eq_true, decide_eq_true_eq, decide_eq_true_eq] at hmore
        obtain ⟨width, hnext⟩ := exists_lineLength?_succ hmore.2
        dsimp only
        rw [hnext]
        dsimp only
        rw [if_neg (Nat.not_lt_zero _), if_neg (Nat.lt_irrefl 0), Nat.add_sub_cancel, hlength]
        exact congrArg Except.ok (Position.eq_iff.2 ⟨rfl, hmore.1.symm⟩)
      · rw [if_neg hmore] at h
        cases h

/-- A step backward is one character less. -/
theorem previous_eq_ok_iff :
    s.previous p = .ok q ↔ ∃ k, s.offset p = .ok (k + 1) ∧ s.offset q = .ok k := by
  have hnext := @next_eq_ok_iff s q p
  constructor
  · intro h
    obtain ⟨k, hq, hp⟩ := hnext.1 (next_of_previous h)
    exact ⟨k, hp, hq⟩
  · rintro ⟨k, hp, hq⟩
    exact previous_of_next (hnext.2 ⟨k, hq, hp⟩)

/-- A step forward is refused outside the source and at its end. -/
theorem exists_next_iff : (∃ q, s.next p = .ok q) ↔ s.validate p = .ok () ∧ p ≠ s.stop := by
  rw [validate_eq_ok_iff, ← place_charCount]
  constructor
  · rintro ⟨q, h⟩
    obtain ⟨k, hp, hq⟩ := next_eq_ok_iff.1 h
    obtain ⟨hk, rfl⟩ := offset_eq_ok_iff.1 hp
    have hle := (offset_eq_ok_iff.1 hq).1
    refine ⟨isValid_place hk, fun hend => ?_⟩
    rw [place_inj hk (Nat.le_refl _)] at hend
    omega
  · rintro ⟨hvalid, hend⟩
    obtain ⟨k, hk, rfl⟩ := exists_place_of_isValid hvalid
    rw [ne_eq, place_inj hk (Nat.le_refl _)] at hend
    exact ⟨_, next_eq_ok_iff.2 ⟨k, offset_place hk, offset_place (by omega)⟩⟩

/-- A step backward is refused outside the source and at its start. -/
theorem exists_previous_iff :
    (∃ q, s.previous p = .ok q) ↔ s.validate p = .ok () ∧ p ≠ s.start := by
  rw [validate_eq_ok_iff, ← place_zero]
  constructor
  · rintro ⟨q, h⟩
    obtain ⟨k, hp, -⟩ := previous_eq_ok_iff.1 h
    obtain ⟨hk, rfl⟩ := offset_eq_ok_iff.1 hp
    refine ⟨isValid_place hk, fun hstart => ?_⟩
    rw [place_inj hk (Nat.zero_le _)] at hstart
    exact Nat.succ_ne_zero k hstart
  · rintro ⟨hvalid, hstart⟩
    obtain ⟨k, hk, rfl⟩ := exists_place_of_isValid hvalid
    rw [ne_eq, place_inj hk (Nat.zero_le _)] at hstart
    obtain ⟨j, rfl⟩ := Nat.exists_eq_succ_of_ne_zero hstart
    exact ⟨_, previous_eq_ok_iff.2 ⟨j, offset_place hk, offset_place (Nat.le_of_succ_le hk)⟩⟩

/-! ## All positions of a text -/

/-- The offsets of a source number its positions from zero on, in their order and
without a gap.  A step goes to the next number or to the one before, and the text
between two positions is that between their numbers. -/
structure Numbered (s : Source) (t : Text) : Prop where
  charCount_eq : s.charCount = t.length
  /-- The positions of the source are the ones with a number. -/
  valid (p : Position) : s.validate p = .ok () ↔ ∃ k, s.offset p = .ok k
  /-- The numbers are those up to the number of characters. -/
  bound (k : Nat) : k ≤ s.charCount ↔ ∃ p, s.positionAt k = .ok p
  inverse (p : Position) (k : Nat) : s.offset p = .ok k ↔ s.positionAt k = .ok p
  order {p q : Position} {j k : Nat} (first : s.offset p = .ok j) (second : s.offset q = .ok k) :
    p < q ↔ j < k
  forward (p q : Position) :
    s.next p = .ok q ↔ ∃ k, s.offset p = .ok k ∧ s.offset q = .ok (k + 1)
  forward_fails (p : Position) :
    (∃ e, s.next p = .error e) ↔ s.validate p ≠ .ok () ∨ p = s.stop
  backward (p q : Position) :
    s.previous p = .ok q ↔ ∃ k, s.offset p = .ok (k + 1) ∧ s.offset q = .ok k
  backward_fails (p : Position) :
    (∃ e, s.previous p = .error e) ↔ s.validate p ≠ .ok () ∨ p = s.start
  between {p q : Position} {j k : Nat} (first : s.offset p = .ok j) (second : s.offset q = .ok k)
    (ordered : p ≤ q) : s.extract ⟨p, q⟩ = .ok ((t.take k).drop j)

/-- Offsets number the positions of every text. -/
theorem numbered_ofText (t : Text) : (ofText t).Numbered t := by
  have hfails : ∀ {x : Except Error Position}, (∃ e, x = .error e) ↔ ¬ ∃ q, x = .ok q := by
    intro x
    cases x <;> simp
  refine ⟨charCount_ofText t, fun p => ⟨fun h => ?_, ?_⟩,
    fun k => ⟨fun hk => ⟨_, positionAt_place hk⟩, fun ⟨p, hp⟩ => (positionAt_eq_ok_iff.1 hp).1⟩,
    fun p k => offset_eq_ok_iff.trans positionAt_eq_ok_iff.symm, fun {p q j k} hp hq => ?_,
    fun p q => next_eq_ok_iff, fun p => ?_, fun p q => previous_eq_ok_iff, fun p => ?_,
    fun {p q j k} hp hq hle => ?_⟩
  · obtain ⟨k, hk, rfl⟩ := exists_place_of_isValid (isValid_of_validate h)
    exact ⟨k, offset_place hk⟩
  · rintro ⟨k, hk⟩
    obtain ⟨hle, rfl⟩ := offset_eq_ok_iff.1 hk
    exact validate_eq_ok (isValid_place hle)
  · obtain ⟨hj, rfl⟩ := offset_eq_ok_iff.1 hp
    obtain ⟨hk, rfl⟩ := offset_eq_ok_iff.1 hq
    exact place_lt_place hj hk
  · rw [hfails, exists_next_iff, not_and_or, not_ne_iff]
  · rw [hfails, exists_previous_iff, not_and_or, not_ne_iff]
  · obtain ⟨hj, rfl⟩ := offset_eq_ok_iff.1 hp
    obtain ⟨hk, rfl⟩ := offset_eq_ok_iff.1 hq
    rw [extract_place ((place_le_place hj hk).1 hle) hk, text_ofText]
    rfl

end Reprint.Source
