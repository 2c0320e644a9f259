import Reprint.Source.Bytes
import Reprint.Proofs.Span
import Reprint.Tree.Search

/-!
# Positions as offsets

`Source.place` is the position with a given number of characters before
it.  Every valid position is one (`exists_place_of_isValid`), the order of
positions is the order of these numbers (`place_le_place`), and the text
between two places is a piece of the text of the source (`slice_place`).
So what follows can count characters and forget lines and columns.
-/

namespace Reprint.Text

/-! ## Pieces -/

/-- The characters between two offsets. -/
def piece (t : Text) (a b : Nat) : Text := (t.take b).drop a

@[simp] theorem piece_self (t : Text) (a : Nat) : t.piece a a = [] := by
  refine List.drop_eq_nil_of_le ?_
  rw [List.length_take]
  omega

theorem piece_append {t : Text} {a b c : Nat} (hab : a ≤ b) (hbc : b ≤ c) :
    t.piece a b ++ t.piece b c = t.piece a c := by
  have htake : t.take b = (t.take c).take b := by
    rw [List.take_take, Nat.min_eq_left hbc]
  have hdrop : (t.take c).drop b = ((t.take c).drop a).drop (b - a) := by
    rw [List.drop_drop]
    congr 1
    omega
  unfold piece
  rw [htake, List.drop_take, hdrop, List.take_append_drop]

theorem piece_zero_length (t : Text) : t.piece 0 t.length = t := by
  unfold piece
  rw [List.take_length, List.drop_zero]

/-- One character. -/
theorem piece_succ {t : Text} {k : Nat} {c : Char} (h : t[k]? = some c) : t.piece k (k + 1) = [c] := by
  obtain ⟨hlt, hc⟩ := List.getElem?_eq_some_iff.1 h
  rw [piece, List.drop_take, Nat.add_sub_cancel_left, List.drop_eq_getElem_cons hlt, hc]
  rfl

theorem length_piece {t : Text} {a b : Nat} (hb : b ≤ t.length) : (t.piece a b).length = b - a := by
  unfold piece
  rw [List.length_drop, List.length_take, Nat.min_eq_left hb]

end Reprint.Text

namespace Reprint.Source

/-! ## Rows -/

/-- Lines may be counted from anywhere. -/
theorem locate_succ (line k : Nat) (rows : List Text) :
    locate (line + 1) rows k =
      ⟨(locate line rows k).line + 1, (locate line rows k).column⟩ := by
  induction rows generalizing line k with
  | nil => rfl
  | cons row rest ih =>
    unfold locate
    split
    · rfl
    · exact ih (line + 1) _

theorem le_line_locate (line k : Nat) (rows : List Text) : line ≤ (locate line rows k).line := by
  induction rows generalizing line k with
  | nil => exact Nat.le_refl _
  | cons row rest ih =>
    unfold locate
    split
    · exact Nat.le_refl _
    · exact Nat.le_of_succ_le (ih (line + 1) _)

/-- A place on the first line. -/
theorem locate_of_le {row : Text} {rest : List Text} {line k : Nat}
    (h : k ≤ row.length ∨ rest = []) : locate line (row :: rest) k = ⟨line, k⟩ := by
  unfold locate
  refine if_pos ?_
  simpa using h

/-- A place on a further line. -/
theorem locate_of_lt {row : Text} {rest : List Text} {line k : Nat} (h : row.length < k)
    (hrest : rest ≠ []) :
    locate line (row :: rest) k =
      ⟨(locate line rest (k - (row.length + 1))).line + 1,
        (locate line rest (k - (row.length + 1))).column⟩ := by
  rw [← locate_succ]
  conv => lhs; unfold locate
  refine if_neg ?_
  simp only [Bool.or_eq_true, decide_eq_true_eq, List.isEmpty_iff, not_or]
  exact ⟨by omega, hrest⟩

theorem unlines_singleton (row : Text) : Text.unlines [row] = row := by
  simp [Text.unlines, List.intercalate]

/-- Whether a place lies on the first row of several. -/
theorem locate_cases {row : Text} {rest : List Text} {k : Nat}
    (hk : k ≤ (Text.unlines (row :: rest)).length) :
    (k ≤ row.length ∧ locate 1 (row :: rest) k = ⟨1, k⟩) ∨
      (rest ≠ [] ∧ ∃ j, k = row.length + 1 + j ∧ j ≤ (Text.unlines rest).length ∧
        locate 1 (row :: rest) k = ⟨(locate 1 rest j).line + 1, (locate 1 rest j).column⟩) := by
  by_cases hrow : k ≤ row.length
  · exact Or.inl ⟨hrow, locate_of_le (Or.inl hrow)⟩
  · right
    have hrest : rest ≠ [] := by
      rintro rfl
      rw [unlines_singleton] at hk
      exact hrow hk
    rw [Text.unlines_cons_of_ne_nil hrest] at hk
    simp only [List.length_append, List.length_cons] at hk
    refine ⟨hrest, k - (row.length + 1), by omega, by omega, ?_⟩
    rw [locate_of_lt (by omega) hrest]

/-- The rows before a further line begin with the first row. -/
theorem rowsBefore_succ (row : Text) (rest : List Text) {p : Position} (hp : 1 ≤ p.line) :
    rowsBefore (row :: rest) ⟨p.line + 1, p.column⟩ = row :: rowsBefore rest p := by
  obtain ⟨line, column⟩ := p
  obtain ⟨line, rfl⟩ : ∃ n, line = n + 1 := ⟨line - 1, by simp only at hp; omega⟩
  simp [rowsBefore]

theorem rowsAfter_succ (row : Text) (rest : List Text) {p : Position} (hp : 1 ≤ p.line) :
    rowsAfter (row :: rest) ⟨p.line + 1, p.column⟩ = rowsAfter rest p := by
  obtain ⟨line, column⟩ := p
  obtain ⟨line, rfl⟩ : ∃ n, line = n + 1 := ⟨line - 1, by simp only at hp; omega⟩
  simp [rowsAfter]

theorem rowsBefore_first (row : Text) (rest : List Text) (k : Nat) :
    rowsBefore (row :: rest) ⟨1, k⟩ = [row.take k] := by
  simp [rowsBefore]

theorem rowsAfter_first (row : Text) (rest : List Text) (k : Nat) :
    rowsAfter (row :: rest) ⟨1, k⟩ = row.drop k :: rest := by
  simp [rowsAfter]

theorem rowsBefore_ne_nil {rows : List Text} (hrows : rows ≠ []) {k : Nat}
    (hk : k ≤ (Text.unlines rows).length) : rowsBefore rows (locate 1 rows k) ≠ [] := by
  cases rows with
  | nil => exact absurd rfl hrows
  | cons row rest =>
    rcases locate_cases hk with ⟨_, hp⟩ | ⟨_, j, _, _, hp⟩
    · rw [hp, rowsBefore_first]
      simp
    · rw [hp, rowsBefore_succ _ _ (le_line_locate _ _ _)]
      simp

/-- The text before a place. -/
theorem unlines_rowsBefore {rows : List Text} (hrows : rows ≠ []) {k : Nat}
    (hk : k ≤ (Text.unlines rows).length) :
    Text.unlines (rowsBefore rows (locate 1 rows k)) = (Text.unlines rows).take k := by
  induction rows generalizing k with
  | nil => exact absurd rfl hrows
  | cons row rest ih =>
    rcases locate_cases hk with ⟨hrow, hp⟩ | ⟨hrest, j, rfl, hj, hp⟩
    · rw [hp, rowsBefore_first, unlines_singleton]
      by_cases hrest : rest = []
      · rw [hrest, unlines_singleton]
      · rw [Text.unlines_cons_of_ne_nil hrest, List.take_append_of_le_length hrow]
    · rw [hp, rowsBefore_succ _ _ (le_line_locate _ _ _),
        Text.unlines_cons_of_ne_nil (rowsBefore_ne_nil hrest hj),
        Text.unlines_cons_of_ne_nil hrest, ih hrest hj, Nat.add_assoc, List.take_length_add_append,
        Nat.add_comm 1, List.take_succ_cons]

/-- The text behind a place. -/
theorem unlines_rowsAfter {rows : List Text} (hrows : rows ≠ []) {k : Nat}
    (hk : k ≤ (Text.unlines rows).length) :
    Text.unlines (rowsAfter rows (locate 1 rows k)) = (Text.unlines rows).drop k := by
  induction rows generalizing k with
  | nil => exact absurd rfl hrows
  | cons row rest ih =>
    rcases locate_cases hk with ⟨hrow, hp⟩ | ⟨hrest, j, rfl, hj, hp⟩
    · rw [hp, rowsAfter_first]
      by_cases hrest : rest = []
      · rw [hrest, unlines_singleton, unlines_singleton]
      · rw [Text.unlines_cons_of_ne_nil hrest, Text.unlines_cons_of_ne_nil hrest,
          List.drop_append_of_le_length hrow]
    · rw [hp, rowsAfter_succ _ _ (le_line_locate _ _ _), ih hrest hj,
        Text.unlines_cons_of_ne_nil hrest, Nat.add_assoc, List.drop_length_add_append,
        Nat.add_comm 1, List.drop_succ_cons]

/-- A place is the same in the rows before a later place. -/
theorem locate_rowsBefore {rows : List Text} (hrows : rows ≠ []) {j k : Nat}
    (hj : j ≤ k) (hk : k ≤ (Text.unlines rows).length) :
    locate 1 (rowsBefore rows (locate 1 rows k)) j = locate 1 rows j := by
  induction rows generalizing j k with
  | nil => exact absurd rfl hrows
  | cons row rest ih =>
    rcases locate_cases hk with ⟨hrow, hp⟩ | ⟨hrest, i, rfl, hi, hp⟩
    · rw [hp, rowsBefore_first, locate_of_le (Or.inr rfl), locate_of_le (Or.inl (by omega))]
    · rw [hp, rowsBefore_succ _ _ (le_line_locate _ _ _)]
      by_cases hrow : j ≤ row.length
      · rw [locate_of_le (Or.inl hrow), locate_of_le (Or.inl hrow)]
      · rw [locate_of_lt (by omega) (rowsBefore_ne_nil hrest hi), locate_of_lt (by omega) hrest,
          ih hrest (by omega) hi]

/-- A place lies on a row. -/
theorem getElem?_locate {rows : List Text} (hrows : rows ≠ []) {k : Nat}
    (hk : k ≤ (Text.unlines rows).length) :
    ∃ row, rows[(locate 1 rows k).line - 1]? = some row ∧ (locate 1 rows k).column ≤ row.length := by
  induction rows generalizing k with
  | nil => exact absurd rfl hrows
  | cons row rest ih =>
    rcases locate_cases hk with ⟨hrow, hp⟩ | ⟨hrest, j, rfl, hj, hp⟩
    · rw [hp]
      exact ⟨row, rfl, hrow⟩
    · obtain ⟨found, hfound, hcolumn⟩ := ih hrest hj
      have hline := le_line_locate 1 j rest
      obtain ⟨line, hline⟩ : ∃ n, (locate 1 rest j).line = n + 1 :=
        ⟨(locate 1 rest j).line - 1, by omega⟩
      rw [hp]
      simp only [hline, Nat.add_sub_cancel] at hfound ⊢
      exact ⟨found, hfound, hcolumn⟩

/-- Every place on a row has a number. -/
theorem exists_locate {rows : List Text} {line column : Nat} {row : Text}
    (hrow : rows[line]? = some row) (hcolumn : column ≤ row.length) :
    ∃ k ≤ (Text.unlines rows).length, locate 1 rows k = ⟨line + 1, column⟩ := by
  induction rows generalizing line with
  | nil => simp at hrow
  | cons first rest ih =>
    cases line with
    | zero =>
      obtain rfl : first = row := by simpa using hrow
      refine ⟨column, ?_, locate_of_le (Or.inl hcolumn)⟩
      by_cases hrest : rest = []
      · rwa [hrest, unlines_singleton]
      · rw [Text.unlines_cons_of_ne_nil hrest]
        simp only [List.length_append, List.length_cons]
        omega
    | succ line =>
      rw [List.getElem?_cons_succ] at hrow
      obtain ⟨k, hk, hp⟩ := ih hrow
      have hrest : rest ≠ [] := by
        rintro rfl
        simp at hrow
      refine ⟨first.length + 1 + k, ?_, ?_⟩
      · rw [Text.unlines_cons_of_ne_nil hrest]
        simp only [List.length_append, List.length_cons]
        omega
      · rw [locate_of_lt (by omega) hrest, Nat.add_sub_cancel_left, hp]

/-- The number of a place is the number of characters before it. -/
theorem foldr_locate {rows : List Text} (hrows : rows ≠ []) {k : Nat}
    (hk : k ≤ (Text.unlines rows).length) :
    (rows.take ((locate 1 rows k).line - 1)).foldr (fun row n => row.length + 1 + n) 0 +
      (locate 1 rows k).column = k := by
  induction rows generalizing k with
  | nil => exact absurd rfl hrows
  | cons row rest ih =>
    rcases locate_cases hk with ⟨hrow, hp⟩ | ⟨hrest, j, rfl, hj, hp⟩
    · rw [hp]
      simp
    · have hline := le_line_locate 1 j rest
      have hrec := ih hrest hj
      obtain ⟨line, hline⟩ : ∃ n, (locate 1 rest j).line = n + 1 :=
        ⟨(locate 1 rest j).line - 1, by omega⟩
      rw [hp]
      simp only [hline, Nat.add_sub_cancel] at hrec ⊢
      rw [List.take_succ_cons, List.foldr_cons]
      omega

theorem locate_lt_locate {rows : List Text} (hrows : rows ≠ []) {j k : Nat} (hj : j < k)
    (hk : k ≤ (Text.unlines rows).length) : locate 1 rows j < locate 1 rows k := by
  induction rows generalizing j k with
  | nil => exact absurd rfl hrows
  | cons row rest ih =>
    rcases locate_cases (show j ≤ (Text.unlines (row :: rest)).length by omega) with
      ⟨_, hp⟩ | ⟨_, i, rfl, _, hp⟩
    · rcases locate_cases hk with ⟨_, hq⟩ | ⟨_, i, _, _, hq⟩
      · rw [hp, hq]
        exact Or.inr ⟨rfl, hj⟩
      · rw [hp, hq]
        refine Or.inl ?_
        have := le_line_locate 1 i rest
        dsimp only
        omega
    · rcases locate_cases hk with ⟨_, _⟩ | ⟨hrest, i', rfl, hi', hq⟩
      · omega
      · have hrec := ih hrest (by omega : i < i') hi'
        rw [hp, hq]
        rw [Position.lt_def] at hrec ⊢
        dsimp only
        omega

/-! ## Places of a source -/

/-- The position with that many characters before it. -/
def place (s : Source) (k : Nat) : Position := locate 1 s.lines k

section

variable {s : Source} {j k : Nat}

theorem place_lt_place_of_lt (hj : j < k) (hk : k ≤ s.charCount) : s.place j < s.place k :=
  locate_lt_locate s.lines_ne_nil hj hk

/-- The order of places is that of their numbers. -/
theorem place_le_place (hj : j ≤ s.charCount) (hk : k ≤ s.charCount) :
    s.place j ≤ s.place k ↔ j ≤ k := by
  constructor
  · intro hle
    exact Nat.not_lt.1 fun hlt => Position.not_le.2 (place_lt_place_of_lt hlt hj) hle
  · intro hle
    rcases Nat.lt_or_eq_of_le hle with hlt | rfl
    · exact Position.le_of_lt (place_lt_place_of_lt hlt hk)
    · exact Position.le_refl _

theorem place_lt_place (hj : j ≤ s.charCount) (hk : k ≤ s.charCount) :
    s.place j < s.place k ↔ j < k := by
  rw [← Position.not_le, place_le_place hk hj, Nat.not_le]

theorem place_inj (hj : j ≤ s.charCount) (hk : k ≤ s.charCount) :
    s.place j = s.place k ↔ j = k := by
  constructor
  · intro h
    have hjk := (place_le_place hj hk).1 (h ▸ Position.le_refl _)
    have hkj := (place_le_place hk hj).1 (h ▸ Position.le_refl _)
    omega
  · rintro rfl
    rfl

theorem place_earlier (hj : j ≤ s.charCount) (hk : k ≤ s.charCount) :
    (s.place j).earlier (s.place k) = s.place (min j k) := by
  unfold Position.earlier
  simp only [place_le_place hj hk]
  split
  · next h => rw [Nat.min_eq_left h]
  · next h => rw [Nat.min_eq_right (by omega)]

theorem place_later (hj : j ≤ s.charCount) (hk : k ≤ s.charCount) :
    (s.place j).later (s.place k) = s.place (max j k) := by
  unfold Position.later
  simp only [place_le_place hj hk]
  split
  · next h => rw [Nat.max_eq_right h]
  · next h => rw [Nat.max_eq_left (by omega)]

theorem isValid_iff {p : Position} :
    s.isValid p = true ↔
      ∃ line row, p.line = line + 1 ∧ s.lines[line]? = some row ∧ p.column ≤ row.length := by
  unfold isValid lineLength?
  obtain ⟨line, column⟩ := p
  cases line with
  | zero => simp [line?]
  | succ line =>
    simp only [line?]
    cases hrow : s.lines[line]? with
    | none => simp [hrow]
    | some row => simp [hrow]

theorem isValid_place (hk : k ≤ s.charCount) : s.isValid (s.place k) = true := by
  obtain ⟨row, hrow, hcolumn⟩ := getElem?_locate s.lines_ne_nil hk
  have hline := le_line_locate 1 k s.lines
  rw [isValid_iff]
  exact ⟨_, row, by unfold place; omega, hrow, hcolumn⟩

/-- Every valid position is a place. -/
theorem exists_place_of_isValid {p : Position} (h : s.isValid p = true) :
    ∃ k ≤ s.charCount, p = s.place k := by
  obtain ⟨line, row, hline, hrow, hcolumn⟩ := isValid_iff.1 h
  obtain ⟨k, hk, hp⟩ := exists_locate hrow hcolumn
  refine ⟨k, hk, ?_⟩
  rw [place, hp, ← hline]

theorem validateBounds_place (hj : j ≤ s.charCount) (hk : k ≤ s.charCount) :
    s.validateBounds ⟨s.place j, s.place k⟩ = .ok () :=
  validateBounds_eq_ok_iff.2 ⟨isValid_place hj, isValid_place hk⟩

theorem offset_place (hk : k ≤ s.charCount) : s.offset (s.place k) = .ok k := by
  unfold offset
  rw [validate_eq_ok (isValid_place hk)]
  exact congrArg Except.ok (foldr_locate s.lines_ne_nil hk)

/-- The offset of a position says which place it is. -/
theorem offset_eq_ok_iff {p : Position} : s.offset p = .ok k ↔ k ≤ s.charCount ∧ p = s.place k := by
  constructor
  · intro h
    cases hvalid : s.isValid p with
    | true =>
      obtain ⟨j, hj, rfl⟩ := exists_place_of_isValid hvalid
      rw [offset_place hj] at h
      cases h
      exact ⟨hj, rfl⟩
    | false =>
      rw [offset, validate, hvalid] at h
      cases h
  · rintro ⟨hk, rfl⟩
    exact offset_place hk

theorem charCount_ofText (t : Text) : (ofText t).charCount = t.length := by
  rw [charCount, text_ofText]

theorem place_zero (s : Source) : s.place 0 = s.start := by
  obtain ⟨lines, hlines, _⟩ := s
  cases lines with
  | nil => exact absurd rfl hlines
  | cons row rest => exact locate_of_le (Or.inl (Nat.zero_le _))

theorem place_charCount (s : Source) : s.place s.charCount = s.stop := by
  have hvalid : s.isValid s.stop = true := by
    rw [isValid_iff]
    have hpos := List.length_pos_iff.2 s.lines_ne_nil
    refine ⟨s.lines.length - 1, s.lines.getLast s.lines_ne_nil, ?_, ?_, Nat.le_refl _⟩
    · show s.lines.length = _
      omega
    · rw [List.getElem?_eq_getElem (by omega), List.getLast_eq_getElem]
  obtain ⟨k, hk, hstop⟩ := exists_place_of_isValid hvalid
  obtain ⟨line, row, hline, hrow, hcolumn⟩ := isValid_iff.1 (isValid_place (Nat.le_refl s.charCount))
  have hle : s.place s.charCount ≤ s.stop := by
    rw [Position.le_def]
    show _ < s.lines.length ∨ _ = s.lines.length ∧ _ ≤ (s.lines.getLast s.lines_ne_nil).length
    have hlt := (List.getElem?_eq_some_iff.1 hrow).1
    by_cases hlast : line + 1 = s.lines.length
    · refine Or.inr ⟨by omega, ?_⟩
      have : row = s.lines.getLast s.lines_ne_nil := by
        rw [List.getLast_eq_getElem, ← Option.some_inj, ← hrow, ← List.getElem?_eq_getElem]
        congr 1
        omega
      rwa [← this]
    · exact Or.inl (by omega)
  rw [hstop] at hle ⊢
  have := (place_le_place (Nat.le_refl _) hk).1 hle
  congr 1
  omega

/-- The text between two places. -/
theorem slice_place (s : Source) {j k : Nat} (hj : j ≤ k) (hk : k ≤ s.charCount) :
    s.slice ⟨s.place j, s.place k⟩ = s.text.piece j k := by
  have hbefore := rowsBefore_ne_nil s.lines_ne_nil hk
  have htext := unlines_rowsBefore s.lines_ne_nil hk
  unfold slice place
  dsimp only
  rw [← locate_rowsBefore s.lines_ne_nil hj hk, unlines_rowsAfter hbefore, htext]
  · show (s.text.take k).drop j = _
    rfl
  · rw [htext, List.length_take]
    unfold charCount text at hk
    omega

theorem extract_place (hj : j ≤ k) (hk : k ≤ s.charCount) :
    s.extract ⟨s.place j, s.place k⟩ = .ok (s.text.piece j k) := by
  have hj' : j ≤ s.charCount := Nat.le_trans hj hk
  unfold extract
  rw [validateBounds_place hj' hk, ← slice_place s hj hk]
  exact if_pos ((place_le_place hj' hk).2 hj)

/-- A valid span lies between two places. -/
theorem exists_place_of_validateBounds {a : Span} (h : s.validateBounds a.toBounds = .ok ()) :
    ∃ j k, j ≤ k ∧ k ≤ s.charCount ∧ a.start = s.place j ∧ a.stop = s.place k := by
  rw [validateBounds_eq_ok_iff] at h
  obtain ⟨j, hj, hstart⟩ := exists_place_of_isValid h.1
  obtain ⟨k, hk, hstop⟩ := exists_place_of_isValid h.2
  refine ⟨j, k, ?_, hk, hstart, hstop⟩
  rw [← place_le_place hj hk, ← hstart, ← hstop]
  exact a.start_le_stop

/-- A text that can be extracted lies between two places. -/
theorem exists_place_of_extract {bounds : Bounds} {t : Text} (h : s.extract bounds = .ok t) :
    ∃ j k, j ≤ k ∧ k ≤ s.charCount ∧ bounds = ⟨s.place j, s.place k⟩ ∧ t = s.text.piece j k := by
  have hvalid : s.validateBounds bounds = .ok () := by
    unfold extract at h
    cases hvalidate : s.validateBounds bounds with
    | ok u => rfl
    | error e => simp [hvalidate, bind, Except.bind] at h
  have hle : bounds.start ≤ bounds.stop := Decidable.byContradiction fun hgt => by
    simp [extract, hvalid, hgt, bind, Except.bind] at h
  obtain ⟨j, k, hj, hk, hstart, hstop⟩ := exists_place_of_validateBounds (a := ⟨bounds, hle⟩) hvalid
  have hbounds : bounds = ⟨s.place j, s.place k⟩ := by rw [← hstart, ← hstop]
  rw [hbounds, extract_place hj hk] at h
  exact ⟨j, k, hj, hk, hbounds, (Except.ok.inj h).symm⟩

end

end Reprint.Source

namespace Reprint.Tree

/-! ## Windows

`Tree.window` is the span between two offsets.  What is known of spans
becomes a comparison of offsets. -/

variable {s : Source} {a b c d : Nat}

theorem start_window (hab : a ≤ b) (hb : b ≤ s.charCount) : (window s a b).start = s.place a :=
  Position.earlier_eq_left ((Source.place_le_place (by omega) hb).2 hab)

theorem stop_window (hab : a ≤ b) (hb : b ≤ s.charCount) : (window s a b).stop = s.place b :=
  Position.later_eq_right ((Source.place_le_place (by omega) hb).2 hab)

theorem toBounds_window (hab : a ≤ b) (hb : b ≤ s.charCount) :
    (window s a b).toBounds = ⟨s.place a, s.place b⟩ := by
  rw [← start_window hab hb, ← stop_window hab hb]

theorem validateBounds_window (hab : a ≤ b) (hb : b ≤ s.charCount) :
    s.validateBounds (window s a b).toBounds = .ok () := by
  rw [toBounds_window hab hb]
  exact Source.validateBounds_place (by omega) hb

theorem slice_window (hab : a ≤ b) (hb : b ≤ s.charCount) :
    s.slice (window s a b).toBounds = s.text.piece a b := by
  rw [toBounds_window hab hb, Source.slice_place s hab hb]

theorem extract_window (hab : a ≤ b) (hb : b ≤ s.charCount) :
    s.extract (window s a b).toBounds = .ok (s.text.piece a b) := by
  rw [toBounds_window hab hb, Source.extract_place hab hb]

theorem intersects_window (hab : a ≤ b) (hb : b ≤ s.charCount) (hcd : c ≤ d)
    (hd : d ≤ s.charCount) :
    (window s a b).intersects (window s c d) = true ↔ a < d ∧ c < b := by
  unfold Span.intersects
  rw [start_window hab hb, stop_window hab hb, start_window hcd hd, stop_window hcd hd,
    Bool.and_eq_true, decide_eq_true_eq, decide_eq_true_eq,
    Source.place_lt_place (by omega) hd, Source.place_lt_place (by omega) hb]

theorem contains_window (hab : a ≤ b) (hb : b ≤ s.charCount) (hcd : c ≤ d)
    (hd : d ≤ s.charCount) :
    (window s a b).contains (window s c d) = true ↔ a ≤ c ∧ d ≤ b := by
  unfold Span.contains
  rw [start_window hab hb, stop_window hab hb, start_window hcd hd, stop_window hcd hd,
    Bool.and_eq_true, decide_eq_true_eq, decide_eq_true_eq,
    Source.place_le_place (by omega) (by omega), Source.place_le_place hd hb]

theorem union_window (hab : a ≤ b) (hb : b ≤ s.charCount) (hcd : c ≤ d)
    (hd : d ≤ s.charCount) :
    (window s a b).union (window s c d) = window s (min a c) (max b d) := by
  refine Span.ext ?_ ?_
  · rw [start_window (by omega) (by omega), ← Source.place_earlier (by omega) (by omega),
      ← start_window hab hb, ← start_window hcd hd]
    rfl
  · rw [stop_window (by omega) (by omega), ← Source.place_later (by omega) (by omega),
      ← stop_window hab hb, ← stop_window hcd hd]
    rfl

theorem isEmpty_window (hab : a ≤ b) (hb : b ≤ s.charCount) :
    (window s a b).isEmpty = true ↔ a = b := by
  unfold Bounds.isEmpty
  rw [start_window hab hb, stop_window hab hb, decide_eq_true_eq,
    Source.place_inj (by omega) hb]

theorem point_place (ha : a ≤ s.charCount) : Span.point (s.place a) = window s a a := by
  refine Span.ext ?_ ?_
  · rw [start_window (Nat.le_refl a) ha]
    rfl
  · rw [stop_window (Nat.le_refl a) ha]
    rfl

end Reprint.Tree
