/-!
# Text as a list of characters

A text is the list of its Unicode scalar values.  Lines are separated by
a line feed and by nothing else, so a carriage return belongs to its
line and a final line feed opens a last, empty line.

* `Text.lines` and `Text.unlines` take a text apart and put it together
  again.  `Text.unlines_lines` says that nothing is lost.
* `Text.isBlank` is the test for a text of white space only, over the
  characters with the Unicode property `White_Space`.
* `Text.indentation` is the run of spaces and tabs that a line begins
  with.
-/

namespace Reprint

/-- A text is a list of Unicode scalar values. -/
abbrev Text := List Char

namespace Text

/-! ## Lines -/

/-- The lines of a text.  There is always at least one. -/
def lines : Text → List Text
  | [] => [[]]
  | c :: rest =>
    if c = '\n' then [] :: lines rest
    else
      match lines rest with
      | [] => [[c]]
      | first :: others => (c :: first) :: others

/-- The text that has the given lines. -/
def unlines (rows : List Text) : Text :=
  List.intercalate ['\n'] rows

theorem lines_ne_nil (t : Text) : lines t ≠ [] := by
  cases t with
  | nil => simp [lines]
  | cons c rest =>
    rw [lines]
    split
    · simp
    · split <;> simp

theorem unlines_cons_of_ne_nil {row : Text} {rows : List Text} (h : rows ≠ []) :
    unlines (row :: rows) = row ++ '\n' :: unlines rows := by
  cases rows with
  | nil => exact absurd rfl h
  | cons next rest => simp [unlines, List.intercalate]

/-- Joining the lines gives the text back. -/
theorem unlines_lines (t : Text) : unlines (lines t) = t := by
  induction t with
  | nil => simp [lines, unlines, List.intercalate]
  | cons c rest ih =>
    rw [lines]
    split
    · next h => rw [unlines_cons_of_ne_nil (lines_ne_nil rest), ih, h]; rfl
    · match hl : lines rest with
      | [] => exact absurd hl (lines_ne_nil rest)
      | first :: others =>
        rw [hl] at ih
        cases others with
        | nil => simpa [unlines, List.intercalate] using ih
        | cons next more =>
          rw [unlines_cons_of_ne_nil (by simp)] at ih ⊢
          simp [ih]

/-- No line holds a line feed. -/
theorem not_mem_of_mem_lines {t row : Text} (h : row ∈ lines t) : '\n' ∉ row := by
  induction t generalizing row with
  | nil => simp [lines] at h; simp [h]
  | cons c rest ih =>
    rw [lines] at h
    split at h
    · rcases List.mem_cons.1 h with rfl | h
      · simp
      · exact ih h
    · next hc =>
      match hl : lines rest with
      | [] => exact absurd hl (lines_ne_nil rest)
      | first :: others =>
        rw [hl] at h
        rcases List.mem_cons.1 h with rfl | h
        · have : '\n' ∉ first := ih (by simp [hl])
          simp [this, Ne.symm hc]
        · exact ih (by simp [hl, h])

/-! ## White space -/

/-- The characters with the Unicode property `White_Space`. -/
def isBlankChar (c : Char) : Bool :=
  let n := c.toNat
  (0x09 ≤ n && n ≤ 0x0D) || n = 0x20 || n = 0x85 || n = 0xA0 || n = 0x1680 ||
    (0x2000 ≤ n && n ≤ 0x200A) || n = 0x2028 || n = 0x2029 || n = 0x202F ||
    n = 0x205F || n = 0x3000

/-- A text is blank when it holds white space only. -/
def isBlank (t : Text) : Bool :=
  t.all isBlankChar

/-- The spaces and tabs that a line begins with. -/
def indentation (row : Text) : Text :=
  row.takeWhile fun c => c = ' ' || c = '\t'

/-! ## Numerals -/

/-- The decimal numeral of a number. -/
def ofNat (n : Nat) : Text :=
  Nat.toDigits 10 n

end Text

end Reprint
