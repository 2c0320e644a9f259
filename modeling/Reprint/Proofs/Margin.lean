import Reprint.Part.Frame

/-!
# Margins put around margins

Text is moved in from the inside out: what goes around a text is put in front of it
and behind it, and then the whole is moved in, line by line.  `Casing` is one such
step and `Casing.encase` a list of them, the innermost first.

* `Margin.apply_between` moves in a text that stands on lines of its own apart from
  what is in front of it and behind it.
* `Margin.lines_apply` is about the lines of a text that was moved in: there are as
  many as before.  So moving in twice moves every line in twice, and the levels of two
  margins add up (`Margin.apply_apply`).
* `Casing.encase_of_level_zero` puts casings around a text none of which has a level:
  the text stays as it is.
* `Casing.encase_between` puts any casings around a text on lines of its own: each
  of its lines is moved in by all their levels together.

A unit with a line feed in it would make new lines of its own, so it is left out
where levels are added.
-/

namespace Reprint

/-! ## Lines of a text put together -/

namespace Text

theorem lines_of_not_mem {t : Text} (h : '\n' ∉ t) : lines t = [t] := by
  induction t with
  | nil => rfl
  | cons c rest ih =>
    rw [List.mem_cons, not_or] at h
    rw [lines, if_neg (Ne.symm h.1), ih h.2]

/-- A line feed ends the lines in front of it. -/
theorem lines_append_feed (s t : Text) : lines (s ++ '\n' :: t) = lines s ++ lines t := by
  induction s with
  | nil => rfl
  | cons c rest ih =>
    rw [List.cons_append, lines, lines, ih]
    by_cases hc : c = '\n'
    · rw [if_pos hc, if_pos hc]
      rfl
    · rw [if_neg hc, if_neg hc]
      obtain ⟨first, others, hlines⟩ := List.exists_cons_of_ne_nil (lines_ne_nil rest)
      rw [hlines]
      rfl

theorem unlines_append {rows more : List Text} (hrows : rows ≠ []) (hmore : more ≠ []) :
    unlines (rows ++ more) = unlines rows ++ '\n' :: unlines more := by
  induction rows with
  | nil => exact absurd rfl hrows
  | cons row rest ih =>
    cases rest with
    | nil =>
      rw [List.singleton_append, unlines_cons_of_ne_nil hmore]
      simp [unlines, List.intercalate]
    | cons next rest =>
      have hnext : next :: rest ≠ [] := List.cons_ne_nil next rest
      rw [List.cons_append, unlines_cons_of_ne_nil (List.append_ne_nil_of_left_ne_nil hnext more),
        ih hnext, unlines_cons_of_ne_nil hnext, List.append_assoc, List.cons_append]

/-- Taking the lines apart gives them back. -/
theorem lines_unlines {rows : List Text} (hrows : rows ≠ []) (h : ∀ row ∈ rows, '\n' ∉ row) :
    lines (unlines rows) = rows := by
  induction rows with
  | nil => exact absurd rfl hrows
  | cons row rest ih =>
    have hrow : lines row = [row] := lines_of_not_mem (h row List.mem_cons_self)
    cases rest with
    | nil => simpa [unlines, List.intercalate] using hrow
    | cons next rest =>
      rw [unlines_cons_of_ne_nil (by simp), lines_append_feed, hrow,
        ih (by simp) fun r hr => h r (List.mem_cons_of_mem _ hr)]
      rfl

/-- What comes behind the text begins a line. -/
def EndsLine (t : Text) : Prop := t = [] ∨ ∃ s, t = s ++ ['\n']

/-- What comes in front of the text ends a line. -/
def BeginsLine (t : Text) : Prop := t = [] ∨ ∃ s, t = '\n' :: s

theorem EndsLine.of_append {s t : Text} (h : EndsLine (s ++ t)) : EndsLine t := by
  rcases h with h | ⟨r, h⟩
  · exact .inl (List.append_eq_nil_iff.1 h).2
  · rcases List.eq_nil_or_concat t with rfl | ⟨t', c, rfl⟩
    · exact .inl rfl
    · refine .inr ⟨t', ?_⟩
      rw [List.concat_eq_append, ← List.append_assoc] at h
      rw [List.concat_eq_append, (List.append_inj_right' h rfl)]

theorem BeginsLine.of_append {s t : Text} (h : BeginsLine (s ++ t)) : BeginsLine s := by
  rcases h with h | ⟨r, h⟩
  · exact .inl (List.append_eq_nil_iff.1 h).1
  · cases s with
    | nil => exact .inl rfl
    | cons c s' =>
      rw [List.cons_append, List.cons.injEq] at h
      exact .inr ⟨s', by rw [h.1]⟩

end Text

/-! ## Moving text in -/

namespace Margin

theorem apply_of_level {margin : Margin} (h : margin.level = 0) (t : Text) : margin.apply t = t :=
  if_pos h

theorem apply_nil (margin : Margin) : margin.apply [] = [] := by
  unfold Margin.apply
  split
  · rfl
  · simp [Text.lines, Margin.applyRow, Text.isBlank, Text.unlines, List.intercalate]

/-- The lines in front of a line feed and those behind it are moved in apart. -/
theorem apply_append_feed (margin : Margin) (s t : Text) :
    margin.apply (s ++ '\n' :: t) = margin.apply s ++ '\n' :: margin.apply t := by
  unfold Margin.apply
  split
  · rfl
  · rw [Text.lines_append_feed, List.map_append,
      Text.unlines_append (by simp [Text.lines_ne_nil]) (by simp [Text.lines_ne_nil])]

theorem apply_feed (margin : Margin) (t : Text) :
    margin.apply ('\n' :: t) = '\n' :: margin.apply t := by
  rw [← List.nil_append ('\n' :: t), apply_append_feed, apply_nil, List.nil_append]

/-- A text on lines of its own is moved in apart from what is around it. -/
theorem apply_between (margin : Margin) {front back : Text} (hfront : front.EndsLine)
    (hback : back.BeginsLine) (x : Text) :
    margin.apply (front ++ x ++ back) = margin.apply front ++ margin.apply x ++ margin.apply back := by
  have hleft : margin.apply (front ++ x) = margin.apply front ++ margin.apply x := by
    rcases hfront with rfl | ⟨s, rfl⟩
    · simp [apply_nil]
    · rw [List.append_assoc, List.singleton_append, apply_append_feed, apply_append_feed, apply_nil]
      simp
  rcases hback with rfl | ⟨s, rfl⟩
  · simp [apply_nil, hleft]
  · rw [apply_append_feed, hleft, apply_feed]

/-! ## Moving text in twice -/

section Levels

variable {unit : Text}

theorem not_mem_applyRow (hunit : '\n' ∉ unit) (level : Nat) {row : Text} (hrow : '\n' ∉ row) :
    '\n' ∉ (Margin.mk level unit).applyRow row := by
  unfold applyRow
  split
  · exact List.not_mem_nil
  · rw [text_eq_flatten, List.mem_append, not_or]
    refine ⟨fun hmem => ?_, hrow⟩
    obtain ⟨piece, hpiece, hfeed⟩ := List.mem_flatten.1 hmem
    rw [List.eq_of_mem_replicate hpiece] at hfeed
    exact hunit hfeed

/-- The margins of two levels stand one in front of the other. -/
theorem applyRow_applyRow (inner outer : Nat) (row : Text) :
    (Margin.mk outer unit).applyRow ((Margin.mk inner unit).applyRow row) =
      (Margin.mk (inner + outer) unit).applyRow row := by
  by_cases hblank : row.isBlank = true
  · rw [applyRow, applyRow, applyRow, if_pos hblank, if_pos hblank]
    rfl
  · have hmoved : ¬ ((Margin.mk inner unit).text ++ row).isBlank = true := by
      rw [Text.isBlank, List.all_append, Bool.and_eq_true]
      exact fun h => hblank h.2
    rw [applyRow, applyRow, applyRow, if_neg hblank, if_neg hblank, if_neg hmoved, text_eq_flatten,
      text_eq_flatten, text_eq_flatten, Nat.add_comm inner, ← List.replicate_append_replicate,
      List.flatten_append, List.append_assoc]

/-- Above level zero the lines are moved in one by one. -/
theorem lines_apply (hunit : '\n' ∉ unit) {level : Nat} (hlevel : level ≠ 0) (t : Text) :
    ((Margin.mk level unit).apply t).lines = t.lines.map (Margin.mk level unit).applyRow := by
  have hrows : ∀ row ∈ t.lines.map (Margin.mk level unit).applyRow, '\n' ∉ row := by
    intro row hrow
    obtain ⟨line, hline, rfl⟩ := List.mem_map.1 hrow
    exact not_mem_applyRow hunit level (Text.not_mem_of_mem_lines hline)
  rw [apply, if_neg hlevel, Text.lines_unlines (by simp [Text.lines_ne_nil]) hrows]

/-- Moving a text in makes no lines and joins none. -/
theorem length_lines_apply (hunit : '\n' ∉ unit) (level : Nat) (t : Text) :
    ((Margin.mk level unit).apply t).lines.length = t.lines.length := by
  by_cases hlevel : level = 0
  · rw [apply_of_level hlevel]
  · rw [lines_apply hunit hlevel, List.length_map]

/-- The levels of two margins add up. -/
theorem apply_apply (hunit : '\n' ∉ unit) (inner outer : Nat) (t : Text) :
    (Margin.mk outer unit).apply ((Margin.mk inner unit).apply t) =
      (Margin.mk (inner + outer) unit).apply t := by
  by_cases hinner : inner = 0
  · rw [hinner, Nat.zero_add]
    rfl
  · by_cases houter : outer = 0
    · rw [houter, Nat.add_zero]
      rfl
    · have hsum : inner + outer ≠ 0 := by omega
      rw [apply, if_neg houter, lines_apply hunit hinner, List.map_map, apply, if_neg hsum]
      congr 2
      funext row
      exact applyRow_applyRow inner outer row

/-- A margin some levels deeper moves a text in by these levels once more. -/
theorem apply_within_nest {margin : Margin} (hunit : '\n' ∉ margin.unit) (n : Nat) (t : Text) :
    (margin.within (.nest n)).apply t = (margin.flush.within (.nest n)).apply (margin.apply t) := by
  have hflush : margin.flush.within (.nest n) = ⟨n, margin.unit⟩ := by
    simp [flush, within]
  rw [hflush]
  exact (apply_apply hunit margin.level n t).symm

end Levels

end Margin

/-! ## Casings -/

/-- The levels that an indentation adds to level zero. -/
def Indent.levels : Indent → Nat
  | .nest n => n
  | .keep | .reset => 0

theorem Margin.within_ofUnit (unit : Text) (indent : Indent) :
    (Margin.ofUnit unit).within indent = ⟨indent.levels, unit⟩ := by
  cases indent <;> simp [Margin.within, Margin.ofUnit, Indent.levels]

/-- What goes around a text: texts in front of it and behind it, and a number of
levels by which all of them are moved in. -/
structure Casing where
  levels : Nat := 0
  before : Text := []
  behind : Text := []

namespace Casing

/-- The casing of a part. -/
def ofFrame (frame : Frame) : Casing := ⟨frame.indent.levels, frame.leadText, frame.trailText⟩

/-- A text with a casing around it. -/
def around (unit : Text) (c : Casing) (x : Text) : Text :=
  (Margin.mk c.levels unit).apply (c.before ++ x ++ c.behind)

/-- A text with casings around it, the innermost first. -/
def encase (unit : Text) : List Casing → Text → Text
  | [], x => x
  | c :: outer, x => encase unit outer (c.around unit x)

/-- The levels of casings around each other. -/
def depth : List Casing → Nat
  | [] => 0
  | c :: outer => c.levels + depth outer

/-- What casings put in front of a text, before anything is moved in. -/
def inFront : List Casing → Text
  | [] => []
  | c :: outer => inFront outer ++ c.before

/-- What casings put behind a text, before anything is moved in. -/
def inBack : List Casing → Text
  | [] => []
  | c :: outer => c.behind ++ inBack outer

/-- The same casings with nothing in them but what goes in front. -/
def fronts (casings : List Casing) : List Casing := casings.map fun c => { c with behind := [] }

/-- The same casings with nothing in them but what goes behind. -/
def backs (casings : List Casing) : List Casing := casings.map fun c => { c with before := [] }

variable {unit : Text}

@[simp] theorem encase_nil (x : Text) : encase unit [] x = x := rfl

@[simp] theorem encase_cons (c : Casing) (outer : List Casing) (x : Text) :
    encase unit (c :: outer) x = encase unit outer (c.around unit x) := rfl

theorem encase_append (inner outer : List Casing) (x : Text) :
    encase unit (inner ++ outer) x = encase unit outer (encase unit inner x) := by
  induction inner generalizing x with
  | nil => rfl
  | cons c rest ih => exact ih (c.around unit x)

@[simp] theorem depth_nil : depth [] = 0 := rfl

@[simp] theorem depth_cons (c : Casing) (outer : List Casing) :
    depth (c :: outer) = c.levels + depth outer := rfl

@[simp] theorem inFront_nil : inFront [] = [] := rfl

@[simp] theorem inFront_cons (c : Casing) (outer : List Casing) :
    inFront (c :: outer) = inFront outer ++ c.before := rfl

@[simp] theorem inBack_nil : inBack [] = [] := rfl

@[simp] theorem inBack_cons (c : Casing) (outer : List Casing) :
    inBack (c :: outer) = c.behind ++ inBack outer := rfl

@[simp] theorem depth_append (inner outer : List Casing) :
    depth (inner ++ outer) = depth inner + depth outer := by
  induction inner with
  | nil => rw [List.nil_append, depth_nil, Nat.zero_add]
  | cons c rest ih => rw [List.cons_append, depth_cons, ih, depth_cons, Nat.add_assoc]

@[simp] theorem inFront_append (inner outer : List Casing) :
    inFront (inner ++ outer) = inFront outer ++ inFront inner := by
  induction inner with
  | nil => rw [List.nil_append, inFront_nil, List.append_nil]
  | cons c rest ih => rw [List.cons_append, inFront_cons, ih, inFront_cons, List.append_assoc]

@[simp] theorem inBack_append (inner outer : List Casing) :
    inBack (inner ++ outer) = inBack inner ++ inBack outer := by
  induction inner with
  | nil => rfl
  | cons c rest ih => rw [List.cons_append, inBack_cons, ih, inBack_cons, List.append_assoc]

/-- One more casing. -/
theorem encase_concat (casings : List Casing) (c : Casing) (x : Text) :
    encase unit (casings ++ [c]) x = c.around unit (encase unit casings x) :=
  encase_append casings [c] x

/-- Without levels nothing is moved in. -/
theorem around_of_level_zero {c : Casing} (h : c.levels = 0) (x : Text) :
    c.around unit x = c.before ++ x ++ c.behind :=
  Margin.apply_of_level h _

theorem around_ofFrame (frame : Frame) (x : Text) :
    (ofFrame frame).around unit x = frame.wrap (.ofUnit unit) x := by
  rw [Frame.wrap, Margin.within_ofUnit]
  rfl

/-- Casings without levels leave a text as it is. -/
theorem encase_of_level_zero {casings : List Casing} (h : depth casings = 0) (x : Text) :
    encase unit casings x = inFront casings ++ x ++ inBack casings := by
  induction casings generalizing x with
  | nil => simp
  | cons c outer ih =>
    rw [depth_cons, Nat.add_eq_zero_iff] at h
    rw [encase_cons, around_of_level_zero h.1, ih h.2, inFront_cons, inBack_cons]
    simp only [List.append_assoc]

/-- Casings around a text on lines of its own, with some text in front of it and
behind it already.  That text takes what the casings put around it, so the induction
goes from the inside out. -/
theorem encase_between (hunit : '\n' ∉ unit) {casings : List Casing} {front back : Text}
    (hfront : (inFront casings ++ front).EndsLine) (hback : (back ++ inBack casings).BeginsLine)
    (x : Text) :
    encase unit casings (front ++ x ++ back) =
        encase unit (fronts casings) front ++ (Margin.mk (depth casings) unit).apply x ++
          encase unit (backs casings) back ∧
      (encase unit (fronts casings) front).EndsLine ∧
      (encase unit (backs casings) back).BeginsLine := by
  induction casings generalizing front x back with
  | nil =>
    rw [inBack_nil, List.append_nil] at hback
    exact ⟨rfl, hfront, hback⟩
  | cons c outer ih =>
    let margin := Margin.mk c.levels unit
    rw [inFront_cons, List.append_assoc] at hfront
    rw [inBack_cons, ← List.append_assoc] at hback
    have hends : (c.before ++ front).EndsLine := hfront.of_append
    have hbegins : (back ++ c.behind).BeginsLine := hback.of_append
    -- What the outer casings see still ends a line in front of the text.
    have hfront' : (inFront outer ++ margin.apply (c.before ++ front)).EndsLine := by
      rcases hends with hnil | ⟨s, hs⟩
      · rw [hnil, Margin.apply_nil]
        rwa [hnil] at hfront
      · rw [hs, Margin.apply_append_feed, Margin.apply_nil]
        exact .inr ⟨inFront outer ++ margin.apply s, by simp⟩
    have hback' : (margin.apply (back ++ c.behind) ++ inBack outer).BeginsLine := by
      rcases hbegins with hnil | ⟨s, hs⟩
      · rw [hnil, Margin.apply_nil]
        rwa [hnil] at hback
      · rw [hs, Margin.apply_feed]
        exact .inr ⟨margin.apply s ++ inBack outer, rfl⟩
    have haround : c.around unit (front ++ x ++ back) =
        margin.apply (c.before ++ front) ++ margin.apply x ++ margin.apply (back ++ c.behind) := by
      rw [← Margin.apply_between margin hends hbegins, around]
      simp only [List.append_assoc, margin]
    have hfronts : encase unit (fronts (c :: outer)) front =
        encase unit (fronts outer) (margin.apply (c.before ++ front)) := by
      rw [fronts, List.map_cons, encase_cons, around, List.append_nil]
      rfl
    have hbacks : encase unit (backs (c :: outer)) back =
        encase unit (backs outer) (margin.apply (back ++ c.behind)) := by
      rw [backs, List.map_cons, encase_cons, around, List.nil_append]
      rfl
    rw [encase_cons, haround, hfronts, hbacks, depth_cons, ← Margin.apply_apply hunit]
    exact ih hfront' hback' (margin.apply x)

end Casing

end Reprint
