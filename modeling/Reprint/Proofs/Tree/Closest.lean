import Reprint.Proofs.Tree.Searches

/-!
# What a search returns

A search on behalf of a node always comes to an end without an error, from any
position of the source.  What it returns is the closest window with the text of
the literal, provided that all windows up to it are free, and nothing otherwise:
`search_closest`, for both directions.

* `Tree.Free` is what a window must be: neither a mark nor the span of a node runs
  into it, but for the nodes that enclose the search.
* `LiesBehind` and `LiesBefore` are the windows of the two directions, by their
  distance from the boundary.
* `Tree.Closest` is what makes a window the answer.

`firstWindow_eq_some_iff` is the same for windows of any kind.
-/

namespace Reprint.Tree

variable {M O : Type}

/-! ## The answer -/

/-- Neither a mark nor the span of a node intersects a piece of the source.  The
spans of the searcher and of its ancestors enclose the search and do not count. -/
structure Free (t : Tree M O) (searcher : Nat) (window : Span) : Prop where
  marks : ∀ mark ∈ t.marks, mark.span.intersects window = false
  spans : ∀ {id : Nat} {n : Node M O} {own : Span}, t.nodes[id]? = some n →
    id ∉ t.lineage searcher → n.span? = some own → own.intersects window = false

/-- A window of so many characters that begins at a distance behind the boundary. -/
def LiesBehind (s : Source) (boundary : Position) (length distance : Nat) (window : Span) : Prop :=
  ∃ k, s.offset boundary = .ok k ∧ s.offset window.start = .ok (k + distance) ∧
    s.offset window.stop = .ok (k + distance + length)

/-- A window of so many characters that ends at a distance in front of the boundary. -/
def LiesBefore (s : Source) (boundary : Position) (length distance : Nat) (window : Span) : Prop :=
  ∃ k, s.offset window.start = .ok k ∧ s.offset window.stop = .ok (k + length) ∧
    s.offset boundary = .ok (k + length + distance)

/-- The window at a distance has the text of the literal, no window that is closer has
it, and all windows up to it are free. -/
structure Closest (t : Tree M O) (searcher : Nat) (literal : Text) (lies : Nat → Span → Prop)
    (distance : Nat) (window : Span) : Prop where
  stands : lies distance window
  text : t.source.extract window.toBounds = .ok literal
  first : ∀ {closer : Nat} {other : Span}, closer < distance → lies closer other →
    t.source.extract other.toBounds ≠ .ok literal
  free : ∀ {closer : Nat} {other : Span}, closer ≤ distance → lies closer other →
    t.Free searcher other

variable {t : Tree M O} {searcher : Nat} {literal : Text}

theorem free_iff {window : Span} :
    t.Free searcher window ↔ t.blocks (t.lineage searcher) window = false := by
  rw [blocks_eq_false]
  constructor
  · intro h
    refine ⟨fun id own hid hown => ?_, h.marks⟩
    obtain ⟨n, hn, hspan⟩ := spanOf_eq_some.1 hown
    exact h.spans hn hid hspan
  · intro h
    exact ⟨h.2, fun hn hid hown => h.1 _ _ hid (spanOf_eq_some.2 ⟨_, hn, hown⟩)⟩

/-! ## Windows of any kind -/

/-- What is found is the first window with the text of the literal, if all windows up
to it are free. -/
theorem firstWindow_eq_some_iff {enclosing : List Nat} {windowAt : Nat → Span} {count d : Nat}
    {found : Span} :
    t.firstWindow enclosing literal windowAt count d = some found ↔
      ∃ k < count, found = windowAt (d + k) ∧
        t.source.slice (windowAt (d + k)).toBounds = literal ∧
        (∀ j < k, t.source.slice (windowAt (d + j)).toBounds ≠ literal) ∧
        ∀ j ≤ k, t.blocks enclosing (windowAt (d + j)) = false := by
  constructor
  · exact firstWindow_cases
  · rintro ⟨k, hk, rfl, hmatch, hother, hfree⟩
    exact firstWindow_of_match hk hfree hother hmatch

/-- A search for a node tries the windows that there are, and does not fail. -/
theorem search_eq_ok {n : Node M O} (hn : t.nodes[searcher]? = some n) {windowAt : Nat → Span}
    {count : Nat} : t.search searcher literal windowAt count =
      .ok (t.firstWindow (t.lineage searcher) literal windowAt count 0) := by
  unfold search
  split
  · next hzero =>
    rw [hzero]
    rfl
  · rw [node_eq_ok.2 hn]
    rfl

/-- A search that tries the windows of its direction finds the closest one. -/
theorem firstWindow_closest {windowAt : Nat → Span} {count : Nat} {lies : Nat → Span → Prop}
    (hlies : ∀ {d : Nat} {window : Span}, lies d window ↔ d < count ∧ window = windowAt d)
    (hextract : ∀ {d : Nat}, d < count →
      t.source.extract (windowAt d).toBounds = .ok (t.source.slice (windowAt d).toBounds))
    {window : Span} :
    t.firstWindow (t.lineage searcher) literal windowAt count 0 = some window ↔
      ∃ d, t.Closest searcher literal lies d window := by
  simp only [firstWindow_eq_some_iff, Nat.zero_add]
  constructor
  · rintro ⟨d, hd, rfl, hmatch, hother, hfree⟩
    refine ⟨d, hlies.2 ⟨hd, rfl⟩, by rw [hextract hd, hmatch], fun hcloser hother' htext => ?_,
      fun hcloser hother' => ?_⟩
    · obtain ⟨hlt, rfl⟩ := hlies.1 hother'
      rw [hextract hlt] at htext
      exact hother _ hcloser (Except.ok.inj htext)
    · obtain ⟨_, rfl⟩ := hlies.1 hother'
      exact free_iff.2 (hfree _ hcloser)
  · rintro ⟨d, hclosest⟩
    obtain ⟨hd, rfl⟩ := hlies.1 hclosest.stands
    have htext := hclosest.text
    rw [hextract hd] at htext
    refine ⟨d, hd, rfl, Except.ok.inj htext, fun j hj hmatch => ?_, fun j hj => ?_⟩
    · have hjd : j < count := Nat.lt_trans hj hd
      exact hclosest.first hj (hlies.2 ⟨hjd, rfl⟩) (by rw [hextract hjd, hmatch])
    · exact free_iff.1 (hclosest.free hj (hlies.2 ⟨Nat.lt_of_le_of_lt hj hd, rfl⟩))

/-! ## The two directions -/

/-- A window whose ends have known offsets. -/
theorem eq_window_iff {s : Source} {a b : Nat} (hab : a ≤ b) {w : Span} :
    s.offset w.start = .ok a ∧ s.offset w.stop = .ok b ↔ b ≤ s.charCount ∧ w = window s a b := by
  rw [Source.offset_eq_ok_iff, Source.offset_eq_ok_iff]
  constructor
  · rintro ⟨⟨_, hstart⟩, hb, hstop⟩
    refine ⟨hb, Span.ext ?_ ?_⟩
    · rw [hstart, start_window hab hb]
    · rw [hstop, stop_window hab hb]
  · rintro ⟨hb, rfl⟩
    exact ⟨⟨by omega, start_window hab hb⟩, hb, stop_window hab hb⟩

/-- The windows that a search forward tries. -/
theorem liesBehind_iff {s : Source} {a length d : Nat} (ha : a ≤ s.charCount) {w : Span} :
    LiesBehind s (s.place a) length d w ↔
      d < s.charCount + 1 - (a + length) ∧ w = window s (a + d) (a + d + length) := by
  unfold LiesBehind
  rw [Source.offset_place ha]
  constructor
  · rintro ⟨k, hk, hw⟩
    cases hk
    obtain ⟨hbound, rfl⟩ := (eq_window_iff (by omega)).1 hw
    exact ⟨by omega, rfl⟩
  · rintro ⟨hd, rfl⟩
    exact ⟨a, rfl, (eq_window_iff (by omega)).2 ⟨by omega, rfl⟩⟩

/-- The windows that a search backward tries. -/
theorem liesBefore_iff {s : Source} {b length d : Nat} (hb : b ≤ s.charCount) {w : Span} :
    LiesBefore s (s.place b) length d w ↔
      d < b + 1 - length ∧ w = window s (b - d - length) (b - d) := by
  unfold LiesBefore
  rw [Source.offset_place hb]
  constructor
  · rintro ⟨k, hstart, hstop, hk⟩
    obtain rfl := Except.ok.inj hk
    obtain ⟨_, rfl⟩ := (eq_window_iff (by omega)).1 ⟨hstart, hstop⟩
    refine ⟨by omega, ?_⟩
    congr 1 <;> omega
  · rintro ⟨hd, rfl⟩
    obtain ⟨hstart, hstop⟩ := (eq_window_iff (s := s) (a := b - d - length) (b := b - d)
      (by omega)).2 ⟨by omega, rfl⟩
    refine ⟨b - d - length, hstart, ?_, ?_⟩
    · rw [hstop]
      congr 1
      omega
    · congr 1
      omega

/-- From a position of the source, a search for a node returns the closest window
with the text of the literal if all windows up to it are free, and otherwise
nothing. -/
theorem search_closest {n : Node M O} (hn : t.nodes[searcher]? = some n) {boundary : Position}
    (hboundary : t.source.isValid boundary = true) (literal : Text) :
    (∃ found, t.findForward searcher boundary literal = .ok found ∧
      ∀ window, found = some window ↔
        ∃ d, t.Closest searcher literal (LiesBehind t.source boundary literal.length) d window) ∧
    ∃ found, t.findBackward searcher boundary literal = .ok found ∧
      ∀ window, found = some window ↔
        ∃ d, t.Closest searcher literal (LiesBefore t.source boundary literal.length) d window := by
  obtain ⟨k, hk, rfl⟩ := Source.exists_place_of_isValid hboundary
  constructor
  · refine ⟨_, ?_, fun window => firstWindow_closest (liesBehind_iff hk) fun hd => ?_⟩
    · unfold findForward
      rw [Source.offset_place hk]
      exact search_eq_ok hn
    · rw [extract_window (by omega) (by omega), slice_window (by omega) (by omega)]
  · refine ⟨_, ?_, fun window => firstWindow_closest (liesBefore_iff hk) fun hd => ?_⟩
    · unfold findBackward
      rw [Source.offset_place hk]
      exact search_eq_ok hn
    · rw [extract_window (by omega) (by omega), slice_window (by omega) (by omega)]

/-- Two words on two lines.  A comma and a semicolon between them belong to nobody. -/
def wordsApart : Language Unit Nat where
  layout _ object := some <|
    match object with
    | 0 =>
      { origin := some (.ok (.between ⟨1, 0⟩ ⟨2, 2⟩)), parts := [Part.objects fun _ => [1, 2]] }
    | 1 => { origin := some (.ok (.between ⟨1, 0⟩ ⟨1, 1⟩)), parts := [Part.constant ['x']] }
    | _ => { origin := some (.ok (.between ⟨2, 1⟩ ⟨2, 2⟩)), parts := [Part.constant ['y']] }
  describe _ _ := ""
  size _ := 3

/-- From the end of the first word the semicolon is found in the next line, and the
word in front blocks the search backward. -/
theorem search_wordsApart :
    ∃ t n, ofSource wordsApart () "x ,\n;y".toList 0 = .ok t ∧ t.nodes[root]? = some n ∧
      t.source.isValid ⟨1, 1⟩ = true ∧
      t.findForward root ⟨1, 1⟩ [';'] = .ok (some (.between ⟨2, 0⟩ ⟨2, 1⟩)) ∧
      t.findBackward root ⟨1, 1⟩ [';'] = .ok none ∧
      (∃ found, t.findForward root ⟨1, 1⟩ [';'] = .ok found ∧
        ∀ window, found = some window ↔
          ∃ d, t.Closest root [';'] (LiesBehind t.source ⟨1, 1⟩ 1) d window) ∧
      ∃ found, t.findBackward root ⟨1, 1⟩ [';'] = .ok found ∧
        ∀ window, found = some window ↔
          ∃ d, t.Closest root [';'] (LiesBefore t.source ⟨1, 1⟩ 1) d window := by
  obtain ⟨t, made⟩ : ∃ t, ofSource wordsApart () "x ,\n;y".toList 0 = .ok t := ⟨_, rfl⟩
  have hvalid : t.source.isValid ⟨1, 1⟩ = true := by
    cases made
    decide
  obtain ⟨n, hn⟩ : ∃ n, t.nodes[root]? = some n := by
    cases made
    exact ⟨_, rfl⟩
  refine ⟨t, n, made, hn, hvalid, ?_, ?_, search_closest hn hvalid [';']⟩
  · cases made
    rfl
  · cases made
    rfl

end Reprint.Tree
