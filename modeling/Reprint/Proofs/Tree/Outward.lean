import Reprint.Proofs.Source.Place
import Reprint.Proofs.Tree.Ready

/-!
# What a search has looked at

A search tries one window after the other and stops at the first that is
blocked.  When it finds something, everything between the boundary and what
it found is free as well (`findOutward_cases`).  Each window overlaps or
touches the next one, so a piece that is free of all windows is free of
their union, unless it is empty: an empty span may lie where two windows
touch.  Hence the condition `Tree.Solid`.

* `Span.apart_union` is the fact about spans.
* `apart_forward` and `apart_backward` are the same for all windows that a search
  has tried.
* `firstWindow_cases` says which windows those are.
-/

namespace Reprint

namespace Span

theorem intersects_eq_false {a b : Span} :
    a.intersects b = false ↔ b.stop ≤ a.start ∨ a.stop ≤ b.start := by
  rw [intersects, Bool.and_eq_false_iff, decide_eq_false_iff_not, decide_eq_false_iff_not,
    ← Position.not_le, ← Position.not_le, Decidable.not_not, Decidable.not_not]

theorem touches_iff {a : Span} {p : Position} : a.touches p = true ↔ a.start ≤ p ∧ p ≤ a.stop := by
  rw [touches, Bool.and_eq_true, decide_eq_true_eq, decide_eq_true_eq]

theorem touches_start (a : Span) : a.touches a.start = true :=
  touches_iff.2 ⟨Position.le_refl _, a.start_le_stop⟩

theorem touches_stop (a : Span) : a.touches a.stop = true :=
  touches_iff.2 ⟨a.start_le_stop, Position.le_refl _⟩

theorem touches_of_contains {a b : Span} {p : Position} (h : a.contains b = true)
    (hp : b.touches p = true) : a.touches p = true := by
  rw [contains_iff] at h
  rw [touches_iff] at hp ⊢
  exact ⟨Position.le_trans h.1 hp.1, Position.le_trans hp.2 h.2⟩

/-- What is apart from a span is apart from what lies within. -/
theorem apart_of_contains {a b x : Span} (h : a.contains b = true) (ha : x.intersects a = false) :
    x.intersects b = false := by
  rw [contains_iff] at h
  rw [intersects_eq_false] at ha ⊢
  rcases ha with hbefore | hbehind
  · exact Or.inl (Position.le_trans h.2 hbefore)
  · exact Or.inr (Position.le_trans hbehind h.1)

/-- What covers a span that is not empty is not empty. -/
theorem isEmpty_of_contains {a b : Span} (h : a.contains b = true) (hb : b.isEmpty = false) :
    a.isEmpty = false := by
  rw [contains_iff] at h
  rw [Bounds.isEmpty, decide_eq_false_iff_not] at hb ⊢
  intro ha
  apply hb
  apply Position.le_antisymm b.start_le_stop
  rw [ha] at h
  exact Position.le_trans h.2 h.1

theorem between_touches_left (p q : Position) : (between p q).touches p = true :=
  touches_iff.2 ⟨Position.earlier_le_left p q, Position.left_le_later p q⟩

theorem between_touches_right (p q : Position) : (between p q).touches q = true :=
  touches_iff.2 ⟨Position.earlier_le_right p q, Position.right_le_later p q⟩

/-- A span together with the gap in front of it. -/
theorem between_contains_of_le {a : Span} {p : Position} (h : p ≤ a.start) :
    (between p a.stop).contains a = true :=
  contains_iff.2 ⟨Position.le_trans (Position.earlier_le_left _ _) h, Position.right_le_later _ _⟩

/-- A span together with the gap behind it. -/
theorem between_contains_of_ge {a : Span} {p : Position} (h : a.stop ≤ p) :
    (between a.start p).contains a = true :=
  contains_iff.2 ⟨Position.earlier_le_left _ _, Position.le_trans h (Position.right_le_later _ _)⟩

/-- What is apart from two spans that touch is apart from their union. -/
theorem apart_union {a b x : Span} {p : Position} (hx : x.isEmpty = false)
    (hap : a.touches p = true) (hbp : b.touches p = true) (ha : x.intersects a = false)
    (hb : x.intersects b = false) : x.intersects (a.union b) = false := by
  rw [touches_iff] at hap hbp
  rw [intersects_eq_false] at ha hb ⊢
  -- a span that is not empty cannot be squeezed in between the two
  have hsqueezed : ∀ {c d : Span}, c.start ≤ p → p ≤ d.stop → ¬ (d.stop ≤ x.start ∧ x.stop ≤ c.start) := by
    intro c d hc hd hbetween
    rw [Bounds.isEmpty, decide_eq_false_iff_not] at hx
    apply hx
    apply Position.le_antisymm x.start_le_stop
    exact Position.le_trans hbetween.2 (Position.le_trans hc (Position.le_trans hd hbetween.1))
  rcases ha with ha | ha
  · rcases hb with hb | hb
    · left
      show a.stop.later b.stop ≤ x.start
      rcases Position.later_eq_or a.stop b.stop with h | h <;> rw [h] <;> assumption
    · exact absurd ⟨ha, hb⟩ (hsqueezed hbp.1 hap.2)
  · rcases hb with hb | hb
    · exact absurd ⟨hb, ha⟩ (hsqueezed hap.1 hbp.2)
    · right
      show x.stop ≤ a.start.earlier b.start
      rcases Position.earlier_eq_or a.start b.start with h | h <;> rw [h] <;> assumption

end Span

namespace Tree

variable {M O : Type} {t : Tree M O} {enclosing : List Nat}

/-- The span of a node, if there is one. -/
def spanOf (t : Tree M O) (id : Nat) : Option Span := (t.nodes[id]?).bind Node.span?

theorem spanOf_eq {id : Nat} {n : Node M O} (hn : t.nodes[id]? = some n) :
    t.spanOf id = n.span? := by
  rw [spanOf, hn, Option.bind_some]

theorem spanOf_eq_some {id : Nat} {s : Span} :
    t.spanOf id = some s ↔ ∃ n, t.nodes[id]? = some n ∧ n.span? = some s := Option.bind_eq_some_iff

/-- Nothing blocks a window that intersects no mark and no span of a node
beyond the enclosing ones. -/
theorem blocks_eq_false {span : Span} :
    t.blocks enclosing span = false ↔
      (∀ id own, id ∉ enclosing → t.spanOf id = some own → own.intersects span = false) ∧
        ∀ mark ∈ t.marks, mark.span.intersects span = false := by
  unfold blocks
  rw [Bool.or_eq_false_iff, List.any_eq_false, List.any_eq_false]
  constructor
  · rintro ⟨hnodes, hmarks⟩
    refine ⟨fun id own hid hown => ?_, fun mark hmark => Bool.eq_false_iff.2 (hmarks mark hmark)⟩
    obtain ⟨n, hn, hspan⟩ := spanOf_eq_some.1 hown
    have hfree := hnodes id (List.mem_range.2 (lt_size_of_node hn))
    rw [hn] at hfree
    simpa [hid, hspan] using hfree
  · rintro ⟨hnodes, hmarks⟩
    refine ⟨fun id _ h => ?_, fun mark hmark => Bool.eq_false_iff.1 (hmarks mark hmark)⟩
    rw [Bool.and_eq_true, Bool.not_eq_true', List.contains_eq_mem, decide_eq_false_iff_not,
      Option.any_eq_true] at h
    obtain ⟨hid, n, hn, h⟩ := h
    obtain ⟨own, hown, h⟩ := (Option.any_eq_true _ _).1 h
    rw [hnodes id own hid (spanOf_eq_some.2 ⟨n, hn, hown⟩)] at h
    cases h

/-- Neither the span of a node nor a mark is empty. -/
structure Solid (t : Tree M O) : Prop where
  span : ∀ {id : Nat} {s : Span}, t.spanOf id = some s → s.isEmpty = false
  mark : ∀ mark ∈ t.marks, mark.span.isEmpty = false

/-- The window that is found is the first one with the text of the literal, and
all windows up to it are free. -/
theorem firstWindow_cases {literal : Text} {windowAt : Nat → Span} {found : Span} :
    ∀ {count d : Nat}, t.firstWindow enclosing literal windowAt count d = some found →
      ∃ k < count, found = windowAt (d + k) ∧
        t.source.slice (windowAt (d + k)).toBounds = literal ∧
        (∀ j < k, t.source.slice (windowAt (d + j)).toBounds ≠ literal) ∧
        ∀ j ≤ k, t.blocks enclosing (windowAt (d + j)) = false
  | 0, _, h => by cases h
  | count + 1, d, h => by
    rw [firstWindow] at h
    cases hblocks : t.blocks enclosing (windowAt d) with
    | true =>
      rw [hblocks, if_pos rfl] at h
      cases h
    | false =>
      rw [hblocks, if_neg Bool.false_ne_true] at h
      by_cases htext : t.source.slice (windowAt d).toBounds = literal
      · rw [if_pos htext] at h
        refine ⟨0, Nat.succ_pos _, (Option.some.inj h).symm, htext, nofun, fun j hj => ?_⟩
        obtain rfl := Nat.le_zero.1 hj
        exact hblocks
      · rw [if_neg htext] at h
        obtain ⟨k, hk, rfl, hmatch, hother, hfree⟩ := firstWindow_cases h
        have hnext : ∀ j, d + (j + 1) = d + 1 + j := fun j => by omega
        refine ⟨k + 1, Nat.succ_lt_succ hk, (congrArg windowAt (hnext k)).symm, by rwa [hnext],
          fun j hj => ?_, fun j hj => ?_⟩
        · cases j with
          | zero => exact htext
          | succ j =>
            rw [hnext]
            exact hother j (Nat.lt_of_succ_lt_succ hj)
        · cases j with
          | zero => exact hblocks
          | succ j =>
            rw [hnext]
            exact hfree j (Nat.le_of_succ_le_succ hj)

theorem search_cases {searcher count : Nat} {literal : Text} {windowAt : Nat → Span} {found : Span}
    (h : t.search searcher literal windowAt count = .ok (some found)) :
    ∃ k < count, found = windowAt k ∧ t.source.slice (windowAt k).toBounds = literal ∧
      (∀ j < k, t.source.slice (windowAt j).toBounds ≠ literal) ∧
      ∀ j ≤ k, t.blocks (t.lineage searcher) (windowAt j) = false := by
  unfold search at h
  by_cases hcount : count = 0
  · rw [if_pos hcount] at h
    cases h
  · rw [if_neg hcount] at h
    cases hn : t.node searcher with
    | error e =>
      rw [hn] at h
      cases h
    | ok n =>
      rw [hn] at h
      have hfound : t.firstWindow (t.lineage searcher) literal windowAt count 0 = some found :=
        Except.ok.inj h
      simpa using firstWindow_cases hfound

/-! ## The two directions -/

/-- A span that is apart from windows each of which begins one character behind the
other is apart from what they cover together. -/
theorem apart_forward {s : Source} {x : Span} (hx : x.isEmpty = false) {a length : Nat}
    (hlength : 0 < length) : ∀ k, a + k + length ≤ s.charCount →
      (∀ j ≤ k, x.intersects (window s (a + j) (a + j + length)) = false) →
      x.intersects (window s a (a + k + length)) = false
  | 0, _, hapart => hapart 0 (Nat.le_refl 0)
  | k + 1, hbound, hapart => by
    have hrest := apart_forward hx hlength k (by omega) fun j hj => hapart j (by omega)
    have hlast := hapart (k + 1) (Nat.le_refl _)
    have hunion : (window s a (a + k + length)).union
        (window s (a + (k + 1)) (a + (k + 1) + length)) =
          window s a (a + (k + 1) + length) := by
      rw [union_window (by omega) (by omega) (by omega) hbound]
      congr 1 <;> omega
    rw [← hunion]
    apply Span.apart_union (p := s.place (a + (k + 1))) hx _ _ hrest hlast
    · rw [Span.touches_iff, start_window (by omega) (by omega), stop_window (by omega) (by omega),
        Source.place_le_place (by omega) (by omega), Source.place_le_place (by omega) (by omega)]
      omega
    · rw [Span.touches_iff, start_window (by omega) hbound, stop_window (by omega) hbound,
        Source.place_le_place (by omega) (by omega), Source.place_le_place (by omega) (by omega)]
      omega

/-- The same with windows each of which ends one character in front of the other. -/
theorem apart_backward {s : Source} {x : Span} (hx : x.isEmpty = false) {b length : Nat}
    (hlength : 0 < length) (hb : b ≤ s.charCount) : ∀ k, k + length ≤ b →
      (∀ j ≤ k, x.intersects (window s (b - j - length) (b - j)) = false) →
      x.intersects (window s (b - k - length) b) = false
  | 0, _, hapart => hapart 0 (Nat.le_refl 0)
  | k + 1, hbound, hapart => by
    have hrest := apart_backward hx hlength hb k (by omega) fun j hj => hapart j (by omega)
    have hlast := hapart (k + 1) (Nat.le_refl _)
    have hunion : (window s (b - k - length) b).union
        (window s (b - (k + 1) - length) (b - (k + 1))) =
          window s (b - (k + 1) - length) b := by
      rw [union_window (by omega) (by omega) (by omega) (by omega)]
      congr 1 <;> omega
    rw [← hunion]
    apply Span.apart_union (p := s.place (b - (k + 1))) hx _ _ hrest hlast
    · rw [Span.touches_iff, start_window (by omega) hb, stop_window (by omega) hb,
        Source.place_le_place (by omega) (by omega), Source.place_le_place (by omega) hb]
      omega
    · rw [Span.touches_iff, start_window (by omega) (by omega), stop_window (by omega) (by omega),
        Source.place_le_place (by omega) (by omega), Source.place_le_place (by omega) (by omega)]
      omega

/-- All that lies behind a boundary up to a window that was tried is free. -/
theorem blocks_forward (h : t.Solid) {a length : Nat} (hlength : 0 < length) (k : Nat)
    (hbound : a + k + length ≤ t.source.charCount)
    (hfree : ∀ j ≤ k, t.blocks enclosing (window t.source (a + j) (a + j + length)) = false) :
    t.blocks enclosing (window t.source a (a + k + length)) = false := by
  simp only [blocks_eq_false] at hfree ⊢
  exact ⟨fun id own hid hown =>
      apart_forward (h.span hown) hlength k hbound fun j hj => (hfree j hj).1 id own hid hown,
    fun mark hmark =>
      apart_forward (h.mark mark hmark) hlength k hbound fun j hj => (hfree j hj).2 mark hmark⟩

/-- All that lies in front of a boundary, likewise. -/
theorem blocks_backward (h : t.Solid) {b length : Nat} (hlength : 0 < length)
    (hb : b ≤ t.source.charCount) (k : Nat) (hbound : k + length ≤ b)
    (hfree : ∀ j ≤ k, t.blocks enclosing (window t.source (b - j - length) (b - j)) = false) :
    t.blocks enclosing (window t.source (b - k - length) b) = false := by
  simp only [blocks_eq_false] at hfree ⊢
  exact ⟨fun id own hid hown =>
      apart_backward (h.span hown) hlength hb k hbound fun j hj => (hfree j hj).1 id own hid hown,
    fun mark hmark =>
      apart_backward (h.mark mark hmark) hlength hb k hbound fun j hj => (hfree j hj).2 mark hmark⟩

/-- A position that has a number is a place. -/
theorem place_of_offset {s : Source} {p : Position} {α : Type}
    {next : Nat → Except Error α} {a : α}
    (h : (Error.ofSource (s.offset p) >>= next) = .ok a) :
    ∃ k ≤ s.charCount, p = s.place k ∧ next k = .ok a := by
  cases hoffset : s.offset p with
  | ok k =>
    rw [hoffset] at h
    obtain ⟨hk, hp⟩ := Source.offset_eq_ok_iff.1 hoffset
    exact ⟨k, hk, hp, h⟩
  | error e =>
    rw [hoffset] at h
    cases h

/-- A search from a boundary on has looked at all that lies between the
boundary and what it found. -/
theorem findForward_cases (h : t.Solid) {searcher : Nat} {boundary : Position} {literal : Text}
    (hliteral : literal ≠ []) {found : Span}
    (hfind : t.findForward searcher boundary literal = .ok (some found)) :
    (Span.between boundary found.stop).contains found = true ∧ found.isEmpty = false ∧
      t.blocks (t.lineage searcher) (Span.between boundary found.stop) = false := by
  obtain ⟨a, ha, rfl, hsearch⟩ := place_of_offset hfind
  obtain ⟨k, hk, rfl, _, _, hfree⟩ := search_cases hsearch
  have hlength : 0 < literal.length := List.length_pos_iff.2 hliteral
  have hbound : a + k + literal.length ≤ t.source.charCount := by omega
  refine ⟨?_, ?_, ?_⟩
  · apply Span.between_contains_of_le
    rw [start_window (by omega) hbound, Source.place_le_place ha (by omega)]
    omega
  · rw [Bool.eq_false_iff, ne_eq, isEmpty_window (by omega) hbound]
    omega
  · rw [stop_window (by omega) hbound]
    exact blocks_forward h hlength k hbound hfree

/-- A search in front of a boundary. -/
theorem findBackward_cases (h : t.Solid) {searcher : Nat} {boundary : Position} {literal : Text}
    (hliteral : literal ≠ []) {found : Span}
    (hfind : t.findBackward searcher boundary literal = .ok (some found)) :
    (Span.between found.start boundary).contains found = true ∧ found.isEmpty = false ∧
      t.blocks (t.lineage searcher) (Span.between found.start boundary) = false := by
  obtain ⟨b, hb, rfl, hsearch⟩ := place_of_offset hfind
  obtain ⟨k, hk, rfl, _, _, hfree⟩ := search_cases hsearch
  have hlength : 0 < literal.length := List.length_pos_iff.2 hliteral
  have hbound : k + literal.length ≤ b := by omega
  refine ⟨?_, ?_, ?_⟩
  · apply Span.between_contains_of_ge
    rw [stop_window (by omega) (by omega), Source.place_le_place (by omega) hb]
    omega
  · rw [Bool.eq_false_iff, ne_eq, isEmpty_window (by omega) (by omega)]
    omega
  · rw [start_window (by omega) (by omega)]
    exact blocks_backward h hlength hb k hbound hfree

/-- A delimiter with its gap is free of everything else, and it begins or
ends at the boundary. -/
theorem findOutward_cases (h : t.Solid) {owner : Nat} {boundary : Position} {literal : Text}
    {role : Role} (hliteral : literal ≠ []) {found : Span}
    (hfind : t.findOutward owner boundary literal role = .ok (some found)) :
    (outwardSpan boundary found role).touches boundary = true ∧
      (outwardSpan boundary found role).isEmpty = false ∧
        t.blocks (t.lineage owner) (outwardSpan boundary found role) = false := by
  cases role with
  | lead =>
    obtain ⟨hcontains, hsolid, hfree⟩ := findBackward_cases h hliteral hfind
    exact ⟨Span.between_touches_right _ _, Span.isEmpty_of_contains hcontains hsolid, hfree⟩
  | literal =>
    obtain ⟨hcontains, hsolid, hfree⟩ := findForward_cases h hliteral hfind
    exact ⟨Span.between_touches_left _ _, Span.isEmpty_of_contains hcontains hsolid, hfree⟩
  | trail =>
    obtain ⟨hcontains, hsolid, hfree⟩ := findForward_cases h hliteral hfind
    exact ⟨Span.between_touches_left _ _, Span.isEmpty_of_contains hcontains hsolid, hfree⟩

end Tree

end Reprint
