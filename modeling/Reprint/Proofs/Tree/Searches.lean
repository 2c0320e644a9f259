import Reprint.Proofs.Tree.Outward
import Reprint.Proofs.Tree.Nodes

/-!
# What a search finds

A search tries windows one after the other.  `firstWindow_of_match` and
`firstWindow_of_blocked` are the two ways in which it ends, for windows of
any kind.

`Text.lastMatch` and `Text.firstMatch` are what a search looks for: the last
place in front of an offset, and the first place behind one, where a text
stands.  `findBackward_of_blocked` and `findForward_of_free` say that the
searches find it, when nothing blocks the windows up to there and, for the
backward search, everything beyond an offset is blocked.
-/

namespace Reprint

namespace Tree

variable {M O : Type}

/-! ## Windows one after the other -/

/-- The span of a node that does not enclose a search blocks it. -/
theorem blocks_of_node {t : Tree M O} {enclosing : List Nat} {span own : Span} {id : Nat}
    {n : Node M O} (hn : t.nodes[id]? = some n) (hid : id ∉ enclosing) (hown : n.span? = some own)
    (h : own.intersects span = true) : t.blocks enclosing span = true := by
  cases hblocks : t.blocks enclosing span with
  | true => rfl
  | false =>
    rw [(blocks_eq_false.1 hblocks).1 id own hid (spanOf_eq_some.2 ⟨n, hn, hown⟩)] at h
    cases h

/-- The first window with the text of the literal, when nothing blocks the
windows up to it. -/
theorem firstWindow_of_match {t : Tree M O} {enclosing : List Nat} {literal : Text}
    {windowAt : Nat → Span} {k : Nat} :
    ∀ {count d : Nat}, k < count →
      (∀ j ≤ k, t.blocks enclosing (windowAt (d + j)) = false) →
      (∀ j < k, t.source.slice (windowAt (d + j)).toBounds ≠ literal) →
      t.source.slice (windowAt (d + k)).toBounds = literal →
      t.firstWindow enclosing literal windowAt count d = some (windowAt (d + k)) := by
  induction k with
  | zero =>
    intro count d hcount hfree _ hmatch
    obtain ⟨count, rfl⟩ : ∃ n, count = n + 1 := ⟨count - 1, by omega⟩
    have hfirst := hfree 0 (Nat.le_refl 0)
    rw [Nat.add_zero] at hfirst hmatch ⊢
    rw [firstWindow, hfirst, if_neg Bool.false_ne_true, if_pos hmatch, Nat.add_zero]
  | succ k ih =>
    intro count d hcount hfree hother hmatch
    obtain ⟨count, rfl⟩ : ∃ n, count = n + 1 := ⟨count - 1, by omega⟩
    have hfirst := hfree 0 (Nat.zero_le _)
    have hfirst' := hother 0 (Nat.zero_lt_succ k)
    rw [Nat.add_zero] at hfirst hfirst'
    have hnext : ∀ j, d + 1 + j = d + (j + 1) := by
      intro j
      omega
    rw [firstWindow, hfirst, if_neg Bool.false_ne_true, if_neg hfirst', ih (by omega), hnext]
    · intro j hj
      rw [hnext]
      exact hfree (j + 1) (by omega)
    · intro j hj
      rw [hnext]
      exact hother (j + 1) (by omega)
    · rw [hnext]
      exact hmatch

/-- A search that comes to a blocked window, or to the end, tries the
windows in front of it. -/
theorem firstWindow_of_blocked {t : Tree M O} {enclosing : List Nat} {literal : Text}
    {windowAt : Nat → Span} {k : Nat} :
    ∀ {count d : Nat}, k ≤ count →
      (∀ j < k, t.blocks enclosing (windowAt (d + j)) = false) →
      (k < count → t.blocks enclosing (windowAt (d + k)) = true) →
      t.firstWindow enclosing literal windowAt count d =
        ((List.range k).find? fun j => t.source.slice (windowAt (d + j)).toBounds = literal).map
          fun j => windowAt (d + j) := by
  induction k with
  | zero =>
    intro count d _ _ hblocked
    rw [List.range_zero, List.find?_nil, Option.map_none]
    cases count with
    | zero => rfl
    | succ count =>
      have hfirst := hblocked (Nat.zero_lt_succ count)
      rw [Nat.add_zero] at hfirst
      rw [firstWindow, hfirst, if_pos rfl]
  | succ k ih =>
    intro count d hcount hfree hblocked
    obtain ⟨count, rfl⟩ : ∃ n, count = n + 1 := ⟨count - 1, by omega⟩
    have hfirst := hfree 0 (Nat.zero_lt_succ k)
    rw [Nat.add_zero] at hfirst
    have hnext : ∀ j, d + 1 + j = d + (j + 1) := by
      intro j
      omega
    rw [firstWindow, hfirst, if_neg Bool.false_ne_true, List.range_succ_eq_map, List.find?_cons]
    by_cases hmatch : t.source.slice (windowAt d).toBounds = literal
    · simp [hmatch]
    · rw [if_neg hmatch, ih (by omega)]
      · simp only [Nat.add_zero, hmatch, decide_false, List.find?_map, Option.map_map, hnext,
          Function.comp_def, Nat.succ_eq_add_one]
      · intro j hj
        rw [hnext]
        exact hfree (j + 1) (by omega)
      · intro hk
        rw [hnext]
        exact hblocked (by omega)

end Tree

/-! ## The last occurrence of a text -/

/-- The last place between two offsets where a text stands. -/
def Text.lastMatch (t literal : Text) (a b : Nat) : Option Nat :=
  ((List.range (b + 1 - (a + literal.length))).find? fun d =>
    t.piece (b - d - literal.length) (b - d) = literal).map fun d => b - d - literal.length

/-- The place that is found holds the text. -/
theorem Text.lastMatch_eq_some {t literal : Text} {a b p : Nat}
    (h : t.lastMatch literal a b = some p) :
    a ≤ p ∧ p + literal.length ≤ b ∧ t.piece p (p + literal.length) = literal := by
  obtain ⟨d, hd, rfl⟩ := Option.map_eq_some_iff.1 h
  have hlt := List.mem_range.1 (List.mem_of_find?_eq_some hd)
  have hpiece := List.find?_some hd
  rw [decide_eq_true_eq] at hpiece
  have hsub : b - d - literal.length + literal.length = b - d := by omega
  rw [hsub]
  exact ⟨by omega, by omega, hpiece⟩

/-- Nothing is found where the text does not stand. -/
theorem Text.lastMatch_eq_none {t literal : Text} {a b : Nat} :
    t.lastMatch literal a b = none ↔
      ∀ p, a ≤ p → p + literal.length ≤ b → t.piece p (p + literal.length) ≠ literal := by
  unfold lastMatch
  rw [Option.map_eq_none_iff, List.find?_eq_none]
  constructor
  · intro h p hap hpb hpiece
    refine h (b - (p + literal.length)) (List.mem_range.2 (by omega)) ?_
    have hstop : b - (b - (p + literal.length)) = p + literal.length := by omega
    rw [hstop, Nat.add_sub_cancel, decide_eq_true_eq]
    exact hpiece
  · intro h d hd hpiece
    have hlt := List.mem_range.1 hd
    rw [decide_eq_true_eq] at hpiece
    have hsub : b - d - literal.length + literal.length = b - d := by omega
    refine h (b - d - literal.length) (by omega) (by omega) ?_
    rw [hsub]
    exact hpiece

/-! ## The first occurrence of a text -/

/-- The first place behind an offset where a text stands. -/
def Text.firstMatch (t literal : Text) (a : Nat) : Option Nat :=
  ((List.range (t.length + 1 - (a + literal.length))).find? fun d =>
    t.piece (a + d) (a + d + literal.length) = literal).map (a + ·)

/-- The place that is found holds the text, and no place before it does. -/
theorem Text.firstMatch_eq_some {t literal : Text} {a p : Nat}
    (h : t.firstMatch literal a = some p) :
    a ≤ p ∧ p + literal.length ≤ t.length ∧ t.piece p (p + literal.length) = literal ∧
      ∀ q, a ≤ q → q < p → t.piece q (q + literal.length) ≠ literal := by
  obtain ⟨d, hd, rfl⟩ := Option.map_eq_some_iff.1 h
  have hlt := List.mem_range.1 (List.mem_of_find?_eq_some hd)
  have hpiece := List.find?_some hd
  rw [decide_eq_true_eq] at hpiece
  refine ⟨by omega, by omega, hpiece, fun q haq hqp hq => ?_⟩
  obtain ⟨k, rfl⟩ : ∃ k, q = a + k := ⟨q - a, by omega⟩
  have hbefore := (List.find?_range_eq_some.1 hd).2.2 k (by omega)
  simp only [hq, decide_true, Bool.not_true, Bool.false_eq_true] at hbefore

/-- The first place is found. -/
theorem Text.firstMatch_of_first {t literal : Text} {a p : Nat} (hap : a ≤ p)
    (hp : p + literal.length ≤ t.length) (hmatch : t.piece p (p + literal.length) = literal)
    (hfirst : ∀ q, a ≤ q → q < p → t.piece q (q + literal.length) ≠ literal) :
    t.firstMatch literal a = some p := by
  have hfind : (List.range (t.length + 1 - (a + literal.length))).find? (fun d =>
      t.piece (a + d) (a + d + literal.length) = literal) = some (p - a) := by
    refine List.find?_range_eq_some.2 ⟨?_, List.mem_range.2 (by omega), fun j hj => ?_⟩
    · rw [decide_eq_true_eq, show a + (p - a) = p by omega]
      exact hmatch
    · have hne := hfirst (a + j) (by omega) (by omega)
      simpa using hne
  rw [firstMatch, hfind, Option.map_some, show a + (p - a) = p by omega]

/-! ## The two searches -/

namespace Tree

variable {M O : Type} {t : Tree M O} {searcher : Nat} {n : Node M O} {text literal : Text}

/-- A search forward with nothing in its way. -/
theorem findForward_of_free (hn : t.nodes[searcher]? = some n) (hsource : t.source = .ofText text)
    {a : Nat} (ha : a ≤ text.length)
    (hfree : ∀ u v, a ≤ u → u ≤ v → v ≤ text.length →
      t.blocks (t.lineage searcher) (window t.source u v) = false) :
    t.findForward searcher (t.source.place a) literal =
      .ok ((text.firstMatch literal a).map fun p => window (.ofText text) p (p + literal.length)) := by
  have hcount : t.source.charCount = text.length := by rw [hsource, Source.charCount_ofText]
  generalize hk : text.length + 1 - (a + literal.length) = k
  have hwindow : t.firstWindow (t.lineage searcher) literal
      (fun d => window t.source (a + d) (a + d + literal.length)) k 0 =
      ((List.range k).find? fun j => t.source.slice
        (window t.source (a + (0 + j)) (a + (0 + j) + literal.length)).toBounds = literal).map
          fun j => window t.source (a + (0 + j)) (a + (0 + j) + literal.length) :=
    firstWindow_of_blocked (Nat.le_refl k)
      (fun j hj => hfree _ _ (by omega) (by omega) (by omega)) fun hlt => absurd hlt (by omega)
  have hslices : (List.range k).find? (fun j => t.source.slice
        (window t.source (a + (0 + j)) (a + (0 + j) + literal.length)).toBounds = literal) =
      (List.range k).find? fun j => text.piece (a + j) (a + j + literal.length) = literal := by
    refine List.find?_congr fun j hj => ?_
    have hlt := List.mem_range.1 hj
    rw [Nat.zero_add, slice_window (by omega) (by omega), hsource, Source.text_ofText]
  have hresult : t.firstWindow (t.lineage searcher) literal
      (fun d => window t.source (a + d) (a + d + literal.length)) k 0 =
      (text.firstMatch literal a).map fun p => window (.ofText text) p (p + literal.length) := by
    rw [hwindow, hslices, Text.firstMatch, hk, Option.map_map]
    simp only [Nat.zero_add, hsource]
    rfl
  unfold Tree.findForward Tree.search
  rw [Source.offset_place (by omega : a ≤ t.source.charCount), hcount]
  simp only [Error.ofSource, bind, Except.bind, hk]
  split
  · next hzero =>
    subst hzero
    rw [Text.firstMatch, hk]
    rfl
  · rw [node_eq_ok.2 hn]
    exact congrArg Except.ok hresult

/-- A search backward that everything beyond an offset blocks. -/
theorem findBackward_of_blocked (hn : t.nodes[searcher]? = some n)
    (hsource : t.source = .ofText text) {a b : Nat} (hab : a ≤ b) (hb : b ≤ text.length)
    (hliteral : literal ≠ [])
    (hfree : ∀ u v, a ≤ u → u ≤ v → v ≤ b →
      t.blocks (t.lineage searcher) (window t.source u v) = false)
    (hblocked : ∀ u v, u < a → a ≤ v → u < v → v ≤ b →
      t.blocks (t.lineage searcher) (window t.source u v) = true) :
    t.findBackward searcher (t.source.place b) literal =
      .ok ((text.lastMatch literal a b).map fun p => window (.ofText text) p (p + literal.length)) := by
  have hpos := List.length_pos_iff.2 hliteral
  have hcount : t.source.charCount = text.length := by rw [hsource, Source.charCount_ofText]
  generalize hk : b + 1 - (a + literal.length) = k
  have hwindow : t.firstWindow (t.lineage searcher) literal
      (fun d => window t.source (b - d - literal.length) (b - d)) (b + 1 - literal.length) 0 =
      ((List.range k).find? fun j => t.source.slice
        (window t.source (b - (0 + j) - literal.length) (b - (0 + j))).toBounds = literal).map
          fun j => window t.source (b - (0 + j) - literal.length) (b - (0 + j)) :=
    firstWindow_of_blocked (by omega)
      (fun j hj => hfree _ _ (by omega) (by omega) (by omega))
      fun hlt => hblocked _ _ (by omega) (by omega) (by omega) (by omega)
  have hslices : (List.range k).find? (fun j => t.source.slice
        (window t.source (b - (0 + j) - literal.length) (b - (0 + j))).toBounds = literal) =
      (List.range k).find? fun j => text.piece (b - j - literal.length) (b - j) = literal := by
    refine List.find?_congr fun j _ => ?_
    rw [Nat.zero_add, slice_window (by omega) (by omega), hsource, Source.text_ofText]
  have hresult : t.firstWindow (t.lineage searcher) literal
      (fun d => window t.source (b - d - literal.length) (b - d)) (b + 1 - literal.length) 0 =
      (text.lastMatch literal a b).map fun p => window (.ofText text) p (p + literal.length) := by
    rw [hwindow, hslices, Text.lastMatch, hk]
    cases hfound : (List.range k).find? fun j =>
        text.piece (b - j - literal.length) (b - j) = literal with
    | none => rfl
    | some j =>
      have hj := List.mem_range.1 (List.mem_of_find?_eq_some hfound)
      have hsub : b - j - literal.length + literal.length = b - j := by omega
      simp only [Option.map_some, Nat.zero_add, hsub, hsource]
  unfold Tree.findBackward Tree.search
  rw [Source.offset_place (by omega : b ≤ t.source.charCount)]
  simp only [Error.ofSource, bind, Except.bind]
  split
  · next hzero =>
    have hnone : text.lastMatch literal a b = none := by
      rw [Text.lastMatch, hk]
      obtain rfl : k = 0 := by omega
      rfl
    rw [hnone]
    rfl
  · rw [node_eq_ok.2 hn]
    exact congrArg Except.ok hresult

end Tree

end Reprint
