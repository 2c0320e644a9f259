import Reprint.Proofs.Tree.Apart
import Reprint.Proofs.Tree.Settled

/-!
# Locating keeps pieces apart

`Tree.Orderly` is the invariant of locating a planted tree: the tree is
well-formed, spans and marks are apart, and the nodes that are not located
yet are full, so that no node will be made.  `Tree.Steady` compares a tree
with a later one of the visit.

Only two things happen to a tree: a node is changed in what does not matter
here (`Orderly.modify`), and a piece of the source is recorded that touches
the span of its owner and is free (`Orderly.mark`).  Delimiters are such
pieces (`Orderly.locateDelimiter`, `Orderly.locateAround`), and so are
literals that were searched for from within the span of their owner
(`Orderly.markFound`).
-/

namespace Reprint.Tree

variable {M O : Type} {m : M} {t t' u : Tree M O}

/-! ## Later trees of a visit -/

theorem Extends.spanOf (h : t.Extends u) {id : Nat} {s : Span} (hs : t.spanOf id = some s) :
    ∃ s', u.spanOf id = some s' ∧ s'.contains s = true := by
  obtain ⟨n, hn, hs⟩ := spanOf_eq_some.1 hs
  obtain ⟨n', hn', hextends⟩ := h.node hn
  obtain ⟨s', hs', hcontains⟩ := hextends.span hs
  exact ⟨s', spanOf_eq_some.2 ⟨n', hn', hs'⟩, hcontains⟩

/-- A later tree with the same nodes. -/
structure Steady (t u : Tree M O) : Prop extends t.Extends u where
  ties : t.SameTies u

namespace Steady

theorem refl (t : Tree M O) : t.Steady t := ⟨.refl t, fun _ => rfl⟩

theorem trans {v : Tree M O} (htu : t.Steady u) (huv : u.Steady v) : t.Steady v where
  toExtends := htu.toExtends.trans huv.toExtends
  ties id := (huv.ties id).trans (htu.ties id)

end Steady

section Orderly

variable [DecidableEq O]

theorem Settled.steady {id : Nat} {object : O} (h : Settled m t id object) (hwell : t.WellFormed)
    (hsteady : t.Steady u) : Settled m u id object :=
  h.extend hsteady.toExtends hwell.toTied

/-- The invariant of locating a planted tree. -/
structure Orderly (m : M) (t : Tree M O) : Prop where
  wellFormed : t.WellFormed
  apart : t.Apart
  full : ∀ {id : Nat} {n : Node M O}, t.nodes[id]? = some n → n.isLocated = false →
    ∀ object ∈ Part.selectedAll m n.parts, Settled m t id object

namespace Orderly

/-- A change of a node, which may get other parts when it is located. -/
theorem modify (h : Orderly m t) (id : Nat) {g : Node M O → Node M O}
    (hg : ∀ n : Node M O, n.Retouched (g n))
    (hparts : ∀ n, t.nodes[id]? = some n → (g n).isLocated = false →
      n.isLocated = false ∧ (g n).parts = n.parts) :
    Orderly m (t.modify id g) ∧ t.Steady (t.modify id g) := by
  have hsteady : t.Steady (t.modify id g) := ⟨.modify t id hg, .modify t id hg⟩
  refine ⟨⟨h.wellFormed.modify id hg, h.apart.modify id hg, fun {x n'} hn' hlocated => ?_⟩, hsteady⟩
  rcases modify_cases hn' with ⟨n, rfl, hn, rfl⟩ | ⟨_, hn⟩
  · obtain ⟨hlocated, hsame⟩ := hparts n hn hlocated
    rw [hsame]
    exact fun object hobject => (h.full hn hlocated object hobject).steady h.wellFormed hsteady
  · exact fun object hobject => (h.full hn hlocated object hobject).steady h.wellFormed hsteady

/-- A piece of the source that is free together with what touches the span
of the owner. -/
theorem mark (h : Orderly m t) {owner : Nat} {role : Role} {span free own : Span} {p : Position}
    (hown : t.spanOf owner = some own) (hp : own.touches p = true) (hp' : free.touches p = true)
    (hfree : t.blocks (t.lineage owner) free = false) (hspan : free.contains span = true)
    (hsolid : span.isEmpty = false) (hmark : t.mark owner role span = .ok t') :
    Orderly m t' ∧ t.Steady t' ∧ ∃ own', t'.spanOf owner = some own' ∧ own'.contains span = true := by
  obtain ⟨n, hn, _⟩ := spanOf_eq_some.1 hown
  have hsteady : t.Steady t' := ⟨.mark hmark, .mark hmark⟩
  refine ⟨⟨h.wellFormed.mark (lt_size_of_node hn) hmark,
    h.apart.mark_step h.wellFormed hown hp hp' hfree hspan hsolid hmark, fun {x k'} hk' hlocated => ?_⟩,
    hsteady, own.union span, ?_, Span.union_contains_right own span⟩
  · have hk : ∃ k, t.nodes[x]? = some k ∧ k.isLocated = false ∧ k'.parts = k.parts := by
      rw [(mark_eq_ok hmark).2, grow_marks] at hk'
      replace hk' : (t.grow owner span).nodes[x]? = some k' := hk'
      rw [getElem?_grow] at hk'
      split at hk'
      · obtain ⟨k, hk, rfl⟩ := Option.map_eq_some_iff.1 hk'
        rw [k.isLocated_mapPlace (g := fun p => p.grow span) fun _ => rfl] at hlocated
        exact ⟨k, hk, hlocated, rfl⟩
      · exact ⟨k', hk', hlocated, rfl⟩
    obtain ⟨k, hk, hlocated, hparts⟩ := hk
    rw [hparts]
    exact fun object hobject => (h.full hk hlocated object hobject).steady h.wellFormed hsteady
  · rw [spanOf_mark hmark, hown, if_pos]
    · rfl
    · rw [lineage_eq hn]
      exact List.mem_cons_self

/-! ## Delimiters -/

/-- An item remembers the delimiters around it. -/
theorem delimit (h : Orderly m t) (id : Nat) (before behind : Delimiter) :
    let g : Node M O → Node M O := fun n =>
      n.mapPlace fun p => { p with before := before, behind := behind }
    Orderly m (t.modify id g) ∧ t.Steady (t.modify id g) := by
  intro g
  have hlocated : ∀ n : Node M O, (g n).isLocated = n.isLocated :=
    fun n => n.isLocated_mapPlace fun _ => rfl
  apply h.modify id (g := g) fun n => .mapPlace n (fun _ => rfl) fun _ => rfl
  intro n _ hnot
  rw [hlocated] at hnot
  exact ⟨hnot, rfl⟩

/-- The delimiter at a boundary within the span of its owner. -/
theorem locateDelimiter (h : Orderly m t) {owner : Nat} {boundary : Position} {literal : Text}
    {role : Role} {own : Span} {delimiter : Delimiter} (hown : t.spanOf owner = some own)
    (hboundary : own.touches boundary = true)
    (hrun : t.locateDelimiter owner boundary literal role = .ok (delimiter, t')) :
    Orderly m t' ∧ t.Steady t' ∧ ∀ span, delimiter.span? = some span →
      ∃ own', t'.spanOf owner = some own' ∧ own'.contains span = true := by
  rcases locateDelimiter_cases hrun with ⟨rfl, hnone⟩ | ⟨found, hliteral, hfind, rfl, hmark⟩
  · refine ⟨h, .refl _, fun span hspan => ?_⟩
    rcases hnone with ⟨_, rfl⟩ | rfl <;> cases hspan
  · obtain ⟨htouches, hsolid, hfree⟩ := findOutward_cases h.apart.toSolid hliteral hfind
    obtain ⟨horderly, hsteady, hcovers⟩ := h.mark hown hboundary htouches hfree
      (Span.contains_self _) hsolid hmark
    refine ⟨horderly, hsteady, fun span hspan => ?_⟩
    cases hspan
    exact hcovers

/-- The delimiters around a span within that of their owner.  The end of
what is located then lies within the span of the owner, too. -/
theorem locateAround (h : Orderly m t) {owner : Nat} {span own : Span} {lead trail : Text}
    {before behind : Delimiter} (hown : t.spanOf owner = some own)
    (hspan : own.contains span = true)
    (hrun : t.locateAround owner span lead trail = .ok (before, behind, t')) :
    Orderly m t' ∧ t.Steady t' ∧
      ∃ own', t'.spanOf owner = some own' ∧ own'.touches (behind.stopBehind span) = true := by
  obtain ⟨u, hbefore, hbehind⟩ := locateAround_cases hrun
  obtain ⟨hu, hsteady, _⟩ := h.locateDelimiter hown
    (Span.touches_of_contains hspan (Span.touches_start span)) hbefore
  obtain ⟨own', hown', hgrown⟩ := hsteady.toExtends.spanOf hown
  have hstop : own'.touches span.stop = true :=
    Span.touches_of_contains (Span.contains_trans hgrown hspan) (Span.touches_stop span)
  obtain ⟨ht', hsteady', hcovers⟩ := hu.locateDelimiter hown' hstop hbehind
  refine ⟨ht', hsteady.trans hsteady', ?_⟩
  cases hfound : behind.span? with
  | none =>
    obtain ⟨own'', hown'', hgrown'⟩ := hsteady'.toExtends.spanOf hown'
    refine ⟨own'', hown'', ?_⟩
    rw [Delimiter.stopBehind, hfound]
    exact Span.touches_of_contains hgrown' hstop
  | some found =>
    obtain ⟨own'', hown'', hcontains⟩ := hcovers found hfound
    refine ⟨own'', hown'', ?_⟩
    rw [Delimiter.stopBehind, hfound]
    exact Span.touches_of_contains hcontains (Span.touches_stop found)

/-! ## Nodes -/

/-- A node with a span gets the parts that were found of it. -/
theorem settle (h : Orderly m t) {id : Nat} {own : Span} (hown : t.spanOf id = some own)
    (parts : List (Part M O)) (cursor : Position) :
    Orderly m (t.modify id fun n => n.finish parts cursor) ∧
      t.Steady (t.modify id fun n => n.finish parts cursor) := by
  apply h.modify id (g := fun n => n.finish parts cursor) fun n => .finish n parts cursor
  intro n hn hnot
  rw [spanOf_eq hn] at hown
  obtain ⟨p, hp, _⟩ := Option.map_eq_some_iff.1 hown
  rw [n.isLocated_finish parts cursor (by rw [hp]; rfl)] at hnot
  cases hnot

/-! ## Literals -/

/-- A literal that was searched for from within the span of its owner. -/
theorem markFound (h : Orderly m t) {owner : Nat} {cursor : Position} {literal : Text}
    {own found : Span} (hown : t.spanOf owner = some own) (hcursor : own.touches cursor = true)
    (hliteral : literal ≠ []) (hfind : t.findForward owner cursor literal = .ok (some found))
    (hmark : t.markLiteral owner found = .ok t') :
    Orderly m t' ∧ t.Steady t' ∧
      ∃ own', t'.spanOf owner = some own' ∧ own'.contains found = true := by
  obtain ⟨hcontains, hsolid, hfree⟩ := findForward_cases h.apart.toSolid hliteral hfind
  rw [markLiteral, hsolid, if_neg Bool.false_ne_true] at hmark
  exact h.mark hown hcursor (Span.between_touches_left _ _) hfree hcontains hsolid hmark

/-- A literal that is pinned to a free piece within the span of its owner. -/
theorem markPinned (h : Orderly m t) {owner : Nat} {span own : Span}
    (hown : t.spanOf owner = some own) (hwithin : own.contains span = true)
    (hsolid : span.isEmpty = false) (hfree : t.blocks (t.lineage owner) span = false)
    (hmark : t.markLiteral owner span = .ok t') :
    Orderly m t' ∧ t.Steady t' ∧
      ∃ own', t'.spanOf owner = some own' ∧ own'.contains span = true := by
  rw [markLiteral, hsolid, if_neg Bool.false_ne_true] at hmark
  exact h.mark hown (Span.touches_of_contains hwithin (Span.touches_start span))
    (Span.touches_start span) hfree (Span.contains_self span) hsolid hmark

end Orderly

end Orderly

end Reprint.Tree
