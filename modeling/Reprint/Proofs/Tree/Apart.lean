import Reprint.Proofs.Tree.Outward
import Reprint.Proofs.Tree.WellFormed
import Mathlib.Data.List.Nodup
import Mathlib.Data.List.Pairwise

/-!
# Pieces of the source that are apart

`Tree.Spread` says of the spans of the nodes that none is empty and that
those of the nodes right below one do not intersect.  `Tree.Apart` adds the
marks: they are not empty either, and a mark intersects no other mark and
no span but those of its owner and of the ancestors of its owner.

* `Apart.mark` is the step.  A new mark makes spans grow, and they stay
  apart if the mark lies in a free piece that touches the span of its owner.
* `Apart.check_eq_ok` is what the invariant is for: no siblings overlap.
-/

namespace Reprint.Tree

variable {M O : Type}

/-! ## Lineages of siblings -/

namespace Tied

variable [DecidableEq O] {t : Tree M O}

/-- Of two ancestors of a node one is an ancestor of the other. -/
theorem lineage_total (h : t.Tied) {a b : Nat} : ∀ id : Nat, a ∈ t.lineage id →
    b ∈ t.lineage id → a ∈ t.lineage b ∨ b ∈ t.lineage a := by
  intro id
  induction id using Nat.strongRecOn with
  | _ id ih =>
    intro ha hb
    cases hn : t.nodes[id]? with
    | none =>
      rw [Tree.lineage, hn] at ha
      cases ha
    | some n =>
      have hlineage := lineage_eq hn
      rcases List.mem_cons.1 (hlineage ▸ ha) with rfl | ha'
      · exact Or.inr hb
      · rcases List.mem_cons.1 (hlineage ▸ hb) with rfl | hb'
        · exact Or.inl ha
        · have hid : id ≠ Tree.root := by
            have := h.lt_of_mem_ancestors id hn ha'
            unfold Tree.root
            omega
          obtain ⟨p, _, _, _, hlt, hancestors, _⟩ := h.parent hn hid
          rw [hancestors] at ha' hb'
          exact ih p hlt ha' hb'

/-- Two nodes right below a node are not in one lineage. -/
theorem eq_of_siblings (h : t.Tied) {id a b x : Nat} {n : Node M O} (hn : t.nodes[id]? = some n)
    (ha : a ∈ n.children) (hb : b ∈ n.children) (hax : a ∈ t.lineage x) (hbx : b ∈ t.lineage x) :
    a = b := by
  have hbetween : ∀ {c d : Nat}, c ∈ n.children → d ∈ n.children → c ∈ t.lineage d → c = d := by
    intro c d hc hd hcd
    rw [h.lineage_child hn hd, List.mem_cons] at hcd
    rcases hcd with hcd | hcd
    · exact hcd
    · have := h.le_of_mem_lineage hcd
      have := h.lt_of_mem_children hn hc
      omega
  rcases h.lineage_total x hax hbx with hab | hba
  · exact hbetween ha hb hab
  · exact (hbetween hb ha hba).symm

theorem nodup_children (h : t.Tied) {id : Nat} {n : Node M O} (hn : t.nodes[id]? = some n) :
    n.children.Nodup := by
  rw [List.nodup_iff_count_le_one]
  intro c
  by_cases hc : c ∈ n.children
  · obtain ⟨k, hk, hparent, _⟩ := h.child hn hc
    have hroot : c ≠ Tree.root := by
      have := h.lt_of_mem_children hn hc
      unfold Tree.root
      omega
    obtain ⟨p, n', hp, hn', _, _, hcount⟩ := h.parent hk hroot
    rw [hparent] at hp
    cases hp
    rw [hn] at hn'
    cases hn'
    exact Nat.le_of_eq hcount
  · rw [List.count_eq_zero.2 hc]
    exact Nat.zero_le 1

end Tied

/-! ## Spans of changed trees -/

variable {t t' : Tree M O}

theorem spanOf_modify (t : Tree M O) (id : Nat) {g : Node M O → Node M O}
    (hg : ∀ n : Node M O, n.Retouched (g n)) (x : Nat) : (t.modify id g).spanOf x = t.spanOf x := by
  rw [spanOf, spanOf, getElem?_modify]
  split
  · cases t.nodes[x]? with
    | none => rfl
    | some n => exact (hg n).span
  · rfl

theorem spanOf_mark {owner : Nat} {role : Role} {span : Span}
    (h : t.mark owner role span = .ok t') (x : Nat) :
    t'.spanOf x =
      if x ∈ t.lineage owner then (t.spanOf x).map fun s => s.union span else t.spanOf x := by
  obtain ⟨_, rfl⟩ := mark_eq_ok h
  rw [grow_marks]
  show (((t.grow owner span).nodes[x]?).bind Node.span?) = _
  rw [getElem?_grow, spanOf]
  split
  · cases t.nodes[x]? with
    | none => rfl
    | some n =>
      show (n.place.map _).map Place.span = (n.place.map Place.span).map _
      rw [Option.map_map, Option.map_map]
      rfl
  · rfl

/-- Recording a piece of the source adds one mark. -/
theorem marks_mark {owner : Nat} {role : Role} {span : Span}
    (h : t.mark owner role span = .ok t') : t'.marks = t.marks ++ [⟨owner, role, span⟩] := by
  obtain ⟨_, rfl⟩ := mark_eq_ok h
  exact marks_grow ..

theorem SameTies.mark {owner : Nat} {role : Role} {span : Span}
    (h : t.mark owner role span = .ok t') : t.SameTies t' := by
  obtain ⟨_, rfl⟩ := mark_eq_ok h
  rw [grow_marks]
  exact .grow t owner span

/-! ## The invariant -/

/-- No node has an empty span, and the spans of the nodes right below a node
do not intersect. -/
structure Spread (t : Tree M O) : Prop where
  span : ∀ n ∈ t.nodes.toList, ∀ s ∈ n.span?, s.isEmpty = false
  siblings : ∀ n ∈ t.nodes.toList,
    (n.children.filterMap t.spanOf).Pairwise fun a b => a.intersects b = false

instance (t : Tree M O) : Decidable t.Spread :=
  decidable_of_iff (_ ∧ _) ⟨fun h => ⟨h.1, h.2⟩, fun h => ⟨h.span, h.siblings⟩⟩

/-- Neither a span nor a mark is empty, and they are apart: the spans of
siblings from each other, and marks from each other and from all spans but
those of their owner and of the ancestors of their owner. -/
structure Apart (t : Tree M O) : Prop extends Solid t where
  siblings : ∀ {id a b : Nat} {n : Node M O} {s s' : Span}, t.nodes[id]? = some n →
    a ∈ n.children → b ∈ n.children → a ≠ b → t.spanOf a = some s → t.spanOf b = some s' →
      s.intersects s' = false
  marks : t.marks.Pairwise fun a b => a.span.intersects b.span = false
  foreign : ∀ mark ∈ t.marks, ∀ {id : Nat} {s : Span}, id ∉ t.lineage mark.owner →
    t.spanOf id = some s → mark.span.intersects s = false

namespace Apart

/-- A tree without marks. -/
theorem of_spread (h : t.Spread) (hmarks : t.marks = []) : t.Apart where
  span {id s} hs := by
    obtain ⟨n, hn, hs⟩ := spanOf_eq_some.1 hs
    exact h.span n (Array.mem_toList_iff.2 (Array.mem_of_getElem? hn)) s hs
  mark mark hmark := by
    rw [hmarks] at hmark
    cases hmark
  siblings {id a b n s s'} hn ha hb hab hs hs' := by
    have hpairwise := h.siblings n (Array.mem_toList_iff.2 (Array.mem_of_getElem? hn))
    rw [List.pairwise_filterMap] at hpairwise
    have hsymm : Std.Symm fun x y => ∀ s, t.spanOf x = some s → ∀ s', t.spanOf y = some s' →
        s.intersects s' = false := by
      refine ⟨fun x y hxy s hs s' hs' => ?_⟩
      rw [Span.intersects_comm]
      exact hxy s' hs' s hs
    exact hpairwise.forall ha hb hab s hs s' hs'
  marks := by
    rw [hmarks]
    exact .nil
  foreign mark hmark := by
    rw [hmarks] at hmark
    cases hmark

/-- Another tree with the same spans and marks. -/
theorem of_same (h : t.Apart) (hties : t.SameTies t') (hspan : ∀ x, t'.spanOf x = t.spanOf x)
    (hmarks : t'.marks = t.marks) : t'.Apart where
  span hs := h.span (hspan _ ▸ hs)
  siblings {id a b n' s s'} hn' ha hb hab hs hs' := by
    obtain ⟨n, hn, _, _, hchildren⟩ := hties.symm.node hn'
    rw [hspan] at hs hs'
    exact h.siblings hn (hchildren ▸ ha) (hchildren ▸ hb) hab hs hs'
  mark mark hmark := h.mark mark (hmarks ▸ hmark)
  marks := hmarks ▸ h.marks
  foreign mark hmark {id s} hid hs := by
    rw [hties.lineage] at hid
    exact h.foreign mark (hmarks ▸ hmark) hid (hspan id ▸ hs)

theorem modify (h : t.Apart) (id : Nat) {g : Node M O → Node M O}
    (hg : ∀ n : Node M O, n.Retouched (g n)) : (t.modify id g).Apart :=
  h.of_same (.modify t id hg) (spanOf_modify t id hg) rfl

/-- The span of a node has grown if the node is in the lineage of the owner. -/
theorem spanOf_mark_cases [DecidableEq O] {owner : Nat} {role : Role} {span : Span}
    (hmark : t.mark owner role span = .ok t') {x : Nat} {s' : Span} (hs' : t'.spanOf x = some s') :
    x ∉ t.lineage owner ∧ t.spanOf x = some s' ∨
      x ∈ t.lineage owner ∧ ∃ s, t.spanOf x = some s ∧ s' = s.union span := by
  rw [spanOf_mark hmark] at hs'
  by_cases hx : x ∈ t.lineage owner
  · rw [if_pos hx] at hs'
    obtain ⟨s, hs, hgrown⟩ := Option.map_eq_some_iff.1 hs'
    exact Or.inr ⟨hx, s, hs, hgrown.symm⟩
  · rw [if_neg hx] at hs'
    exact Or.inl ⟨hx, hs'⟩

/-- What is apart from the span of a node and from a free piece that touches
the span of the owner is apart from the grown span as well. -/
theorem apart_grown [DecidableEq O] (hwell : t.WellFormed) {owner x : Nat} {own s span free piece : Span}
    {p : Position} (hown : t.spanOf owner = some own) (hp : own.touches p = true)
    (hp' : free.touches p = true) (hspan : free.contains span = true) (hx : x ∈ t.lineage owner)
    (hs : t.spanOf x = some s) (hpiece : piece.isEmpty = false) (hapart : piece.intersects s = false)
    (hapart' : piece.intersects free = false) : piece.intersects (s.union span) = false := by
  obtain ⟨n, hn, howned⟩ := spanOf_eq_some.1 hown
  obtain ⟨k, hk, hs⟩ := spanOf_eq_some.1 hs
  have hcovers : s.contains own = true := by
    rw [lineage_eq hn, List.mem_cons] at hx
    rcases hx with rfl | hx
    · rw [hn] at hk
      cases hk
      rw [hs] at howned
      cases howned
      exact Span.contains_self own
    · exact hwell.nested hn howned hx hk hs
  apply Span.apart_of_contains (a := s.union free)
  · apply Span.contains_union (Span.union_contains_left s free)
    exact Span.contains_trans (Span.union_contains_right s free) hspan
  · exact Span.apart_union hpiece (Span.touches_of_contains hcovers hp) hp' hapart hapart'

/-- A new mark.  It lies in a piece of the source that is free and touches
the span of its owner. -/
theorem mark_step [DecidableEq O] (h : t.Apart) (hwell : t.WellFormed) {owner : Nat} {role : Role}
    {span free own : Span} {p : Position} (hown : t.spanOf owner = some own)
    (hp : own.touches p = true) (hp' : free.touches p = true)
    (hfree : t.blocks (t.lineage owner) free = false) (hspan : free.contains span = true)
    (hsolid : span.isEmpty = false) (hmark : t.mark owner role span = .ok t') : t'.Apart := by
  have hties := SameTies.mark hmark
  obtain ⟨hfreeNode, hfreeMark⟩ := blocks_eq_false.1 hfree
  have hgrown : ∀ {x : Nat} {s piece : Span}, x ∈ t.lineage owner → t.spanOf x = some s →
      piece.isEmpty = false → piece.intersects s = false → piece.intersects free = false →
      piece.intersects (s.union span) = false :=
    fun hx hs => apart_grown hwell hown hp hp' hspan hx hs
  constructor
  · constructor
    · intro x s' hs'
      rcases spanOf_mark_cases hmark hs' with ⟨_, hs⟩ | ⟨_, s, hs, rfl⟩
      · exact h.span hs
      · exact Span.isEmpty_of_contains (Span.union_contains_left s span) (h.span hs)
    · intro mark hmem
      rw [marks_mark hmark, List.mem_append, List.mem_singleton] at hmem
      rcases hmem with hmem | rfl
      · exact h.mark mark hmem
      · exact hsolid
  · intro id a b k' s s' hk' ha hb hab hs hs'
    obtain ⟨k, hk, _, _, hchildren⟩ := hties.symm.node hk'
    rw [← hchildren] at ha hb
    rcases spanOf_mark_cases hmark hs with ⟨hna, hs⟩ | ⟨hina, r, hr, rfl⟩
    · rcases spanOf_mark_cases hmark hs' with ⟨_, hs'⟩ | ⟨hinb, r, hr, rfl⟩
      · exact h.siblings hk ha hb hab hs hs'
      · exact hgrown hinb hr (h.span hs) (h.siblings hk ha hb hab hs hr) (hfreeNode a s hna hs)
    · rcases spanOf_mark_cases hmark hs' with ⟨hnb, hs'⟩ | ⟨hinb, _⟩
      · rw [Span.intersects_comm]
        exact hgrown hina hr (h.span hs') (h.siblings hk hb ha hab.symm hs' hr)
          (hfreeNode b s' hnb hs')
      · exact absurd (hwell.eq_of_siblings hk ha hb hina hinb) hab
  · rw [marks_mark hmark, List.pairwise_append]
    refine ⟨h.marks, List.pairwise_singleton _ _, fun mark hmem last hlast => ?_⟩
    obtain rfl := List.mem_singleton.1 hlast
    exact Span.apart_of_contains hspan (hfreeMark mark hmem)
  · intro mark hmem x s' hx hs'
    rw [hties.lineage] at hx
    rw [marks_mark hmark, List.mem_append, List.mem_singleton] at hmem
    rcases hmem with hmem | rfl
    · rcases spanOf_mark_cases hmark hs' with ⟨_, hs⟩ | ⟨hin, s, hs, rfl⟩
      · exact h.foreign mark hmem hx hs
      · exact hgrown hin hs (h.mark mark hmem) (h.foreign mark hmem hx hs) (hfreeMark mark hmem)
    · rcases spanOf_mark_cases hmark hs' with ⟨_, hs⟩ | ⟨hin, _⟩
      · rw [Span.intersects_comm]
        exact Span.apart_of_contains hspan (hfreeNode x s' hx hs)
      · exact absurd hin hx

end Apart

/-! ## No siblings overlap -/

theorem firstOverlap_eq_none {spans : List Span}
    (h : spans.Pairwise fun a b => a.intersects b = false) : firstOverlap spans = none := by
  induction h with
  | nil => rfl
  | @cons first rest hfirst _ ih =>
    have hnone : (rest.find? fun other => other.intersects first) = none := by
      rw [List.find?_eq_none]
      intro other hother
      rw [Span.intersects_comm, hfirst other hother]
      exact Bool.false_ne_true
    rw [firstOverlap, hnone]
    exact ih

/-- Siblings are apart: the marks of a node, and the spans of the nodes right
below it. -/
theorem Apart.siblings_pairwise [DecidableEq O] (h : t.Apart) (htied : t.Tied) {id : Nat}
    {n : Node M O} (hn : t.nodes[id]? = some n) :
    (t.siblings id n).Pairwise fun a b => a.intersects b = false := by
  rw [Tree.siblings, List.pairwise_append]
  refine ⟨?_, ?_, ?_⟩
  · rw [List.pairwise_map]
    exact h.marks.filter _
  · rw [List.pairwise_filterMap]
    apply (htied.nodup_children hn).imp_of_mem
    intro a b ha hb hab s hs s' hs'
    exact h.siblings hn ha hb hab hs hs'
  · intro span hspan own hown
    obtain ⟨mark, hfiltered, rfl⟩ := List.mem_map.1 hspan
    obtain ⟨c, hc, hown⟩ := List.mem_filterMap.1 hown
    obtain ⟨hmark, howner⟩ := List.mem_filter.1 hfiltered
    rw [decide_eq_true_eq] at howner
    subst howner
    replace hown : t.spanOf c = some own := hown
    apply h.foreign mark hmark _ hown
    intro hin
    have := htied.le_of_mem_lineage hin
    have := htied.lt_of_mem_children hn hc
    omega

theorem Apart.check_eq_ok [DecidableEq O] (h : t.Apart) (htied : t.Tied) : t.check = .ok () := by
  have hall : ∀ (ids : List Nat) (visit : Nat → Except Error Unit),
      (∀ id ∈ ids, visit id = .ok ()) → ids.forM visit = .ok () := by
    intro ids visit hvisit
    induction ids with
    | nil => rfl
    | cons id rest ih =>
      rw [List.forM, hvisit id List.mem_cons_self]
      exact ih fun x hx => hvisit x (List.mem_cons_of_mem id hx)
  apply hall
  intro id hid
  obtain ⟨n, hn⟩ := exists_node_of_lt (List.mem_range.1 hid)
  rw [node_eq_ok.2 hn]
  dsimp only [bind, Except.bind]
  rw [firstOverlap_eq_none (h.siblings_pairwise htied hn)]
  rfl

end Reprint.Tree
