import Reprint.Proofs.Tree.Keeping
import Reprint.Proofs.Tree.WellFormed

/-!
# What printing leaves as it is

`Node.Restored` says what printing leaves of a node: all of it but its span
and the position where it takes new text, and besides there may be more nodes
below it.  `Tree.Restored` says that of all nodes of a tree, and that the
marks, the settings and whether the tree is located stay as they are.

Looking a node up and moving such a position restore the tree
(`Restored.getNode`, `Restored.modify`), so printing does (`Restored.prints`),
however far it gets.  Nothing is asked of the tree.

The nodes of the tree after a node was looked up or a piece of the source was
recorded are the restored old ones, and at most one that was made
(`node_of_getNode`, `node_of_mark`).
-/

namespace Reprint

variable {M O : Type}

/-- What printing leaves of a node as it is. -/
structure Node.Restored (n n' : Node M O) : Prop where
  object : n'.object = n.object
  parts : n'.parts = n.parts
  ancestors : n'.ancestors = n.ancestors
  children : n.children <+: n'.children
  parsed : n'.parsed? = n.parsed?
  before : n'.before = n.before
  behind : n'.behind = n.behind
  located : n'.isLocated = n.isLocated

namespace Node.Restored

theorem refl (n : Node M O) : n.Restored n :=
  ⟨rfl, rfl, rfl, List.prefix_refl _, rfl, rfl, rfl, rfl⟩

theorem trans {a b c : Node M O} (hab : a.Restored b) (hbc : b.Restored c) : a.Restored c where
  object := hbc.object.trans hab.object
  parts := hbc.parts.trans hab.parts
  ancestors := hbc.ancestors.trans hab.ancestors
  children := hab.children.trans hbc.children
  parsed := hbc.parsed.trans hab.parsed
  before := hbc.before.trans hab.before
  behind := hbc.behind.trans hab.behind
  located := hbc.located.trans hab.located

/-- A change of the span, or of the position where new text goes. -/
theorem mapPlace (n : Node M O) {g : Place → Place} (hparsed : ∀ p, (g p).parsed = p.parsed)
    (hbefore : ∀ p, (g p).before = p.before) (hbehind : ∀ p, (g p).behind = p.behind)
    (hlocated : ∀ p, (g p).located = p.located) : n.Restored (n.mapPlace g) where
  object := rfl
  parts := rfl
  ancestors := rfl
  children := List.prefix_refl _
  parsed := by
    rw [Node.parsed?, Node.place_mapPlace, Option.map_map]
    exact congrArg (n.place.map ·) (funext hparsed)
  before := before_mapPlace n hbefore
  behind := behind_mapPlace n hbehind
  located := isLocated_mapPlace n hlocated

theorem isSome_place {n n' : Node M O} (h : n.Restored n') : n'.place.isSome = n.place.isSome := by
  simpa [Node.parsed?] using congrArg Option.isSome h.parsed

/-- One more node below. -/
theorem adopt (n : Node M O) (child : Nat) :
    n.Restored { n with children := n.children ++ [child] } :=
  ⟨rfl, rfl, rfl, List.prefix_append _ _, rfl, rfl, rfl, rfl⟩

/-- The same with other parts in both. -/
theorem setParts {n n' : Node M O} (h : n.Restored n') (parts : List (Part M O)) :
    Node.Restored { n with parts := parts } { n' with parts := parts } where
  object := h.object
  parts := rfl
  ancestors := h.ancestors
  children := h.children
  parsed := h.parsed
  before := h.before
  behind := h.behind
  located := h.located

end Node.Restored

namespace Tree

/-- What printing leaves of a tree as it is. -/
structure Restored (t t' : Tree M O) : Prop where
  language : t'.language = t.language
  source : t'.source = t.source
  settings : t'.settings = t.settings
  marks : t'.marks = t.marks
  complete : t'.complete = t.complete
  node : ∀ {id : Nat} {n : Node M O}, t.nodes[id]? = some n →
    ∃ n', t'.nodes[id]? = some n' ∧ n.Restored n'

namespace Restored

variable {t u v : Tree M O}

theorem refl (t : Tree M O) : t.Restored t :=
  ⟨rfl, rfl, rfl, rfl, rfl, fun hn => ⟨_, hn, .refl _⟩⟩

theorem trans (htu : t.Restored u) (huv : u.Restored v) : t.Restored v where
  language := huv.language.trans htu.language
  source := huv.source.trans htu.source
  settings := huv.settings.trans htu.settings
  marks := huv.marks.trans htu.marks
  complete := huv.complete.trans htu.complete
  node hn := by
    obtain ⟨k, hk, hnk⟩ := htu.node hn
    obtain ⟨l, hl, hkl⟩ := huv.node hk
    exact ⟨l, hl, hnk.trans hkl⟩

/-- A change of one node that restores it. -/
theorem modify (t : Tree M O) (id : Nat) {g : Node M O → Node M O}
    (hg : ∀ n : Node M O, n.Restored (g n)) : t.Restored (t.modify id g) where
  language := rfl
  source := rfl
  settings := rfl
  marks := rfl
  complete := rfl
  node {x n} hn := by
    rw [getElem?_modify, hn]
    split
    · exact ⟨_, rfl, hg n⟩
    · exact ⟨_, rfl, .refl n⟩

/-- The position moves where a node takes new text. -/
theorem moved (t : Tree M O) (id : Nat) (q : Position) :
    t.Restored (t.modify id fun n => n.mapPlace fun p => { p with insertion := q }) :=
  .modify t id fun n => .mapPlace n (fun _ => rfl) (fun _ => rfl) (fun _ => rfl) fun _ => rfl

theorem grow (t : Tree M O) (id : Nat) (span : Span) : t.Restored (t.grow id span) where
  language := language_grow t id span
  source := source_grow t id span
  settings := settings_grow t id span
  marks := marks_grow t id span
  complete := complete_grow t id span
  node {x n} hn := by
    rw [getElem?_grow, hn]
    split
    · exact ⟨_, rfl, .mapPlace n (fun _ => rfl) (fun _ => rfl) (fun _ => rfl) fun _ => rfl⟩
    · exact ⟨_, rfl, .refl n⟩

theorem attach (t : Tree M O) (parent : Nat) (object : O) (place : Option Place)
    (parts : List (Part M O)) : t.Restored (t.attach parent object place parts) where
  language := rfl
  source := rfl
  settings := rfl
  marks := rfl
  complete := rfl
  node {x n} hn := by
    rw [getElem?_attach_of_lt (lt_size_of_node hn), hn]
    split
    · exact ⟨_, rfl, .adopt n _⟩
    · exact ⟨_, rfl, .refl n⟩

theorem getNode [DecidableEq O] {m : M} {parent id : Nat} {object : O}
    (h : t.getNode m parent object = .ok (id, u)) : t.Restored u := by
  obtain ⟨_, _, ⟨_, rfl⟩ | ⟨_, _, layout, place, _, _, rfl⟩⟩ := getNode_cases h
  · exact .refl u
  · rw [addNode_some]
    have hattached := Restored.attach t parent object place layout.parts
    cases place with
    | none => exact hattached
    | some p => exact hattached.trans (.grow _ parent p.span)

/-- Looking nodes up and moving the position where new text goes restore the
tree, and so does every way of printing. -/
theorem prints [DecidableEq O] (m : M) (t : Tree M O) : Prints m t.Restored where
  getNode hu hget := hu.trans (.getNode hget)
  insertion id q hu := hu.trans (.moved _ id q)

end Restored

/-! ## The nodes of a later tree -/

/-- A node as it is made for an object that has a layout. -/
structure Makes (m : M) (t : Tree M O) (n : Node M O) : Prop where
  layout : ∃ layout place, t.language.layout m n.object = some layout ∧
    placeOf t.source layout.origin = .ok place ∧ n.parts = layout.parts
  children : n.children = []
  located : n.isLocated = false
  before : n.before = .empty
  behind : n.behind = .empty

section Later

variable {m : M} {t u : Tree M O} {x : Nat} {n' : Node M O}

/-- The nodes of a tree in which a node was looked up: the old ones, one of which
may have one more node below, and the one that was made. -/
theorem node_of_getNode [DecidableEq O] {parent id : Nat} {object : O}
    (h : t.getNode m parent object = .ok (id, u)) (hn' : u.nodes[x]? = some n') :
    (∃ n, t.nodes[x]? = some n ∧ n.Restored n' ∧
      (n'.children = n.children ∨ n'.children = n.children ++ [t.nodes.size])) ∨
      t.nodes.size ≤ x ∧ Makes m t n' := by
  have hrestored := Restored.getNode h
  obtain ⟨k, hk, ⟨_, rfl⟩ | ⟨_, rfl, layout, place, hlayout, hplace, rfl⟩⟩ := getNode_cases h
  · exact Or.inl ⟨n', hn', .refl n', Or.inl rfl⟩
  have hp := lt_size_of_node hk
  rcases Nat.lt_or_ge x t.nodes.size with hx | hx
  · obtain ⟨n, hn⟩ := exists_node_of_lt hx
    obtain ⟨k', hk', hkept⟩ := hrestored.node hn
    obtain rfl := Option.some.inj (hn'.symm.trans hk')
    refine Or.inl ⟨n, hn, hkept, ?_⟩
    rw [getElem?_addNode_of_lt hx hp, hn, Option.map_some, Option.some.injEq] at hn'
    subst hn'
    by_cases hparent : parent = x
    · right
      cases place <;> dsimp only <;> rw [if_pos hparent]
      split <;> rfl
    · left
      cases place <;> dsimp only <;> rw [if_neg hparent]
      split <;> rfl
  · have hsize := lt_size_of_node hn'
    rw [size_addNode] at hsize
    obtain rfl : x = t.nodes.size := by omega
    rw [getElem?_addNode_size object place layout.parts hp] at hn'
    cases hn'
    have hnew : ∀ p, place = some p → p = Place.ofSpan p.span := by
      rintro p rfl
      exact (placeOf_eq_ok hplace).2
    refine Or.inr ⟨hx, ⟨layout, place, hlayout, hplace, rfl⟩, rfl, ?_, ?_, ?_⟩ <;>
      cases place with
      | none => rfl
      | some p =>
        rw [hnew p rfl]
        rfl

/-- When a piece of the source is recorded, the nodes may grow. -/
theorem node_of_mark {owner : Nat} {role : Role} {span : Span}
    (h : t.mark owner role span = .ok u) (hn' : u.nodes[x]? = some n') :
    ∃ n, t.nodes[x]? = some n ∧ n.Restored n' ∧ n'.children = n.children := by
  rw [(mark_eq_ok h).2, getElem?_grow] at hn'
  split at hn'
  · obtain ⟨n, hn, rfl⟩ := Option.map_eq_some_iff.1 hn'
    exact ⟨n, hn, .mapPlace n (fun _ => rfl) (fun _ => rfl) (fun _ => rfl) fun _ => rfl, rfl⟩
  · exact ⟨n', hn', .refl n', rfl⟩

end Later

end Tree

end Reprint
