import Reprint.Proofs.Tree.Arena

/-!
# Well-formed trees

`Tree.Tied` says how the nodes of a tree hang together: every node but the
root has a parent that was made before it and lists it once, and a node has
at most one node below it for an object.  `Tree.Covering` says how they
cover the source: a node has a span exactly if it was read from the source,
and then that span is valid and holds what the node was read from, the spans
of the nodes below, and the pieces that were recorded for any of them.  A
tree with both is `Tree.WellFormed`.

`Tree.Extends` compares a tree with a later one: nodes and recorded pieces
stay, and spans only grow.

The basic operations keep all that: looking a node up or making it
(`WellFormed.getNode`), recording a piece of the source
(`WellFormed.mark`) and retouching a node (`WellFormed.modify`).
-/

namespace Reprint

variable {M O : Type}

namespace Node

/-- What ties a node to the others of its tree. -/
def ties (n : Node M O) : O × List Nat × List Nat := (n.object, n.ancestors, n.children)

/-- The span that the object of the node was read from. -/
def parsed? (n : Node M O) : Option Span := n.place.map Place.parsed

/-- A change of a node that leaves its place in the tree as it is, and what
it covers of the source. -/
structure Retouched (n n' : Node M O) : Prop where
  ties : n'.ties = n.ties
  parsed : n'.parsed? = n.parsed?
  span : n'.span? = n.span?

namespace Retouched

/-- Other parts. -/
theorem parts (n : Node M O) (parts : List (Part M O)) : n.Retouched { n with parts := parts } :=
  ⟨rfl, rfl, rfl⟩

/-- A change of the place in all but the spans. -/
theorem mapPlace (n : Node M O) {g : Place → Place} (hparsed : ∀ p, (g p).parsed = p.parsed)
    (hspan : ∀ p, (g p).span = p.span) : n.Retouched (n.mapPlace g) where
  ties := rfl
  parsed := by
    rw [Node.parsed?, Node.place_mapPlace, Option.map_map]
    exact congrArg (n.place.map ·) (funext hparsed)
  span := by
    rw [Node.span?, Node.place_mapPlace, Option.map_map]
    exact congrArg (n.place.map ·) (funext hspan)

/-- The end of the visit of the node. -/
theorem finish (n : Node M O) (parts : List (Part M O)) (q : Position) :
    n.Retouched (n.finish parts q) :=
  ⟨rfl, by simp [Node.parsed?, Function.comp_def], n.span?_finish parts q⟩

theorem children {n n' : Node M O} (h : n.Retouched n') : n'.children = n.children :=
  congrArg (fun x => x.2.2) h.ties

end Retouched

/-- What a node keeps in every later tree. -/
structure Extends (n n' : Node M O) : Prop where
  object : n'.object = n.object
  ancestors : n'.ancestors = n.ancestors
  children : n.children <+: n'.children
  parsed : n'.parsed? = n.parsed?
  span : ∀ {s : Span}, n.span? = some s → ∃ s', n'.span? = some s' ∧ s'.contains s = true

namespace Extends

theorem refl (n : Node M O) : n.Extends n :=
  ⟨rfl, rfl, List.prefix_refl _, rfl, fun hs => ⟨_, hs, Span.contains_self _⟩⟩

theorem trans {a b c : Node M O} (hab : a.Extends b) (hbc : b.Extends c) : a.Extends c where
  object := hbc.object.trans hab.object
  ancestors := hbc.ancestors.trans hab.ancestors
  children := hab.children.trans hbc.children
  parsed := hbc.parsed.trans hab.parsed
  span hs := by
    obtain ⟨s', hs', hgrown⟩ := hab.span hs
    obtain ⟨s'', hs'', hgrown'⟩ := hbc.span hs'
    exact ⟨s'', hs'', Span.contains_trans hgrown' hgrown⟩

theorem of_retouched {n n' : Node M O} (h : n.Retouched n') : n.Extends n' where
  object := congrArg Prod.fst h.ties
  ancestors := congrArg (fun x => x.2.1) h.ties
  children := h.children ▸ List.prefix_refl n'.children
  parsed := h.parsed
  span hs := ⟨_, h.span.trans hs, Span.contains_self _⟩

end Extends

end Node

namespace Tree

/-! ## Later trees -/

/-- What a tree keeps while it is worked on: its nodes and marks stay, and
spans only grow. -/
structure Extends (t t' : Tree M O) : Prop where
  language : t'.language = t.language
  source : t'.source = t.source
  marks : t.marks <+: t'.marks
  node : ∀ {id : Nat} {n : Node M O}, t.nodes[id]? = some n →
    ∃ n', t'.nodes[id]? = some n' ∧ n.Extends n'

namespace Extends

variable {t u v : Tree M O}

theorem refl (t : Tree M O) : t.Extends t :=
  ⟨rfl, rfl, List.prefix_refl _, fun hn => ⟨_, hn, .refl _⟩⟩

theorem trans (htu : t.Extends u) (huv : u.Extends v) : t.Extends v where
  language := huv.language.trans htu.language
  source := huv.source.trans htu.source
  marks := htu.marks.trans huv.marks
  node hn := by
    obtain ⟨k, hk, hnk⟩ := htu.node hn
    obtain ⟨l, hl, hkl⟩ := huv.node hk
    exact ⟨l, hl, hnk.trans hkl⟩

/-- Retouching a node. -/
theorem modify (t : Tree M O) (id : Nat) {g : Node M O → Node M O}
    (hg : ∀ n : Node M O, n.Retouched (g n)) : t.Extends (t.modify id g) where
  language := rfl
  source := rfl
  marks := List.prefix_refl _
  node {x n} hn := by
    rw [getElem?_modify, hn]
    split
    · exact ⟨_, rfl, .of_retouched (hg n)⟩
    · exact ⟨_, rfl, .refl n⟩

/-- Growing along a lineage. -/
theorem grow (t : Tree M O) (id : Nat) (span : Span) : t.Extends (t.grow id span) where
  language := language_grow t id span
  source := source_grow t id span
  marks := (marks_grow t id span) ▸ List.prefix_refl (t.grow id span).marks
  node {x n} hn := by
    rw [getElem?_grow, hn]
    split
    · refine ⟨_, rfl, rfl, rfl, List.prefix_refl _, ?_, fun {s} hs => ?_⟩
      · exact Option.map_map ..
      · refine ⟨s.union span, ?_, Span.union_contains_left s span⟩
        obtain ⟨p, hp, rfl⟩ := Option.map_eq_some_iff.1 hs
        simp [Node.span?, hp, Place.grow]
    · exact ⟨_, rfl, .refl n⟩

theorem mark {owner : Nat} {role : Role} {span : Span} (h : t.mark owner role span = .ok u) :
    t.Extends u := by
  have hmarked : t.Extends { t with marks := t.marks ++ [⟨owner, role, span⟩] } :=
    ⟨rfl, rfl, List.prefix_append _ _, fun hn => ⟨_, hn, .refl _⟩⟩
  rw [(mark_eq_ok h).2]
  exact hmarked.trans (.grow _ owner span)

/-- Hanging a new node below another. -/
theorem attach (t : Tree M O) (parent : Nat) (object : O) (place : Option Place)
    (parts : List (Part M O)) : t.Extends (t.attach parent object place parts) where
  language := rfl
  source := rfl
  marks := List.prefix_refl _
  node {x n} hn := by
    rw [getElem?_attach_of_lt (lt_size_of_node hn), hn]
    split
    · exact ⟨_, rfl, rfl, rfl, List.prefix_append _ _, rfl,
        fun hs => ⟨_, hs, Span.contains_self _⟩⟩
    · exact ⟨_, rfl, .refl n⟩

theorem addNode (t : Tree M O) (parent : Nat) (object : O) (place : Option Place)
    (parts : List (Part M O)) : t.Extends (t.addNode (some parent) object place parts) := by
  rw [addNode_some]
  cases place with
  | none => exact .attach t parent object none parts
  | some p => exact (Extends.attach t parent object (some p) parts).trans (.grow _ parent p.span)

theorem getNode [DecidableEq O] {m : M} {parent id : Nat} {object : O}
    (h : t.getNode m parent object = .ok (id, u)) : t.Extends u := by
  obtain ⟨_, _, ⟨_, rfl⟩ | ⟨_, _, layout, place, _, _, rfl⟩⟩ := getNode_cases h
  · exact .refl u
  · exact .addNode t parent object place layout.parts

/-- A lineage stays as it is. -/
theorem lineage (h : t.Extends u) {id : Nat} (hid : id < t.nodes.size) :
    u.lineage id = t.lineage id := by
  obtain ⟨n, hn⟩ := exists_node_of_lt hid
  obtain ⟨n', hn', hextends⟩ := h.node hn
  rw [lineage_eq hn, lineage_eq hn', hextends.ancestors]

end Extends

/-! ## How nodes hang together -/

/-- Two trees whose nodes hang together in the same way. -/
def SameTies (t t' : Tree M O) : Prop :=
  ∀ id : Nat, (t'.nodes[id]?).map Node.ties = (t.nodes[id]?).map Node.ties

namespace SameTies

variable {t t' : Tree M O}

theorem symm (h : t.SameTies t') : t'.SameTies t := fun id => (h id).symm

theorem node (h : t.SameTies t') {id : Nat} {n : Node M O} (hn : t.nodes[id]? = some n) :
    ∃ n', t'.nodes[id]? = some n' ∧ n'.object = n.object ∧ n'.ancestors = n.ancestors ∧
      n'.children = n.children := by
  have hid := h id
  rw [hn] at hid
  obtain ⟨n', hn', hties⟩ := Option.map_eq_some_iff.1 hid
  exact ⟨n', hn', congrArg Prod.fst hties, congrArg (fun x => x.2.1) hties,
    congrArg (fun x => x.2.2) hties⟩

theorem lineage (h : t.SameTies t') (id : Nat) : t'.lineage id = t.lineage id := by
  cases hn : t.nodes[id]? with
  | none =>
    have hn' : t'.nodes[id]? = none := by
      have hid := h id
      rw [hn] at hid
      exact Option.map_eq_none_iff.1 hid
    rw [Tree.lineage, Tree.lineage, hn, hn']
  | some n =>
    obtain ⟨n', hn', _, hancestors, _⟩ := h.node hn
    rw [lineage_eq hn, lineage_eq hn', hancestors]

theorem below? [DecidableEq O] (h : t.SameTies t') {n n' : Node M O}
    (hchildren : n'.children = n.children) (object : O) :
    t'.below? n' object = t.below? n object := by
  have hmapped : ∀ k : Option (Node M O), (k.any fun c : Node M O => decide (c.object = object)) =
      (k.map Node.ties).any fun x => decide (x.1 = object) := by
    intro k
    cases k <;> rfl
  rw [Tree.below?, Tree.below?, hchildren]
  refine congrArg (n.children.find? ·) (funext fun id => ?_)
  rw [hmapped, hmapped, h id]

/-- Retouching a node does not touch its ties. -/
theorem modify (t : Tree M O) (id : Nat) {g : Node M O → Node M O}
    (hg : ∀ n : Node M O, n.Retouched (g n)) : t.SameTies (t.modify id g) := by
  intro x
  rw [getElem?_modify]
  split
  · rw [Option.map_map]
    exact congrArg ((t.nodes[x]?).map ·) (funext fun n => (hg n).ties)
  · rfl

theorem grow (t : Tree M O) (id : Nat) (span : Span) : t.SameTies (t.grow id span) := by
  intro x
  rw [getElem?_grow]
  split
  · rw [Option.map_map]
    rfl
  · rfl

end SameTies

section AttachNode

variable {t : Tree M O} {parent : Nat} {object : O} {place : Option Place}
  {parts : List (Part M O)}

/-- An old node in a tree with a new last one. -/
theorem attach_node {x : Nat} {k : Node M O} (hk : t.nodes[x]? = some k) :
    (t.attach parent object place parts).nodes[x]? =
      some { k with children := k.children ++ if parent = x then [t.nodes.size] else [] } := by
  rw [getElem?_attach_of_lt (lt_size_of_node hk), hk]
  by_cases hx : parent = x
  · rw [if_pos hx, if_pos hx, Option.map_some]
  · rw [if_neg hx, if_neg hx, List.append_nil]

/-- The nodes of a tree with a new last one: an old one, whose parent may
list the new one now, or the new one. -/
theorem node_attach {x : Nat} {k' : Node M O}
    (h : (t.attach parent object place parts).nodes[x]? = some k') (hp : parent < t.nodes.size) :
    (∃ k, t.nodes[x]? = some k ∧
      k' = { k with children := k.children ++ if parent = x then [t.nodes.size] else [] }) ∨
      x = t.nodes.size ∧ k' = ⟨object, t.lineage parent, [], place, parts⟩ := by
  by_cases hx : x < t.nodes.size
  · obtain ⟨k, hk⟩ := exists_node_of_lt hx
    rw [attach_node hk] at h
    exact Or.inl ⟨k, hk, (Option.some.inj h).symm⟩
  · have := lt_size_of_node h
    rw [size_attach] at this
    obtain rfl : x = t.nodes.size := by omega
    rw [getElem?_attach_size hp] at h
    exact Or.inr ⟨rfl, (Option.some.inj h).symm⟩

/-- The nodes below an old node, with the new one behind all others. -/
theorem below?_attach [DecidableEq O] {x : Nat} {k : Node M O} (o : O)
    (hp : parent < t.nodes.size) (hchildren : ∀ c ∈ k.children, c < t.nodes.size) :
    (t.attach parent object place parts).below?
        { k with children := k.children ++ if parent = x then [t.nodes.size] else [] } o =
      (t.below? k o).or (if parent = x ∧ object = o then some t.nodes.size else none) := by
  have hnew : (t.attach parent object place parts).nodes[t.nodes.size]? =
      some ⟨object, t.lineage parent, [], place, parts⟩ := getElem?_attach_size hp
  rw [Tree.below?, List.find?_append, Tree.below?]
  congr 1
  · apply List.find?_congr
    intro c hc
    obtain ⟨l, hl⟩ := exists_node_of_lt (hchildren c hc)
    rw [attach_node hl, hl]
    rfl
  · by_cases hx : parent = x
    · rw [if_pos hx, List.find?_singleton, hnew]
      by_cases ho : object = o <;> simp [hx, ho]
    · simp [hx]

end AttachNode

section Ties

variable [DecidableEq O]

/-- The parent of every node but the root, and the nodes below a node. -/
structure Tied (t : Tree M O) : Prop where
  root : ∃ n, t.nodes[Tree.root]? = some n ∧ n.ancestors = []
  parent : ∀ {id : Nat} {n : Node M O}, t.nodes[id]? = some n → id ≠ Tree.root →
    ∃ p k, n.parent = some p ∧ t.nodes[p]? = some k ∧ p < id ∧ n.ancestors = t.lineage p ∧
      k.children.count id = 1
  child : ∀ {id c : Nat} {n : Node M O}, t.nodes[id]? = some n → c ∈ n.children →
    ∃ k, t.nodes[c]? = some k ∧ k.parent = some id ∧ t.below? n k.object = some c

namespace Tied

variable {t t' : Tree M O}

theorem of_sameTies (h : t.Tied) (hsame : t.SameTies t') : t'.Tied where
  root := by
    obtain ⟨n, hn, hancestors⟩ := h.root
    obtain ⟨n', hn', _, hsame, _⟩ := hsame.node hn
    exact ⟨n', hn', hsame.trans hancestors⟩
  parent {id n'} hn' hid := by
    obtain ⟨n, hn, _, hancestors, _⟩ := hsame.symm.node hn'
    obtain ⟨p, k, hp, hk, hlt, hlineage, hcount⟩ := h.parent hn hid
    obtain ⟨k', hk', _, _, hchildren⟩ := hsame.node hk
    refine ⟨p, k', ?_, hk', hlt, ?_, ?_⟩
    · rw [Node.parent, ← hancestors]
      exact hp
    · rw [hsame.lineage, ← hancestors]
      exact hlineage
    · rw [hchildren]
      exact hcount
  child {id c n'} hn' hc := by
    obtain ⟨n, hn, _, _, hchildren⟩ := hsame.symm.node hn'
    obtain ⟨k, hk, hparent, hbelow⟩ := h.child hn (hchildren ▸ hc)
    obtain ⟨k', hk', hobject, hancestors, _⟩ := hsame.node hk
    refine ⟨k', hk', ?_, ?_⟩
    · rw [Node.parent, hancestors]
      exact hparent
    · rw [hobject, hsame.below? hchildren.symm]
      exact hbelow

/-- The ancestors of a node were made before it. -/
theorem lt_of_mem_ancestors (h : t.Tied) {a : Nat} : ∀ (id : Nat) {n : Node M O},
    t.nodes[id]? = some n → a ∈ n.ancestors → a < id := by
  intro id
  induction id using Nat.strongRecOn with
  | _ id ih =>
    intro n hn ha
    have hid : id ≠ Tree.root := by
      rintro rfl
      obtain ⟨n', hn', hnil⟩ := h.root
      rw [hn] at hn'
      cases hn'
      rw [hnil] at ha
      cases ha
    obtain ⟨p, k, _, hk, hlt, hlineage, _⟩ := h.parent hn hid
    rw [hlineage, lineage_eq hk, List.mem_cons] at ha
    rcases ha with rfl | ha
    · exact hlt
    · exact Nat.lt_trans (ih p hlt hk ha) hlt

/-- The lineage of a node in a lineage is a part of that lineage. -/
theorem mem_lineage_trans (h : t.Tied) {x a : Nat} (ha : a ∈ t.lineage x) : ∀ id : Nat,
    x ∈ t.lineage id → a ∈ t.lineage id := by
  intro id
  induction id using Nat.strongRecOn with
  | _ id ih =>
    intro hx
    cases hn : t.nodes[id]? with
    | none =>
      rw [Tree.lineage, hn] at hx
      cases hx
    | some n =>
      have hlineage := lineage_eq hn
      rw [hlineage, List.mem_cons] at hx ⊢
      rcases hx with rfl | hx
      · rw [hlineage, List.mem_cons] at ha
        exact ha
      · have hid : id ≠ Tree.root := by
          have := h.lt_of_mem_ancestors id hn hx
          unfold Tree.root
          omega
        obtain ⟨p, _, _, _, hlt, hancestors, _⟩ := h.parent hn hid
        rw [hancestors] at hx ⊢
        exact Or.inr (ih p hlt hx)

/-- A lineage has no other nodes than those of the tree. -/
theorem lt_size_of_mem_lineage (h : t.Tied) {id x : Nat} (hx : x ∈ t.lineage id) :
    x < t.nodes.size := by
  cases hn : t.nodes[id]? with
  | none =>
    rw [Tree.lineage, hn] at hx
    cases hx
  | some n =>
    rw [lineage_eq hn, List.mem_cons] at hx
    rcases hx with rfl | hx
    · exact lt_size_of_node hn
    · exact Nat.lt_trans (h.lt_of_mem_ancestors id hn hx) (lt_size_of_node hn)

theorem lt_size_of_mem_children (h : t.Tied) {id c : Nat} {n : Node M O}
    (hn : t.nodes[id]? = some n) (hc : c ∈ n.children) : c < t.nodes.size := by
  obtain ⟨_, hk, _⟩ := h.child hn hc
  exact lt_size_of_node hk

/-- A new node for an object that its parent has no node for. -/
theorem attach (h : t.Tied) {parent : Nat} {n : Node M O} {object : O} (place : Option Place)
    (parts : List (Part M O)) (hn : t.nodes[parent]? = some n) (hnone : t.below? n object = none) :
    (t.attach parent object place parts).Tied := by
  have hp := lt_size_of_node hn
  have hnew : (t.attach parent object place parts).nodes[t.nodes.size]? =
      some ⟨object, t.lineage parent, [], place, parts⟩ := getElem?_attach_size hp
  have hfresh : ∀ {x : Nat} {k : Node M O}, t.nodes[x]? = some k →
      ∀ c ∈ k.children, c < t.nodes.size := fun hk c hc => h.lt_size_of_mem_children hk hc
  refine ⟨?_, ?_, ?_⟩
  · obtain ⟨k, hk, hnil⟩ := h.root
    exact ⟨_, attach_node hk, hnil⟩
  · intro x k' hk' hx
    rcases node_attach hk' hp with ⟨k, hk, rfl⟩ | ⟨rfl, rfl⟩
    · obtain ⟨p, l, hparent, hl, hlt, hlineage, hcount⟩ := h.parent hk hx
      refine ⟨p, _, hparent, attach_node hl, hlt, ?_, ?_⟩
      · rw [lineage_attach (lt_size_of_node hl)]
        exact hlineage
      · have hother : List.count x (if parent = p then [t.nodes.size] else []) = 0 := by
          have := lt_size_of_node hk
          apply List.count_eq_zero.2
          split
          · rw [List.mem_singleton]
            omega
          · exact List.not_mem_nil
        show List.count x (l.children ++ _) = 1
        rw [List.count_append, hcount, hother]
    · refine ⟨parent, _, ?_, attach_node hn, hp, (lineage_attach hp).symm, ?_⟩
      · rw [Node.parent, lineage_eq hn, List.head?_cons]
      · have hother : List.count t.nodes.size n.children = 0 :=
          List.count_eq_zero.2 fun hmem => Nat.lt_irrefl _ (hfresh hn _ hmem)
        show List.count _ (n.children ++ _) = 1
        rw [List.count_append, hother, if_pos rfl, List.count_singleton_self]
  · intro x c k' hk' hc
    rcases node_attach hk' hp with ⟨k, hk, rfl⟩ | ⟨rfl, rfl⟩
    · rcases List.mem_append.1 hc with hold | hlast
      · obtain ⟨l, hl, hparent, hbelow⟩ := h.child hk hold
        refine ⟨_, attach_node hl, hparent, ?_⟩
        show Tree.below? _ _ l.object = _
        rw [below?_attach l.object hp (hfresh hk), hbelow, Option.some_or]
      · split at hlast
        · subst x
          rw [List.mem_singleton] at hlast
          subst hlast
          rw [hn] at hk
          cases hk
          refine ⟨_, hnew, ?_, ?_⟩
          · rw [Node.parent, lineage_eq hn, List.head?_cons]
          · rw [below?_attach object hp (hfresh hn), hnone, Option.none_or, if_pos ⟨rfl, rfl⟩]
        · cases hlast
    · cases hc

theorem addNode (h : t.Tied) {parent : Nat} {n : Node M O} {object : O} (place : Option Place)
    (parts : List (Part M O)) (hn : t.nodes[parent]? = some n) (hnone : t.below? n object = none) :
    (t.addNode (some parent) object place parts).Tied := by
  rw [addNode_some]
  cases place with
  | none => exact h.attach none parts hn hnone
  | some p => exact (h.attach (some p) parts hn hnone).of_sameTies (.grow _ parent p.span)

/-- The lineage of a node below another one. -/
theorem lineage_child (h : t.Tied) {id c : Nat} {n : Node M O} (hn : t.nodes[id]? = some n)
    (hc : c ∈ n.children) : t.lineage c = c :: t.lineage id := by
  obtain ⟨k, hk, hparent, _⟩ := h.child hn hc
  have hroot : c ≠ Tree.root := by
    rintro rfl
    obtain ⟨k', hk', hnil⟩ := h.root
    rw [hk] at hk'
    cases hk'
    rw [Node.parent, hnil] at hparent
    cases hparent
  obtain ⟨p, _, hparent', _, _, hancestors, _⟩ := h.parent hk hroot
  rw [hparent] at hparent'
  cases hparent'
  rw [lineage_eq hk, hancestors]

/-- A node does not come after one of its ancestors. -/
theorem le_of_mem_lineage (h : t.Tied) {id a : Nat} (ha : a ∈ t.lineage id) : a ≤ id := by
  cases hn : t.nodes[id]? with
  | none =>
    rw [Tree.lineage, hn] at ha
    cases ha
  | some n =>
    rw [lineage_eq hn, List.mem_cons] at ha
    rcases ha with rfl | ha
    · exact Nat.le_refl a
    · exact Nat.le_of_lt (h.lt_of_mem_ancestors id hn ha)

theorem lt_of_mem_children (h : t.Tied) {id c : Nat} {n : Node M O} (hn : t.nodes[id]? = some n)
    (hc : c ∈ n.children) : id < c := by
  obtain ⟨k, hk, _⟩ := h.child hn hc
  have hlineage := h.lineage_child hn hc
  rw [lineage_eq hk, List.cons.injEq] at hlineage
  apply h.lt_of_mem_ancestors c hk
  rw [hlineage.2, lineage_eq hn]
  exact List.mem_cons_self

/-- The lineage of a node that was looked up or made. -/
theorem lineage_of_getNode {m : M} {parent id : Nat} {object : O} (h : t.Tied)
    (hget : t.getNode m parent object = .ok (id, t')) : t'.lineage id = id :: t.lineage parent := by
  obtain ⟨n, hn, ⟨hbelow, rfl⟩ | ⟨_, rfl, layout, place, _, _, rfl⟩⟩ := getNode_cases hget
  · exact h.lineage_child hn (below?_eq_some hbelow).1
  · exact lineage_eq (getElem?_addNode_size object place layout.parts (lt_size_of_node hn))

end Tied

end Ties

/-! ## What nodes cover -/

/-- What the nodes of a tree cover of the source. -/
structure Covering (t : Tree M O) : Prop where
  parsed : ∀ {id : Nat} {n : Node M O} {r : Span}, t.nodes[id]? = some n → n.parsed? = some r →
    ∃ s, n.span? = some s ∧ t.source.validateBounds s.toBounds = .ok () ∧ s.contains r = true
  spanned : ∀ {id : Nat} {n : Node M O} {s : Span}, t.nodes[id]? = some n → n.span? = some s →
    ∃ r, n.parsed? = some r
  nested : ∀ {id a : Nat} {n k : Node M O} {s s' : Span}, t.nodes[id]? = some n →
    n.span? = some s → a ∈ n.ancestors → t.nodes[a]? = some k → k.span? = some s' →
    s'.contains s = true
  owned : ∀ {mark : Mark}, mark ∈ t.marks → mark.owner < t.nodes.size
  marked : ∀ {mark : Mark} {a : Nat} {k : Node M O} {s : Span}, mark ∈ t.marks →
    a ∈ t.lineage mark.owner → t.nodes[a]? = some k → k.span? = some s →
    s.contains mark.span = true

/-- The spans of a grown tree. -/
theorem node_grow {t : Tree M O} {id x : Nat} {span : Span} {n' : Node M O}
    (h : (t.grow id span).nodes[x]? = some n') :
    ∃ n, t.nodes[x]? = some n ∧ n'.ancestors = n.ancestors ∧ n'.parsed? = n.parsed? ∧
      n'.span? = if x ∈ t.lineage id then n.span?.map fun s => s.union span else n.span? := by
  rw [getElem?_grow] at h
  by_cases hx : x ∈ t.lineage id
  · rw [if_pos hx] at h
    obtain ⟨n, hn, rfl⟩ := Option.map_eq_some_iff.1 h
    refine ⟨n, hn, rfl, Option.map_map .., ?_⟩
    rw [if_pos hx]
    show (n.place.map _).map Place.span = (n.place.map Place.span).map _
    rw [Option.map_map, Option.map_map]
    rfl
  · rw [if_neg hx] at h
    exact ⟨n', h, rfl, rfl, (if_neg hx).symm⟩

namespace Covering

variable {t : Tree M O}

theorem valid (h : t.Covering) {id : Nat} {n : Node M O} {s : Span} (hn : t.nodes[id]? = some n)
    (hs : n.span? = some s) : t.source.validateBounds s.toBounds = .ok () := by
  obtain ⟨r, hr⟩ := h.spanned hn hs
  obtain ⟨s', hs', hvalid, _⟩ := h.parsed hn hr
  rw [hs] at hs'
  cases hs'
  exact hvalid

/-- Retouching a node. -/
theorem modify (h : t.Covering) (id : Nat) {g : Node M O → Node M O}
    (hg : ∀ n : Node M O, n.Retouched (g n)) : (t.modify id g).Covering := by
  have hsame := SameTies.modify t id hg
  have hnode : ∀ {x : Nat} {n' : Node M O}, (t.modify id g).nodes[x]? = some n' →
      ∃ n, t.nodes[x]? = some n ∧ n.Retouched n' := by
    intro x n' hn'
    rcases modify_cases hn' with ⟨n, _, hn, rfl⟩ | ⟨_, hn⟩
    · exact ⟨n, hn, hg n⟩
    · exact ⟨n', hn, ⟨rfl, rfl, rfl⟩⟩
  constructor
  · intro x n' r hn' hr
    obtain ⟨n, hn, hretouched⟩ := hnode hn'
    rw [hretouched.parsed] at hr
    rw [hretouched.span]
    exact h.parsed hn hr
  · intro x n' s hn' hs
    obtain ⟨n, hn, hretouched⟩ := hnode hn'
    rw [hretouched.span] at hs
    rw [hretouched.parsed]
    exact h.spanned hn hs
  · intro x a n' k' s s' hn' hs ha hk' hs'
    obtain ⟨n, hn, hretouched⟩ := hnode hn'
    obtain ⟨k, hk, hretouched'⟩ := hnode hk'
    have hancestors : n'.ancestors = n.ancestors := congrArg (fun x => x.2.1) hretouched.ties
    rw [hancestors] at ha
    exact h.nested hn (hretouched.span ▸ hs) ha hk (hretouched'.span ▸ hs')
  · intro mark hmark
    rw [size_modify]
    exact h.owned hmark
  · intro mark a k' s hmark ha hk' hs
    obtain ⟨k, hk, hretouched⟩ := hnode hk'
    rw [hsame.lineage] at ha
    exact h.marked hmark ha hk (hretouched.span ▸ hs)

/-- Growing along a lineage.  The ancestors of a node that grows do so, too. -/
theorem grow [DecidableEq O] (h : t.Covering) (htied : t.Tied) (id : Nat) {span : Span}
    (hspan : t.source.validateBounds span.toBounds = .ok ()) : (t.grow id span).Covering := by
  have hsame := SameTies.grow t id span
  -- a span is there in the grown tree, as it was or united with the new one
  have hgrown : ∀ {x : Nat} {n : Node M O} {s' : Span},
      (if x ∈ t.lineage id then n.span?.map fun s => s.union span else n.span?) = some s' →
      ∃ s, n.span? = some s ∧ s'.contains s = true ∧ (x ∈ t.lineage id → s' = s.union span) ∧
        (x ∉ t.lineage id → s' = s) := by
    intro x n s' hs'
    split at hs'
    · next hx =>
      obtain ⟨s, hs, rfl⟩ := Option.map_eq_some_iff.1 hs'
      exact ⟨s, hs, Span.union_contains_left s span, fun _ => rfl, fun hnot => absurd hx hnot⟩
    · next hx => exact ⟨s', hs', Span.contains_self s', fun hin => absurd hin hx, fun _ => rfl⟩
  constructor
  · intro x n' r hn' hr
    obtain ⟨n, hn, _, hparsed, hspan'⟩ := node_grow hn'
    rw [hparsed] at hr
    obtain ⟨s, hs, hvalid, hcontains⟩ := h.parsed hn hr
    rw [hspan', source_grow, hs]
    split
    · exact ⟨s.union span, rfl, Source.validateBounds_union hvalid hspan,
        Span.contains_trans (Span.union_contains_left s span) hcontains⟩
    · exact ⟨s, rfl, hvalid, hcontains⟩
  · intro x n' s' hn' hs'
    obtain ⟨n, hn, _, hparsed, hspan'⟩ := node_grow hn'
    rw [hspan'] at hs'
    obtain ⟨s, hs, _⟩ := hgrown hs'
    rw [hparsed]
    exact h.spanned hn hs
  · intro x a n' k' s' r' hn' hs' ha hk' hr'
    obtain ⟨n, hn, hancestors, _, hspan'⟩ := node_grow hn'
    obtain ⟨k, hk, _, _, hspan''⟩ := node_grow hk'
    rw [hspan'] at hs'
    rw [hspan''] at hr'
    rw [hancestors] at ha
    obtain ⟨s, hs, _, hin, hout⟩ := hgrown hs'
    obtain ⟨r, hr, hwider, hin', _⟩ := hgrown hr'
    have hnested := h.nested hn hs ha hk hr
    by_cases hx : x ∈ t.lineage id
    · have hax : a ∈ t.lineage id := by
        apply htied.mem_lineage_trans (x := x) _ id hx
        rw [lineage_eq hn]
        exact List.mem_cons_of_mem _ ha
      rw [hin hx, hin' hax]
      apply Span.contains_union
      · exact Span.contains_trans (Span.union_contains_left r span) hnested
      · exact Span.union_contains_right r span
    · rw [hout hx]
      exact Span.contains_trans hwider hnested
  · intro mark hmark
    rw [size_grow]
    rw [marks_grow] at hmark
    exact h.owned hmark
  · intro mark a k' s' hmark ha hk' hs'
    obtain ⟨k, hk, _, _, hspan'⟩ := node_grow hk'
    rw [marks_grow] at hmark
    rw [hsame.lineage] at ha
    rw [hspan'] at hs'
    obtain ⟨s, hs, hwider, _⟩ := hgrown hs'
    exact Span.contains_trans hwider (h.marked hmark ha hk hs)

/-- A piece of the source that the lineage of its owner covers. -/
theorem addMark (h : t.Covering) {owner : Nat} {span : Span} (role : Role)
    (howner : owner < t.nodes.size)
    (hcovered : ∀ {a : Nat} {k : Node M O} {s : Span}, a ∈ t.lineage owner →
      t.nodes[a]? = some k → k.span? = some s → s.contains span = true) :
    Covering { t with marks := t.marks ++ [⟨owner, role, span⟩] } where
  parsed := h.parsed
  spanned := h.spanned
  nested := h.nested
  owned {mark} hmark := by
    rcases List.mem_append.1 hmark with hold | hlast
    · exact h.owned hold
    · obtain rfl := List.mem_singleton.1 hlast
      exact howner
  marked {mark a k s} hmark ha hk hs := by
    rcases List.mem_append.1 hmark with hold | hlast
    · exact h.marked hold ha hk hs
    · obtain rfl := List.mem_singleton.1 hlast
      exact hcovered ha hk hs

/-- A new node that was read from a valid span, which the lineage of its
parent covers. -/
theorem attach [DecidableEq O] (h : t.Covering) (htied : t.Tied) {parent : Nat} (object : O)
    {place : Option Place} (parts : List (Part M O)) (hp : parent < t.nodes.size)
    (hplace : ∀ {p : Place}, place = some p → p = Place.ofSpan p.span ∧
      t.source.validateBounds p.span.toBounds = .ok () ∧
      ∀ {a : Nat} {k : Node M O} {s : Span}, a ∈ t.lineage parent → t.nodes[a]? = some k →
        k.span? = some s → s.contains p.span = true) :
    (t.attach parent object place parts).Covering := by
  have hbefore : ∀ {a x : Nat} {k k' : Node M O}, t.nodes[x]? = some k → a ∈ t.lineage x →
      (t.attach parent object place parts).nodes[a]? = some k' →
      ∃ l, t.nodes[a]? = some l ∧ k'.span? = l.span? := by
    intro a x k k' _ ha hk'
    rcases node_attach hk' hp with ⟨l, hl, rfl⟩ | ⟨rfl, _⟩
    · exact ⟨l, hl, rfl⟩
    · exact absurd (htied.lt_size_of_mem_lineage ha) (Nat.lt_irrefl _)
  constructor
  · intro x n' r hn' hr
    rcases node_attach hn' hp with ⟨n, hn, rfl⟩ | ⟨rfl, rfl⟩
    · exact h.parsed (n := n) hn hr
    · obtain ⟨p, hplaced, rfl⟩ := Option.map_eq_some_iff.1 hr
      obtain ⟨hfresh, hvalid, _⟩ := hplace hplaced
      refine ⟨p.span, congrArg (Option.map Place.span) hplaced, hvalid, ?_⟩
      rw [hfresh]
      exact Span.contains_self _
  · intro x n' s hn' hs
    rcases node_attach hn' hp with ⟨n, hn, rfl⟩ | ⟨rfl, rfl⟩
    · exact h.spanned (n := n) hn hs
    · obtain ⟨p, hplaced, _⟩ := Option.map_eq_some_iff.1 hs
      exact ⟨p.parsed, congrArg (Option.map Place.parsed) hplaced⟩
  · intro x a n' k' s s' hn' hs ha hk' hs'
    rcases node_attach hn' hp with ⟨n, hn, rfl⟩ | ⟨rfl, rfl⟩
    · have hlineage : a ∈ t.lineage x := by
        rw [lineage_eq hn]
        exact List.mem_cons_of_mem _ ha
      obtain ⟨l, hl, hspan⟩ := hbefore hn hlineage hk'
      exact h.nested hn hs ha hl (hspan ▸ hs')
    · obtain ⟨p, hplaced, rfl⟩ := Option.map_eq_some_iff.1 hs
      obtain ⟨n, hn⟩ := exists_node_of_lt hp
      obtain ⟨l, hl, hspan⟩ := hbefore hn ha hk'
      obtain ⟨_, _, hcovered⟩ := hplace hplaced
      exact hcovered ha hl (hspan ▸ hs')
  · intro mark hmark
    have := h.owned hmark
    rw [size_attach]
    omega
  · intro mark a k' s hmark ha hk' hs
    have howner := h.owned hmark
    obtain ⟨n, hn⟩ := exists_node_of_lt howner
    rw [lineage_attach howner] at ha
    obtain ⟨l, hl, hspan⟩ := hbefore hn ha hk'
    exact h.marked hmark ha hl (hspan ▸ hs)

end Covering

/-! ## Well-formed trees -/

/-- Marking does not look at the marks that are there. -/
theorem grow_marks (t : Tree M O) (id : Nat) (span : Span) (marks : List Mark) :
    Tree.grow { t with marks := marks } id span = { t.grow id span with marks := marks } := by
  have hfold : ∀ (ids : List Nat) (g : Node M O → Node M O) (u : Tree M O),
      ids.foldl (fun t a => t.modify a g) { u with marks := marks } =
        { ids.foldl (fun t a => t.modify a g) u with marks := marks } := by
    intro ids g
    induction ids with
    | nil => intro u; rfl
    | cons a rest ih => intro u; exact ih (u.modify a g)
  exact hfold (t.lineage id) _ t

/-- The parent of a new node may as well grow before the node is there. -/
theorem addNode_eq_attach {t : Tree M O} {parent : Nat} {object : O} {place : Place}
    {parts : List (Part M O)} (hp : parent < t.nodes.size) :
    t.addNode (some parent) object (some place) parts =
      (t.grow parent place.span).attach parent object (some place) parts := by
  have hsize : (t.grow parent place.span).nodes.size = t.nodes.size := size_grow t parent place.span
  have hnodes : (t.addNode (some parent) object (some place) parts).nodes =
      ((t.grow parent place.span).attach parent object (some place) parts).nodes := by
    apply Array.ext_getElem?
    intro x
    rcases Nat.lt_trichotomy x t.nodes.size with hx | rfl | hx
    · obtain ⟨n, hn⟩ := exists_node_of_lt hx
      rw [getElem?_addNode_of_lt hx hp, getElem?_attach_of_lt (hsize ▸ hx), getElem?_grow, hn, hsize]
      dsimp only [Option.map_some]
      split <;> split <;> rfl
    · have hlineage := (SameTies.grow t parent place.span).lineage parent
      rw [getElem?_addNode_size _ _ _ hp, ← hsize, getElem?_attach_size (hsize ▸ hp), hlineage]
    · rw [Array.getElem?_eq_none (by rw [size_addNode]; omega),
        Array.getElem?_eq_none (by rw [size_attach, hsize]; omega)]
  have hmk : ∀ u : Tree M O, u = ⟨u.language, u.source, u.settings, u.nodes, u.marks, u.complete⟩ :=
    fun _ => rfl
  rw [hmk (t.addNode (some parent) object (some place) parts), hnodes, language_addNode,
    source_addNode, settings_addNode, marks_addNode, complete_addNode]
  show _ = Tree.mk (t.grow parent place.span).language (t.grow parent place.span).source
    (t.grow parent place.span).settings _ (t.grow parent place.span).marks
    (t.grow parent place.span).complete
  rw [language_grow, source_grow, settings_grow, marks_grow, complete_grow]
  rfl

section WellFormed

variable [DecidableEq O]

/-- A tree whose nodes hang together and cover what they should. -/
structure WellFormed (t : Tree M O) : Prop extends Tied t, Covering t

namespace WellFormed

variable {t t' : Tree M O}

/-- In particular the nodes below a node come later, and spans are valid. -/
theorem isSound (h : t.WellFormed) : t.IsSound where
  child hn hc := ⟨h.lt_of_mem_children hn hc, h.lt_size_of_mem_children hn hc⟩
  valid {id n p} hn hp := by
    apply h.valid hn
    rw [Node.span?, hp, Option.map_some]

theorem modify (h : t.WellFormed) (id : Nat) {g : Node M O → Node M O}
    (hg : ∀ n : Node M O, n.Retouched (g n)) : (t.modify id g).WellFormed where
  toTied := h.toTied.of_sameTies (.modify t id hg)
  toCovering := h.toCovering.modify id hg

theorem grow (h : t.WellFormed) (id : Nat) {span : Span}
    (hspan : t.source.validateBounds span.toBounds = .ok ()) : (t.grow id span).WellFormed where
  toTied := h.toTied.of_sameTies (.grow t id span)
  toCovering := h.toCovering.grow h.toTied id hspan

omit [DecidableEq O] in
/-- A grown lineage covers what it has grown by. -/
theorem contains_grow {id a : Nat} {span s : Span} {k : Node M O}
    (ha : a ∈ (t.grow id span).lineage id) (hk : (t.grow id span).nodes[a]? = some k)
    (hs : k.span? = some s) : s.contains span = true := by
  obtain ⟨n, _, _, _, hspan⟩ := node_grow hk
  rw [(SameTies.grow t id span).lineage] at ha
  rw [hspan, if_pos ha] at hs
  obtain ⟨r, _, rfl⟩ := Option.map_eq_some_iff.1 hs
  exact Span.union_contains_right r span

theorem mark (h : t.WellFormed) {owner : Nat} {role : Role} {span : Span}
    (howner : owner < t.nodes.size) (hmark : t.mark owner role span = .ok t') :
    t'.WellFormed := by
  obtain ⟨hvalid, rfl⟩ := mark_eq_ok hmark
  have hgrown := h.grow owner hvalid
  rw [grow_marks, ← marks_grow t owner span]
  constructor
  · exact hgrown.toTied.of_sameTies fun _ => rfl
  · exact hgrown.toCovering.addMark role (by rw [size_grow]; exact howner) contains_grow

theorem addNode (h : t.WellFormed) {parent : Nat} {n : Node M O} {object : O}
    {place : Option Place} (parts : List (Part M O)) (hn : t.nodes[parent]? = some n)
    (hnone : t.below? n object = none)
    (hplace : ∀ {p : Place}, place = some p → p = Place.ofSpan p.span ∧
      t.source.validateBounds p.span.toBounds = .ok ()) :
    (t.addNode (some parent) object place parts).WellFormed := by
  have hp := lt_size_of_node hn
  cases place with
  | none =>
    rw [addNode_some]
    exact ⟨h.toTied.attach none parts hn hnone, h.toCovering.attach h.toTied object parts hp nofun⟩
  | some p =>
    obtain ⟨hfresh, hvalid⟩ := hplace rfl
    have hgrown := h.grow parent hvalid
    rw [addNode_eq_attach hp]
    constructor
    · rw [← addNode_eq_attach hp]
      exact h.toTied.addNode (some p) parts hn hnone
    · apply hgrown.toCovering.attach hgrown.toTied object parts (by rw [size_grow]; exact hp)
      intro q hq
      cases hq
      refine ⟨hfresh, ?_, contains_grow⟩
      rw [source_grow]
      exact hvalid

theorem getNode {m : M} {parent id : Nat} {object : O} (h : t.WellFormed)
    (hget : t.getNode m parent object = .ok (id, t')) : t'.WellFormed := by
  obtain ⟨n, hn, ⟨_, rfl⟩ | ⟨hnone, _, layout, place, _, hplace, rfl⟩⟩ := getNode_cases hget
  · exact h
  · apply h.addNode layout.parts hn hnone
    rintro p rfl
    exact (placeOf_eq_ok hplace).symm

end WellFormed

end WellFormed

end Tree

end Reprint
