import Reprint.Proofs.Tree.Nodes
import Reprint.Tree.Locate

/-!
# What stays while a tree is located

`Tree.IsSound` is the invariant of the node table: the nodes below a node
were made later than it, and all spans are spans of the source.

`Tree.Keeps` compares a tree with a later one.  Nodes are only added, and
a node keeps its object.  A node that was located before also keeps its
parts and its delimiters, so what is known of it stays known.  A new node
below an old one is there because its object has a layout.
-/

namespace Reprint

/-- What a node keeps while its tree is located. -/
structure Node.Kept {M O : Type} (n n' : Node M O) : Prop where
  object : n'.object = n.object
  children : n.children <+: n'.children
  place : n'.place.isSome = n.place.isSome
  located : n.isLocated = true → n'.isLocated = true
  parts : n.isLocated = true → n'.parts = n.parts
  before : n.isLocated = true → n'.before = n.before
  behind : n.isLocated = true → n'.behind = n.behind

namespace Node.Kept

variable {M O : Type}

theorem refl (n : Node M O) : n.Kept n :=
  ⟨rfl, List.prefix_refl _, rfl, id, fun _ => rfl, fun _ => rfl, fun _ => rfl⟩

theorem trans {a b c : Node M O} (hab : a.Kept b) (hbc : b.Kept c) : a.Kept c where
  object := hbc.object.trans hab.object
  children := hab.children.trans hbc.children
  place := hbc.place.trans hab.place
  located h := hbc.located (hab.located h)
  parts h := (hbc.parts (hab.located h)).trans (hab.parts h)
  before h := (hbc.before (hab.located h)).trans (hab.before h)
  behind h := (hbc.behind (hab.located h)).trans (hab.behind h)

/-- A place may grow. -/
theorem grow (n : Node M O) (span : Span) : n.Kept (n.mapPlace fun p => p.grow span) where
  object := rfl
  children := List.prefix_refl _
  place := by simp
  located h := by
    rw [n.isLocated_mapPlace (g := fun p => p.grow span) fun _ => rfl]
    exact h
  parts _ := rfl
  before _ := n.before_mapPlace fun _ => rfl
  behind _ := n.behind_mapPlace fun _ => rfl

/-- A node may get another child. -/
theorem adopt (n : Node M O) (id : Nat) :
    n.Kept { n with children := n.children ++ [id] } where
  object := rfl
  children := List.prefix_append _ _
  place := rfl
  located h := h
  parts _ := rfl
  before _ := rfl
  behind _ := rfl

/-- A node that is not located may be changed in all but its object, its
children and whether it has a place. -/
theorem of_not_located {n n' : Node M O} (hn : n.isLocated = false) (object : n'.object = n.object)
    (children : n.children <+: n'.children) (place : n'.place.isSome = n.place.isSome) :
    n.Kept n' where
  object := object
  children := children
  place := place
  located h := by simp [hn] at h
  parts h := by simp [hn] at h
  before h := by simp [hn] at h
  behind h := by simp [hn] at h

end Node.Kept

namespace Tree

variable {M O : Type}

/-- The nodes below a node come later, and all spans fit the source. -/
structure IsSound (t : Tree M O) : Prop where
  child : ∀ {id : Nat} {n : Node M O} {c : Nat}, t.nodes[id]? = some n → c ∈ n.children →
    id < c ∧ c < t.nodes.size
  valid : ∀ {id : Nat} {n : Node M O} {p : Place}, t.nodes[id]? = some n → n.place = some p →
    t.source.validateBounds p.span.toBounds = .ok ()

/-- Whether a node can be made for an object: it has a layout, and what it
was read from is a span of the source. -/
def CanMake (m : M) (t : Tree M O) (object : O) : Prop :=
  ∃ layout place, t.language.layout m object = some layout ∧
    placeOf t.source layout.origin = .ok place

/-- What stays while a tree is located for a model. -/
structure Keeps (m : M) (t t' : Tree M O) : Prop where
  source : t'.source = t.source
  settings : t'.settings = t.settings
  language : t'.language = t.language
  node : ∀ {id : Nat} {n : Node M O}, t.nodes[id]? = some n →
    ∃ n', t'.nodes[id]? = some n' ∧ n.Kept n'
  child : ∀ {id : Nat} {n n' : Node M O} {c : Nat}, t.nodes[id]? = some n →
    t'.nodes[id]? = some n' → c ∈ n'.children → c ∈ n.children ∨
      ∃ k, t'.nodes[c]? = some k ∧ t.CanMake m k.object

namespace Keeps

variable {m : M} {t u v : Tree M O}

theorem refl (t : Tree M O) : Keeps m t t where
  source := rfl
  settings := rfl
  language := rfl
  node h := ⟨_, h, .refl _⟩
  child h h' hc := by
    rw [h] at h'
    cases h'
    exact Or.inl hc

theorem trans (htu : Keeps m t u) (huv : Keeps m u v) : Keeps m t v where
  source := huv.source.trans htu.source
  settings := huv.settings.trans htu.settings
  language := huv.language.trans htu.language
  node h := by
    obtain ⟨n', hn', hkept⟩ := htu.node h
    obtain ⟨n'', hn'', hkept'⟩ := huv.node hn'
    exact ⟨n'', hn'', hkept.trans hkept'⟩
  child h h'' hc := by
    obtain ⟨n', hn', _⟩ := htu.node h
    rcases huv.child hn' h'' hc with hc | ⟨k, hk, hmake⟩
    · rcases htu.child h hn' hc with hc | ⟨k, hk, hmake⟩
      · exact Or.inl hc
      · obtain ⟨k', hk', hkept⟩ := huv.node hk
        exact Or.inr ⟨k', hk', by rwa [hkept.object]⟩
    · refine Or.inr ⟨k, hk, ?_⟩
      unfold CanMake at hmake ⊢
      rwa [← htu.language, ← htu.source]

theorem located (h : Keeps m t u) {id : Nat} (hid : t.isLocated id = true) :
    u.isLocated id = true := by
  unfold isLocated at hid
  split at hid
  · next n hn =>
    obtain ⟨n', hn', hkept⟩ := h.node hn
    rw [isLocated_eq hn', hkept.located hid]
  · cases hid

/-- A tree of which single nodes were changed and nothing else. -/
theorem of_nodes {t' : Tree M O} (source : t'.source = t.source) (settings : t'.settings = t.settings)
    (language : t'.language = t.language)
    (node : ∀ {id : Nat} {n : Node M O}, t.nodes[id]? = some n →
      ∃ n', t'.nodes[id]? = some n' ∧ n.Kept n' ∧ n'.children = n.children) :
    Keeps m t t' where
  source := source
  settings := settings
  language := language
  node h := by
    obtain ⟨n', hn', hkept, _⟩ := node h
    exact ⟨n', hn', hkept⟩
  child h h' hc := by
    obtain ⟨n', hn', _, hchildren⟩ := node h
    rw [hn'] at h'
    cases h'
    rw [hchildren] at hc
    exact Or.inl hc

theorem grow (t : Tree M O) (id : Nat) (span : Span) : Keeps m t (t.grow id span) := by
  refine of_nodes (by simp) (by simp) (by simp) fun {x n} hn => ?_
  rw [getElem?_grow, hn]
  split
  · exact ⟨_, rfl, .grow n span, rfl⟩
  · exact ⟨n, rfl, .refl n, rfl⟩

end Keeps

/-! ## Marks -/

theorem mark_eq_ok {t t' : Tree M O} {owner : Nat} {role : Role} {span : Span}
    (h : t.mark owner role span = .ok t') :
    t.source.validateBounds span.toBounds = .ok () ∧
      t' = Tree.grow { t with marks := t.marks ++ [⟨owner, role, span⟩] } owner span := by
  unfold mark at h
  cases hv : t.source.validateBounds span.toBounds with
  | error e =>
    rw [hv] at h
    cases h
  | ok u =>
    rw [hv] at h
    cases h
    exact ⟨rfl, rfl⟩

/-- A mark on a valid span is made. -/
theorem mark_of_valid {t : Tree M O} {owner : Nat} {role : Role} {span : Span}
    (h : t.source.validateBounds span.toBounds = .ok ()) :
    t.mark owner role span =
      .ok (Tree.grow { t with marks := t.marks ++ [⟨owner, role, span⟩] } owner span) := by
  unfold mark
  rw [h]
  rfl

theorem Keeps.mark {m : M} {t t' : Tree M O} {owner : Nat} {role : Role} {span : Span}
    (h : t.mark owner role span = .ok t') : Keeps m t t' := by
  rw [(mark_eq_ok h).2]
  have hmarks : Keeps m t { t with marks := t.marks ++ [⟨owner, role, span⟩] } :=
    .of_nodes rfl rfl rfl fun hn => ⟨_, hn, .refl _, rfl⟩
  exact hmarks.trans (.grow _ owner span)

namespace IsSound

variable {t t' : Tree M O}

theorem grow {id : Nat} {span : Span} (h : t.IsSound)
    (hv : t.source.validateBounds span.toBounds = .ok ()) : (t.grow id span).IsSound where
  child {x n c} hn hc := by
    rw [getElem?_grow] at hn
    rw [size_grow]
    split at hn
    · obtain ⟨k, hk, rfl⟩ := Option.map_eq_some_iff.1 hn
      exact h.child hk hc
    · exact h.child hn hc
  valid {x n p} hn hp := by
    rw [getElem?_grow] at hn
    rw [source_grow]
    split at hn
    · obtain ⟨k, hk, rfl⟩ := Option.map_eq_some_iff.1 hn
      obtain ⟨q, hq, rfl⟩ := Option.map_eq_some_iff.1 hp
      exact Source.validateBounds_union (h.valid hk hq) hv
    · exact h.valid hn hp

theorem mark {owner : Nat} {role : Role} {span : Span} (h : t.IsSound)
    (hmark : t.mark owner role span = .ok t') : t'.IsSound := by
  obtain ⟨hv, rfl⟩ := mark_eq_ok hmark
  have hmarks : ({ t with marks := t.marks ++ [⟨owner, role, span⟩] } : Tree M O).IsSound :=
    ⟨h.child, h.valid⟩
  exact hmarks.grow hv

end IsSound

/-- The place of a new node is the span that it was read from, which is
valid. -/
theorem placeOf_eq_ok {s : Source} {origin : Option (Except Error Span)} {p : Place}
    (h : placeOf s origin = .ok (some p)) :
    s.validateBounds p.span.toBounds = .ok () ∧ p = Place.ofSpan p.span := by
  unfold placeOf at h
  split at h
  · cases h
  · next origin =>
    cases horigin : origin with
    | error e =>
      rw [horigin] at h
      cases h
    | ok span =>
      rw [horigin] at h
      simp only [bind, Except.bind] at h
      cases hv : s.validateBounds span.toBounds with
      | error e =>
        rw [hv] at h
        cases h
      | ok u =>
        rw [hv] at h
        cases h
        exact ⟨hv, rfl⟩

/-! ## New nodes -/

section AddNode

variable {t : Tree M O} {parent : Nat} {object : O} {place : Option Place}
  {parts : List (Part M O)}

/-- The old nodes after a node was added. -/
theorem getElem?_addNode_of_lt {x : Nat} (hx : x < t.nodes.size) (hp : parent < t.nodes.size) :
    (t.addNode (some parent) object place parts).nodes[x]? =
      (t.nodes[x]?).map fun n =>
        let n := if parent = x then { n with children := n.children ++ [t.nodes.size] } else n
        match place with
        | some p => if x ∈ t.lineage parent then n.mapPlace fun q => q.grow p.span else n
        | none => n := by
  rw [addNode_some]
  obtain ⟨n, hn⟩ := exists_node_of_lt hx
  cases place with
  | none =>
    simp only [getElem?_attach_of_lt hx, hn, Option.map_some]
    split <;> rfl
  | some p =>
    simp only [getElem?_grow, getElem?_attach_of_lt hx, lineage_attach hp, hn, Option.map_some]
    split <;> split <;> rfl

variable (object place parts) in
/-- The new node itself.  It may have grown in a table whose lineages run
ahead of it. -/
theorem getElem?_addNode_size (hp : parent < t.nodes.size) :
    (t.addNode (some parent) object place parts).nodes[t.nodes.size]? =
      some ⟨object, t.lineage parent, [], place, parts⟩ := by
  rw [addNode_some]
  cases place with
  | none => exact getElem?_attach_size hp
  | some p =>
    show ((t.attach parent object (some p) parts).grow parent p.span).nodes[t.nodes.size]? = _
    rw [getElem?_grow, getElem?_attach_size hp]
    have hgrow : (p.grow p.span) = p := by
      refine Place.grow_eq_self ?_
      simp [Span.contains]
    split
    · simp [Node.mapPlace, hgrow]
    · rfl

variable (object place parts) in
theorem node_addNode {x : Nat} {n : Node M O} (hn : t.nodes[x]? = some n)
    (hp : parent < t.nodes.size) :
    ∃ n', (t.addNode (some parent) object place parts).nodes[x]? = some n' ∧ n.Kept n' ∧
      (n'.children = n.children ∨ n'.children = n.children ++ [t.nodes.size] ∧ x = parent) := by
  rw [getElem?_addNode_of_lt (lt_size_of_node hn) hp, hn]
  refine ⟨_, rfl, ?_, ?_⟩
  · cases place with
    | none =>
      dsimp only
      split
      · exact .adopt n _
      · exact .refl n
    | some p =>
      dsimp only
      split <;> split
      · exact (Node.Kept.adopt n _).trans (.grow _ _)
      · exact .grow n _
      · exact .adopt n _
      · exact .refl n
  · cases place with
    | none =>
      dsimp only
      split
      · exact Or.inr ⟨rfl, by simp_all⟩
      · exact Or.inl rfl
    | some p =>
      dsimp only
      split <;> split
      · exact Or.inr ⟨rfl, by simp_all⟩
      · exact Or.inl rfl
      · exact Or.inr ⟨rfl, by simp_all⟩
      · exact Or.inl rfl

end AddNode

variable [DecidableEq O]

theorem Keeps.getNode {m : M} {t t' : Tree M O} {parent id : Nat} {object : O}
    (h : t.getNode m parent object = .ok (id, t')) : Keeps m t t' := by
  obtain ⟨n, hn, ⟨_, rfl⟩ | ⟨_, rfl, layout, place, hlayout, hplace, rfl⟩⟩ := getNode_cases h
  · exact .refl t'
  · have hp := lt_size_of_node hn
    refine ⟨by simp, by simp, by simp, fun hk => ?_, fun {x k k' c} hk hk' hc => ?_⟩
    · obtain ⟨k', hk', hkept, _⟩ := node_addNode object place layout.parts hk hp
      exact ⟨k', hk', hkept⟩
    · obtain ⟨k'', hk'', _, hchildren⟩ := node_addNode object place layout.parts hk hp
      rw [hk''] at hk'
      cases hk'
      rcases hchildren with hchildren | ⟨hchildren, rfl⟩
      · exact Or.inl (hchildren ▸ hc)
      · rw [hchildren, List.mem_append, List.mem_singleton] at hc
        rcases hc with hc | rfl
        · exact Or.inl hc
        · exact Or.inr ⟨_, getElem?_addNode_size object place layout.parts hp, layout, place, hlayout, hplace⟩

theorem IsSound.getNode {m : M} {t t' : Tree M O} {parent id : Nat} {object : O} (hs : t.IsSound)
    (h : t.getNode m parent object = .ok (id, t')) : t'.IsSound := by
  obtain ⟨n, hn, ⟨_, rfl⟩ | ⟨_, rfl, layout, place, hlayout, hplace, rfl⟩⟩ := getNode_cases h
  · exact hs
  have hp := lt_size_of_node hn
  have hnew := getElem?_addNode_size object place layout.parts hp
  constructor
  · intro x k c hk hc
    have hx := lt_size_of_node hk
    rw [size_addNode] at hx ⊢
    by_cases hxt : x < t.nodes.size
    · obtain ⟨k₀, hk₀⟩ := exists_node_of_lt hxt
      obtain ⟨k', hk', _, hchildren⟩ := node_addNode object place layout.parts hk₀ hp
      rw [hk'] at hk
      cases hk
      rcases hchildren with hchildren | ⟨hchildren, rfl⟩
      · have := hs.child hk₀ (hchildren ▸ hc)
        omega
      · rw [hchildren, List.mem_append, List.mem_singleton] at hc
        rcases hc with hc | rfl
        · have := hs.child hk₀ hc
          omega
        · omega
    · obtain rfl : x = t.nodes.size := by omega
      rw [hnew] at hk
      cases hk
      simp at hc
  · intro x k p hk hkp
    have hx := lt_size_of_node hk
    rw [size_addNode] at hx
    rw [source_addNode]
    by_cases hxt : x < t.nodes.size
    · obtain ⟨k₀, hk₀⟩ := exists_node_of_lt hxt
      rw [getElem?_addNode_of_lt hxt hp, hk₀] at hk
      cases place with
      | none =>
        simp only [Option.map_some, Option.some.injEq] at hk
        subst hk
        split at hkp <;> exact hs.valid hk₀ hkp
      | some q =>
        obtain ⟨hq, _⟩ := placeOf_eq_ok hplace
        simp only [Option.map_some, Option.some.injEq] at hk
        subst hk
        have hgrown : ∀ {a : Option Place}, a = k₀.place →
            a.map (fun r => r.grow q.span) = some p →
            t.source.validateBounds p.span.toBounds = .ok () := by
          rintro a rfl ha
          obtain ⟨r, hr, rfl⟩ := Option.map_eq_some_iff.1 ha
          exact Source.validateBounds_union (hs.valid hk₀ hr) hq
        split at hkp
        · refine hgrown ?_ hkp
          split <;> rfl
        · split at hkp <;> exact hs.valid hk₀ hkp
    · obtain rfl : x = t.nodes.size := by omega
      rw [hnew] at hk
      cases hk
      dsimp only at hkp
      subst hkp
      exact (placeOf_eq_ok hplace).1

/-- The node of an object comes later than its parent. -/
theorem IsSound.lt_of_getNode {m : M} {t t' : Tree M O} {parent id : Nat} {object : O}
    (hs : t.IsSound) (h : t.getNode m parent object = .ok (id, t')) : parent < id := by
  obtain ⟨n, hn, ⟨hbelow, _⟩ | ⟨_, rfl, _⟩⟩ := getNode_cases h
  · exact (hs.child hn (below?_eq_some hbelow).1).1
  · exact lt_size_of_node hn

/-- A node below another stays the one for its object. -/
theorem Keeps.below? {m : M} {t t' : Tree M O} {id c : Nat} {n n' : Node M O} {object : O}
    (h : Keeps m t t') (hs : t.IsSound) (hn : t.nodes[id]? = some n) (hn' : t'.nodes[id]? = some n')
    (hc : t.below? n object = some c) : t'.below? n' object = some c := by
  obtain ⟨k, hk, hkept⟩ := h.node hn
  rw [hn'] at hk
  cases hk
  apply below?_of_prefix hkept.children _ hc
  intro x hx
  obtain ⟨k, hk⟩ := exists_node_of_lt (hs.child hn hx).2
  obtain ⟨k', hk', hkept'⟩ := h.node hk
  exact ⟨k, k', hk, hk', hkept'.object⟩

/-- The node that was looked up or made is the one below its parent. -/
theorem IsSound.below?_of_getNode {m : M} {t t' : Tree M O} {parent id : Nat} {object : O}
    (hs : t.IsSound) (h : t.getNode m parent object = .ok (id, t')) :
    ∃ n, t'.nodes[parent]? = some n ∧ t'.below? n object = some id := by
  have hkeeps := Keeps.getNode h
  obtain ⟨n, hn, ⟨hbelow, rfl⟩ | ⟨hbelow, rfl, layout, place, _, _, rfl⟩⟩ := getNode_cases h
  · exact ⟨n, hn, hbelow⟩
  have hp := lt_size_of_node hn
  obtain ⟨n', hn', _, hchildren⟩ := node_addNode object place layout.parts hn hp
  refine ⟨n', hn', ?_⟩
  rw [getElem?_addNode_of_lt hp hp, hn] at hn'
  have hchildren : n'.children = n.children ++ [t.nodes.size] := by
    simp only [Option.map_some, Option.some.injEq] at hn'
    subst hn'
    cases place with
    | none => simp
    | some p =>
      dsimp only
      split <;> simp
  have hold : n.children.find? (fun x =>
      ((t.addNode (some parent) object place layout.parts).nodes[x]?).any
        fun k => k.object = object) = none := by
    rw [List.find?_eq_none]
    intro x hx
    obtain ⟨k, hk⟩ := exists_node_of_lt (hs.child hn hx).2
    obtain ⟨k', hk', hkept⟩ := hkeeps.node hk
    have hne : ¬ (t.nodes[x]?).any (fun k => k.object = object) = true := by
      unfold Tree.below? at hbelow
      exact List.find?_eq_none.1 hbelow x hx
    rw [hk] at hne
    rw [hk']
    simpa [hkept.object] using hne
  unfold Tree.below?
  rw [hchildren, List.find?_append, hold, Option.none_or, List.find?_cons,
    getElem?_addNode_size object place layout.parts hp]
  simp

/-- A look-up that fails because of the object alone: there is no node for
it, and none can be made. -/
theorem getNode_eq_error {m : M} {t : Tree M O} {parent : Nat} {object : O} {e : Error}
    (h : t.getNode m parent object = .error e) (he : e.isLocal = true) :
    ∃ n, t.nodes[parent]? = some n ∧ t.below? n object = none ∧ ¬ t.CanMake m object := by
  unfold getNode at h
  cases hn : t.node parent with
  | error e' =>
    rw [hn] at h
    cases h
    rw [(node_eq_error.1 hn).2] at he
    cases he
  | ok n =>
    rw [hn] at h
    refine ⟨n, node_eq_ok.1 hn, ?_⟩
    simp only [bind, Except.bind] at h
    split at h
    · cases h
    · next hbelow =>
      refine ⟨hbelow, ?_⟩
      rintro ⟨layout, place, hlayout, hplace⟩
      have hnew := getNode_of_layout (node_eq_ok.1 hn) hbelow hlayout hplace
      unfold getNode at hnew
      rw [hn] at hnew
      simp only [bind, Except.bind, hbelow] at hnew
      rw [hnew] at h
      cases h

end Tree

end Reprint
