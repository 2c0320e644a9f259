import Reprint.Proofs.Tree.Arena
import Reprint.Proofs.Tree.FromModel
import Reprint.Proofs.Tree.Rewritten

/-!
# Trees with new nodes that have no source text

Printing moves the positions where nodes take new text, and makes the nodes that
are missing.  A tree is `Budded` from another one if that is all, and the new nodes
were made for objects of one model and have no source text.  What was located
stands where it did.

Looking up an object that has no node in the first tree finds or makes such a node
(`Budded.getNode`), and one that has a node there is still found
(`Budded.below?_old`).  So an object that is not printed from the source has the text
that `Tree.spell` gives for the first tree (`Budded.printBelow`), whatever was printed
before.
-/

namespace Reprint.Tree

variable {M O : Type}

/-- The second tree is the first one with other positions for new text and with
nodes without source text for objects of the model. -/
structure Budded (m : M) (t u : Tree M O) : Prop where
  source : u.source = t.source
  settings : u.settings = t.settings
  language : u.language = t.language
  old : ∀ {id : Nat} {n : Node M O}, t.nodes[id]? = some n →
    ∃ q more, u.nodes[id]? = some { n.moved q with children := n.children ++ more } ∧
      ∀ c ∈ more, t.nodes.size ≤ c
  made : ∀ {id : Nat} {n : Node M O}, u.nodes[id]? = some n → t.nodes.size ≤ id →
    n.place = none ∧ (∀ c ∈ n.children, t.nodes.size ≤ c) ∧
      ∃ layout, t.language.layout m n.object = some layout ∧ n.parts = layout.parts

namespace Budded

variable {m : M} {t u : Tree M O}

/-- Trees that differ in the positions for new text only. -/
theorem of_alike (m : M) (h : Alike t u) : Budded m t u where
  source := h.source
  settings := h.settings
  language := h.language
  old hn := by
    obtain ⟨q, hq⟩ := h.node hn
    exact ⟨q, [], by rw [List.append_nil]; exact hq, nofun⟩
  made hn hid := absurd (lt_size_of_node hn) (by rw [h.size]; exact Nat.not_lt.2 hid)

theorem refl (m : M) (t : Tree M O) : Budded m t t := of_alike m (.refl t)

theorem size_le (h : Budded m t u) : t.nodes.size ≤ u.nodes.size := by
  by_contra hlt
  obtain ⟨n, hn⟩ := exists_node_of_lt (Nat.lt_of_not_le hlt)
  obtain ⟨_, _, hn', _⟩ := h.old hn
  exact absurd (lt_size_of_node hn') (Nat.lt_irrefl _)

/-- Moving the position where a node takes new text. -/
theorem insertion (h : Budded m t u) (id : Nat) (q : Position) :
    Budded m t (u.modify id fun n => n.mapPlace fun p => { p with insertion := q }) where
  source := h.source
  settings := h.settings
  language := h.language
  old {x n} hn := by
    obtain ⟨r, more, hk, hmore⟩ := h.old hn
    by_cases hx : id = x
    · subst hx
      refine ⟨q, more, ?_, hmore⟩
      rw [getElem?_modify_self _ hk]
      simp [Node.moved, Node.mapPlace, Function.comp_def]
    · exact ⟨r, more, by rwa [getElem?_modify_of_ne _ _ hx], hmore⟩
  made {x n} hn hx := by
    rcases modify_cases hn with ⟨k, _, hk, rfl⟩ | ⟨_, hn⟩
    · obtain ⟨hplace, hmade⟩ := h.made hk hx
      refine ⟨?_, hmade⟩
      rw [Node.place_mapPlace, hplace]
      rfl
    · exact h.made hn hx

/-- One more node without source text. -/
theorem addNode (h : Budded m t u) {parent : Nat} (hparent : parent < u.nodes.size) {object : O}
    {layout : Layout M O} (hlayout : t.language.layout m object = some layout) :
    Budded m t (u.addNode (some parent) object none layout.parts) where
  source := (source_addNode ..).trans h.source
  settings := (settings_addNode ..).trans h.settings
  language := (language_addNode ..).trans h.language
  old {x n} hn := by
    obtain ⟨q, more, hk, hmore⟩ := h.old hn
    rw [getElem?_addNode_of_lt (lt_size_of_node hk) hparent, hk, Option.map_some]
    by_cases hx : parent = x
    · refine ⟨q, more ++ [u.nodes.size], ?_, fun c hc => ?_⟩
      · simp only [if_pos hx, List.append_assoc]
      · rcases List.mem_append.1 hc with hc | hc
        · exact hmore c hc
        · rw [List.mem_singleton.1 hc]
          exact h.size_le
    · exact ⟨q, more, by simp only [if_neg hx], hmore⟩
  made {x n} hn hx := by
    rcases Nat.lt_or_ge x u.nodes.size with hlt | hge
    · rw [getElem?_addNode_of_lt hlt hparent] at hn
      obtain ⟨k, hk, rfl⟩ := Option.map_eq_some_iff.1 hn
      obtain ⟨hplace, hchildren, hmade⟩ := h.made hk hx
      by_cases hp : parent = x
      · simp only [if_pos hp]
        refine ⟨hplace, fun c hc => ?_, hmade⟩
        rcases List.mem_append.1 hc with hc | hc
        · exact hchildren c hc
        · rw [List.mem_singleton.1 hc]
          exact h.size_le
      · simp only [if_neg hp]
        exact ⟨hplace, hchildren, hmade⟩
    · have hsize := lt_size_of_node hn
      rw [size_addNode] at hsize
      obtain rfl : x = u.nodes.size := by omega
      rw [getElem?_addNode_size object none layout.parts hparent] at hn
      cases hn
      exact ⟨rfl, nofun, layout, hlayout, rfl⟩

section GetNode

variable [DecidableEq O] {x : Nat} {n' : Node M O} {object : O}

/-- A node that is below another one in the first tree is there still. -/
theorem below?_old (h : Budded m t u) (hsound : t.IsSound) {n : Node M O}
    (hn : t.nodes[x]? = some n) (hn' : u.nodes[x]? = some n') {c : Nat}
    (hc : t.below? n object = some c) : u.below? n' object = some c := by
  obtain ⟨q, more, hk, _⟩ := h.old hn
  rw [hn'] at hk
  cases hk
  have hold : n.children.find? (fun id => (u.nodes[id]?).any fun c => c.object = object) =
      some c := by
    rw [← hc]
    refine List.find?_congr fun id hid => ?_
    obtain ⟨k, hk⟩ := exists_node_of_lt (hsound.child hn hid).2
    obtain ⟨_, _, hk', _⟩ := h.old hk
    rw [hk, hk']
    rfl
  exact List.find?_append.trans (by rw [hold]; rfl)

/-- Looking up an object that has no node in the first tree: any node that is found
was made since. -/
theorem below?_made (h : Budded m t u) (hsound : t.IsSound) (hn' : u.nodes[x]? = some n')
    (hnone : (t.nodes[x]?).bind (t.below? · object) = none) {c : Nat}
    (hc : u.below? n' object = some c) : t.nodes.size ≤ c := by
  obtain ⟨hmem, k, hk, hobject⟩ := below?_eq_some hc
  rcases Nat.lt_or_ge x t.nodes.size with hx | hx
  · obtain ⟨n, hn⟩ := exists_node_of_lt hx
    rw [hn, Option.bind_some] at hnone
    obtain ⟨q, more, hj, hmore⟩ := h.old hn
    rw [hn'] at hj
    cases hj
    rcases List.mem_append.1 hmem with hmem | hmem
    · -- A node for the object that was there before would have been found.
      obtain ⟨l, hl⟩ := exists_node_of_lt (hsound.child hn hmem).2
      obtain ⟨_, _, hl', _⟩ := h.old hl
      rw [hk] at hl'
      cases hl'
      have hnot := List.find?_eq_none.1 hnone c hmem
      rw [hl] at hnot
      have hobject : l.object = object := hobject
      exact absurd hobject (by simpa using hnot)
    · exact hmore c hmem
  · exact (h.made hn' hx).2.1 c hmem

/-- Such an object has a node now, or one is made, if it has a layout. -/
theorem getNode (h : Budded m t u) (hsound : t.IsSound) (hn' : u.nodes[x]? = some n')
    (hnone : (t.nodes[x]?).bind (t.below? · object) = none) {layout : Layout M O}
    (hlayout : t.language.layout m object = some layout) (horigin : layout.origin = none) :
    ∃ c u' k, u.getNode m x object = .ok (c, u') ∧ Budded m t u' ∧ u.nodes.size ≤ u'.nodes.size ∧
      t.nodes.size ≤ c ∧ u'.nodes[c]? = some k ∧ k.parts = layout.parts ∧ k.located? = none := by
  cases hbelow : u.below? n' object with
  | some c =>
    have hc := h.below?_made hsound hn' hnone hbelow
    obtain ⟨_, k, hk, rfl⟩ := below?_eq_some hbelow
    obtain ⟨hplace, _, layout', hlayout', hparts⟩ := h.made hk hc
    rw [hlayout] at hlayout'
    cases hlayout'
    exact ⟨c, u, k, getNode_of_below? hn' hbelow, h, Nat.le_refl _, hc, hk, hparts,
      by rw [Node.located?, hplace]; rfl⟩
  | none =>
    have hx := lt_size_of_node hn'
    have hplace : placeOf u.source layout.origin = .ok none := by rw [horigin]; rfl
    refine ⟨_, _, _, getNode_of_layout hn' hbelow (h.language ▸ hlayout) hplace,
      h.addNode hx hlayout, ?_, h.size_le, getElem?_addNode_size object none layout.parts hx, rfl, rfl⟩
    rw [size_addNode]
    exact Nat.le_succ _

/-- An object without a layout has no node and gets none. -/
theorem getNode_of_no_layout (h : Budded m t u) (hsound : t.IsSound) (hn' : u.nodes[x]? = some n')
    (hnone : (t.nodes[x]?).bind (t.below? · object) = none)
    (hlayout : t.language.layout m object = none) :
    u.getNode m x object = .error (.noLayout (u.language.describe m object)) := by
  refine Tree.getNode_of_no_layout hn' ?_ (h.language ▸ hlayout)
  cases hbelow : u.below? n' object with
  | none => rfl
  | some c =>
    have hc := h.below?_made hsound hn' hnone hbelow
    obtain ⟨_, k, hk, rfl⟩ := below?_eq_some hbelow
    obtain ⟨_, _, layout, hlayout', _⟩ := h.made hk hc
    rw [hlayout] at hlayout'
    cases hlayout'

theorem printBelow_of_no_layout (hsound : t.IsSound) (h : Budded m t u)
    (hn' : u.nodes[x]? = some n') (hnone : (t.nodes[x]?).bind (t.below? · object) = none)
    (hlayout : t.language.layout m object = none) {print : Nat → Margin → Job M O Text}
    {margin : Margin} : Tree.printBelow print m x object margin u = .ok none u := by
  have hget := h.getNode_of_no_layout hsound hn' hnone hlayout
  unfold Tree.printBelow
  simp only [bind, EStateM.bind, Job.get_eq, hget]
  rfl

end GetNode

/-! ## Printing objects without source text -/

section Print

variable [DecidableEq O] {depth owner s : Nat} {object : O} {margin : Margin} {text : Text}

/-- A tree that is budded and has some nodes at least. -/
def AtLeast (m : M) (t : Tree M O) (s : Nat) (u : Tree M O) : Prop :=
  Budded m t u ∧ s ≤ u.nodes.size

/-- A node that is not printed from the source has the normal text of its parts. -/
theorem printBelow_of_parts {u' : Tree M O} {c : Nat} {k : Node M O}
    (hget : u.getNode m owner object = .ok (c, u')) (hk : u'.nodes[c]? = some k)
    (hlocated : k.located? = none) (hu' : AtLeast m t s u')
    (hparts : Runs (AtLeast m t (max s (c + 1)))
      (normalParts (printWithin m depth) m c margin.flush k.parts) text
      (AtLeast m t (max s (c + 1)))) :
    ∃ v, Tree.printBelow (printWithin m (depth + 1)) m owner object margin u =
      .ok (some (margin.apply text)) v ∧ AtLeast m t s v := by
  obtain ⟨v, hrun, hv⟩ := hparts u' ⟨hu'.1, Nat.max_le.2 ⟨hu'.2, lt_size_of_node hk⟩⟩
  refine ⟨v, ?_, hv.1, Nat.le_trans (Nat.le_max_left _ _) hv.2⟩
  unfold Tree.printBelow
  simp only [bind, EStateM.bind, Job.get_eq, hget, Job.set_eq, printWithin_of_normal hk hlocated]
  unfold normalNode
  simp only [bind, EStateM.bind, Job.get_eq, node_eq_ok.2 hk, hrun]
  rfl

/-- An object is printed as it is spelled, by induction on the depth of the spelling. -/
theorem printBelow (hsound : t.IsSound) {depth depth' owner s : Nat} (hdepth : depth ≤ depth')
    (howner : owner < s) {object : O} {margin : Margin} {body : Option Text}
    (hspell : t.spell m depth owner object margin = some body) :
    Runs (AtLeast m t s) (Tree.printBelow (printWithin m depth') m owner object margin) body
      (AtLeast m t s) := by
  induction depth generalizing depth' owner s object margin body with
  | zero =>
    intro u hu
    obtain ⟨n', hn'⟩ := exists_node_of_lt (Nat.lt_of_lt_of_le howner hu.2)
    rw [spell] at hspell
    split at hspell
    · cases hspell
    · next hnone =>
      cases hspell
      simp only [Bool.or_eq_true, not_or, Option.not_isSome_iff_eq_none] at hnone
      exact ⟨u, printBelow_of_no_layout hsound hu.1 hn' hnone.1 hnone.2, hu⟩
  | succ depth ih =>
    intro u hu
    obtain ⟨depth', rfl⟩ : ∃ d, depth' = d + 1 := ⟨depth' - 1, by omega⟩
    obtain ⟨n', hn'⟩ := exists_node_of_lt (Nat.lt_of_lt_of_le howner hu.2)
    -- What is said of the parts of a node that is found or made.
    have hparts : ∀ {c : Nat} {parts : List (Part M O)} {text : Text},
        Part.spellAll (t.spell m depth c) m margin.flush parts = some text →
        Runs (AtLeast m t (max s (c + 1)))
          (normalParts (printWithin m depth') m c margin.flush parts) text
          (AtLeast m t (max s (c + 1))) := fun {c parts text} htext =>
      Runs.normalParts (fun object margin body => ih (Nat.le_of_succ_le_succ hdepth)
        (Nat.lt_of_lt_of_le (Nat.lt_succ_self c) (Nat.le_max_right _ _))) parts htext
    rw [spell] at hspell
    split at hspell
    · next c hbelow =>
      obtain ⟨n, hn, hbelow⟩ := Option.bind_eq_some_iff.1 hbelow
      split at hspell
      · cases hspell
      next k hk =>
      split at hspell
      · cases hspell
      next hlocated =>
      obtain ⟨text, htext, rfl⟩ := Option.map_eq_some_iff.1 hspell
      obtain ⟨q, more, hk', _⟩ := hu.1.old hk
      have hnormal : (k.moved q).located? = none := by
        have hsame : (k.moved q).isLocated = k.isLocated := k.isLocated_mapPlace fun _ => rfl
        rw [← hsame] at hlocated
        exact Option.not_isSome_iff_eq_none.1 hlocated
      exact printBelow_of_parts (getNode_of_below? hn' (hu.1.below?_old hsound hn hn' hbelow)) hk'
        hnormal hu (hparts htext)
    · next hnone =>
      split at hspell
      · next hlayout =>
        cases hspell
        exact ⟨u, printBelow_of_no_layout hsound hu.1 hn' hnone hlayout, hu⟩
      next layout hlayout =>
      split at hspell
      · cases hspell
      next horigin =>
      obtain ⟨text, htext, rfl⟩ := Option.map_eq_some_iff.1 hspell
      obtain ⟨c, u', k, hget, hu', hgrown, hc, hk, hsame, hlocated⟩ :=
        hu.1.getNode hsound hn' hnone hlayout (by simpa using horigin)
      rw [← spell_of_size_le hc] at htext
      exact printBelow_of_parts hget hk hlocated ⟨hu', Nat.le_trans hu.2 hgrown⟩
        (hparts (hsame ▸ htext))

end Print

/-! ## Revisions of budded trees -/

section Looks

variable [DecidableEq O]

/-- An object without a layout has no text. -/
theorem printBelow_of_isForeign {m₀ m' : M} (ready : Ready m₀ t) (h : Budded m t u) {owner : Nat}
    {n : Node M O} (hn : t.nodes[owner]? = some n) {object : O}
    (hforeign : t.language.IsForeign object) {print : Nat → Margin → Job M O Text}
    {margin : Margin} : Tree.printBelow print m' owner object margin u = .ok none u := by
  obtain ⟨n', hn'⟩ : ∃ n', u.nodes[owner]? = some n' := by
    obtain ⟨_, _, hn', _⟩ := h.old hn
    exact ⟨_, hn'⟩
  have hnone : (t.nodes[owner]?).bind (t.below? · object) = none := by
    rw [hn, Option.bind_some]
    unfold Tree.below?
    rw [List.find?_eq_none]
    intro x hx hobject
    obtain ⟨k, hk⟩ := exists_node_of_lt (ready.sound.child hn hx).2
    rw [hk] at hobject
    have hkobject : k.object = object := by simpa using hobject
    exact ready.not_isForeign hk (hkobject ▸ hforeign)
  have hbelow : u.below? n' object = none := by
    cases hbelow : u.below? n' object with
    | none => rfl
    | some c =>
      have hc := h.below?_made ready.sound hn' hnone hbelow
      obtain ⟨_, k, hk, rfl⟩ := below?_eq_some hbelow
      obtain ⟨_, _, layout, hlayout, _⟩ := h.made hk hc
      rw [hforeign m] at hlayout
      cases hlayout
  have hget := Tree.getNode_of_no_layout hn' hbelow (m := m') (by rw [h.language, hforeign m'])
  unfold Tree.printBelow
  simp only [bind, EStateM.bind, Job.get_eq, hget]
  rfl

/-- A revision does not tell budded trees from the first one. -/
theorem looksLike {m₀ : M} (ready : Ready m₀ t) : LooksLike t (Budded m t) where
  source h := h.source
  settings h := h.settings
  node h hn := by
    obtain ⟨q, more, hk, _⟩ := h.old hn
    exact ⟨q, more, hk⟩
  foreign h hn hforeign _ _ _ := h.printBelow_of_isForeign ready hn hforeign
  insertion h := h.insertion

end Looks

end Budded

end Reprint.Tree
