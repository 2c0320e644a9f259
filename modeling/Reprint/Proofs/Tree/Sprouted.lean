import Reprint.Proofs.Tree.Abreast
import Reprint.Proofs.Tree.Mapped
import Reprint.Proofs.Tree.TakenOut
import Reprint.Proofs.Tree.Unsearched

/-!
# Nodes made ahead of their use

Printing makes the nodes that it needs, so a tree may have more of them or
fewer.  A tree has `Sprouted` from another one if it only has more nodes, which
were made for objects of the present model, and none is located.

Such trees print the same (`Sprouted.prints_alike`).  The numbers of the nodes
need not agree, so two nodes are compared that are `Twins`: the same old node,
or new nodes for the same object.  What is printed below twins goes abreast
(`printBelow_twins`), and by induction on the depth so does what is printed of
twins (`printWithin_twins`).
-/

namespace Reprint

variable {M O : Type}

namespace Tree

/-! ## Objects for which no node can be made -/

/-- No node can be made for an object, for the given reason. -/
def Refuses (m : M) (t : Tree M O) (object : O) (e : Error) : Prop :=
  t.language.layout m object = none ∧ e = .noLayout (t.language.describe m object) ∨
    ∃ layout, t.language.layout m object = some layout ∧
      placeOf t.source layout.origin = .error e

theorem newNode_eq_error {m : M} {t : Tree M O} {parent : Option Nat} {object : O} {e : Error} :
    t.newNode m parent object = .error e ↔ t.Refuses m object e := by
  unfold newNode Refuses
  cases hlayout : t.language.layout m object with
  | none =>
    dsimp only [throw, throwThe, MonadExceptOf.throw]
    simp [eq_comm]
  | some layout =>
    cases hplace : placeOf t.source layout.origin with
    | error e' => simp [hplace, bind, Except.bind]
    | ok place => simp [hplace, bind, Except.bind, pure, Except.pure]

theorem Refuses.not_canMake {m : M} {t : Tree M O} {object : O} {e : Error}
    (h : t.Refuses m object e) : ¬ t.CanMake m object := by
  rintro ⟨layout, place, hlayout, hplace⟩
  rcases h with ⟨hnone, _⟩ | ⟨layout', hlayout', herror⟩
  · rw [hlayout] at hnone
    cases hnone
  · rw [hlayout] at hlayout'
    cases hlayout'
    rw [hplace] at herror
    cases herror

/-- Only one reason is ever given. -/
theorem Refuses.unique {m : M} {t : Tree M O} {object : O} {e e' : Error}
    (h : t.Refuses m object e) (h' : t.Refuses m object e') : e = e' := by
  have he : t.newNode m none object = .error e := newNode_eq_error.2 h
  have he' : t.newNode m none object = .error e' := newNode_eq_error.2 h'
  exact Except.error.inj (he.symm.trans he')

theorem Refuses.congr {m : M} {t u : Tree M O} {object : O} {e : Error} (h : t.Refuses m object e)
    (hlanguage : u.language = t.language) (hsource : u.source = t.source) :
    u.Refuses m object e := by
  unfold Refuses
  rw [hlanguage, hsource]
  exact h

section GetNode

variable [DecidableEq O] {m : M} {t u : Tree M O} {parent id : Nat} {object : O}

/-- A node that is not there is refused for the reason that none can be made. -/
theorem getNode_refused {e : Error} {n : Node M O} (hn : t.nodes[parent]? = some n)
    (hbelow : t.below? n object = none) (h : t.Refuses m object e) :
    t.getNode m parent object = .error e := by
  unfold getNode
  rw [node_eq_ok.2 hn]
  simp only [bind, Except.bind, hbelow, newNode_eq_error.2 h]

/-- Looking up a node below a node that is there fails only if the node is
refused. -/
theorem refuses_of_getNode {e : Error} {n : Node M O} (hn : t.nodes[parent]? = some n)
    (h : t.getNode m parent object = .error e) :
    t.below? n object = none ∧ t.Refuses m object e := by
  unfold getNode at h
  rw [node_eq_ok.2 hn] at h
  simp only [bind, Except.bind] at h
  split at h
  · cases h
  · next hbelow =>
    refine ⟨hbelow, ?_⟩
    cases hnew : t.newNode m (some parent) object with
    | ok grown =>
      rw [hnew] at h
      cases h
    | error e' =>
      rw [hnew] at h
      cases h
      exact newNode_eq_error.1 hnew

end GetNode

/-! ## Sprouted trees -/

/-- The second tree is the first one with nodes that were made for objects of
the model. -/
structure Sprouted (m : M) (b t : Tree M O) : Prop where
  language : t.language = b.language
  source : t.source = b.source
  settings : t.settings = b.settings
  old : ∀ {id : Nat} {n : Node M O}, b.nodes[id]? = some n →
    ∃ n', t.nodes[id]? = some n' ∧ n'.object = n.object ∧ n'.parts = n.parts ∧
      n'.isLocated = false ∧ ∃ more, n'.children = n.children ++ more ∧
        ∀ c ∈ more, b.nodes.size ≤ c
  made : ∀ {id : Nat} {n : Node M O}, t.nodes[id]? = some n → b.nodes.size ≤ id →
    n.isLocated = false ∧ (∀ c ∈ n.children, b.nodes.size ≤ c) ∧
      ∃ layout place, b.language.layout m n.object = some layout ∧
        placeOf b.source layout.origin = .ok place ∧ n.parts = layout.parts

namespace Sprouted

variable {m : M} {b t u : Tree M O}

theorem size_le (h : Sprouted m b t) : b.nodes.size ≤ t.nodes.size := by
  by_contra hlt
  obtain ⟨n, hn⟩ := exists_node_of_lt (Nat.lt_of_not_le hlt)
  obtain ⟨n', hn', _⟩ := h.old hn
  exact absurd (lt_size_of_node hn') (Nat.lt_irrefl _)

/-- No node is located. -/
theorem not_located (h : Sprouted m b t) {id : Nat} {n : Node M O} (hn : t.nodes[id]? = some n) :
    n.isLocated = false := by
  rcases Nat.lt_or_ge id b.nodes.size with hid | hid
  · obtain ⟨k, hk⟩ := exists_node_of_lt hid
    obtain ⟨n', hn', _, _, hnot, _⟩ := h.old hk
    rw [hn] at hn'
    cases hn'
    exact hnot
  · exact (h.made hn hid).1

/-- A tree sprouts from itself as long as nothing is located. -/
theorem refl (hnone : ∀ {id : Nat} {n : Node M O}, t.nodes[id]? = some n → n.isLocated = false) :
    Sprouted m t t where
  language := rfl
  source := rfl
  settings := rfl
  old hn := ⟨_, hn, rfl, rfl, hnone hn, [], (List.append_nil _).symm, nofun⟩
  made hn hid := absurd (lt_size_of_node hn) (Nat.not_lt.2 hid)

variable [DecidableEq O]

theorem getNode {parent id : Nat} {object : O} (h : Sprouted m b t)
    (hget : t.getNode m parent object = .ok (id, u)) : Sprouted m b u where
  language := (Extends.getNode hget).language.trans h.language
  source := (Extends.getNode hget).source.trans h.source
  settings := (Restored.getNode hget).settings.trans h.settings
  old {x n} hn := by
    obtain ⟨k, hk, hobject, hparts, hnot, more, hchildren, hmore⟩ := h.old hn
    obtain ⟨k', hk', _⟩ := (Extends.getNode hget).node hk
    rcases node_of_getNode hget hk' with ⟨j, hj, hkept, hchildren'⟩ | ⟨hle, _⟩
    · rw [hk] at hj
      cases hj
      refine ⟨k', hk', hkept.object.trans hobject, hkept.parts.trans hparts,
        hkept.located.trans hnot, ?_⟩
      rcases hchildren' with hsame | hgrown
      · exact ⟨more, hsame.trans hchildren, hmore⟩
      · refine ⟨more ++ [t.nodes.size], by rw [hgrown, hchildren, List.append_assoc], ?_⟩
        intro c hc
        rcases List.mem_append.1 hc with hc | hc
        · exact hmore c hc
        · rw [List.mem_singleton.1 hc]
          exact h.size_le
    · exact absurd (lt_size_of_node hk) (Nat.not_lt.2 hle)
  made {x n'} hn' hx := by
    rcases node_of_getNode hget hn' with ⟨n, hn, hkept, hchildren⟩ | ⟨_, hmade⟩
    · obtain ⟨hnot, hbelow, hmade⟩ := h.made hn hx
      rw [hkept.object, hkept.parts, hkept.located]
      refine ⟨hnot, fun c hc => ?_, hmade⟩
      rcases hchildren with hsame | hgrown
      · exact hbelow c (hsame ▸ hc)
      · rw [hgrown] at hc
        rcases List.mem_append.1 hc with hc | hc
        · exact hbelow c hc
        · rw [List.mem_singleton.1 hc]
          exact h.size_le
    · obtain ⟨layout, place, hlayout, hplace, hparts⟩ := hmade.layout
      refine ⟨hmade.located, fun c hc => ?_, layout, place, h.language ▸ hlayout,
        h.source ▸ hplace, hparts⟩
      rw [hmade.children] at hc
      cases hc

/-- Printing adds nodes, and otherwise moves positions only. -/
theorem prints (m : M) (b : Tree M O) : Prints m (Sprouted m b) where
  getNode h hget := h.getNode hget
  insertion {t} id q h := by
    have hnode : ∀ {x : Nat} {k : Node M O},
        (t.modify id fun n => n.mapPlace fun p => { p with insertion := q }).nodes[x]? = some k →
        ∃ j, t.nodes[x]? = some j ∧ k.object = j.object ∧ k.children = j.children ∧
          k.parts = j.parts ∧ k.isLocated = j.isLocated := by
      intro x k hk
      rcases modify_cases hk with ⟨j, _, hj, rfl⟩ | ⟨_, hk⟩
      · exact ⟨j, hj, rfl, rfl, rfl, j.isLocated_mapPlace fun _ => rfl⟩
      · exact ⟨k, hk, rfl, rfl, rfl, rfl⟩
    refine ⟨h.language, h.source, h.settings, fun {x n} hn => ?_, fun {x n} hn hx => ?_⟩
    · obtain ⟨k, hk, hobject, hparts, hnot, more, hchildren, hmore⟩ := h.old hn
      obtain ⟨k', hk'⟩ : ∃ k', (t.modify id fun n =>
          n.mapPlace fun p => { p with insertion := q }).nodes[x]? = some k' :=
        exists_node_of_lt (by rw [size_modify]; exact lt_size_of_node hk)
      obtain ⟨j, hj, hobject', hchildren', hparts', hlocated⟩ := hnode hk'
      rw [hk] at hj
      cases hj
      exact ⟨k', hk', hobject'.trans hobject, hparts'.trans hparts, hlocated.trans hnot, more,
        hchildren'.trans hchildren, hmore⟩
    · obtain ⟨j, hj, hobject, hchildren, hparts, hlocated⟩ := hnode hn
      rw [hobject, hchildren, hparts, hlocated]
      exact h.made hj hx

/-- A node below an old node that was there before is the one that is found. -/
theorem below?_old (h : Sprouted m b t) {x c : Nat} {n n' : Node M O} {object : O}
    (hn : b.nodes[x]? = some n) (hn' : t.nodes[x]? = some n') (hb : b.IsSound)
    (hc : b.below? n object = some c) : t.below? n' object = some c := by
  obtain ⟨k, hk, _, _, _, more, hchildren, _⟩ := h.old hn
  rw [hn'] at hk
  cases hk
  refine below?_of_prefix ⟨more, hchildren.symm⟩ (fun y hy => ?_) hc
  obtain ⟨j, hj⟩ := exists_node_of_lt (hb.child hn hy).2
  obtain ⟨j', hj', hobject, _⟩ := h.old hj
  exact ⟨j, j', hj, hj', hobject⟩

/-- Any other node below a node was made for its object. -/
theorem below?_made (h : Sprouted m b t) {x c : Nat} {n' : Node M O} {object : O}
    (hn' : t.nodes[x]? = some n') (hb : b.IsSound)
    (hnone : ∀ n, b.nodes[x]? = some n → b.below? n object = none)
    (hc : t.below? n' object = some c) : b.nodes.size ≤ c := by
  obtain ⟨hmem, k, hk, hobject⟩ := below?_eq_some hc
  rcases Nat.lt_or_ge x b.nodes.size with hx | hx
  · obtain ⟨n, hn⟩ := exists_node_of_lt hx
    obtain ⟨j, hj, _, _, _, more, hchildren, hmore⟩ := h.old hn
    rw [hn'] at hj
    cases hj
    rw [hchildren] at hmem
    rcases List.mem_append.1 hmem with hmem | hmem
    · -- an old node for the object would have been found
      obtain ⟨l, hl⟩ := exists_node_of_lt (hb.child hn hmem).2
      obtain ⟨l', hl', hsame, _⟩ := h.old hl
      rw [hk] at hl'
      cases hl'
      have hnot := hnone n hn
      unfold Tree.below? at hnot
      have := List.find?_eq_none.1 hnot c hmem
      rw [hl] at this
      exact absurd (hsame.symm.trans hobject) (by simpa using this)
    · exact hmore c hmem
  · exact (h.made hn' hx).2.1 c hmem

/-- Looking up a node that was not there in the beginning: one that was made is
found, or one is made, or none can be made. -/
theorem getNode_made (h : Sprouted m b t) {x : Nat} {n' : Node M O} (hn' : t.nodes[x]? = some n')
    (hb : b.IsSound) {object : O}
    (hnone : ∀ n, b.nodes[x]? = some n → b.below? n object = none) :
    (∃ c u k, t.getNode m x object = .ok (c, u) ∧ b.CanMake m object ∧ b.nodes.size ≤ c ∧
      u.nodes[c]? = some k ∧ k.object = object) ∨
      ∃ e, t.getNode m x object = .error e ∧ b.Refuses m object e := by
  cases hget : t.getNode m x object with
  | error e =>
    exact Or.inr ⟨e, rfl, (refuses_of_getNode hn' hget).2.congr h.language.symm h.source.symm⟩
  | ok found =>
    obtain ⟨c, u⟩ := found
    obtain ⟨k, hk, ⟨hbelow, rfl⟩ | ⟨_, rfl, layout, place, hlayout, hplace, rfl⟩⟩ :=
      getNode_cases hget
    · rw [hn'] at hk
      cases hk
      have hc := h.below?_made hn' hb hnone hbelow
      obtain ⟨_, j, hj, rfl⟩ := below?_eq_some hbelow
      obtain ⟨_, _, layout, place, hlayout, hplace, _⟩ := h.made hj hc
      exact Or.inl ⟨c, _, j, rfl, ⟨layout, place, hlayout, hplace⟩, hc, hj, rfl⟩
    · exact Or.inl ⟨_, _, _, rfl, ⟨layout, place, h.language ▸ hlayout, h.source ▸ hplace⟩,
        h.size_le, getElem?_addNode_size object place layout.parts (lt_size_of_node hk), rfl⟩

end Sprouted

/-! ## Twins -/

/-- Nodes of two trees that are the same old node, or were made for the same
object. -/
def Twins (b t u : Tree M O) (x y : Nat) : Prop :=
  x = y ∧ x < b.nodes.size ∨
    b.nodes.size ≤ x ∧ b.nodes.size ≤ y ∧
      ∃ n k, t.nodes[x]? = some n ∧ u.nodes[y]? = some k ∧ n.object = k.object

/-- Two trees that sprouted from the same tree, with certain twins. -/
structure Paired (m : M) (b : Tree M O) (S : Nat → Nat → Prop) (t u : Tree M O) : Prop where
  left : Sprouted m b t
  right : Sprouted m b u
  twins : ∀ {x y : Nat}, S x y → Twins b t u x y

section Twins

variable {m : M} {b t u : Tree M O} {S : Nat → Nat → Prop}

theorem Twins.extend {t' u' : Tree M O} {x y : Nat} (h : Twins b t u x y) (ht : t.Extends t')
    (hu : u.Extends u') : Twins b t' u' x y := by
  rcases h with hsame | ⟨hx, hy, n, k, hn, hk, hobject⟩
  · exact Or.inl hsame
  · obtain ⟨n', hn', hkeptn⟩ := ht.node hn
    obtain ⟨k', hk', hkeptk⟩ := hu.node hk
    exact Or.inr ⟨hx, hy, n', k', hn', hk', hkeptn.object.trans (hobject.trans hkeptk.object.symm)⟩

theorem Paired.weaken {S' : Nat → Nat → Prop} (h : Paired m b S t u)
    (hS : ∀ x y, S' x y → S x y) : Paired m b S' t u :=
  ⟨h.left, h.right, fun hxy => h.twins (hS _ _ hxy)⟩

/-- Twins are there, have the same parts, and are not located. -/
theorem Paired.nodes (h : Paired m b S t u) {x y : Nat} (hxy : S x y) :
    ∃ n k, t.nodes[x]? = some n ∧ u.nodes[y]? = some k ∧ n.parts = k.parts ∧
      n.isLocated = false ∧ k.isLocated = false := by
  rcases h.twins hxy with ⟨rfl, hx⟩ | ⟨hx, hy, n, k, hn, hk, hobject⟩
  · obtain ⟨j, hj⟩ := exists_node_of_lt hx
    obtain ⟨n, hn, _, hparts, hnotn, _⟩ := h.left.old hj
    obtain ⟨k, hk, _, hparts', hnotk, _⟩ := h.right.old hj
    exact ⟨n, k, hn, hk, hparts.trans hparts'.symm, hnotn, hnotk⟩
  · obtain ⟨hnotn, _, layout, _, hlayout, _, hparts⟩ := h.left.made hn hx
    obtain ⟨hnotk, _, layout', _, hlayout', _, hparts'⟩ := h.right.made hk hy
    rw [← hobject, hlayout] at hlayout'
    cases hlayout'
    exact ⟨n, k, hn, hk, hparts.trans hparts'.symm, hnotn, hnotk⟩

variable [DecidableEq O]

/-- Looking up an object below twins finds or makes twins, or fails for the same
reason. -/
theorem Paired.getNode (h : Paired m b S t u) (hb : b.IsSound) {x y : Nat} (hxy : S x y)
    (object : O) :
    (∃ c t' d u', t.getNode m x object = .ok (c, t') ∧ u.getNode m y object = .ok (d, u') ∧
      Paired m b (fun v w => S v w ∨ v = c ∧ w = d) t' u') ∨
      ∃ e, t.getNode m x object = .error e ∧ u.getNode m y object = .error e := by
  obtain ⟨n, k, hn, hk, _⟩ := h.nodes hxy
  have hpaired : ∀ {c t' d u'}, t.getNode m x object = .ok (c, t') →
      u.getNode m y object = .ok (d, u') → Twins b t' u' c d →
      Paired m b (fun v w => S v w ∨ v = c ∧ w = d) t' u' := by
    intro c t' d u' hgett hgetu htwins
    refine ⟨h.left.getNode hgett, h.right.getNode hgetu, fun {v w} hvw => ?_⟩
    rcases hvw with hvw | ⟨rfl, rfl⟩
    · exact (h.twins hvw).extend (.getNode hgett) (.getNode hgetu)
    · exact htwins
  by_cases hold : ∃ j c, b.nodes[x]? = some j ∧ b.below? j object = some c
  · -- An old node has no twin but itself.
    obtain ⟨j, c, hj, hc⟩ := hold
    obtain rfl : x = y := by
      rcases h.twins hxy with ⟨hsame, _⟩ | ⟨hx, _⟩
      · exact hsame
      · exact absurd (lt_size_of_node hj) (Nat.not_lt.2 hx)
    have hgett := getNode_of_below? hn (h.left.below?_old hj hn hb hc) (m := m)
    have hgetu := getNode_of_below? hk (h.right.below?_old hj hk hb hc) (m := m)
    exact Or.inl ⟨c, t, c, u, hgett, hgetu, hpaired hgett hgetu
      (Or.inl ⟨rfl, (hb.child hj (below?_eq_some hc).1).2⟩)⟩
  · have hnone : ∀ {z : Nat}, z = x ∨ b.nodes.size ≤ z → ∀ j, b.nodes[z]? = some j →
        b.below? j object = none := by
      intro z hz j hj
      rcases hz with rfl | hz
      · exact Option.eq_none_iff_forall_ne_some.2 fun c hc => hold ⟨j, c, hj, hc⟩
      · exact absurd (lt_size_of_node hj) (Nat.not_lt.2 hz)
    have hy : y = x ∨ b.nodes.size ≤ y := by
      rcases h.twins hxy with ⟨hsame, _⟩ | ⟨_, hy, _⟩
      · exact Or.inl hsame.symm
      · exact Or.inr hy
    rcases h.left.getNode_made hn hb (hnone (Or.inl rfl)) with
        ⟨c, t', i, hgett, hmake, hc, hi, hobject⟩ | ⟨e, hgett, hrefuses⟩ <;>
      rcases h.right.getNode_made hk hb (hnone hy) with
        ⟨d, u', j, hgetu, hmake', hd, hj, hobject'⟩ | ⟨e', hgetu, hrefuses'⟩
    · exact Or.inl ⟨c, t', d, u', hgett, hgetu, hpaired hgett hgetu
        (Or.inr ⟨hc, hd, i, j, hi, hj, hobject.trans hobject'.symm⟩)⟩
    · exact absurd hmake hrefuses'.not_canMake
    · exact absurd hmake' hrefuses.not_canMake
    · rw [hrefuses.unique hrefuses'] at hgett
      exact Or.inr ⟨e', hgett, hgetu⟩

/-! ## Printing twins -/

variable {print : Nat → Margin → Job M O Text}

/-- An object below twins is printed abreast if twins are. -/
theorem printBelow_twins (hb : b.IsSound)
    (hprint : ∀ (S : Nat → Nat → Prop) (x y : Nat) (margin : Margin), S x y →
      Abreast (fun _ => False) (Paired m b S) (print x margin) (print y margin))
    {x y : Nat} (hxy : S x y) (object : O) (margin : Margin) :
    Abreast (fun _ => False) (Paired m b S) (printBelow print m x object margin)
      (printBelow print m y object margin) := by
  refine .get_bind fun t u h => ?_
  rcases h.getNode hb hxy object with
    ⟨c, t', d, u', hgett, hgetu, hpaired⟩ | ⟨e, hgett, hgetu⟩
  · rw [hgett, hgetu]
    exact .set_bind hpaired (.bind (hprint _ c d margin (Or.inr ⟨rfl, rfl⟩)) fun _ => .pure _)
      fun h => h.weaken fun _ _ => Or.inl
  · rw [hgett, hgetu]
    exact .ite (.pure _) (.throw _)

/-- The normal texts of twins are made abreast if twins are printed abreast. -/
theorem normalNode_twins (hb : b.IsSound)
    (hprint : ∀ (S : Nat → Nat → Prop) (x y : Nat) (margin : Margin), S x y →
      Abreast (fun _ => False) (Paired m b S) (print x margin) (print y margin))
    {x y : Nat} (hxy : S x y) (margin : Margin) :
    Abreast (fun _ => False) (Paired m b S) (normalNode print m x margin)
      (normalNode print m y margin) := by
  refine .get_bind fun t u h => ?_
  obtain ⟨n, k, hn, hk, hparts, _⟩ := h.nodes hxy
  rw [node_eq_ok.2 hn, node_eq_ok.2 hk]
  dsimp only
  rw [hparts]
  exact .bind (.normalParts_id _ (printBelow_twins hb hprint hxy) k.parts) fun _ => .pure _

/-- Twins are printed abreast, by induction on the depth. -/
theorem printWithin_twins (hb : b.IsSound) : ∀ (depth : Nat) (S : Nat → Nat → Prop) (x y : Nat)
    (margin : Margin), S x y → Abreast (fun _ => False) (Paired m b S)
      (printWithin m depth x margin : Job M O Text) (printWithin m depth y margin)
  | 0, _, _, _, _, _ => .throw _
  | depth + 1, S, x, y, margin, hxy => by
    intro t u h
    obtain ⟨n, k, hn, hk, _, hnotn, hnotk⟩ := h.nodes hxy
    have hnone : ∀ {n : Node M O}, n.isLocated = false → n.located? = none := by
      intro n hn
      simpa [Node.isLocated] using hn
    unfold AbreastAt
    rw [printWithin_of_normal hn (hnone hnotn), printWithin_of_normal hk (hnone hnotk)]
    exact normalNode_twins hb (printWithin_twins hb depth) hxy margin t u h

end Twins

/-! ## Printing sprouted trees -/

section Printing

variable [DecidableEq O] {m : M} {b t : Tree M O}

/-- A node is printed in the same way however much deeper, unless it is nested
too deep. -/
theorem printWithin_le {depth depth' : Nat} (h : depth ≤ depth') (id : Nat) (margin : Margin)
    (t : Tree M O) : (printWithin m depth id margin).outcome t = .error .cyclicModel ∨
      printWithin m depth' id margin t = printWithin m depth id margin t := by
  induction h with
  | refl => exact Or.inr rfl
  | @step depth' _ ih =>
    rcases ih with hdeep | hsame
    · exact Or.inl hdeep
    have hrun := printWithin_deeper m depth' id margin t True.intro
    unfold MirrorsAt at hrun
    rw [hsame] at hrun
    unfold Job.outcome
    cases hprint : printWithin m depth id margin t with
    | ok text u =>
      rw [hprint] at hrun
      exact Or.inr hrun.2
    | error e u =>
      rw [hprint] at hrun
      exact hrun.imp (fun he => congrArg Except.error he) And.right

/-- In a sprouted tree an old node has the same text. -/
theorem Sprouted.printWithin_alike (h : Sprouted m b t) (hself : Sprouted m b b) (hb : b.IsSound)
    {depth depth' : Nat} (hdepth : depth ≤ depth') {id : Nat} (hid : id < b.nodes.size) (margin : Margin) :
    (printWithin m depth id margin).outcome b = .error .cyclicModel ∨
      (printWithin m depth' id margin).outcome t = (printWithin m depth id margin).outcome b := by
  have hpaired : Paired m b (fun x y => x = id ∧ y = id) b t := by
    refine ⟨hself, h, ?_⟩
    rintro x y ⟨rfl, rfl⟩
    exact Or.inl ⟨rfl, hid⟩
  have hsame : (printWithin m depth id margin).outcome t =
      (printWithin m depth id margin).outcome b := by
    rcases (printWithin_twins hb depth _ id id margin ⟨rfl, rfl⟩).cases hpaired with
      ⟨text, u, v, hu, hv, _⟩ | ⟨e, u, hu, hv⟩
    · rw [Job.outcome_ok hu, Job.outcome_ok hv]
    · obtain ⟨v, hv, _⟩ := hv.resolve_left not_false
      rw [Job.outcome_error hu, Job.outcome_error hv]
  rcases printWithin_le hdepth id margin t with hdeep | hmore
  · exact Or.inl (hsame.symm.trans hdeep)
  · right
    rw [← hsame]
    unfold Job.outcome
    rw [hmore]

omit [DecidableEq O] in
theorem Sprouted.located?_eq_none (h : Sprouted m b t) {id : Nat} {n : Node M O}
    (hn : t.nodes[id]? = some n) : n.located? = none := by
  simpa [Node.isLocated] using h.not_located hn

/-- The normal text of a node that is not located is its text one level deeper. -/
theorem Sprouted.normalNode_eq (h : Sprouted m b t) (depth : Nat) {id : Nat}
    (hid : id < t.nodes.size) (margin : Margin) :
    normalNode (printWithin m depth) m id margin t = printWithin m (depth + 1) id margin t := by
  obtain ⟨n, hn⟩ := exists_node_of_lt hid
  exact (printWithin_of_normal hn (h.located?_eq_none hn)).symm

omit [DecidableEq O] in
/-- A sprouted tree may be nested deeper. -/
theorem Sprouted.depthBound_le (h : Sprouted m b t) : b.depthBound m ≤ t.depthBound m := by
  have hsize := h.size_le
  unfold depthBound
  rw [h.language]
  omega

/-- In a sprouted tree an old node has the same normal text. -/
theorem Sprouted.printNormal_alike (h : Sprouted m b t) (hself : Sprouted m b b) (hb : b.IsSound)
    {id : Nat} (hid : id < b.nodes.size) (margin : Margin) :
    (printNormal m id margin).outcome b = .error .cyclicModel ∨
      (printNormal m id margin).outcome t = (printNormal m id margin).outcome b := by
  have hnormal : ∀ {u : Tree M O}, Sprouted m b u → (printNormal m id margin).outcome u =
      (printWithin m (u.depthBound m + 1) id margin).outcome u := by
    intro u hu
    have hprinted : printNormal m id margin u = printWithin m (u.depthBound m + 1) id margin u :=
      hu.normalNode_eq _ (Nat.lt_of_lt_of_le hid hu.size_le) margin
    rw [Job.outcome, hprinted, Job.outcome]
  rw [hnormal h, hnormal hself]
  exact h.printWithin_alike hself hb (Nat.succ_le_succ h.depthBound_le) hid margin

omit [DecidableEq O] in
/-- There is no source to put around the text of a root that is not located. -/
theorem Sprouted.outcome_framed {text : Job M O Text} (h : Sprouted m b (text.after t))
    (hroot : root < (text.after t).nodes.size) : (framed text).outcome t = text.outcome t := by
  obtain ⟨n, hn⟩ := exists_node_of_lt hroot
  have hnone := h.located?_eq_none hn
  unfold Job.after at hn
  unfold framed
  rw [Job.outcome_bind]
  cases hrun : text t with
  | error e u => exact (Job.outcome_error hrun).symm
  | ok a u =>
    rw [hrun] at hn
    dsimp only
    rw [Job.outcome_bind, Job.get_eq, Job.outcome_ok hrun]
    dsimp only
    rw [node_eq_ok.2 hn]
    dsimp only
    rw [hnone]
    rfl

/-- A root that is not located has a map that maps nothing. -/
theorem Sprouted.outcome_printMapped (h : Sprouted m b t) (hroot : root < t.nodes.size)
    (file : Text) : (printMapped m file).outcome t =
      ((printWithin m (t.depthBound m + 1) root t.settings.margin).outcome t).map fun text =>
        (text, (SourceMap.new file b.source.text).write text) := by
  obtain ⟨n, hn⟩ := exists_node_of_lt hroot
  have hnormal := h.normalNode_eq (t.depthBound m) hroot t.settings.margin
  have hafter := (Sprouted.prints m b).printNormal root t.settings.margin t h
  unfold Job.after printNormal at hafter
  unfold Job.outcome printMapped printNormal
  rw [node_eq_ok.2 hn, ← hnormal]
  simp only [h.located?_eq_none hn]
  cases hrun : normalNode (printWithin m (t.depthBound m)) m root t.settings.margin t with
  | error e u => rfl
  | ok text u =>
    rw [hrun] at hafter
    simp only [hafter.source, Except.map]

end Printing

end Tree

namespace Printing

open Reprint.Tree

/-- The node that is printed. -/
def target : Printing → Nat
  | .node id _ => id
  | .normal id _ => id
  | .root | .source | .mapped _ => Tree.root

variable [DecidableEq O] {m : M} {b t : Tree M O}

/-- In a sprouted tree everything prints as before, unless a node is nested too
deep. -/
theorem alike (call : Printing) (h : Sprouted m b t) (hself : Sprouted m b b) (hb : b.IsSound)
    (htarget : call.target < b.nodes.size) :
    (call.run m).outcome b = .error .cyclicModel ∨
      (call.run m).outcome t = (call.run m).outcome b := by
  have hsize := h.size_le
  have hdepth := h.depthBound_le
  -- Whatever is made of the text of a node is the same on both sides.
  have hmade : ∀ {α : Type} (f : Text → α) {before after : Except Error Text},
      before = .error .cyclicModel ∨ after = before →
      before.map f = .error .cyclicModel ∨ after.map f = before.map f := by
    intro α f before after halike
    refine halike.imp (fun hdeep => ?_) fun hsame => ?_
    · rw [hdeep]
      rfl
    · rw [hsame]
  have hnode : ∀ {α : Type} (f : Text → α) {depth depth' id : Nat} (margin : Margin),
      depth ≤ depth' → id < b.nodes.size →
      ((printWithin m depth id margin).outcome b).map f = .error .cyclicModel ∨
        ((printWithin m depth' id margin).outcome t).map f =
          ((printWithin m depth id margin).outcome b).map f :=
    fun f _ _ _ margin hle hid => hmade f (h.printWithin_alike hself hb hle hid margin)
  have hroot : ∀ {u : Tree M O}, Sprouted m b u → (printRoot m).outcome u =
      (printWithin m (u.depthBound m) Tree.root b.settings.margin).outcome u := by
    intro u hu
    rw [← hu.settings]
    rfl
  cases call with
  | node id margin =>
    unfold run
    rw [Job.outcome_bind_pure, Job.outcome_bind_pure]
    exact hnode _ margin hdepth htarget
  | normal id margin =>
    unfold run
    rw [Job.outcome_bind_pure, Job.outcome_bind_pure]
    exact hmade _ (h.printNormal_alike hself hb htarget margin)
  | root =>
    unfold run
    rw [Job.outcome_bind_pure, Job.outcome_bind_pure, hroot h, hroot hself]
    exact hnode _ _ hdepth htarget
  | source =>
    unfold run
    rw [Job.outcome_bind_pure, Job.outcome_bind_pure, printSource_eq]
    have hframed : ∀ {u : Tree M O}, Sprouted m b u →
        (framed (printRoot m)).outcome u = (printRoot m).outcome u := by
      intro u hu
      have hafter := (Sprouted.prints m b).printRoot u hu
      exact hafter.outcome_framed (Nat.lt_of_lt_of_le htarget hafter.size_le)
    rw [hframed h, hframed hself, hroot h, hroot hself]
    exact hnode _ _ hdepth htarget
  | mapped file =>
    have hrun : ∀ u : Tree M O, ((Printing.mapped file).run m).outcome u =
        ((printMapped m file).outcome u).map fun found => (found.1, some found.2) :=
      fun u => Job.outcome_bind_pure (printMapped m file) (fun found => (found.1, some found.2)) u
    rw [hrun, hrun, h.outcome_printMapped (Nat.lt_of_lt_of_le htarget hsize),
      hself.outcome_printMapped htarget, h.settings]
    have hmap : ∀ (e : Except Error Text) (g : Text → Text × SourceMap),
        (e.map g).map (fun found => (found.1, some found.2)) =
          e.map fun text => ((g text).1, some (g text).2) := by
      intro e g
      cases e <;> rfl
    rw [hmap, hmap]
    exact hnode _ _ (Nat.succ_le_succ hdepth) htarget

end Printing

end Reprint
