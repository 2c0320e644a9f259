import Reprint.Proofs.Tree.Reached

/-!
# Planting leaves nothing to make

An object is `Settled` below a node when looking its node up makes no new
one: the node is there, or none can be made.  A node is `Full` when all
objects that its parts refer to are settled below it.

While a node is being planted, all nodes but it and its ancestors are full,
and then it is full as well (`Fills`).  `plantObjects_settled` is the step
from one object to the next, and `plantWithin_fills` the induction on the
depth.  In the end all nodes of a new tree are full (`plant_full`), so that
locating it makes no nodes.
-/

namespace Reprint.Tree

variable {M O : Type} [DecidableEq O] {m : M} {t t' u : Tree M O}

/-- A node below another stays the one for its object. -/
theorem Extends.below? (h : t.Extends u) (htied : t.Tied) {id c : Nat} {n n' : Node M O}
    {object : O} (hn : t.nodes[id]? = some n) (hn' : u.nodes[id]? = some n')
    (hc : t.below? n object = some c) : u.below? n' object = some c := by
  obtain ⟨k, hk, hextends⟩ := h.node hn
  rw [hn'] at hk
  cases hk
  apply below?_of_prefix hextends.children _ hc
  intro x hx
  obtain ⟨k, hk⟩ := exists_node_of_lt (htied.lt_size_of_mem_children hn hx)
  obtain ⟨k', hk', hextends'⟩ := h.node hk
  exact ⟨k, k', hk, hk', hextends'.object⟩

/-- The node that was made is the last one. -/
theorem Tied.size_of_getNode (h : t.Tied) {id c : Nat} {object : O}
    (hget : t.getNode m id object = .ok (c, u)) (hnew : t.nodes.size ≤ c) :
    c = t.nodes.size ∧ u.nodes.size = t.nodes.size + 1 := by
  obtain ⟨n, hn, ⟨hbelow, rfl⟩ | ⟨_, rfl, layout, place, _, _, rfl⟩⟩ := getNode_cases hget
  · have := h.lt_size_of_mem_children hn (below?_eq_some hbelow).1
    omega
  · exact ⟨rfl, size_addNode ..⟩

/-! ## Settled objects -/

/-- The node below a node for an object is there, or none can be made. -/
def Settled (m : M) (t : Tree M O) (id : Nat) (object : O) : Prop :=
  ∃ n, t.nodes[id]? = some n ∧ ((∃ c, t.below? n object = some c) ∨ ¬ t.CanMake m object)

namespace Settled

theorem extend {id : Nat} {object : O} (h : Settled m t id object) (hextends : t.Extends u)
    (htied : t.Tied) : Settled m u id object := by
  obtain ⟨n, hn, hsettled⟩ := h
  obtain ⟨n', hn', _⟩ := hextends.node hn
  refine ⟨n', hn', ?_⟩
  rcases hsettled with ⟨c, hc⟩ | hcannot
  · exact Or.inl ⟨c, hextends.below? htied hn hn' hc⟩
  · right
    rintro ⟨layout, place, hlayout, hplace⟩
    rw [hextends.language] at hlayout
    rw [hextends.source] at hplace
    exact hcannot ⟨layout, place, hlayout, hplace⟩

/-- A settled object needs no new node. -/
theorem getNode_eq {id c : Nat} {object : O} (h : Settled m t id object)
    (hget : t.getNode m id object = .ok (c, u)) :
    u = t ∧ ∃ n, t.nodes[id]? = some n ∧ t.below? n object = some c := by
  obtain ⟨n, hn, hsettled⟩ := h
  obtain ⟨n', hn', ⟨hbelow, rfl⟩ | ⟨hnone, _, layout, place, hlayout, hplace, _⟩⟩ := getNode_cases hget
  · exact ⟨rfl, n', hn', hbelow⟩
  · rw [hn] at hn'
    cases hn'
    rcases hsettled with ⟨c, hc⟩ | hcannot
    · rw [hnone] at hc
      cases hc
    · exact absurd ⟨layout, place, hlayout, hplace⟩ hcannot

end Settled

/-- All objects that the parts of a node refer to are settled below it. -/
def Full (m : M) (t : Tree M O) (id : Nat) : Prop :=
  ∀ n, t.nodes[id]? = some n → ∀ object ∈ Part.selectedAll m n.parts, Settled m t id object

/-! ## Growing trees -/

/-- A later tree in which old nodes also have their parts still, and in which
nothing was recorded. -/
structure Outgrows (t u : Tree M O) : Prop extends t.Extends u where
  unmarked : u.marks = t.marks
  parts : ∀ {id : Nat} {n n' : Node M O}, t.nodes[id]? = some n → u.nodes[id]? = some n' →
    n'.parts = n.parts

namespace Outgrows

omit [DecidableEq O] in
theorem refl (t : Tree M O) : t.Outgrows t where
  toExtends := .refl t
  unmarked := rfl
  parts hn hn' := by
    rw [hn] at hn'
    cases hn'
    rfl

omit [DecidableEq O] in
theorem trans {v : Tree M O} (htu : t.Outgrows u) (huv : u.Outgrows v) : t.Outgrows v where
  toExtends := htu.toExtends.trans huv.toExtends
  unmarked := huv.unmarked.trans htu.unmarked
  parts hn hn' := by
    obtain ⟨k, hk, _⟩ := htu.node hn
    exact (huv.parts hk hn').trans (htu.parts hn hk)

theorem getNode {id c : Nat} {object : O} (h : t.getNode m id object = .ok (c, u)) :
    t.Outgrows u where
  toExtends := .getNode h
  unmarked := by
    obtain ⟨k, hk, ⟨_, rfl⟩ | ⟨_, _, layout, place, _, _, rfl⟩⟩ := getNode_cases h
    · rfl
    · exact marks_addNode ..
  parts {x n n'} hn hn' := by
    obtain ⟨k, hk, ⟨_, rfl⟩ | ⟨_, _, layout, place, _, _, rfl⟩⟩ := getNode_cases h
    · rw [hn] at hn'
      cases hn'
      rfl
    · rw [getElem?_addNode_of_lt (lt_size_of_node hn) (lt_size_of_node hk), hn, Option.map_some,
        Option.some.injEq] at hn'
      rw [← hn']
      cases place with
      | none => dsimp only; split <;> rfl
      | some p => dsimp only; split <;> split <;> rfl

theorem full {x : Nat} (h : t.Outgrows u) (htied : t.Tied) (hx : x < t.nodes.size)
    (hfull : Full m t x) : Full m u x := by
  intro n' hn' object hobject
  obtain ⟨n, hn⟩ := exists_node_of_lt hx
  rw [h.parts hn hn'] at hobject
  exact (hfull n hn object hobject).extend h.toExtends htied

end Outgrows

/-! ## Planting -/

/-- What a `descend` does that plants a new node: all nodes that come to be
are full, and so are those that were full before. -/
def Fills (m : M) (descend : Nat → Job M O Unit) : Prop :=
  ∀ (id : Nat) (t t' : Tree M O), t.WellFormed → descend id t = .ok () t' →
    (∀ x, x ∉ t.lineage id → Full m t x) →
      t.Outgrows t' ∧ t'.WellFormed ∧ ∀ x, x = id ∨ x ∉ t.lineage id → Full m t' x

/-- A new node for an object is planted: the object is settled, and the new
node is full. -/
theorem getNode_fills {descend : Nat → Job M O Unit} (hdescend : Fills m descend) {id c : Nat}
    {object : O} {t u v : Tree M O} (hwell : t.WellFormed)
    (hget : t.getNode m id object = .ok (c, u)) (hnew : t.nodes.size ≤ c)
    (hplanted : descend c u = .ok () v) (hfull : ∀ x, x ∉ t.lineage id → Full m t x) :
    t.Outgrows v ∧ v.WellFormed ∧ (∀ x, x ∉ t.lineage id → Full m v x) ∧ Settled m v id object := by
  have hgrown := Outgrows.getNode hget
  have hu := hwell.getNode hget
  have hlineage := hwell.lineage_of_getNode hget
  obtain ⟨hgrown', hv, hfull'⟩ := hdescend c u v hu hplanted fun x hx => by
    rw [hlineage, List.mem_cons, not_or] at hx
    intro n hn
    have hold : x < t.nodes.size := by
      have := lt_size_of_node hn
      have := hwell.size_of_getNode hget hnew
      omega
    exact hgrown.full hwell.toTied hold (hfull x hx.2) n hn
  refine ⟨hgrown.trans hgrown', hv, fun x hx => hfull' x ?_, ?_⟩
  · by_cases hxc : x = c
    · exact Or.inl hxc
    · right
      rw [hlineage, List.mem_cons, not_or]
      exact ⟨hxc, hx⟩
  · obtain ⟨n, hn, hbelow⟩ := hwell.isSound.below?_of_getNode hget
    exact Settled.extend ⟨n, hn, Or.inl ⟨c, hbelow⟩⟩ hgrown'.toExtends hu.toTied

/-- Planting objects below a node settles them. -/
theorem plantObjects_settled {descend : Nat → Job M O Unit} (hdescend : Fills m descend) {id : Nat} :
    ∀ {objects : List O} {t t' : Tree M O}, t.WellFormed → id < t.nodes.size →
      plantObjects descend m id objects t = .ok () t' → (∀ x, x ∉ t.lineage id → Full m t x) →
        t.Outgrows t' ∧ t'.WellFormed ∧ (∀ x, x ∉ t.lineage id → Full m t' x) ∧
          ∀ object ∈ objects, Settled m t' id object
  | [], t, t', hwell, _, hrun, hfull => by
    obtain rfl : t = t' := by
      cases hrun
      rfl
    exact ⟨.refl t, hwell, hfull, fun _ h => absurd h List.not_mem_nil⟩
  | object :: rest, t, t', hwell, hid, hrun, hfull => by
    -- what remains to do once the first object is settled
    have hrest : ∀ {u : Tree M O}, t.Outgrows u → u.WellFormed →
        (∀ x, x ∉ t.lineage id → Full m u x) → Settled m u id object →
        plantObjects descend m id rest u = .ok () t' →
        t.Outgrows t' ∧ t'.WellFormed ∧ (∀ x, x ∉ t.lineage id → Full m t' x) ∧
          ∀ o ∈ object :: rest, Settled m t' id o := by
      intro u houtgrows hu hfull' hsettled hrun'
      have hlineage := houtgrows.toExtends.lineage hid
      obtain ⟨n, hn⟩ := exists_node_of_lt hid
      obtain ⟨n', hn', _⟩ := houtgrows.node hn
      obtain ⟨hgrown, hwell', hfull'', hobjects⟩ := plantObjects_settled hdescend hu
        (lt_size_of_node hn') hrun' (by rw [hlineage]; exact hfull')
      refine ⟨houtgrows.trans hgrown, hwell', by rw [← hlineage]; exact hfull'', fun o ho => ?_⟩
      rcases List.mem_cons.1 ho with rfl | ho
      · exact hsettled.extend hgrown.toExtends hu.toTied
      · exact hobjects o ho
    simp only [plantObjects, bind, EStateM.bind, Job.get_eq] at hrun
    cases hget : t.getNode m id object with
    | error e =>
      rw [hget] at hrun
      cases hlocal : e.isLocal with
      | true =>
        simp only [hlocal, if_true] at hrun
        obtain ⟨n, hn, _, hcannot⟩ := getNode_eq_error hget hlocal
        exact hrest (.refl t) hwell hfull ⟨n, hn, Or.inr hcannot⟩ hrun
      | false =>
        simp only [hlocal, Bool.false_eq_true, if_false] at hrun
        cases hrun
    | ok found =>
      obtain ⟨c, u⟩ := found
      simp only [hget] at hrun
      replace hrun : (if t.nodes.size ≤ c then
          EStateM.bind (descend c) fun _ => plantObjects descend m id rest
        else plantObjects descend m id rest) u = .ok () t' := hrun
      by_cases hnew : t.nodes.size ≤ c
      · rw [if_pos hnew, EStateM.bind] at hrun
        cases hplanted : descend c u with
        | error e v =>
          rw [hplanted] at hrun
          cases hrun
        | ok _ v =>
          rw [hplanted] at hrun
          obtain ⟨hgrown, hv, hfull', hsettled⟩ := getNode_fills hdescend hwell hget hnew hplanted hfull
          exact hrest hgrown hv hfull' hsettled hrun
      · rw [if_neg hnew] at hrun
        obtain ⟨n, hn, ⟨hbelow, rfl⟩ | ⟨_, rfl, _⟩⟩ := getNode_cases hget
        · exact hrest (.refl _) hwell hfull ⟨n, hn, Or.inl ⟨c, hbelow⟩⟩ hrun
        · exact absurd (Nat.le_refl _) hnew

/-- Planting a node fills it, by induction on the depth. -/
theorem plantWithin_fills (m : M) :
    ∀ depth, Fills m (plantWithin m depth : Nat → Job M O Unit)
  | 0, _, _, _, _, hrun, _ => by cases hrun
  | depth + 1, id, t, t', hwell, hrun, hfull => by
    simp only [plantWithin, bind, EStateM.bind, Job.get_eq] at hrun
    cases hn : t.node id with
    | error e =>
      rw [hn] at hrun
      cases hrun
    | ok n =>
      rw [hn] at hrun
      have hn := node_eq_ok.1 hn
      obtain ⟨hgrown, hwell', hfull', hsettled⟩ := plantObjects_settled (plantWithin_fills m depth)
        hwell (lt_size_of_node hn) hrun hfull
      refine ⟨hgrown, hwell', fun x hx => ?_⟩
      rcases hx with rfl | hx
      · intro n' hn' object hobject
        rw [hgrown.parts hn hn'] at hobject
        exact hsettled object hobject
      · exact hfull' x hx

omit [DecidableEq O] in
/-- A new tree has its root alone. -/
theorem new_of_ofRoot {language : Language M O} {source : Text} {object : O}
    (h : ofRoot language m source object = .ok t) :
    t.nodes.size = 1 ∧ t.marks = [] ∧ t.complete = false := by
  obtain ⟨layout, place, _, _, rfl⟩ := newNode_eq_ok h
  rw [addNode_none]
  exact ⟨rfl, rfl, rfl⟩

/-- Planting a new tree fills all its nodes. -/
theorem plant_full {language : Language M O} {source : Text} {object : O}
    (hroot : ofRoot language m source object = .ok t) (hplant : plant m root t = .ok () t') :
    t'.WellFormed ∧ t'.marks = [] ∧ ∀ x, Full m t' x := by
  have hwell := wellFormed_ofRoot hroot
  obtain ⟨hsize, hmarks, _⟩ := new_of_ofRoot hroot
  obtain ⟨n, hn, hancestors⟩ := hwell.root
  have hlineage : t.lineage root = [root] := by
    rw [lineage_eq hn, hancestors]
  obtain ⟨hgrown, hwell', hfull⟩ := plantWithin_fills m _ root t t' hwell hplant fun x hx k hk => by
    have := lt_size_of_node hk
    rw [hlineage, List.mem_singleton] at hx
    unfold root at hx
    omega
  refine ⟨hwell', hgrown.unmarked.trans hmarks, fun x => hfull x ?_⟩
  rw [hlineage, List.mem_singleton]
  exact Classical.em _

end Reprint.Tree
