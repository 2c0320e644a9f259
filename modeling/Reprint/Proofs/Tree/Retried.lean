import Reprint.Proofs.Tree.Adopted
import Reprint.Proofs.Tree.Sprouted

/-!
# Locating a tree again after a failure

Locating makes all nodes first and then visits them, and it can fail in either
half.

When no node can be made for an object, the visit has not begun: no node is
located, and the tree only has more nodes than before.  It is then `Doomed`: a
chain of nodes leads from the root to the refused object
(`plantWithin_doomed`).  Nothing that succeeds changes that (`Undone`), so
locating the tree again fails again, in one half or the other, as long as the
nodes of the chain have source text that is visited (`locateWithin_undone`).

When the visit fails, the root counts as located from then on, because a node
is marked however its visit ends.  Locating the tree again then passes the root
over and succeeds.
-/

namespace Reprint

variable {M O : Type}

/-! ## The objects of located parts -/

namespace Part

mutual

theorem selected_settle (m : M) : ∀ p : Part M O, p.settle.selected m = p.selected m
  | .literal .. | .slot .. | .items .. | .choice .. => by rw [settle]
  | .group frame members true => by rw [settle, selected, selected, selectedAll_settleAll m members]
  | .group frame members false => by rw [settle]
termination_by structural p => p

theorem selectedAll_settleAll (m : M) : ∀ parts : List (Part M O),
    selectedAll m (settleAll parts) = selectedAll m parts
  | [] => by rw [settleAll]
  | p :: rest => by
    rw [settleAll, selectedAll, selectedAll, selected_settle m p, selectedAll_settleAll m rest]
termination_by structural parts => parts

end

end Part

namespace Tree

variable [DecidableEq O] {m : M}

section Selected

variable {descend : Nat → Job M O Unit} {owner : Nat}

theorem supply_locateItems (frame : Frame) (count : Nat) : ∀ (objects : List O) (index : Nat)
    (list : ItemList M O) (extent : Option Span) (s : Survey M O),
    (locateItems descend m owner frame count index objects list extent s).1.supply = list.supply
  | [], _, _, _, _ => rfl
  | object :: rest, index, list, extent, s => by
    rw [locateItems]
    split
    · rw [supply_locateItems frame count rest]
    · split
      split
      · split
        · rw [supply_locateItems frame count rest]
        · rfl
      · rw [supply_locateItems frame count rest]

mutual

/-- A located part refers to the same objects. -/
theorem selected_locatePart : ∀ (p : Part M O) (s : Survey M O),
    (locatePart descend m owner p s).1.selected m = p.selected m
  | .literal frame wording place, s => by
    rw [locatePart]
    split <;> simp only [Part.selected]
  | .slot frame supply listed, s => by
    rw [locatePart]
    split
    · rfl
    · split
      · rfl
      · simp only [Part.selected]
  | .items frame list, s => by
    rw [locatePart_items]
    simp only [Part.selected, supply_locateItems]
  | .choice frame test yes no taken, s => by
    cases htest : test m with
    | true =>
      rw [locatePart_yes htest]
      dsimp only
      split <;> cases no <;> simp only [Part.selected, htest, if_true, Part.selected_settle,
        selected_locatePart yes s]
    | false =>
      cases no with
      | none => rw [locatePart_neither htest]
      | some other =>
        rw [locatePart_no htest]
        dsimp only
        split <;> simp only [Part.selected, htest, Bool.false_eq_true, if_false,
          Part.selected_settle, selected_locatePart other s]
  | .group frame members stale, s => by
    rw [locatePart_group]
    dsimp only
    split <;> simp only [Part.selected_settle, Part.selected, selectedAll_locateParts members s]
termination_by structural p => p

theorem selectedAll_locateParts : ∀ (parts : List (Part M O)) (s : Survey M O),
    Part.selectedAll m (locateParts descend m owner parts s).1 = Part.selectedAll m parts
  | [], s => rfl
  | p :: rest, s => by
    rw [locateParts_cons]
    dsimp only
    split <;> simp only [Part.selectedAll, selected_locatePart p s]
    rw [selectedAll_locateParts rest]
termination_by structural parts => parts

end

end Selected

/-! ## Planting -/

section Planting

variable {descend : Nat → Job M O Unit} {t t' : Tree M O} {id : Nat} {object : O} {rest : List O}

theorem plantObjects_cons (descend : Nat → Job M O Unit) (t : Tree M O) (id : Nat) (object : O)
    (rest : List O) : plantObjects descend m id (object :: rest) t =
      match t.getNode m id object with
      | .error e => if e.isLocal then plantObjects descend m id rest t else .error e t
      | .ok (c, u) =>
        if t.nodes.size ≤ c then
          match descend c u with
          | .error e v => .error e v
          | .ok _ v => plantObjects descend m id rest v
        else plantObjects descend m id rest u := by
  rw [plantObjects]
  simp only [bind, EStateM.bind, Job.get_eq]
  cases t.getNode m id object with
  | error e =>
    dsimp only
    split <;> rfl
  | ok found =>
    obtain ⟨c, u⟩ := found
    dsimp only
    by_cases hnew : t.nodes.size ≤ c
    · simp only [hnew, if_true]
      show EStateM.bind (descend c) (fun _ => plantObjects descend m id rest) u = _
      unfold EStateM.bind
      cases descend c u <;> rfl
    · simp only [hnew, if_false]
      rfl

/-- Planting only adds nodes. -/
theorem Outgrows.grows (m : M) (t : Tree M O) :
    Grows m fun u => t.Outgrows u ∧ u.WellFormed :=
  ⟨fun hu hget => ⟨hu.1.trans (.getNode hget), hu.2.getNode hget⟩⟩

/-- An object that planting passes over: its node is there, or planting skips it. -/
def Passable (m : M) (t : Tree M O) (id : Nat) (object : O) : Prop :=
  ∃ n, t.nodes[id]? = some n ∧
    ((∃ c, t.below? n object = some c) ∨ ∃ e, t.Refuses m object e ∧ e.isLocal = true)

theorem Passable.extend (h : Passable m t id object) (htied : t.Tied) (hextends : t.Extends t') :
    Passable m t' id object := by
  obtain ⟨n, hn, hcase⟩ := h
  obtain ⟨n', hn', _⟩ := hextends.node hn
  refine ⟨n', hn', hcase.imp (fun ⟨c, hc⟩ => ⟨c, hextends.below? htied hn hn' hc⟩) ?_⟩
  rintro ⟨e, hrefuses, hlocal⟩
  exact ⟨e, hrefuses.congr hextends.language hextends.source, hlocal⟩

/-- What has been planted is passed over. -/
theorem plantObjects_passable
    (hdescend : ∀ (t : Tree M O) c, Job.Keeping (fun u => t.Outgrows u ∧ u.WellFormed) (descend c)) :
    ∀ {objects : List O} {t t' : Tree M O}, t.WellFormed → id < t.nodes.size →
      plantObjects descend m id objects t = .ok () t' →
      t.Outgrows t' ∧ t'.WellFormed ∧ ∀ object ∈ objects, Passable m t' id object
  | [], t, t', hwell, _, hrun => by
    cases hrun
    exact ⟨.refl t, hwell, nofun⟩
  | object :: rest, t, t', hwell, hid, hrun => by
    -- what remains to do once the first object is passable
    have hrest : ∀ {u : Tree M O}, t.Outgrows u → u.WellFormed → Passable m u id object →
        plantObjects descend m id rest u = .ok () t' →
        t.Outgrows t' ∧ t'.WellFormed ∧ ∀ o ∈ object :: rest, Passable m t' id o := by
      intro u hgrown hu hpassable hrun
      have ⟨n, hn, _⟩ := hpassable
      obtain ⟨hgrown', hwell', hall⟩ := plantObjects_passable hdescend hu (lt_size_of_node hn) hrun
      refine ⟨hgrown.trans hgrown', hwell', fun o ho => ?_⟩
      rcases List.mem_cons.1 ho with rfl | ho
      · exact hpassable.extend hu.toTied hgrown'.toExtends
      · exact hall o ho
    obtain ⟨n, hn⟩ := exists_node_of_lt hid
    rw [plantObjects_cons] at hrun
    cases hget : t.getNode m id object with
    | error e =>
      rw [hget] at hrun
      dsimp only at hrun
      split at hrun
      · next hlocal =>
        exact hrest (.refl t) hwell
          ⟨n, hn, Or.inr ⟨e, (refuses_of_getNode hn hget).2, hlocal⟩⟩ hrun
      · cases hrun
    | ok found =>
      obtain ⟨c, u⟩ := found
      rw [hget] at hrun
      dsimp only at hrun
      have hu := hwell.getNode hget
      obtain ⟨k, hk, hbelow⟩ := hwell.isSound.below?_of_getNode hget
      have hpassable : Passable m u id object := ⟨k, hk, Or.inl ⟨c, hbelow⟩⟩
      split at hrun
      · cases hplanted : descend c u with
        | error e v =>
          rw [hplanted] at hrun
          cases hrun
        | ok _ v =>
          rw [hplanted] at hrun
          have hkept := (hdescend u c).of_ok ⟨.refl u, hu⟩ hplanted
          exact hrest ((Outgrows.getNode hget).trans hkept.1) hkept.2
            (hpassable.extend hu.toTied hkept.1.toExtends) hrun
      · exact hrest (.getNode hget) hu hpassable hrun

/-- Objects that are passed over are planted without any change. -/
theorem plantObjects_of_passable (descend : Nat → Job M O Unit) (hwell : t.WellFormed) :
    ∀ {objects : List O},
    (∀ object ∈ objects, Passable m t id object) → plantObjects descend m id objects t = .ok () t
  | [], _ => rfl
  | object :: rest, hall => by
    have hrest := plantObjects_of_passable descend hwell
      fun o ho => hall o (List.mem_cons_of_mem _ ho)
    obtain ⟨n, hn, hcase⟩ := hall object List.mem_cons_self
    rw [plantObjects_cons]
    cases hbelow : t.below? n object with
    | some c =>
      have hold := hwell.lt_size_of_mem_children hn (below?_eq_some hbelow).1
      rw [getNode_of_below? hn hbelow]
      dsimp only
      rw [if_neg (Nat.not_le.2 hold)]
      exact hrest
    | none =>
      obtain ⟨e, hrefuses, hlocal⟩ := hcase.resolve_left (by simp [hbelow])
      rw [getNode_refused hn hbelow hrefuses]
      dsimp only
      rw [if_pos hlocal]
      exact hrest

/-- A node is `Doomed` by an object that it refers to if no node can be made for
that object, or if the node of that object is doomed. -/
inductive Doomed (m : M) (t : Tree M O) : Nat → O → Prop
  | refused {id : Nat} {n : Node M O} {object : O} {e : Error} (node : t.nodes[id]? = some n)
      (refers : object ∈ Part.selectedAll m n.parts) (none : t.below? n object = none)
      (refused : t.Refuses m object e) (final : e.isLocal = false) : Doomed m t id object
  | child {id c : Nat} {n : Node M O} {object other : O} (node : t.nodes[id]? = some n)
      (refers : object ∈ Part.selectedAll m n.parts) (below : t.below? n object = some c)
      (doomed : Doomed m t c other) : Doomed m t id object

/-- Planting objects below a node fails only if one of them dooms it. -/
theorem plantObjects_doomed
    (hkeeps : ∀ (t : Tree M O) c, Job.Keeping (fun u => t.Outgrows u ∧ u.WellFormed) (descend c))
    (hdescend : ∀ {c : Nat} {u v : Tree M O} {e : Error}, u.WellFormed → c < u.nodes.size →
      descend c u = .error e v → e ≠ .cyclicModel → ∃ o, Doomed m v c o) {e : Error}
    (he : e ≠ .cyclicModel) : ∀ {objects : List O} {t t' : Tree M O} {n : Node M O}, t.WellFormed →
      t.nodes[id]? = some n → (∀ o ∈ objects, o ∈ Part.selectedAll m n.parts) →
      plantObjects descend m id objects t = .error e t' → ∃ o, Doomed m t' id o
  | [], _, _, _, _, _, _, hrun => by cases hrun
  | object :: rest, t, t', n, hwell, hn, hrefers, hrun => by
    have hobject := hrefers object List.mem_cons_self
    -- what remains to do once the first object is planted
    have hrest : ∀ {u : Tree M O}, t.Outgrows u → u.WellFormed →
        plantObjects descend m id rest u = .error e t' → ∃ o, Doomed m t' id o := by
      intro u hgrown hu hrun
      obtain ⟨n', hn', _⟩ := hgrown.node hn
      refine plantObjects_doomed hkeeps hdescend he hu hn' (fun o ho => ?_) hrun
      rw [hgrown.parts hn hn']
      exact hrefers o (List.mem_cons_of_mem _ ho)
    rw [plantObjects_cons] at hrun
    cases hget : t.getNode m id object with
    | error e' =>
      rw [hget] at hrun
      dsimp only at hrun
      split at hrun
      · exact hrest (.refl t) hwell hrun
      · next hfinal =>
        cases hrun
        obtain ⟨hnone, hrefused⟩ := refuses_of_getNode hn hget
        exact ⟨object, .refused hn hobject hnone hrefused (Bool.not_eq_true _ ▸ hfinal)⟩
    | ok found =>
      obtain ⟨c, u⟩ := found
      rw [hget] at hrun
      dsimp only at hrun
      have hu := hwell.getNode hget
      have hgrown := Outgrows.getNode hget
      obtain ⟨k, hk, hbelow⟩ := hwell.isSound.below?_of_getNode hget
      split at hrun
      · cases hplanted : descend c u with
        | ok _ v =>
          rw [hplanted] at hrun
          have hkept := (hkeeps u c).of_ok ⟨.refl u, hu⟩ hplanted
          exact hrest (hgrown.trans hkept.1) hkept.2 hrun
        | error e' v =>
          rw [hplanted] at hrun
          have hkept := (hkeeps u c).of_error ⟨.refl u, hu⟩ hplanted
          cases hrun
          obtain ⟨o, hdoomed⟩ := hdescend hu
            (hu.lt_size_of_mem_children hk (below?_eq_some hbelow).1) hplanted he
          obtain ⟨k', hk', _⟩ := hkept.1.node hk
          refine ⟨object, .child hk' ?_ (hkept.1.toExtends.below? hu.toTied hk hk' hbelow) hdoomed⟩
          rw [(hgrown.trans hkept.1).parts hn hk']
          exact hobject
      · exact hrest hgrown hu hrun

/-- Planting a node fails only if it is doomed, by induction on the depth. -/
theorem plantWithin_doomed (m : M) : ∀ (depth : Nat) {id : Nat} {t t' : Tree M O} {e : Error},
    t.WellFormed → id < t.nodes.size → plantWithin m depth id t = .error e t' →
    e ≠ .cyclicModel → ∃ o, Doomed m t' id o
  | 0, _, _, _, _, _, _, hrun, he => by
    cases hrun
    exact absurd rfl he
  | depth + 1, id, t, t', e, hwell, hid, hrun, he => by
    obtain ⟨n, hn⟩ := exists_node_of_lt hid
    simp only [plantWithin, bind, EStateM.bind, Job.get_eq, node_eq_ok.2 hn] at hrun
    exact plantObjects_doomed (fun t c => (Outgrows.grows m t).plantWithin depth c)
      (plantWithin_doomed m depth) he hwell hn (fun _ ho => ho) hrun

end Planting

/-! ## Every object is visited -/

section Visited

variable {P : Tree M O → Prop} {Q : O → Prop} {descend : Nat → Job M O Unit} {owner : Nat}

/-- What is known of every item that is visited without a failure. -/
def Visits (P : Tree M O → Prop) (Q : O → Prop) (descend : Nat → Job M O Unit) (m : M)
    (owner : Nat) : Prop :=
  ∀ {object : O} {lead trail : Text} {s s' : Survey M O} {found : Option Nat}, P s.tree →
    locateItem descend m owner object lead trail s = (found, s') →
      (found = none → s'.isRunning = true) → s'.failure = s.failure ∧ Q object ∧ P s'.tree

namespace Visits

omit [DecidableEq O] in
theorem isRunning_of_failure {s s' : Survey M O} (h : s'.failure = s.failure)
    (hrun : s'.isRunning = true) : s.isRunning = true := by
  rwa [Survey.isRunning, ← h]

/-- If a list is visited without a failure, then so is each of its items, but for
those that are in the list already. -/
theorem items (h : Visits P Q descend m owner) {frame : Frame} {count : Nat} :
    ∀ {objects : List O} {index : Nat} {list : ItemList M O} {extent : Option Span}
      {s : Survey M O}, P s.tree →
      (locateItems descend m owner frame count index objects list extent s).2.2.isRunning = true →
      s.isRunning = true ∧
        ((∀ o, (list.item? o).isSome = true → Q o) → ∀ o ∈ objects, Q o) ∧
        P (locateItems descend m owner frame count index objects list extent s).2.2.tree
  | [], _, _, _, _, hs, hrun => ⟨hrun, fun _ _ ho => absurd ho List.not_mem_nil, hs⟩
  | object :: rest, index, list, extent, s, hs, hrun => by
    rw [locateItems] at hrun ⊢
    split at hrun
    · next hitem =>
      rw [if_pos hitem]
      have hvisited := items h hs hrun
      exact ⟨hvisited.1, fun hlist =>
        List.forall_mem_cons.2 ⟨hlist object hitem, hvisited.2.1 hlist⟩, hvisited.2.2⟩
    next hitem =>
    rw [if_neg hitem]
    dsimp only at hrun ⊢
    cases hone : locateItem descend m owner object (list.around frame index count).1
      (list.around frame index count).2 s with
    | mk found s' =>
      rw [hone] at hrun
      cases found with
      | none =>
        dsimp only at hrun ⊢
        by_cases hrunning : s'.isRunning = true
        · rw [if_pos hrunning] at hrun ⊢
          obtain ⟨hfailure, hobject, hs'⟩ := h hs hone fun _ => hrunning
          obtain ⟨_, hrest, hafter⟩ := items h hs' hrun
          exact ⟨isRunning_of_failure hfailure hrunning,
            fun hlist => List.forall_mem_cons.2 ⟨hobject, hrest hlist⟩, hafter⟩
        · rw [if_neg hrunning] at hrun
          exact absurd hrun hrunning
      | some id =>
        dsimp only at hrun ⊢
        obtain ⟨hfailure, hobject, hs'⟩ := h hs hone fun hnone => by cases hnone
        obtain ⟨hrunning, hrest, hafter⟩ := items h hs' hrun
        refine ⟨isRunning_of_failure hfailure hrunning, fun hlist =>
          List.forall_mem_cons.2 ⟨hobject, hrest fun o ho => ?_⟩, hafter⟩
        -- the one item that came to the list was visited just now
        rw [ItemList.item?, List.find?_append, Option.isSome_or, Bool.or_eq_true] at ho
        rcases ho with ho | ho
        · exact hlist o ho
        · obtain ⟨item, hitem⟩ := Option.isSome_iff_exists.1 ho
          obtain rfl := List.mem_singleton.1 (List.mem_of_find?_eq_some hitem)
          have hsame : object = o := by simpa using List.find?_some hitem
          exact hsame ▸ hobject

mutual

/-- If a part is visited without a failure that was new before, then so are all
objects that it refers to. -/
theorem part (hP : Surveys m P) (howner : ∀ u, P u → owner < u.nodes.size)
    (h : Visits P Q descend m owner) : ∀ (p : Part M O) {s : Survey M O}, P s.tree →
      (locatePart descend m owner p s).2.isRunning = true →
      s.isRunning = true ∧ (p.IsNew → ∀ o ∈ p.selected m, Q o) ∧
        P (locatePart descend m owner p s).2.tree
  | .literal frame wording place, s, hs, hrun => by
    rw [locatePart] at hrun ⊢
    rw [Part.selected]
    split at hrun
    · cases hrun
    · next hliteral =>
      have hafter := hP.locateLiteral howner hs hliteral
      have hfailure : ∀ {place' : LiteralPlace} {s' : Survey M O},
          locateLiteral s owner frame (wording.text m) place = .ok (place', s') →
          s'.failure = s.failure := by
        intro place' s' hliteral
        rcases locateLiteral_cases hliteral with ⟨_, _, rfl⟩ | ⟨_, _, _, _, _, _, _, _, _, rfl⟩ <;> rfl
      exact ⟨isRunning_of_failure (hfailure hliteral) hrun, fun _ => nofun, hafter⟩
  | .slot frame supply listed, s, hs, hrun => by
    rw [locatePart] at hrun ⊢
    rw [Part.selected]
    cases hsupply : supply m with
    | none =>
      rw [hsupply] at hrun
      exact ⟨hrun, fun _ => nofun, hs⟩
    | some object =>
      rw [hsupply] at hrun
      dsimp only at hrun ⊢
      cases hone : locateItem descend m owner object frame.leadText frame.trailText s with
      | mk found s' =>
        rw [hone] at hrun
        have hrunning : s'.isRunning = true := by cases found <;> exact hrun
        obtain ⟨hfailure, hobject, hs'⟩ := h hs hone fun _ => hrunning
        refine ⟨isRunning_of_failure hfailure hrunning, fun _ o ho => ?_, ?_⟩
        · rw [List.mem_singleton.1 ho]
          exact hobject
        · cases found <;> exact hs'
  | .items frame list, s, hs, hrun => by
    rw [locatePart_items] at hrun ⊢
    rw [Part.selected]
    obtain ⟨hrunning, hall, hafter⟩ := items h hs hrun
    refine ⟨hrunning, fun hnew => hall fun o ho => ?_, hafter⟩
    rw [Part.IsNew] at hnew
    rw [ItemList.item?, hnew.1] at ho
    cases ho
  | .choice frame test yes no taken, s, hs, hrun => by
    cases htest : test m with
    | true =>
      have hselected : (Part.choice frame test yes no taken).selected m = yes.selected m := by
        cases no <;> rw [Part.selected, if_pos htest]
      rw [locatePart_yes htest] at hrun ⊢
      rw [hselected]
      obtain ⟨hrunning, hall, hafter⟩ := part hP howner h yes hs hrun
      refine ⟨hrunning, fun hnew => hall ?_, hafter⟩
      cases no <;> simp only [Part.IsNew] at hnew <;> exact hnew.2.1
    | false =>
      cases no with
      | none =>
        rw [locatePart_neither htest] at hrun ⊢
        rw [Part.selected, htest, if_neg Bool.false_ne_true]
        exact ⟨hrun, fun _ => nofun, hs⟩
      | some other =>
        rw [locatePart_no htest] at hrun ⊢
        rw [Part.selected, htest, if_neg Bool.false_ne_true]
        obtain ⟨hrunning, hall, hafter⟩ := part hP howner h other hs hrun
        refine ⟨hrunning, fun hnew => hall ?_, hafter⟩
        simp only [Part.IsNew] at hnew
        exact hnew.2.2
  | .group frame members stale, s, hs, hrun => by
    rw [locatePart_group] at hrun ⊢
    rw [Part.selected]
    obtain ⟨hrunning, hall, hafter⟩ := parts hP howner h members hs hrun
    exact ⟨hrunning, fun hnew => hall (by rwa [Part.IsNew] at hnew), hafter⟩
termination_by structural p => p

/-- The same for several parts. -/
theorem parts (hP : Surveys m P) (howner : ∀ u, P u → owner < u.nodes.size)
    (h : Visits P Q descend m owner) : ∀ (ps : List (Part M O)) {s : Survey M O}, P s.tree →
      (locateParts descend m owner ps s).2.isRunning = true →
      s.isRunning = true ∧ (Part.AllNew ps → ∀ o ∈ Part.selectedAll m ps, Q o) ∧
        P (locateParts descend m owner ps s).2.tree
  | [], s, hs, hrun => ⟨hrun, fun _ => nofun, hs⟩
  | p :: rest, s, hs, hrun => by
    rw [locateParts_cons] at hrun ⊢
    rw [Part.selectedAll]
    dsimp only at hrun ⊢
    by_cases hrunning : (locatePart descend m owner p s).2.isRunning = true
    · rw [if_pos hrunning] at hrun ⊢
      obtain ⟨hrunning₀, hfirst, hs'⟩ := part hP howner h p hs hrunning
      obtain ⟨_, hrest, hafter⟩ := parts hP howner h rest hs' hrun
      refine ⟨hrunning₀, fun hnew => ?_, hafter⟩
      simp only [Part.AllNew] at hnew
      exact List.forall_mem_append.2 ⟨hfirst hnew.1, hrest hnew.2⟩
    · rw [if_neg hrunning] at hrun
      exact absurd hrun hrunning
termination_by structural ps => ps

end

end Visits

end Visited

/-! ## Doomed nodes stay undone -/

/-- The nodes of `D` are not located yet, and each of them still refers to an
object that is refused, or to one whose node is in `D` as well. -/
structure Undone (m : M) (D : Nat → O → Prop) (t : Tree M O) : Prop where
  wellFormed : t.WellFormed
  stuck : ∀ {id : Nat} {object : O}, D id object → ∃ n, t.nodes[id]? = some n ∧
    n.place.isSome = true ∧ n.isLocated = false ∧ Part.AllNew n.parts ∧
      object ∈ Part.selectedAll m n.parts ∧
        (t.below? n object = none ∧ (∃ e, t.Refuses m object e ∧ e.isLocal = false) ∨
          ∃ c o, t.below? n object = some c ∧ D c o)

namespace Undone

variable {D : Nat → O → Prop} {t u : Tree M O}

/-- The nodes stay undone in a later tree in which they have the same parts, are
not located, and have no new nodes below but such as can be made. -/
theorem extend (h : Undone m D t) (hextends : t.Extends u) (hwell : u.WellFormed)
    (hsame : ∀ {id : Nat} {object : O} {n n' : Node M O}, D id object → t.nodes[id]? = some n →
      u.nodes[id]? = some n' → n'.isLocated = n.isLocated ∧ n'.parts = n.parts ∧
        ∀ c ∈ n'.children, c ∈ n.children ∨ ∃ k, u.nodes[c]? = some k ∧ t.CanMake m k.object) :
    Undone m D u where
  wellFormed := hwell
  stuck {id object} hD := by
    obtain ⟨n, hn, hplace, hnot, hnew, hobject, hcase⟩ := h.stuck hD
    obtain ⟨n', hn', hkept⟩ := hextends.node hn
    obtain ⟨hlocated, hparts, hchildren⟩ := hsame hD hn hn'
    have hplace' : n'.place.isSome = n.place.isSome := by
      simpa [Node.parsed?] using congrArg Option.isSome hkept.parsed
    refine ⟨n', hn', hplace'.trans hplace, hlocated.trans hnot, hparts ▸ hnew, hparts ▸ hobject, ?_⟩
    rcases hcase with ⟨hnone, e, hrefuses, hfinal⟩ | ⟨c, o, hc, hcD⟩
    · refine Or.inl ⟨?_, e, hrefuses.congr hextends.language hextends.source, hfinal⟩
      -- a node for the refused object is neither old nor new
      rw [Option.eq_none_iff_forall_ne_some]
      intro c hc
      obtain ⟨hmem, k, hk, hk'⟩ := below?_eq_some hc
      rcases hchildren c hmem with hold | ⟨k', hk'', hmake⟩
      · obtain ⟨j, hj⟩ := exists_node_of_lt (h.wellFormed.lt_size_of_mem_children hn hold)
        obtain ⟨j', hj', hj''⟩ := hextends.node hj
        rw [hk] at hj'
        cases hj'
        have := List.find?_eq_none.1 hnone c hold
        rw [hj] at this
        exact absurd (hj''.object.symm.trans hk') (by simpa using this)
      · rw [hk] at hk''
        cases hk''
        exact hrefuses.not_canMake (hk' ▸ hmake)
    · exact Or.inr ⟨c, o, hextends.below? h.wellFormed.toTied hn hn' hc, hcD⟩

/-- So do changes that leave the doomed nodes alone, or touch their place only. -/
theorem modify (h : Undone m D t) (id : Nat) {g : Node M O → Node M O}
    (hg : ∀ n : Node M O, n.Retouched (g n))
    (hsame : ∀ {object : O}, D id object → ∀ n : Node M O, (g n).isLocated = n.isLocated ∧
      (g n).parts = n.parts) : Undone m D (t.modify id g) := by
  refine h.extend (.modify t id hg) (h.wellFormed.modify id hg) fun {x object n n'} hD hn hn' => ?_
  rcases modify_cases hn' with ⟨j, rfl, hj, rfl⟩ | ⟨_, hj⟩ <;> rw [hn] at hj <;> cases hj
  · obtain ⟨hlocated, hparts⟩ := hsame hD n
    exact ⟨hlocated, hparts, fun c hc => Or.inl ((hg n).children ▸ hc)⟩
  · exact ⟨rfl, rfl, fun c hc => Or.inl hc⟩

theorem surveys (m : M) (D : Nat → O → Prop) : Surveys m (Undone m D) where
  getNode {t u parent id object} h hget := by
    refine h.extend (.getNode hget) (h.wellFormed.getNode hget) fun {x o n n'} _ hn hn' => ?_
    rcases node_of_getNode hget hn' with ⟨k, hk, hkept, _⟩ | ⟨hle, _⟩
    · rw [hn] at hk
      cases hk
      exact ⟨hkept.located, hkept.parts, fun c hc => (Keeps.getNode hget).child hn hn' hc⟩
    · exact absurd (lt_size_of_node hn) (Nat.not_lt.2 hle)
  place id _ h hparsed hspan hlocated := h.modify id (fun n => .mapPlace n hparsed hspan)
    fun _ n => ⟨n.isLocated_mapPlace hlocated, rfl⟩
  mark {t u owner role span} h howner hmark := by
    refine h.extend (.mark hmark) (h.wellFormed.mark howner hmark) fun {x o n n'} _ hn hn' => ?_
    obtain ⟨k, hk, hkept, hchildren⟩ := node_of_mark hmark hn'
    obtain rfl := Option.some.inj (hn.symm.trans hk)
    exact ⟨hkept.located, hkept.parts, fun c hc => Or.inl (hchildren ▸ hc)⟩

/-- An object that dooms its owner is not visited without a failure. -/
theorem visits {descend : Nat → Job M O Unit} {owner : Nat}
    (hdescend : ∀ {id : Nat} {t t' : Tree M O}, Undone m D t ∧ owner < t.nodes.size →
      descend id t = .ok () t' →
      (∀ o, ¬ D id o) ∧ Undone m D t' ∧ owner < t'.nodes.size) :
    Visits (fun t => Undone m D t ∧ owner < t.nodes.size) (fun o => ¬ D owner o) descend m owner := by
  intro object lead trail s s' found hs hrun hrunning
  have hat := (surveys m D).and_lt owner
  -- what dooms the owner dooms the node that is looked up
  have hdoomed : ∀ {id : Nat} {t : Tree M O}, s.tree.getNode m owner object = .ok (id, t) →
      D owner object → ∃ o, D id o := by
    intro id t hget hD
    obtain ⟨n, hn, _, _, _, _, ⟨hnone, e, hrefuses, _⟩ | ⟨c, o, hc, hcD⟩⟩ := hs.1.stuck hD
    · rw [getNode_refused hn hnone hrefuses] at hget
      cases hget
    · rw [getNode_of_below? hn hc] at hget
      cases hget
      exact ⟨o, hcD⟩
  -- and that node would not have been visited without a failure
  have hvisited : ∀ {id : Nat} {t u : Tree M O}, s.tree.getNode m owner object = .ok (id, t) →
      descend id t = .ok () u → ¬ D owner object ∧ Undone m D u ∧ owner < u.nodes.size := by
    intro id t u hget hbelow
    obtain ⟨hnone, hu⟩ := hdescend (hat.getNode hs hget) hbelow
    refine ⟨fun hD => ?_, hu⟩
    obtain ⟨o, hcD⟩ := hdoomed hget hD
    exact hnone o hcD
  cases locateItem_visit hrun with
  | @skipped e hget hlocal =>
    refine ⟨rfl, fun hD => ?_, hs⟩
    obtain ⟨n, hn, _, _, _, _, ⟨_, e', hrefuses, hfinal⟩ | ⟨c, _, hc, _⟩⟩ := hs.1.stuck hD
    · rw [hrefuses.unique (refuses_of_getNode hn hget).2, hlocal] at hfinal
      cases hfinal
    · rw [(refuses_of_getNode hn hget).1] at hc
      cases hc
  | refused => cases hrunning rfl
  | @again id t hget hlocated =>
    have ht := hat.getNode hs hget
    refine ⟨rfl, fun hD => ?_, ht⟩
    obtain ⟨o, hcD⟩ := hdoomed hget hD
    obtain ⟨n, hn, _, hnot, _⟩ := ht.1.stuck hcD
    rw [isLocated_eq hn, hnot] at hlocated
    cases hlocated
  | failed => cases hrunning rfl
  | unread hget _ hbelow =>
    obtain ⟨hobject, hu⟩ := hvisited hget hbelow
    exact ⟨rfl, hobject, hu⟩
  | blocked => cases hrunning rfl
  | found hget _ hbelow _ haround =>
    obtain ⟨hobject, hu⟩ := hvisited hget hbelow
    exact ⟨rfl, hobject, hat.place _ (hat.locateAround (fun _ hu => hu.2) hu haround)
      (fun _ => rfl) (fun _ => rfl) fun _ => rfl⟩

/-- A doomed node is not located without a failure, by induction on the depth. -/
theorem locateWithin (m : M) (D : Nat → O → Prop) : ∀ (depth : Nat) {id : Nat} {t t' : Tree M O},
    Undone m D t → Tree.locateWithin m depth id t = .ok () t' →
    (∀ o, ¬ D id o) ∧ Undone m D t'
  | 0, _, _, _, _, hrun => by cases hrun
  | depth + 1, id, t, t', h, hrun => by
    obtain ⟨n, hid, hcase⟩ := locateWithin_eq_ok hrun
    -- a doomed node has source text and is not located
    have hstuck : ∀ {o}, D id o → n.place.isSome = true ∧ n.isLocated = false ∧
        Part.AllNew n.parts ∧ o ∈ Part.selectedAll m n.parts := by
      intro o hD
      obtain ⟨k, hk, hplace, hnot, hnew, hobject, _⟩ := h.stuck hD
      obtain rfl := Option.some.inj (hid.symm.trans hk)
      exact ⟨hplace, hnot, hnew, hobject⟩
    rcases hcase with ⟨hpassed, rfl⟩ | ⟨place, parts, s, _, _, hparts, hfailure, rfl⟩
    · refine ⟨fun o hD => ?_, h⟩
      obtain ⟨hplace, hnot, _⟩ := hstuck hD
      rcases hpassed with hnone | hlocated
      · rw [hnone] at hplace
        cases hplace
      · rw [hlocated] at hnot
        cases hnot
    · have hvisits : Visits (fun t => Undone m D t ∧ id < t.nodes.size) (fun o => ¬ D id o)
          (Tree.locateWithin m depth) m id := visits fun {c u u'} hu hrun => by
        obtain ⟨hnone, hu'⟩ := locateWithin m D depth hu.1 hrun
        exact ⟨hnone, hu', ((lt_size_carried m id).locateWithin depth c).of_ok hu.2 hrun⟩
      have hlocated := hvisits.parts ((surveys m D).and_lt id) (fun _ hu => hu.2) n.parts
        (s := ⟨t, place.span.start, none⟩) ⟨h, lt_size_of_node hid⟩
      rw [hparts] at hlocated
      obtain ⟨_, hall, hafter, _⟩ := hlocated (by rw [Survey.isRunning, hfailure]; rfl)
      have hnone : ∀ o, ¬ D id o := fun o hD =>
        hall (hstuck hD).2.2.1 o (hstuck hD).2.2.2 hD
      exact ⟨hnone, hafter.modify id (fun n => .finish n parts s.cursor)
        fun hD => absurd hD (hnone _)⟩

end Undone

/-! ## Locating again -/

variable {t t' : Tree M O} {e : Error}

/-- Locating the nodes does not complete the tree. -/
theorem incomplete_surveys (m : M) : Surveys m fun t : Tree M O => t.complete = false where
  getNode ht hget := (Restored.getNode hget).complete.trans ht
  place _ _ ht _ _ _ := ht
  mark ht _ hmark := by
    rw [(mark_eq_ok hmark).2, complete_grow]
    exact ht

/-- When no node can be made for an object, the tree has only grown, and the root
is doomed. -/
theorem plant_failed {language : Language M O} {source : Source} (h : Unsearched language source t)
    (hwell : t.WellFormed) (hrun : plant m root t = .error e t') (he : e ≠ .cyclicModel) :
    Sprouted m t t' ∧ Unsearched language source t' ∧ t'.WellFormed ∧ ∃ o, Doomed m t' root o := by
  have hsprouted := ((Sprouted.prints m t).plant root).of_error (.refl fun hn => (h.node hn).1) hrun
  have hunsearched := ((Unsearched.prints m).plant root).of_error h hrun
  have hgrown := (((WellFormed.carried m t).plant root).of_error ⟨.refl t, hwell⟩ hrun).2
  obtain ⟨n, hn, _⟩ := hwell.root
  exact ⟨hsprouted, hunsearched, hgrown, plantWithin_doomed m _ hwell (lt_size_of_node hn) hrun he⟩

/-- When all nodes have been made, the objects of the root are passed over. -/
theorem plant_passable (hwell : t.WellFormed) (hrun : plant m root t = .ok () t') :
    t'.WellFormed ∧ ∀ {n : Node M O}, t'.nodes[root]? = some n →
      ∀ object ∈ Part.selectedAll m n.parts, Passable m t' root object := by
  obtain ⟨n, hn, _⟩ := hwell.root
  unfold plant depthBound at hrun
  simp only [plantWithin, bind, EStateM.bind, Job.get_eq, node_eq_ok.2 hn] at hrun
  obtain ⟨hgrown, hwell', hall⟩ := plantObjects_passable
    (fun t c => (Outgrows.grows m t).plantWithin _ c) hwell (lt_size_of_node hn) hrun
  refine ⟨hwell', fun {n'} hn' object hobject => hall object ?_⟩
  rwa [hgrown.parts hn hn'] at hobject

/-- A doomed tree whose nodes all have source text fails again. -/
theorem Doomed.locate_again {language : Language M O} {source : Source} {o : O}
    (hdoomed : Doomed m t root o) (h : Unsearched language source t) (hwell : t.WellFormed)
    (hplaced : ∀ {id : Nat} {n : Node M O}, t.nodes[id]? = some n → n.place.isSome = true) :
    ∃ e u, locate m t = .error e u := by
  have hundone : Undone m (Doomed m t) t := by
    refine ⟨hwell, fun {id object} hD => ?_⟩
    cases hD with
    | refused node refers none refused final =>
      exact ⟨_, node, hplaced node, (h.node node).1, (h.node node).2, refers,
        Or.inl ⟨none, _, refused, final⟩⟩
    | child node refers below doomed =>
      exact ⟨_, node, hplaced node, (h.node node).1, (h.node node).2, refers,
        Or.inr ⟨_, _, below, doomed⟩⟩
  rw [locate_of_incomplete h.incomplete]
  cases hplant : plant m root t with
  | error e u => exact ⟨e, u, rfl⟩
  | ok _ u =>
    have hplanted := ((Undone.surveys m (Doomed m t)).plant root).of_ok hundone hplant
    dsimp only
    cases hfrom : locateFrom m root u with
    | error e v => exact ⟨e, v, rfl⟩
    | ok _ v => exact absurd hdoomed ((Undone.locateWithin m (Doomed m t) _ hplanted hfrom).1 o)

/-- When the visit of a tree with all nodes fails, the tree is incomplete and its
root located. -/
theorem visit_failed {language : Language M O} {source : Source} {u : Tree M O}
    (h : Unsearched language source u) (hwell : u.WellFormed)
    (hrun : locateFrom m root u = .error e t') :
    t'.complete = false ∧ t'.isLocated root = true ∧ u.Extends t' ∧ t'.WellFormed ∧
      ∃ n n', u.nodes[root]? = some n ∧ t'.nodes[root]? = some n' ∧
        Part.selectedAll m n'.parts = Part.selectedAll m n.parts := by
  obtain ⟨n, hn, _⟩ := hwell.root
  have hincomplete := ((incomplete_surveys m).locateWithin (fun _ _ _ ht => ht) _ root).of_error
    h.incomplete hrun
  have hextends := ((WellFormed.carried m u).locateWithin _ root).of_error ⟨.refl u, hwell⟩ hrun
  refine ⟨hincomplete, ?_⟩
  obtain ⟨place, parts, s, hplace, _, hparts, _, rfl⟩ := locateWithin_eq_error hn hrun
  have hselected : Part.selectedAll m (locateParts (locateWithin m
      (u.nodes.size + u.language.size m)) m root n.parts ⟨u, place.span.start, none⟩).1 =
        Part.selectedAll m n.parts := selectedAll_locateParts n.parts ⟨u, place.span.start, none⟩
  rw [hparts] at hselected
  obtain ⟨n', hn', hkept⟩ := hextends.1.node hn
  rcases modify_cases hn' with ⟨k, _, hk, rfl⟩ | ⟨hne, _⟩
  · refine ⟨?_, hextends.1, hextends.2, n, _, hn, hn', hselected⟩
    have hplaced : k.place.isSome = true := by
      have hparsed := congrArg Option.isSome hkept.parsed
      simpa [Node.parsed?, hplace] using hparsed
    rw [isLocated_eq hn', k.isLocated_finish parts s.cursor hplaced]
  · exact absurd rfl hne

/-- Locating a tree again whose nodes were all made, and whose root is located,
succeeds. -/
theorem locate_again_of_located (hwell : t.WellFormed) (hincomplete : t.complete = false)
    (hlocated : t.isLocated root = true)
    (hpassable : ∀ n, t.nodes[root]? = some n → ∀ object ∈ Part.selectedAll m n.parts,
      Passable m t root object) : locate m t = .ok () { t with complete := true } := by
  obtain ⟨n, hn, _⟩ := hwell.root
  have hplant : plant m root t = .ok () t := by
    unfold plant depthBound
    simp only [plantWithin, bind, EStateM.bind, Job.get_eq, node_eq_ok.2 hn]
    exact plantObjects_of_passable _ hwell (hpassable n hn)
  have hfrom : locateFrom m root t = .ok () t :=
    locateWithin_of_located m _ hn (isLocated_eq hn ▸ hlocated)
  rw [locate_of_incomplete hincomplete, hplant]
  dsimp only
  rw [hfrom]

/-- A tree that was not located before and cannot be located stays incomplete.
If its root does not count as located, then everything prints as before, and as
long as all nodes have source text, locating fails again.  Otherwise the failure
came from the visit, and locating succeeds from then on. -/
theorem failed_locate {language : Language M O} {source : Text}
    (layouts : ∀ {m object layout}, language.layout m object = some layout →
      Part.AllNew layout.parts)
    (prepared : Prepared language source t) (failed : locate m t = .error e t')
    (finite : e ≠ .cyclicModel) :
    t'.complete = false ∧
      (t'.isLocated root = false →
        (∀ call : Printing, call.target < t.nodes.size →
          (call.run m).outcome t = .error .cyclicModel ∨
            (call.run m).outcome t' = (call.run m).outcome t) ∧
        ((∀ {id : Nat} {n : Node M O}, t'.nodes[id]? = some n → n.place.isSome = true) →
          ∃ e' u, locate m t' = .error e' u)) ∧
      (t'.isLocated root = true → (locate m).outcome t' = .ok ()) := by
  have hunsearched := prepared.unsearched layouts
  have hwell := prepared.wellFormed
  rw [locate_of_incomplete hunsearched.incomplete] at failed
  cases hplant : plant m root t with
  | error e₁ u =>
    rw [hplant] at failed
    cases failed
    obtain ⟨hsprouted, hunsearched', hwell', o, hdoomed⟩ :=
      plant_failed hunsearched hwell hplant finite
    refine ⟨hunsearched'.incomplete, fun _ => ⟨fun call htarget => ?_, fun hplaced => ?_⟩,
      fun hlocated => ?_⟩
    · exact call.alike hsprouted (.refl fun hn => (hunsearched.node hn).1) hwell.isSound htarget
    · exact hdoomed.locate_again hunsearched' hwell' hplaced
    · obtain ⟨n, hn⟩ := exists_node_of_isLocated hlocated
      rw [isLocated_eq hn, (hunsearched'.node hn).1] at hlocated
      cases hlocated
  | ok _ u =>
    rw [hplant] at failed
    dsimp only at failed
    cases hfrom : locateFrom m root u with
    | ok _ v =>
      rw [hfrom] at failed
      cases failed
    | error e₁ v =>
      rw [hfrom] at failed
      cases failed
      obtain ⟨hgrown, hpassable⟩ := plant_passable hwell hplant
      have hunsearched' : Unsearched language (.ofText source) u := by
        have hkept := (Unsearched.prints m).plant root t hunsearched
        rwa [Job.after, hplant] at hkept
      obtain ⟨hincomplete, hlocated, hextends, hwell', n, n', hn, hn', hselected⟩ :=
        visit_failed hunsearched' hgrown hfrom
      refine ⟨hincomplete, fun hnot => ?_, fun _ => ?_⟩
      · rw [hlocated] at hnot
        cases hnot
      · refine Job.outcome_ok (locate_again_of_located hwell' hincomplete hlocated ?_)
        intro k hk object hobject
        rw [hn'] at hk
        cases hk
        exact (hpassable hn object (hselected ▸ hobject)).extend hgrown.toTied hextends

/-- A word in brackets, of which the language says that it was read from a line
that the source does not have. -/
def strayWord : Language Unit Bool where
  layout _ isList := some <|
    if isList then
      { origin := some (.ok (.between ⟨1, 0⟩ ⟨1, 3⟩)), parts := [.object fun _ => some false] }
    else
      { origin := some (.ok (.between ⟨9, 0⟩ ⟨9, 1⟩)), parts := [Part.constant ['a']] }
  describe _ _ := ""
  size _ := 2

/-- No node can be made for the word, however often the tree is located. -/
theorem failed_locate_strayWord :
    ∃ (t t' : Tree Unit Bool) (e : Error), ofRoot strayWord () ['[', 'a', ']'] true = .ok t ∧
      locate () t = .error e t' ∧ t'.complete = false ∧ t'.isLocated root = false ∧
      (Printing.root.run ()).outcome t' = (Printing.root.run ()).outcome t ∧
      ∃ e' u, locate () t' = .error e' u := by
  have layouts : ∀ {m : Unit} {object : Bool} {layout : Layout Unit Bool},
      strayWord.layout m object = some layout → Part.AllNew layout.parts := by
    intro m object layout h
    cases object <;> cases h <;> simp [Part.AllNew, Part.IsNew, Part.object, Part.constant]
  obtain ⟨t, made, size⟩ : ∃ t : Tree Unit Bool,
      ofRoot strayWord () ['[', 'a', ']'] true = .ok t ∧ t.nodes.size = 1 := ⟨_, rfl, rfl⟩
  obtain ⟨t', n, e, failed, finite, away, nodes, placed, printed⟩ :
      ∃ (t' : Tree Unit Bool) (n : Node Unit Bool) (e : Error), locate () t = .error e t' ∧
        e ≠ .cyclicModel ∧ t'.isLocated root = false ∧ t'.nodes = #[n] ∧ n.place.isSome = true ∧
        (Printing.root.run ()).outcome t = .error e := by
    cases made
    exact ⟨_, _, _, rfl, by simp, rfl, rfl, rfl, rfl⟩
  obtain ⟨incomplete, quiet, _⟩ := failed_locate layouts (.root made) failed finite
  obtain ⟨alike, again⟩ := quiet away
  refine ⟨t, t', e, made, failed, incomplete, away, ?_, again fun {id k} hk => ?_⟩
  · refine (alike .root (by rw [size]; exact Nat.one_pos)).resolve_left fun deep => ?_
    rw [printed] at deep
    exact finite (Except.error.inj deep)
  · rw [nodes] at hk
    obtain rfl : k = n := by
      cases id with
      | zero => exact (Option.some.inj hk).symm
      | succ id => simp at hk
    exact placed

/-- A text of which the language says that its one literal is on a line that the
source does not have. -/
def strayLiteral : Language Unit Unit where
  layout _ _ := some
    { origin := some (.ok (.between ⟨1, 0⟩ ⟨1, 2⟩))
      parts := [(Part.constant ['x']).pinned (.between ⟨9, 0⟩ ⟨9, 1⟩)] }
  describe _ _ := ""
  size _ := 1

/-- The literal cannot be located.  After that the text does not print any more
that did print before, and locating it again succeeds. -/
theorem printRoot_strayLiteral :
    ∃ (t t' : Tree Unit Unit) (e e' : Error), ofRoot strayLiteral () ['a', 'b'] () = .ok t ∧
      locate () t = .error e t' ∧ e ≠ .cyclicModel ∧ (printRoot ()).outcome t = .ok ['x'] ∧
      (printRoot ()).outcome t' = .error e' ∧ (locate ()).outcome t' = .ok () :=
  ⟨_, _, _, _, rfl, rfl, by simp, rfl, rfl, rfl⟩

end Tree

end Reprint
