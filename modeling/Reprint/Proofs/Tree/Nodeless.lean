import Reprint.Proofs.Tree.LeftOut

/-!
# Trees without nodes for some objects

No node can be made for an object without a layout.  In a tree that has none for
certain objects (`Tree.Without`) those objects are passed over when nodes are made
and located, and print as nothing.

If all lists can spare them besides (`Tree.Sparing`), then the tree without them
in its lists is planted, located and printed in the same way: each of these is
one induction on the depth, with the induction over parts from the trees with
other lists (`plantWithin_leaveOut`, `locateWithin_leaveOut`,
`printWithin_leaveOut`).  `leaveOut_alike` says that of a source that is loaded.

It does count which item is the first one, though, so an object without a layout
at an end of a list is not always spared: `printRoot_letterFirst`.
-/

namespace Reprint

variable {M O : Type}

/-! ## Parts -/

namespace Part

variable {gone : O → Bool} {m : M}

/-- All lists in some parts can spare some objects. -/
def AllSpare (gone : O → Bool) (m : M) (parts : List (Part M O)) : Prop :=
  ∀ l ∈ listsOfAll m parts, l.2.Spares gone m l.1

mutual

theorem lists_settle : ∀ p : Part M O, p.settle.lists m = p.lists m
  | .literal .. | .slot .. | .items .. | .choice .. => by rw [settle]
  | .group frame members true => by rw [settle, lists, lists, listsOfAll_settleAll members]
  | .group frame members false => by rw [settle]
termination_by structural p => p

theorem listsOfAll_settleAll : ∀ parts : List (Part M O),
    listsOfAll m (settleAll parts) = listsOfAll m parts
  | [] => by rw [settleAll]
  | p :: rest => by
    rw [settleAll, listsOfAll, listsOfAll, lists_settle p, listsOfAll_settleAll rest]
termination_by structural parts => parts

end

mutual

/-- Apart from the objects that are left out, the parts refer to the same ones. -/
theorem remaining_selected : ∀ p : Part M O,
    remaining gone ((p.mapLists (ItemList.leaveOut gone)).selected m) = remaining gone (p.selected m)
  | .literal .. | .slot .. => by rw [mapLists]
  | .items .. => by
    rw [mapLists, selected, selected]
    exact remaining_remaining _
  | .choice frame test yes none taken => by
    rw [mapLists, selected, selected]
    split
    · exact remaining_selected yes
    · rfl
  | .choice frame test yes (some other) taken => by
    rw [mapLists, selected, selected]
    split
    · exact remaining_selected yes
    · exact remaining_selected other
  | .group frame members stale => by
    rw [mapLists, selected, selected]
    exact remaining_selectedAll members
termination_by structural p => p

theorem remaining_selectedAll : ∀ parts : List (Part M O),
    remaining gone (selectedAll m (mapAllLists (ItemList.leaveOut gone) parts)) =
      remaining gone (selectedAll m parts)
  | [] => by rw [mapAllLists]
  | p :: rest => by
    rw [mapAllLists, selectedAll, selectedAll, remaining_append, remaining_append,
      remaining_selected p, remaining_selectedAll rest]
termination_by structural parts => parts

end

end Part

namespace Tree

/-! ## Objects for which there are no nodes -/

/-- There are no nodes for the objects that are left out, and none can be made. -/
structure Without (m : M) (gone : O → Bool) (t : Tree M O) : Prop where
  layout : ∀ {object : O}, gone object = true → t.language.layout m object = none
  node : ∀ {id : Nat} {n : Node M O}, t.nodes[id]? = some n → gone n.object = false

/-- Besides, all lists can spare those objects. -/
structure Sparing (m : M) (gone : O → Bool) (t : Tree M O) : Prop extends Without m gone t where
  layouts : ∀ {object : O} {layout : Layout M O}, t.language.layout m object = some layout →
    Part.AllSpare gone m layout.parts
  parts : ∀ {id : Nat} {n : Node M O}, t.nodes[id]? = some n → Part.AllSpare gone m n.parts

section Kept

variable {m : M} {gone : O → Bool} {t u : Tree M O}

/-- Nothing changes as long as the nodes are for the same objects. -/
theorem Without.of_nodes (h : t.Without m gone) (hlanguage : u.language = t.language)
    (hnodes : ∀ {id : Nat} {n' : Node M O}, u.nodes[id]? = some n' →
      ∃ n, t.nodes[id]? = some n ∧ n'.object = n.object ∧ n'.parts = n.parts) :
    u.Without m gone where
  layout hobject := hlanguage ▸ h.layout hobject
  node hn' := by
    obtain ⟨n, hn, hobject, _⟩ := hnodes hn'
    exact hobject ▸ h.node hn

theorem Sparing.of_nodes (h : t.Sparing m gone) (hlanguage : u.language = t.language)
    (hnodes : ∀ {id : Nat} {n' : Node M O}, u.nodes[id]? = some n' →
      ∃ n, t.nodes[id]? = some n ∧ n'.object = n.object ∧ n'.parts = n.parts) :
    u.Sparing m gone where
  toWithout := h.toWithout.of_nodes hlanguage hnodes
  layouts hlayout := h.layouts (hlanguage ▸ hlayout)
  parts hn' := by
    obtain ⟨n, hn, _, hparts⟩ := hnodes hn'
    exact hparts ▸ h.parts hn

/-- What is noted in the place of a node does not change its object and its parts. -/
theorem node_of_mapPlace {id x : Nat} {g : Place → Place} {n' : Node M O}
    (hn' : (t.modify id fun n => n.mapPlace g).nodes[x]? = some n') :
    ∃ n, t.nodes[x]? = some n ∧ n'.object = n.object ∧ n'.parts = n.parts := by
  rcases modify_cases hn' with ⟨n, _, hn, rfl⟩ | ⟨_, hn⟩
  · exact ⟨n, hn, rfl, rfl⟩
  · exact ⟨n', hn, rfl, rfl⟩

/-- A node may get other parts whose lists can spare the objects as well. -/
theorem Sparing.setParts (h : t.Sparing m gone) (id : Nat) {parts : List (Part M O)}
    (hparts : Part.AllSpare gone m parts) (q : Position) :
    (t.modify id fun n => n.finish parts q).Sparing m gone := by
  refine ⟨⟨h.layout, fun {x n'} hn' => ?_⟩, h.layouts, fun {x n'} hn' => ?_⟩ <;>
    rcases modify_cases hn' with ⟨n, _, hn, rfl⟩ | ⟨_, hn⟩
  · exact h.node (n := n) hn
  · exact h.node hn
  · exact hparts
  · exact h.parts hn

variable [DecidableEq O]

theorem Without.carried (m : M) (gone : O → Bool) : Carried m (Without (M := M) m gone) where
  getNode {t u parent id object} h hget := by
    have hlanguage := (Extends.getNode hget).language
    refine ⟨fun hobject => hlanguage ▸ h.layout hobject, fun {x n'} hn' => ?_⟩
    rcases node_of_getNode hget hn' with ⟨n, hn, hkept, _⟩ | ⟨_, hmade⟩
    · exact hkept.object ▸ h.node hn
    · obtain ⟨_, _, hlayout, _⟩ := hmade.layout
      by_contra hgone
      rw [h.layout (Bool.not_eq_false _ ▸ hgone)] at hlayout
      cases hlayout
  modify {t} id g h hg := by
    refine ⟨h.layout, fun {x n'} hn' => ?_⟩
    rcases modify_cases hn' with ⟨n, _, hn, rfl⟩ | ⟨_, hn⟩
    · have hobject : (g n).object = n.object := congrArg Prod.fst (hg n).ties
      rw [hobject]
      exact h.node hn
    · exact h.node hn
  complete h := ⟨h.layout, h.node⟩
  mark h _ hmark := h.of_nodes (Extends.mark hmark).language fun hn' => by
    obtain ⟨n, hn, hkept, _⟩ := node_of_mark hmark hn'
    exact ⟨n, hn, hkept.object, hkept.parts⟩

theorem Sparing.surveys (m : M) (gone : O → Bool) : Surveys m (Sparing (M := M) m gone) where
  getNode {t u parent id object} h hget := by
    have hlanguage := (Extends.getNode hget).language
    refine ⟨(Without.carried m gone).toSurveys.getNode h.toWithout hget,
      fun hlayout => h.layouts (hlanguage ▸ hlayout), fun {x n'} hn' => ?_⟩
    rcases node_of_getNode hget hn' with ⟨n, hn, hkept, _⟩ | ⟨_, hmade⟩
    · exact hkept.parts ▸ h.parts hn
    · obtain ⟨_, _, hlayout, _, hparts⟩ := hmade.layout
      exact hparts ▸ h.layouts hlayout
  place _ _ h _ _ _ := h.of_nodes rfl node_of_mapPlace
  mark h _ hmark := h.of_nodes (Extends.mark hmark).language fun hn' => by
    obtain ⟨n, hn, hkept, _⟩ := node_of_mark hmark hn'
    exact ⟨n, hn, hkept.object, hkept.parts⟩

/-- An object that is left out has no node below any other, for a reason that
leaves the rest printable. -/
theorem Without.getNode_gone (h : t.Without m gone) {owner : Nat} (howner : owner < t.nodes.size)
    {object : O} (hobject : gone object = true) :
    ∃ e, t.getNode m owner object = .error e ∧ e.isLocal = true := by
  obtain ⟨n, hn⟩ := exists_node_of_lt howner
  refine ⟨_, getNode_refused hn ?_ (Or.inl ⟨h.layout hobject, rfl⟩), rfl⟩
  refine Option.eq_none_iff_forall_ne_some.2 fun c hc => ?_
  obtain ⟨_, k, hk, rfl⟩ := below?_eq_some hc
  rw [h.node hk] at hobject
  cases hobject

/-- It prints as nothing. -/
theorem Without.printBelow_gone (h : t.Without m gone) {owner : Nat}
    (howner : owner < t.nodes.size) {object : O} (hobject : gone object = true)
    (print : Nat → Margin → Job M O Text) (margin : Margin) :
    printBelow print m owner object margin t = .ok none t := by
  obtain ⟨e, hget, hlocal⟩ := h.getNode_gone howner hobject
  simp only [printBelow, bind, EStateM.bind, Job.get_eq, hget, hlocal, if_true]
  rfl

/-- It is passed over when the tree is located. -/
theorem Without.locateItem_gone (h : t.Without m gone) {owner : Nat}
    (howner : owner < t.nodes.size) {object : O} (hobject : gone object = true)
    (descend : Nat → Job M O Unit) (lead trail : Text) {s : Survey M O} (hs : s.tree = t) :
    locateItem descend m owner object lead trail s = (none, s) := by
  obtain ⟨e, hget, hlocal⟩ := h.getNode_gone howner hobject
  unfold locateItem
  rw [hs, hget]
  simp only [hlocal, if_true]

/-- It is passed over when nodes are made. -/
theorem Without.plantObjects_remaining {descend : Nat → Job M O Unit} {id : Nat}
    (hdescend : ∀ c, Job.Keeping (fun t => t.Without m gone ∧ id < t.nodes.size) (descend c)) :
    ∀ (objects : List O) {t : Tree M O}, t.Without m gone → id < t.nodes.size →
      plantObjects descend m id (remaining gone objects) t = plantObjects descend m id objects t
  | [], _, _, _ => rfl
  | object :: rest, t, h, hid => by
    rw [plantObjects_cons]
    cases hobject : gone object with
    | true =>
      obtain ⟨e, hget, hlocal⟩ := h.getNode_gone hid hobject
      rw [remaining_cons_gone hobject, hget, plantObjects_remaining hdescend rest h hid]
      simp only [hlocal, if_true]
    | false =>
      rw [remaining_cons_kept hobject, plantObjects_cons]
      cases hget : t.getNode m id object with
      | error e =>
        dsimp only
        rw [plantObjects_remaining hdescend rest h hid]
      | ok found =>
        obtain ⟨c, u⟩ := found
        have hu := ((Without.carried m gone).toSurveys.and_lt id).getNode ⟨h, hid⟩ hget
        dsimp only
        rw [plantObjects_remaining hdescend rest hu.1 hu.2]
        cases hrun : descend c u with
        | error e v => rfl
        | ok _ v =>
          have hafter := (hdescend c).of_ok hu hrun
          dsimp only
          rw [plantObjects_remaining hdescend rest hafter.1 hafter.2]

end Kept

/-! ## Planting -/

theorem Without.mapLists {m : M} {gone : O → Bool} {t : Tree M O} (h : t.Without m gone)
    (g : ItemList M O → ItemList M O) : (t.mapLists g).Without m gone where
  layout hobject := by
    rw [show (t.mapLists g).language = t.language.mapLists g from rfl, Language.layout_mapLists,
      h.layout hobject]
    rfl
  node {id n} hn := by
    rw [getElem?_mapLists] at hn
    obtain ⟨k, hk, rfl⟩ := Option.map_eq_some_iff.1 hn
    exact h.node (n := k) hk

variable [DecidableEq O] {gone : O → Bool}

/-- Nodes are made in the same way without the objects that have none, by
induction on the depth. -/
theorem plantWithin_leaveOut (m : M) (gone : O → Bool) : ∀ (depth id : Nat),
    Mirrors (fun _ => False) (Sparing m gone) (mapLists (ItemList.leaveOut gone))
      (plantWithin m depth id : Job M O Unit) (plantWithin m depth id)
  | 0, _ => .throw _
  | depth + 1, id => by
    intro t ht
    unfold MirrorsAt
    simp only [plantWithin, bind, EStateM.bind, Job.get_eq, node_mapLists]
    cases hn : t.node id with
    | error e => exact Or.inr ⟨ht, rfl⟩
    | ok n =>
      have hid := lt_size_of_node (node_eq_ok.1 hn)
      -- the objects that are left out make no difference to the other tree
      have hpassed : plantObjects (plantWithin m depth) m id
          (Part.selectedAll m (n.mapLists (ItemList.leaveOut gone)).parts)
            (t.mapLists (ItemList.leaveOut gone)) =
          plantObjects (plantWithin m depth) m id (Part.selectedAll m n.parts)
            (t.mapLists (ItemList.leaveOut gone)) := by
        have hkeeps := (Without.carried (O := O) m gone).toSurveys.and_lt id
        have hall := fun objects => Without.plantObjects_remaining (hkeeps.plantWithin depth)
          objects (ht.toWithout.mapLists (ItemList.leaveOut gone)) (by rw [size_mapLists]; exact hid)
        rw [← hall, ← hall (Part.selectedAll m n.parts), Node.mapLists, Part.remaining_selectedAll]
      dsimp only [Except.map]
      rw [hpassed]
      exact plantObjects_mapLists (Sparing.surveys m gone).toGrows id
        (plantWithin_leaveOut m gone depth) _ t ht

/-! ## Locating -/

namespace Visiting

variable {m : M} {P : Tree M O → Prop} {owner : Nat} {descend descend' : Nat → Job M O Unit}

/-- The items that remain are located in the same way, and no object that is left
out is found. -/
theorem locateItems_leaveOut
    (h : Visiting m (ItemList.leaveOut gone) P owner descend descend')
    (hP : ∀ t, P t → t.Without m gone) (frame : Frame) : ∀ (objects front : List O)
      (list : ItemList M O) (extent : Option Span) {s : Survey M O}, list.Spares gone m frame →
      list.supply m = front ++ objects → P s.tree → s.isRunning = true →
      let located :=
        locateItems descend m owner frame (list.supply m).length front.length objects list extent s
      located.1.Spares gone m frame ∧
        locateItems descend' m owner frame (remaining gone (list.supply m)).length
            (remaining gone front).length (remaining gone objects) (list.leaveOut gone) extent
            (s.mapLists (ItemList.leaveOut gone)) =
          (located.1.leaveOut gone, located.2.1, located.2.2.mapLists (ItemList.leaveOut gone))
  | [], _, _, _, _, hlist, _, _, _ => ⟨hlist, rfl⟩
  | object :: rest, front, list, extent, s, hlist, hsupply, hs, hrun => by
    -- what is left to do, with what was found so far
    have hrest := fun (list' : ItemList M O) (extent' : Option Span) {s' : Survey M O}
        (hsame : list'.supply m = list.supply m) (hlist' : list'.Spares gone m frame) =>
      locateItems_leaveOut h hP frame rest (front ++ [object]) list' extent' (s := s') hlist'
        (by rw [hsame, hsupply, List.append_assoc]; rfl)
    simp only [List.length_append] at hrest
    cases hobject : gone object with
    | true =>
      rw [remaining_cons_gone hobject]
      simp only [remaining_append, remaining_cons_gone hobject] at hrest
      have hpassed := fun lead trail =>
        (hP _ hs).locateItem_gone (h.owner _ hs) hobject descend lead trail rfl
      rw [locateItems, hlist.item?_eq_none hobject]
      simp only [hpassed, hrun]
      have := hrest list extent rfl hlist hs hrun
      simpa [remaining] using this
    | false =>
      rw [remaining_cons_kept hobject]
      simp only [length_remaining_concat hobject] at hrest
      rw [locateItems, locateItems, hlist.around hsupply hobject,
        show (list.leaveOut gone).item? object = list.item? object from rfl]
      by_cases hitem : (list.item? object).isSome = true
      · rw [if_pos hitem, if_pos hitem]
        exact hrest { list with repeats := list.repeats ++ [object] } extent rfl
          (hlist.found rfl rfl rfl rfl rfl hlist.listed) hs hrun
      rw [if_neg hitem, if_neg hitem]
      generalize list.around frame front.length (list.supply m).length = literals
      obtain ⟨lead, trail⟩ := literals
      dsimp only
      rw [h.locateItem_mapLists object lead trail hs]
      have hkept := h.surveys.locateItem h.keeping h.owner object lead trail hs
      generalize hone : locateItem descend m owner object lead trail s = outcome at hkept
      obtain ⟨found, s'⟩ := outcome
      cases found with
      | none =>
        dsimp only
        rw [Survey.isRunning_mapLists]
        by_cases hrunning : s'.isRunning = true
        · rw [if_pos hrunning, if_pos hrunning]
          exact hrest list extent rfl hlist hkept hrunning
        · rw [if_neg hrunning, if_neg hrunning]
          exact ⟨hlist, rfl⟩
      | some id =>
        have hrunning : s'.isRunning = true := by
          rw [Survey.isRunning, failure_of_locateItem hone]
          exact hrun
        dsimp only
        rw [show (s'.mapLists (ItemList.leaveOut gone)).tree = s'.tree.mapLists _ from rfl,
          extentOfNode_mapLists]
        refine hrest { list with listed := list.listed ++ [⟨object, id, lead, trail⟩] } _ rfl
          (hlist.found rfl rfl rfl rfl rfl ?_) hkept hrunning
        refine List.forall_mem_append.2 ⟨hlist.listed, fun item hitem => ?_⟩
        rw [List.mem_singleton.1 hitem]
        exact hobject

/-- A list is located in the same way, and can still spare the objects. -/
theorem locateList_leaveOut (h : Visiting m (ItemList.leaveOut gone) P owner descend descend')
    (hP : ∀ t, P t → t.Without m gone) {frame : Frame} {list : ItemList M O}
    (hlist : list.Spares gone m frame) {s : Survey M O} (hs : P s.tree) (hrun : s.isRunning = true) :
    (∀ l ∈ (locatePart descend m owner (.items frame list) s).1.lists m, l.2.Spares gone m l.1) ∧
      locatePart descend' m owner (.items frame (list.leaveOut gone))
          (s.mapLists (ItemList.leaveOut gone)) =
        ((locatePart descend m owner (.items frame list) s).1.mapLists (ItemList.leaveOut gone),
          (locatePart descend m owner (.items frame list) s).2.mapLists (ItemList.leaveOut gone)) := by
  obtain ⟨hspares, hsame⟩ :=
    h.locateItems_leaveOut hP frame (list.supply m) [] list none hlist rfl hs hrun
  rw [locatePart_items, locatePart_items]
  dsimp only
  constructor
  · intro l hl
    rw [Part.lists, List.mem_singleton] at hl
    rw [hl]
    refine hspares.found ?_ ?_ rfl rfl rfl hspares.listed <;> split <;> rfl
  · rw [show (list.leaveOut gone).supply m = remaining gone (list.supply m) from rfl]
    rw [show (remaining gone ([] : List O)).length = 0 from rfl] at hsame
    simp only [hsame, List.length_nil, Part.mapLists, Survey.isRunning_mapLists]

mutual

/-- The lists of a located part can still spare the objects. -/
theorem spares_locatePart (h : Visiting m (ItemList.leaveOut gone) P owner descend descend')
    (hP : ∀ t, P t → t.Without m gone) : ∀ (p : Part M O) {s : Survey M O},
      (∀ l ∈ p.lists m, l.2.Spares gone m l.1) → P s.tree → s.isRunning = true →
      ∀ l ∈ (locatePart descend m owner p s).1.lists m, l.2.Spares gone m l.1
  | .literal frame wording place, s, _, _, _ => by
    rw [locatePart]
    split <;> simp [Part.lists]
  | .slot frame supply listed, s, _, _, _ => by
    rw [locatePart]
    split
    · simp [Part.lists]
    · split <;> simp [Part.lists]
  | .items frame list, s, hlists, hs, hrun =>
    (h.locateList_leaveOut hP (hlists (frame, list) (by simp [Part.lists])) hs hrun).1
  | .choice frame test yes no taken, s, hlists, hs, hrun => by
    cases htest : test m with
    | true =>
      rw [Part.lists_yes htest] at hlists
      have hyes := spares_locatePart h hP yes hlists hs hrun
      rw [locatePart_yes htest]
      dsimp only
      split <;> rw [Part.lists_yes htest]
      · rwa [Part.lists_settle]
      · exact hyes
    | false =>
      cases no with
      | none =>
        rw [locatePart_neither htest]
        exact hlists
      | some other =>
        rw [Part.lists_no htest] at hlists
        have hother := spares_locatePart h hP other hlists hs hrun
        rw [locatePart_no htest]
        dsimp only
        split <;> rw [Part.lists_no htest]
        · rwa [Part.lists_settle]
        · exact hother
  | .group frame members stale, s, hlists, hs, hrun => by
    rw [Part.lists] at hlists
    have hmembers := spares_locateParts h hP members hlists hs hrun
    rw [locatePart_group]
    dsimp only
    split
    · rw [Part.lists_settle, Part.lists]
      exact hmembers
    · rw [Part.lists]
      exact hmembers
termination_by structural p => p

theorem spares_locateParts (h : Visiting m (ItemList.leaveOut gone) P owner descend descend')
    (hP : ∀ t, P t → t.Without m gone) : ∀ (parts : List (Part M O)) {s : Survey M O},
      (∀ l ∈ Part.listsOfAll m parts, l.2.Spares gone m l.1) → P s.tree → s.isRunning = true →
      ∀ l ∈ Part.listsOfAll m (locateParts descend m owner parts s).1, l.2.Spares gone m l.1
  | [], s, hlists, _, _ => hlists
  | p :: rest, s, hlists, hs, hrun => by
    rw [Part.listsOfAll, List.forall_mem_append] at hlists
    have hfirst := spares_locatePart h hP p hlists.1 hs hrun
    rw [locateParts_cons]
    dsimp only
    split
    · next hrunning =>
      rw [Part.listsOfAll, List.forall_mem_append]
      exact ⟨hfirst, spares_locateParts h hP rest hlists.2
        (h.surveys.locatePart h.keeping h.owner p hs) hrunning⟩
    · rw [Part.listsOfAll, List.forall_mem_append]
      exact ⟨hfirst, hlists.2⟩
termination_by structural parts => parts

end

end Visiting

/-- The nodes are located in the same way, by induction on the depth. -/
theorem locateWithin_leaveOut (m : M) (gone : O → Bool) : ∀ (depth id : Nat),
    Mirrors (fun _ => False) (Sparing m gone) (mapLists (ItemList.leaveOut gone))
      (locateWithin m depth id : Job M O Unit) (locateWithin m depth id)
  | 0, _ => .throw _
  | depth + 1, id => by
    intro t ht
    unfold MirrorsAt locateWithin
    rw [node_mapLists]
    cases hn : t.node id with
    | error e => exact Or.inr ⟨ht, rfl⟩
    | ok n =>
      rw [node_eq_ok] at hn
      dsimp only [Except.map]
      rw [show (n.mapLists (ItemList.leaveOut gone)).place = n.place from rfl]
      cases n.place with
      | none => exact ⟨ht, rfl⟩
      | some place =>
        by_cases hlocated : place.located = true
        · simp only [hlocated, if_true]
          exact ⟨ht, trivial⟩
        · simp only [hlocated, Bool.false_eq_true, if_false]
          have hvisit : Visiting m (ItemList.leaveOut gone)
              (fun t => t.Sparing m gone ∧ id < t.nodes.size) id (locateWithin m depth)
              (locateWithin m depth) :=
            ⟨(Sparing.surveys m gone).and_lt id, fun _ hu => hu.2, fun c =>
              ((lt_size_carried m id).locateWithin depth c).and_mirrors
                (locateWithin_leaveOut m gone depth c)⟩
          have hwithout : ∀ u : Tree M O, u.Sparing m gone ∧ id < u.nodes.size →
              u.Without m gone := fun _ hu => hu.1.toWithout
          have hs : t.Sparing m gone ∧ id < t.nodes.size := ⟨ht, lt_size_of_node hn⟩
          have hsame := hvisit.locateParts_mapLists n.parts
            (fun frame list hmem s hs hrun =>
              (hvisit.locateList_leaveOut hwithout (ht.parts hn (frame, list) hmem) hs hrun).2)
            (s := ⟨t, place.span.start, none⟩) hs rfl
          have hspares := hvisit.spares_locateParts hwithout n.parts
            (s := ⟨t, place.span.start, none⟩) (ht.parts hn) hs rfl
          have hkept := hvisit.surveys.locateParts hvisit.keeping hvisit.owner n.parts
            (s := ⟨t, place.span.start, none⟩) hs
          rw [show (⟨t.mapLists (ItemList.leaveOut gone), place.span.start, none⟩ : Survey M O) =
            Survey.mapLists (ItemList.leaveOut gone) ⟨t, place.span.start, none⟩ from rfl]
          rw [show (n.mapLists (ItemList.leaveOut gone)).parts =
            Part.mapAllLists (ItemList.leaveOut gone) n.parts from rfl, hsame]
          generalize locateParts (locateWithin m depth) m id n.parts
            ⟨t, place.span.start, none⟩ = located at hspares hkept
          obtain ⟨parts, s⟩ := located
          dsimp only at hspares hkept ⊢
          have hdone := hkept.1.setParts id hspares s.cursor
          have hmodified : ((s.tree.mapLists (ItemList.leaveOut gone)).modify id fun n =>
              n.finish (Part.mapAllLists (ItemList.leaveOut gone) parts) s.cursor) =
                (s.tree.modify id fun n => n.finish parts s.cursor).mapLists _ :=
            modify_mapLists (k := fun n => n.finish parts s.cursor) (fun _ => rfl) s.tree id
          rw [show (s.mapLists (ItemList.leaveOut gone)).failure = s.failure from rfl]
          cases s.failure with
          | none => exact ⟨hdone, congrArg _ hmodified⟩
          | some e => exact Or.inr ⟨hdone, congrArg _ hmodified⟩

/-- The whole tree is located in the same way. -/
theorem locate_leaveOut (m : M) (gone : O → Bool) :
    Mirrors (fun _ => False) (Sparing m gone) (mapLists (ItemList.leaveOut gone))
      (locate m : Job M O Unit) (locate m) := by
  have hplant : Mirrors (fun _ => False) (Sparing m gone) (mapLists (ItemList.leaveOut gone))
      (plant m root : Job M O Unit) (plant m root) := by
    intro t ht
    have hrun := plantWithin_leaveOut m gone (t.depthBound m) root t ht
    unfold MirrorsAt plant
    rw [depthBound_mapLists]
    exact hrun
  have hlocate : Mirrors (fun _ => False) (Sparing m gone) (mapLists (ItemList.leaveOut gone))
      (locateFrom m root : Job M O Unit) (locateFrom m root) := by
    intro t ht
    have hrun := locateWithin_leaveOut m gone (t.depthBound m) root t ht
    unfold MirrorsAt locateFrom
    rw [depthBound_mapLists]
    exact hrun
  refine .get_bind fun t _ => ?_
  refine .ite (.pure _) (.bind hplant fun _ => .bind hlocate fun _ => .get_bind fun u hu => ?_)
  exact fun _ _ => ⟨⟨⟨hu.layout, hu.node⟩, hu.layouts, hu.parts⟩, rfl⟩

/-! ## Printing -/

section Printing

variable {m : M} {print print' : Nat → Margin → Job M O Text}

/-- What is below a node goes abreast if the nodes do, as long as that node is there. -/
theorem outlook_leaveOut
    (hprint : ∀ id margin, Mirrors (fun _ => False) (Sparing m gone)
      (mapLists (ItemList.leaveOut gone)) (print id margin) (print' id margin))
    (hkeeps : ∀ x id margin, Job.Keeping (fun t : Tree M O => x < t.nodes.size) (print id margin))
    (owner : Nat) : Outlook (fun _ => False)
      (Imaged (fun t => t.Sparing m gone ∧ owner < t.nodes.size) (mapLists (ItemList.leaveOut gone)))
      m owner owner print print' fun _ => True :=
  outlook_mapLists ((Sparing.surveys m gone).and_lt owner).toGrows
    (fun id margin => (hkeeps owner id margin).and_mirrors (hprint id margin)) owner

/-- The normal text of a node. -/
theorem normalNode_leaveOut
    (hprint : ∀ id margin, Mirrors (fun _ => False) (Sparing m gone)
      (mapLists (ItemList.leaveOut gone)) (print id margin) (print' id margin))
    (hkeeps : ∀ x id margin, Job.Keeping (fun t : Tree M O => x < t.nodes.size) (print id margin))
    (id : Nat) (margin : Margin) : Mirrors (fun _ => False) (Sparing m gone)
      (mapLists (ItemList.leaveOut gone)) (normalNode print m id margin)
      (normalNode print' m id margin) := by
  intro t ht
  unfold MirrorsAt normalNode
  simp only [bind, EStateM.bind, Job.get_eq, node_mapLists]
  cases hn : t.node id with
  | error e => exact Or.inr ⟨ht, rfl⟩
  | ok n =>
    rw [node_eq_ok] at hn
    have hlook := outlook_leaveOut hprint hkeeps id
    have hparts : Abreast _ _ (normalParts print m id margin.flush n.parts)
        (normalParts print' m id margin.flush (Part.mapAllLists (ItemList.leaveOut gone) n.parts)) :=
      .normalParts margin.flush hlook.below n.parts fun frame list hmem =>
        .normalPart_leaveOut _ (ht.parts hn (frame, list) hmem) hlook.below
          fun object margin hobject t u htu =>
            htu.1.1.toWithout.printBelow_gone htu.1.2 hobject print margin
    have hwhole := (hparts.bind fun text => .pure (margin.apply text)) t _
      ⟨⟨ht, lt_size_of_node hn⟩, rfl⟩
    exact mirrorsAt_iff.2 (hwhole.weaken fun hr => ⟨hr.1.1, hr.2⟩)

/-- The patch of a node. -/
theorem patchOf_leaveOut
    (hprint : ∀ id margin, Mirrors (fun _ => False) (Sparing m gone)
      (mapLists (ItemList.leaveOut gone)) (print id margin) (print' id margin))
    (hkeeps : ∀ x id margin, Job.Keeping (fun t : Tree M O => x < t.nodes.size) (print id margin))
    {t : Tree M O} (ht : t.Sparing m gone) {id : Nat} {n : Node M O} (hn : t.nodes[id]? = some n)
    (place : Place) : AbreastAt (fun _ => False)
      (Imaged (Sparing m gone) (mapLists (ItemList.leaveOut gone)))
      (patchOf print m id n.parts place)
      (patchOf print' m id (n.mapLists (ItemList.leaveOut gone)).parts place)
      t (t.mapLists (ItemList.leaveOut gone)) := by
  have hlook := outlook_leaveOut hprint hkeeps id
  have hgone : ∀ object margin, gone object = true → ∀ t u,
      Imaged (fun t => t.Sparing m gone ∧ id < t.nodes.size) (mapLists (ItemList.leaveOut gone)) t u →
      printBelow print m id object margin t = .ok none t := fun object margin hobject t u htu =>
    htu.1.1.toWithout.printBelow_gone htu.1.2 hobject print margin
  have hpatch := hlook.patchAt place
    (by
      rintro t _ q ⟨ht, rfl⟩
      exact ⟨((Sparing.surveys m gone).and_lt id).insertion id q ht, mapPlace_mapLists t id _⟩)
    ⟨⟨ht, lt_size_of_node hn⟩, rfl⟩ rfl n.parts (fun _ _ => True.intro)
    (fun frame list hmem => .normalPart_leaveOut _ (ht.parts hn (frame, list) hmem) hlook.below hgone)
    fun frame list hmem hlisted =>
      hlook.revisePart_leaveOut .trivial _ (ht.parts hn (frame, list) hmem) hlisted hgone
  exact hpatch.weaken fun hr => ⟨hr.1.1, hr.2⟩

/-- Whatever is made of a node. -/
theorem printVia_leaveOut {α : Type} {normal normal' : Job M O α}
    (hprint : ∀ id margin, Mirrors (fun _ => False) (Sparing m gone)
      (mapLists (ItemList.leaveOut gone)) (print id margin) (print' id margin))
    (hkeeps : ∀ x id margin, Job.Keeping (fun t : Tree M O => x < t.nodes.size) (print id margin))
    (hnormal : Mirrors (fun _ => False) (Sparing m gone) (mapLists (ItemList.leaveOut gone))
      normal normal') (finish : Patch → Except Source.Error α) (id : Nat) :
    Mirrors (fun _ => False) (Sparing m gone) (mapLists (ItemList.leaveOut gone))
      (printVia normal (patchOf print m id) finish id)
      (printVia normal' (patchOf print' m id) finish id) := by
  refine mirrors_iff_abreast.2 (.printVia finish ?_)
  rintro t _ ⟨ht, rfl⟩
  rw [node_mapLists]
  cases hn : t.node id with
  | error e => exact Or.inl ⟨e, rfl, rfl⟩
  | ok n =>
    exact Or.inr ⟨n, _, rfl, rfl, rfl, mirrorsAt_iff.1 (hnormal t ht),
      patchOf_leaveOut hprint hkeeps ht (node_eq_ok.1 hn)⟩

end Printing

/-- Printing drops no node. -/
theorem lt_size_printWithin (m : M) (x depth id : Nat) (margin : Margin) :
    Job.Keeping (fun t : Tree M O => x < t.nodes.size) (printWithin m depth id margin) :=
  (lt_size_carried m x).printWithin depth id margin

/-- A node is printed in the same way, by induction on the depth. -/
theorem printWithin_leaveOut (m : M) (gone : O → Bool) : ∀ (depth id : Nat) (margin : Margin),
    Mirrors (fun _ => False) (Sparing m gone) (mapLists (ItemList.leaveOut gone))
      (printWithin m depth id margin : Job M O Text) (printWithin m depth id margin)
  | 0, _, _ => .throw _
  | depth + 1, id, margin => by
    have hbelow := printWithin_leaveOut m gone depth
    have hkeeps := fun x => lt_size_printWithin (O := O) m x depth
    rw [printWithin_succ]
    exact printVia_leaveOut hbelow hkeeps (normalNode_leaveOut hbelow hkeeps id margin) _ id

end Tree

namespace Printing

open Reprint.Tree

variable [DecidableEq O] {m : M} {gone : O → Bool}

/-- Whatever is printed is printed in the same way. -/
theorem run_leaveOut (call : Printing) (m : M) (gone : O → Bool) :
    Mirrors (fun _ => False) (Sparing m gone) (mapLists (ItemList.leaveOut gone))
      (call.run m : Job M O (Text × Option SourceMap)) (call.run m) := by
  have hprint : ∀ id margin, Mirrors (fun _ => False) (Sparing m gone)
      (mapLists (ItemList.leaveOut gone)) (print m id margin : Job M O Text) (print m id margin) := by
    intro id margin t ht
    have hrun := printWithin_leaveOut m gone (t.depthBound m) id margin t ht
    unfold MirrorsAt print
    rw [depthBound_mapLists]
    exact hrun
  have hnormal : ∀ depth id margin, Mirrors (fun _ => False) (Sparing m gone)
      (mapLists (ItemList.leaveOut gone)) (normalNode (printWithin m depth) m id margin : Job M O Text)
      (normalNode (printWithin m depth) m id margin) := fun depth =>
    normalNode_leaveOut (printWithin_leaveOut m gone depth) fun x => lt_size_printWithin m x depth
  have hroot : Mirrors (fun _ => False) (Sparing m gone) (mapLists (ItemList.leaveOut gone))
      (printRoot m : Job M O Text) (printRoot m) :=
    .get_bind fun t _ => hprint Tree.root t.settings.margin
  cases call with
  | node id margin => exact .bind (hprint id margin) fun _ => .pure _
  | normal id margin =>
    refine .bind (fun t ht => ?_) fun _ => .pure _
    have hrun := hnormal (t.depthBound m) id margin t ht
    unfold MirrorsAt printNormal
    rw [depthBound_mapLists]
    exact hrun
  | root => exact .bind hroot fun _ => .pure _
  | source =>
    refine .bind ?_ fun _ => .pure _
    rw [printSource_eq]
    refine mirrors_iff_abreast.2 (.framed (mirrors_iff_abreast.1 hroot) ?_ ?_)
    · rintro t _ ⟨_, rfl⟩
      rfl
    · rintro t _ ⟨_, rfl⟩
      rw [getElem?_mapLists, Option.map_map]
      rfl
  | mapped file =>
    refine .bind (fun t ht => ?_) fun _ => .pure _
    have hrun := printVia_leaveOut (printWithin_leaveOut m gone (t.depthBound m))
      (fun x => lt_size_printWithin m x _)
      ((hnormal (t.depthBound m) Tree.root t.settings.margin).unmapped (fun _ => rfl) file)
      (Patch.textAndMap · file) Tree.root t ht
    unfold MirrorsAt at hrun ⊢
    rw [printMapped_eq, printMapped_eq, depthBound_mapLists]
    exact hrun

end Printing

namespace Tree

variable {gone : O → Bool}

/-! ## Leaving the objects out -/

/-- Operations that mirror each other come to the same result. -/
theorem outcome_of_mirrors {α : Type} {P : Tree M O → Prop} {f : Tree M O → Tree M O}
    {job job' : Job M O α} (h : Mirrors (fun _ => False) P f job job') {t : Tree M O} (ht : P t) :
    job'.outcome (f t) = job.outcome t := by
  have hrun := h t ht
  unfold MirrorsAt at hrun
  unfold Job.outcome
  cases hjob : job t with
  | ok a u =>
    rw [hjob] at hrun
    rw [hrun.2]
  | error e u =>
    rw [hjob] at hrun
    rw [(hrun.resolve_left not_false).2]

/-- The tree of a root is the same without the objects, but for the lists. -/
theorem ofRoot_mapLists (g : ItemList M O → ItemList M O) (language : Language M O) (m : M)
    (source : Text) (object : O) : ofRoot (language.mapLists g) m source object =
      (ofRoot language m source object).map (mapLists g) := by
  have hempty : ({ language := language.mapLists g, source := Source.ofText source } : Tree M O) =
      mapLists g { language := language, source := Source.ofText source } := by
    rw [mapLists, Array.map_empty]
  unfold ofRoot
  rw [hempty, newNode_mapLists]

theorem Sparing.ofRoot {language : Language M O} {m : M}
    (nodeless : ∀ {object : O}, gone object = true → language.layout m object = none) {source : Text}
    {object : O} {t : Tree M O} (h : Tree.ofRoot language m source object = .ok t) :
    t.Without m gone ∧ ((∀ {object : O} {layout : Layout M O},
      language.layout m object = some layout → Part.AllSpare gone m layout.parts) →
        t.Sparing m gone) := by
  obtain ⟨layout, place, hlayout, hplace, rfl, hnode⟩ := node_of_ofRoot h
  have hkept : gone object = false := by
    by_contra hgone
    have hnone := nodeless (Bool.not_eq_false _ ▸ hgone)
    rw [show language.layout m object = some layout from hlayout] at hnone
    cases hnone
  have hwithout : (addNode { language := language, source := Source.ofText source } none object place
      layout.parts).Without m gone :=
    ⟨fun hobject => nodeless hobject, fun hn => by rw [hnode hn]; exact hkept⟩
  exact ⟨hwithout, fun hspare => ⟨hwithout, fun hlayout => hspare hlayout, fun hn => by
    rw [hnode hn]
    exact hspare hlayout⟩⟩

variable [DecidableEq O]

/-- The normal text of one list, in a tree that stays the same. -/
theorem normalPart_leaveOut {m : M} {t : Tree M O} (ht : t.Without m gone) {owner : Nat}
    (howner : owner < t.nodes.size) {frame : Frame} {list : ItemList M O}
    (hlist : list.Spares gone m frame) (depth : Nat) (unit : Margin) :
    normalPart (printWithin m depth) m owner unit (.items frame (list.leaveOut gone)) t =
      normalPart (printWithin m depth) m owner unit (.items frame list) t := by
  have hkept := (Without.carried (O := O) m gone).toSurveys.and_lt owner
  have hprint : MirrorsOn (fun _ => False) (fun t => t.Without m gone ∧ owner < t.nodes.size) id
      (fun _ => True) (printWithin m depth) (printWithin m depth) :=
    fun id _ margin => (hkept.printWithin depth id margin).mirrors
  have hsame := (Abreast.normalPart_leaveOut unit hlist
    (fun object margin => mirrors_iff_abreast.1 ((hkept.view owner).printBelow hprint object margin))
    fun object margin hobject t u htu =>
      htu.1.1.printBelow_gone htu.1.2 hobject _ margin) t t ⟨⟨ht, howner⟩, rfl⟩
  unfold AbreastAt at hsame
  cases hrun : normalPart (printWithin m depth) m owner unit (.items frame list) t with
  | ok text u =>
    rw [hrun] at hsame
    obtain ⟨_, ⟨_, rfl⟩, hsame⟩ := hsame
    exact hsame
  | error e u =>
    rw [hrun] at hsame
    rcases hsame with hfalse | ⟨_, ⟨_, rfl⟩, hsame⟩
    · exact hfalse.elim
    · exact hsame

/-- Loading a source gives the same tree, but for the lists, or fails for the same
reason. -/
theorem ofSource_leaveOut {language : Language M O} {m : M}
    (nodeless : ∀ {object : O}, gone object = true → language.layout m object = none)
    (spare : ∀ {object : O} {layout : Layout M O}, language.layout m object = some layout →
      Part.AllSpare gone m layout.parts) (source : Text) (object : O) :
    ofSource (language.mapLists (ItemList.leaveOut gone)) m source object =
        (ofSource language m source object).map (mapLists (ItemList.leaveOut gone)) ∧
      ∀ t, ofSource language m source object = .ok t → t.Sparing m gone := by
  unfold ofSource
  rw [ofRoot_mapLists]
  cases hroot : ofRoot language m source object with
  | error e => exact ⟨rfl, nofun⟩
  | ok t =>
    have ht := (Sparing.ofRoot nodeless hroot).2 spare
    have hrun := locate_leaveOut m gone t ht
    unfold MirrorsAt at hrun
    simp only [Except.map, bind, Except.bind]
    cases hlocate : locate m t with
    | error e u =>
      rw [hlocate] at hrun
      rw [(hrun.resolve_left not_false).2]
      exact ⟨rfl, nofun⟩
    | ok _ u =>
      rw [hlocate] at hrun
      rw [hrun.2]
      refine ⟨rfl, fun t' ht' => ?_⟩
      cases ht'
      exact hrun.1

/-- An object without a layout can be left out of a list: the normal text of the
list is the same.  Loading a source without such objects gives the same tree, but
for the lists, and whatever is printed of the tree is the same.  That is so as
long as no special literal at either end of a list goes to another item. -/
theorem leaveOut_alike (m : M) (gone : O → Bool) :
    (∀ {t : Tree M O} {owner : Nat} {frame : Frame} {list : ItemList M O}, t.Without m gone →
      owner < t.nodes.size → list.Spares gone m frame → ∀ (depth : Nat) (unit : Margin),
        normalPart (printWithin m depth) m owner unit (.items frame (list.leaveOut gone)) t =
          normalPart (printWithin m depth) m owner unit (.items frame list) t) ∧
    ∀ {language : Language M O},
      (∀ {object : O}, gone object = true → language.layout m object = none) →
      ∀ (source : Text) (object : O),
        (∀ t, ofSource language m source object = .ok t → t.Without m gone) ∧
        ((∀ {object : O} {layout : Layout M O}, language.layout m object = some layout →
            Part.AllSpare gone m layout.parts) →
          ofSource (language.mapLists (ItemList.leaveOut gone)) m source object =
              (ofSource language m source object).map (mapLists (ItemList.leaveOut gone)) ∧
            ∀ t, ofSource language m source object = .ok t → ∀ call : Printing,
              (call.run m).outcome (t.mapLists (ItemList.leaveOut gone)) =
                (call.run m).outcome t) := by
  refine ⟨fun ht howner hlist => normalPart_leaveOut ht howner hlist, ?_⟩
  intro language nodeless source object
  refine ⟨fun t ht => ?_, fun spare => ?_⟩
  · unfold ofSource at ht
    cases hroot : ofRoot language m source object with
    | error e =>
      rw [hroot] at ht
      cases ht
    | ok t' =>
      have hafter := (Without.carried m gone).locate t' (Sparing.ofRoot nodeless hroot).1
      unfold Job.after at hafter
      rw [hroot] at ht
      simp only [bind, Except.bind] at ht
      cases hlocate : locate m t' with
      | error e u =>
        rw [hlocate] at ht
        cases ht
      | ok _ u =>
        rw [hlocate] at ht hafter
        cases ht
        exact hafter
  · obtain ⟨hsame, hsparing⟩ := ofSource_leaveOut nodeless spare source object
    exact ⟨hsame, fun t ht call => outcome_of_mirrors (call.run_leaveOut m gone) (hsparing t ht)⟩

/-- A list of words of one letter, separated by commas.  The letter `x` is no word
of the language. -/
def letterList : Language Text (Option Char) where
  layout _ object :=
    match object with
    | none => some
        { origin := some (.ok (.between ⟨1, 0⟩ ⟨1, 2⟩))
          parts := [(Part.objects fun letters => letters.map some).joinedBy [',']] }
    | some 'x' => none
    | some 'a' => some
        { origin := some (.ok (.between ⟨1, 0⟩ ⟨1, 1⟩)), parts := [Part.constant ['a']] }
    | some c => some
        { origin := some (.ok (.between ⟨1, 1⟩ ⟨1, 2⟩)), parts := [Part.constant [c]] }
  describe _ _ := ""
  size letters := letters.length + 1

/-- The letter that is no word can be spared if it stands at neither end. -/
theorem letterList_allSpare {letters : Text} (hhead : letters.head? ≠ some 'x')
    (hlast : letters.getLast? ≠ some 'x') {object : Option Char}
    {layout : Layout Text (Option Char)} (h : letterList.layout letters object = some layout) :
    Part.AllSpare (· = some 'x') letters layout.parts := by
  intro l hl
  unfold letterList at h
  dsimp only at h
  split at h
  · cases h
    rw [List.mem_singleton.1 hl]
    refine ⟨fun {x rest} hsome hx _ => ?_, fun {front x} hsome hx _ => ?_, nofun⟩ <;>
      obtain rfl := of_decide_eq_true hx
    · have hfirst := congrArg List.head? (hsome : letters.map some = some 'x' :: rest)
      rw [List.head?_map, List.head?_cons, Option.map_eq_some_iff] at hfirst
      obtain ⟨c, hc, hx⟩ := hfirst
      exact absurd (hc.trans hx) hhead
    · have hend := congrArg List.getLast? (hsome : letters.map some = front ++ [some 'x'])
      rw [List.getLast?_map, List.getLast?_concat, Option.map_eq_some_iff] at hend
      obtain ⟨c, hc, hx⟩ := hend
      exact absurd (hc.trans hx) hlast
  · cases h
  · cases h
    cases hl
  · cases h
    cases hl

/-- The letter that is no word stands between the others. -/
theorem leaveOut_alike_letterBetween :
    ∃ t u : Tree Text (Option Char), ofSource letterList ['a', 'x', 'b'] ['a', 'b'] none = .ok t ∧
      ofSource (letterList.mapLists (ItemList.leaveOut (· = some 'x'))) ['a', 'x', 'b'] ['a', 'b']
        none = .ok u ∧
      (∃ n frame list, t.node root = .ok n ∧ n.parts = [.items frame list] ∧
        normalPart (printWithin ['a', 'x', 'b'] 2) ['a', 'x', 'b'] root (.ofUnit ['\t'])
            (.items frame (list.leaveOut (· = some 'x'))) t =
          normalPart (printWithin ['a', 'x', 'b'] 2) ['a', 'x', 'b'] root (.ofUnit ['\t'])
            (.items frame list) t ∧
        (normalPart (printWithin ['a', 'x', 'b'] 2) ['a', 'x', 'b'] root (.ofUnit ['\t'])
          (.items frame list)).result? t = some ['a', ',', 'b']) ∧
      (Printing.root.run ['a', 'x', 'b']).outcome u = (Printing.root.run ['a', 'x', 'b']).outcome t ∧
      Printing.root.text? ['a', 'x', 'b'] t = some ['a', ',', 'b'] := by
  have nodeless : ∀ {object : Option Char}, (decide (object = some 'x')) = true →
      letterList.layout ['a', 'x', 'b'] object = none := by
    intro object h
    rw [of_decide_eq_true h]
    rfl
  have spare : ∀ {object : Option Char} {layout : Layout Text (Option Char)},
      letterList.layout ['a', 'x', 'b'] object = some layout →
        Part.AllSpare (· = some 'x') ['a', 'x', 'b'] layout.parts :=
    letterList_allSpare (by decide) (by decide)
  obtain ⟨t, n, frame, list, made, hnode, hparts⟩ : ∃ t n frame list,
      ofSource letterList ['a', 'x', 'b'] ['a', 'b'] none = .ok t ∧ t.node root = .ok n ∧
        n.parts = [.items frame list] := ⟨_, _, _, _, rfl, rfl, rfl⟩
  have hn := node_eq_ok.1 hnode
  obtain ⟨without, hloaded⟩ := (leaveOut_alike ['a', 'x', 'b'] (· = some 'x')).2 nodeless
    ['a', 'b'] none
  obtain ⟨same, alike⟩ := hloaded spare
  rw [made] at same
  have spares : list.Spares (· = some 'x') ['a', 'x', 'b'] frame := by
    have sparing := (ofSource_leaveOut nodeless spare ['a', 'b'] none).2 t made
    have all := sparing.parts hn
    rw [hparts] at all
    exact all (frame, list) List.mem_cons_self
  have normal := (leaveOut_alike ['a', 'x', 'b'] (· = some 'x')).1 (without t made)
    (lt_size_of_node hn) spares 2 (.ofUnit ['\t'])
  have texts : (ofSource letterList ['a', 'x', 'b'] ['a', 'b'] none).toOption.map (fun t =>
      ((t.node root).toOption.bind fun n => n.parts.head?.bind fun p =>
          (normalPart (printWithin ['a', 'x', 'b'] 2) ['a', 'x', 'b'] root (.ofUnit ['\t'])
            p).result? t,
        Printing.root.text? ['a', 'x', 'b'] t)) =
      some (some ['a', ',', 'b'], some ['a', ',', 'b']) := by
    decide +kernel
  rw [made] at texts
  obtain ⟨shown, printed⟩ := Prod.mk.inj (Option.some.inj texts)
  rw [hnode, Except.toOption, Option.bind_some, hparts] at shown
  exact ⟨t, _, made, same, ⟨n, frame, list, hnode, hparts, normal, shown⟩, alike t made .root,
    printed⟩

/-- The letter that is no word stands first.  So the comma goes in front of the
first word. -/
theorem printRoot_letterFirst :
    ∃ t u : Tree Text (Option Char), ofSource letterList ['x', 'b'] ['a', 'b'] none = .ok t ∧
      ofSource (letterList.mapLists (ItemList.leaveOut (· = some 'x'))) ['x', 'b'] ['a', 'b']
        none = .ok u ∧
      Printing.root.text? ['x', 'b'] t = some ['a', ',', 'b'] ∧
      Printing.root.text? ['x', 'b'] u = some ['a', 'b'] ∧
      (Printing.normal root t.settings.margin).text? ['x', 'b'] t = some [',', 'b'] ∧
      (Printing.normal root u.settings.margin).text? ['x', 'b'] u = some ['b'] := by
  obtain ⟨t, made⟩ : ∃ t, ofSource letterList ['x', 'b'] ['a', 'b'] none = .ok t := ⟨_, rfl⟩
  obtain ⟨u, made'⟩ : ∃ u, ofSource (letterList.mapLists (ItemList.leaveOut (· = some 'x')))
    ['x', 'b'] ['a', 'b'] none = .ok u := ⟨_, rfl⟩
  have printed : (ofSource letterList ['x', 'b'] ['a', 'b'] none).toOption.map (fun t =>
      (Printing.root.text? ['x', 'b'] t,
        (Printing.normal root t.settings.margin).text? ['x', 'b'] t)) =
      some (some ['a', ',', 'b'], some [',', 'b']) := by
    decide +kernel
  have printed' : (ofSource (letterList.mapLists (ItemList.leaveOut (· = some 'x'))) ['x', 'b']
      ['a', 'b'] none).toOption.map (fun t =>
      (Printing.root.text? ['x', 'b'] t,
        (Printing.normal root t.settings.margin).text? ['x', 'b'] t)) =
      some (some ['a', 'b'], some ['b']) := by
    decide +kernel
  rw [made] at printed
  rw [made'] at printed'
  have texts := Option.some.inj printed
  have texts' := Option.some.inj printed'
  exact ⟨t, u, made, made', congrArg Prod.fst texts, congrArg Prod.fst texts',
    congrArg Prod.snd texts, congrArg Prod.snd texts'⟩

end Tree

end Reprint
