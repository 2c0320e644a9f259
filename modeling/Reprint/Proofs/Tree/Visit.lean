import Reprint.Proofs.Tree.Ready

/-!
# The visit of a tree

The parts of a node are located one by one, where `descend` locates a node
below.  `Tree.Descends` says what such a `descend` has to keep.  The steps
for an item (`locateItem_step`), a list (`locateItems_step`) and a part
(`locatePart_step`) hold for every one that does; `locateWithin_descends`
is the induction on the depth that closes the circle.

`Tree.Passed` describes the objects that a list passes over.  Such an
object is passed over again wherever the list names it later, because the
tree only grows (`Passed.keep`).
-/

namespace Reprint.Tree

variable {M O : Type} [DecidableEq O]

/-! ## Objects passed over -/

/-- An object that is not located as an item below `owner`: no node can be
made for it, or its node is located elsewhere or has no source text. -/
def Passed (m : M) (t : Tree M O) (owner : Nat) (object : O) : Prop :=
  ∃ n, t.nodes[owner]? = some n ∧
    (t.below? n object = none ∧ ¬ t.CanMake m object ∨
      ∃ id c, t.below? n object = some id ∧ t.nodes[id]? = some c ∧
        (c.isLocated = true ∨ c.place = none))

theorem Passed.keep {m : M} {t t' : Tree M O} {owner : Nat} {object : O}
    (h : Passed m t owner object) (hs : t.IsSound) (hk : Keeps m t t') :
    Passed m t' owner object := by
  obtain ⟨n, hn, ⟨hbelow, hmake⟩ | ⟨id, c, hbelow, hc, hcase⟩⟩ := h
  · obtain ⟨n', hn', _⟩ := hk.node hn
    refine ⟨n', hn', Or.inl ⟨?_, ?_⟩⟩
    · unfold below? at hbelow ⊢
      rw [List.find?_eq_none] at hbelow ⊢
      intro x hx
      rcases hk.child hn hn' hx with hx | ⟨k, hkx, hmade⟩
      · obtain ⟨k, hkx⟩ := exists_node_of_lt (hs.child hn hx).2
        obtain ⟨k', hkx', hkept⟩ := hk.node hkx
        have := hbelow x hx
        rw [hkx] at this
        rw [hkx']
        simpa [hkept.object] using this
      · rw [hkx]
        intro hobject
        have hobject : k.object = object := by simpa using hobject
        exact hmake (hobject ▸ hmade)
    · unfold CanMake at hmake ⊢
      rwa [hk.language, hk.source]
  · obtain ⟨n', hn', _⟩ := hk.node hn
    obtain ⟨c', hc', hkept⟩ := hk.node hc
    refine ⟨n', hn', Or.inr ⟨id, c', hk.below? hs hn hn' hbelow, hc', ?_⟩⟩
    rcases hcase with hlocated | hplace
    · exact Or.inl (hkept.located hlocated)
    · right
      have := hkept.place
      rw [hplace] at this
      simpa using this

/-! ## Items -/

/-- What a `descend` keeps that locates a node and the nodes below it. -/
def Descends (m : M) (descend : Nat → Job M O Unit) : Prop :=
  ∀ (id : Nat) (t t' : Tree M O), descend id t = .ok () t' → Ready m t →
    Keeps m t t' ∧ Ready m t' ∧
      (∀ x, t'.isLocated x = true → t.isLocated x = true ∨ id ≤ x) ∧
        ∀ {n : Node M O}, t.nodes[id]? = some n → n.place.isSome = true → t'.isLocated id = true

omit [DecidableEq O] in
/-- Locating a node that comes later is a step of the visit of its owner. -/
theorem Step.descend {m : M} {descend : Nat → Job M O Unit} {s t u : Tree M O} {owner id : Nat}
    (h : Step m owner s t) (hd : Descends m descend) (hlt : owner < id)
    (hrun : descend id t = .ok () u) : Step m owner s u := by
  obtain ⟨hkeeps, hready, hlater, _⟩ := hd id t u hrun h.ready
  exact h.trans ⟨hkeeps, hready, fun x hx => (hlater x hx).imp_right (Nat.lt_of_lt_of_le hlt)⟩

/-- What became of an object that a list or a slot names. -/
def ItemOutcome (m : M) (owner : Nat) (object : O) (lead trail : Text) (before after : Tree M O) :
    Option Nat → Prop
  | none => Passed m after owner object
  | some id => ¬ Passed m before owner object ∧ owner < id ∧
    ∃ c, after.nodes[id]? = some c ∧ c.object = object ∧ c.isLocated = true ∧
      c.before.literal = lead ∧ c.behind.literal = trail

/-- An object is not passed over if its node is not located and has source
text. -/
theorem not_passed_of_getNode {m : M} {t t' : Tree M O} {owner id : Nat} {object : O}
    {c : Node M O} (h : Ready m t) (hget : t.getNode m owner object = .ok (id, t'))
    (hc : t'.nodes[id]? = some c) (hid : t'.isLocated id = false) (hplace : c.place.isSome = true) :
    ¬ Passed m t owner object := by
  have hstep : Step m owner t t' := .getNode owner h hget
  obtain ⟨n, hn, hbelow⟩ := h.sound.below?_of_getNode hget
  rintro ⟨n₀, hn₀, ⟨hnone, hmake⟩ | ⟨id', c₀, hbelow₀, hc₀, hcase⟩⟩
  · obtain ⟨n₁, hn₁, ⟨hbelow₁, _⟩ | ⟨_, _, layout, place, hlayout, hplace, _⟩⟩ :=
      getNode_cases hget
    · rw [hn₀] at hn₁
      cases hn₁
      rw [hnone] at hbelow₁
      cases hbelow₁
    · exact hmake ⟨layout, place, hlayout, hplace⟩
  · have hbelow₁ := hstep.keeps.below? h.sound hn₀ hn hbelow₀
    rw [hbelow] at hbelow₁
    cases hbelow₁
    obtain ⟨c₁, hc₁, hkept₁⟩ := hstep.keeps.node hc₀
    rw [hc] at hc₁
    cases hc₁
    rcases hcase with hlocated | hnone
    · rw [isLocated_eq hc, hkept₁.located hlocated] at hid
      cases hid
    · rw [hkept₁.place, hnone] at hplace
      cases hplace

/-- The step for an item. -/
theorem locateItem_step {m : M} {descend : Nat → Job M O Unit} (hd : Descends m descend)
    {owner : Nat} {object : O} {lead trail : Text} {s s' : Survey M O} {found : Option Nat}
    (h : Ready m s.tree) (hl : locateItem descend m owner object lead trail s = (found, s'))
    (hrun : found = none → s'.isRunning = true) :
    s'.failure = s.failure ∧ Step m owner s.tree s'.tree ∧
      ItemOutcome m owner object lead trail s.tree s'.tree found := by
  cases locateItem_visit hl with
  | @skipped e hget harmless =>
    obtain ⟨n, hn, hbelow, hmake⟩ := getNode_eq_error hget harmless
    exact ⟨rfl, .refl owner h, n, hn, Or.inl ⟨hbelow, hmake⟩⟩
  | refused => cases hrun rfl
  | @again id t hget hlocated =>
    obtain ⟨n, hn, hbelow⟩ := h.sound.below?_of_getNode hget
    obtain ⟨-, c, hc, -⟩ := below?_eq_some hbelow
    rw [isLocated_eq hc] at hlocated
    exact ⟨rfl, .getNode owner h hget, n, hn, Or.inr ⟨id, c, hbelow, hc, Or.inl hlocated⟩⟩
  | failed => cases hrun rfl
  | @unread id t u hget hfresh hdescend hspan =>
    have hstep : Step m owner s.tree t := .getNode owner h hget
    obtain ⟨n, hn, hbelow⟩ := h.sound.below?_of_getNode hget
    have hdown := hstep.descend hd (h.sound.lt_of_getNode hget) hdescend
    obtain ⟨-, c, hc, -⟩ := below?_eq_some hbelow
    obtain ⟨hkeeps, -⟩ := hd _ _ _ hdescend hstep.ready
    obtain ⟨c', hc', hkept⟩ := hkeeps.node hc
    obtain ⟨n', hn', -⟩ := hkeeps.node hn
    refine ⟨rfl, hdown, n', hn', Or.inr ⟨id, c',
      hkeeps.below? hstep.ready.sound hn hn' hbelow, hc', Or.inr ?_⟩⟩
    rw [hc'] at hspan
    simpa [Node.span?] using hspan
  | blocked => cases hrun rfl
  | @found id t u v span before behind hget hfresh hdescend hspan haround =>
    have hstep : Step m owner s.tree t := .getNode owner h hget
    have hlt : owner < id := h.sound.lt_of_getNode hget
    obtain ⟨n, hn, hbelow⟩ := h.sound.below?_of_getNode hget
    obtain ⟨-, c, hc, hobject⟩ := below?_eq_some hbelow
    obtain ⟨hkeeps, hready, hlater, hself⟩ := hd _ _ _ hdescend hstep.ready
    obtain ⟨c', hc', hkept⟩ := hkeeps.node hc
    obtain ⟨hmarks, hbefore, hbehind⟩ := locateAround_step id hready haround
    have hplace : c.place.isSome = true := by
      rw [hc'] at hspan
      obtain ⟨p, hp, _⟩ := Option.map_eq_some_iff.1 hspan
      rw [← hkept.place, hp]
      rfl
    obtain ⟨k, hk, hkept'⟩ := hmarks.keeps.node hc'
    have hklocated : k.isLocated = true := by
      rw [← isLocated_eq hk]
      exact hmarks.keeps.located (hself hc hplace)
    have hnew : ∀ x, v.isLocated x = true → t.isLocated x = true ∨ id ≤ x := by
      intro x hx
      rcases hmarks.later x hx with hx | hx
      · exact hlater x hx
      · exact Or.inr (by omega)
    have hsurveyed := hmarks.ready.surveyed hk hklocated
    have hdelimited : ∀ n : Node M O, (n.mapPlace fun p =>
        { p with before := before, behind := behind }).isLocated = n.isLocated :=
      fun n => n.isLocated_mapPlace fun _ => rfl
    obtain ⟨hkeepsw, hreadyw⟩ := hstep.ready.change hfresh (hkeeps.trans hmarks.keeps) hmarks.ready
      hnew hk (g := fun n => n.mapPlace fun p => { p with before := before, behind := behind }) rfl rfl
      (by simp [Node.span?, Function.comp_def])
      (fun _ => hsurveyed)
      (fun hnot => by rw [hdelimited, hklocated] at hnot; cases hnot)
    refine ⟨rfl, hstep.trans ⟨hkeepsw, hreadyw, fun x hx => ?_⟩,
      not_passed_of_getNode h hget hc hfresh hplace, hlt, ?_⟩
    · rcases isLocated_modify_cases hx with rfl | hx
      · exact Or.inr (by omega)
      · exact (hnew x hx).imp_right fun _ => by omega
    · obtain ⟨p, hp, _⟩ := (k.isLocated_iff).1 hklocated
      refine ⟨_, getElem?_modify_self _ hk, ?_, ?_, ?_, ?_⟩
      · rw [Node.object_mapPlace, hkept'.object, hkept.object, hobject]
      · rw [hdelimited, hklocated]
      · simp [Node.before, hp, hbefore]
      · simp [Node.behind, hp, hbehind]

/-- The step for a list. -/
theorem locateItems_step {m : M} {descend : Nat → Job M O Unit} (hd : Descends m descend)
    {owner : Nat} {frame : Frame} {count : Nat} :
    ∀ {objects : List O} {index : Nat} {list list' : ItemList M O} {extent extent' : Option Span}
      {s s' : Survey M O}, Ready m s.tree →
      locateItems descend m owner frame count index objects list extent s = (list', extent', s') →
      s'.isRunning = true →
      s.isRunning = true ∧ Step m owner s.tree s'.tree ∧
        ∃ later again, list' = { list with
            listed := list.listed ++ later, repeats := list.repeats ++ again } ∧
          ItemList.Walk s'.tree owner (list.around frame · count) index objects list.listed later
            again ∧
          ∀ object, Passed m s.tree owner object → ∀ item ∈ later, item.object ≠ object
  | [], index, list, list', extent, extent', s, s', h, hl, hrun => by
    cases hl
    exact ⟨hrun, .refl owner h, [], [], by simp, .nil, by simp⟩
  | object :: rest, index, list, list', extent, extent', s, s', h, hl, hrun => by
    rw [locateItems] at hl
    split at hl
    · next hitem =>
      obtain ⟨hrun, hstep, later, again, rfl, hwalk, hpassed⟩ := locateItems_step hd h hl hrun
      refine ⟨hrun, hstep, later, object :: again, by simp, .again ?_ hwalk, hpassed⟩
      obtain ⟨item, hitem⟩ := Option.isSome_iff_exists.1 hitem
      exact ⟨item, List.mem_of_find?_eq_some hitem, by simpa using List.find?_some hitem⟩
    next hitem =>
    have hfresh : ∀ item ∈ list.listed, item.object ≠ object := by
      simpa [ItemList.item?] using hitem
    dsimp only at hl
    split at hl
    · next s₁ hone =>
      split at hl
      · next hrun₁ =>
        obtain ⟨hfailure, hstep₁, hone⟩ := locateItem_step hd h hone fun _ => hrun₁
        obtain ⟨_, hstep, later, again, rfl, hwalk, hpassed⟩ :=
          locateItems_step hd hstep₁.ready hl hrun
        refine ⟨by rwa [Survey.isRunning, ← hfailure], hstep₁.trans hstep, later, again, rfl, ?_, ?_⟩
        · exact .skip hfresh (hpassed object hone) hwalk
        · intro other hother
          exact hpassed other (hother.keep h.sound hstep₁.keeps)
      · next hrun₁ =>
        cases hl
        exact absurd hrun hrun₁
    · next id s₁ hone =>
      obtain ⟨hfailure, hstep₁, hnot, hlt, c, hc, hobject, hlocated, hbefore, hbehind⟩ :=
        locateItem_step hd h hone nofun
      obtain ⟨hrun₁, hstep, later, again, hlist, hwalk, hpassed⟩ :=
        locateItems_step hd hstep₁.ready hl hrun
      obtain ⟨c', hc', hkept⟩ := hstep.keeps.node hc
      refine ⟨by rwa [Survey.isRunning, ← hfailure], hstep₁.trans hstep,
        ⟨object, id, (list.around frame index count).1, (list.around frame index count).2⟩ :: later,
        again, ?_, ?_, ?_⟩
      · rw [hlist, List.append_assoc]
        rfl
      · refine ItemList.Walk.take hfresh hlt hc' (hkept.object.trans hobject)
          (hkept.located hlocated) ?_ ?_ hwalk
        · rw [hkept.before hlocated, hbefore]
          rfl
        · rw [hkept.behind hlocated, hbehind]
          rfl
      · intro other hother item hitem
        rcases List.mem_cons.1 hitem with rfl | hitem
        · rintro rfl
          exact hnot hother
        · exact hpassed other (hother.keep h.sound hstep₁.keeps) item hitem

/-! ## Parts -/

mutual

/-- The step for a part. -/
theorem locatePart_step {m : M} {descend : Nat → Job M O Unit} (hd : Descends m descend)
    {owner : Nat} : ∀ (p : Part M O) {p' : Part M O} {s s' : Survey M O}, p.IsNew →
      Ready m s.tree → locatePart descend m owner p s = (p', s') → s'.isRunning = true →
      s.isRunning = true ∧ Step m owner s.tree s'.tree ∧ p'.Surveyed m s'.tree owner
  | .literal frame wording place, p', s, s', hp, h, hl, hrun => by
    rw [locatePart] at hl
    split at hl
    · cases hl
      cases hrun
    · next hliteral =>
      cases hl
      obtain ⟨hstep, hfailure⟩ := locateLiteral_step h hliteral
      exact ⟨by rwa [Survey.isRunning, ← hfailure], hstep, trivial⟩
  | .slot frame supply listed, p', s, s', hp, h, hl, hrun => by
    simp only [Part.IsNew] at hp
    rw [locatePart] at hl
    split at hl
    · cases hl
      exact ⟨hrun, .refl owner h, by simp [Part.Surveyed, hp]⟩
    next object hsupply =>
    split at hl
    · next s₁ hitem =>
      cases hl
      obtain ⟨hfailure, hstep, _⟩ := locateItem_step hd h hitem fun _ => hrun
      exact ⟨by rwa [Survey.isRunning, ← hfailure], hstep, by simp [Part.Surveyed, hp]⟩
    · next id s₁ hitem =>
      cases hl
      obtain ⟨hfailure, hstep, _, hlt, c, hc, hobject, hlocated, _⟩ :=
        locateItem_step hd h hitem nofun
      refine ⟨by rwa [Survey.isRunning, ← hfailure], hstep, ?_⟩
      simp only [Part.Surveyed, Option.some.injEq]
      rintro _ rfl
      exact ⟨hlt, c, hc, hlocated, by rw [hobject, hsupply]⟩
  | .items frame list, p', s, s', hp, h, hl, hrun => by
    simp only [Part.IsNew] at hp
    rw [locatePart_items] at hl
    cases hl
    obtain ⟨hrun₀, hstep, later, again, hlist, hwalk, _⟩ := locateItems_step hd h rfl hrun
    refine ⟨hrun₀, hstep, ?_⟩
    simp only [Part.Surveyed, hlist, hp.1, hp.2, List.nil_append]
    rw [hp.1] at hwalk
    rw [if_pos hrun]
    exact hwalk
  | .choice frame test yes no taken, p', s, s', hp, h, hl, hrun => by
    cases htest : test m with
    | true =>
      have hnew : yes.IsNew := by
        cases no <;> simp only [Part.IsNew] at hp <;> exact hp.2.1
      rw [locatePart_yes htest] at hl
      cases hl
      obtain ⟨hrun₀, hstep, hsurveyed⟩ := locatePart_step hd yes hnew h rfl hrun
      refine ⟨hrun₀, hstep, ?_⟩
      rw [if_pos hrun]
      cases no <;> rw [Part.Surveyed, if_pos htest] <;> exact ⟨rfl, hsurveyed.settle _⟩
    | false =>
      cases no with
      | none =>
        simp only [Part.IsNew] at hp
        rw [locatePart_neither htest] at hl
        cases hl
        refine ⟨hrun, .refl owner h, ?_⟩
        rw [Part.Surveyed, htest, if_neg Bool.false_ne_true]
        exact hp.1
      | some other =>
        simp only [Part.IsNew] at hp
        rw [locatePart_no htest] at hl
        cases hl
        obtain ⟨hrun₀, hstep, hsurveyed⟩ := locatePart_step hd other hp.2.2 h rfl hrun
        refine ⟨hrun₀, hstep, ?_⟩
        rw [if_pos hrun, Part.Surveyed, htest, if_neg Bool.false_ne_true]
        exact ⟨rfl, hsurveyed.settle _⟩
  | .group frame members stale, p', s, s', hp, h, hl, hrun => by
    simp only [Part.IsNew] at hp
    rw [locatePart_group] at hl
    cases hl
    obtain ⟨hrun₀, hstep, hsurveyed⟩ := locateParts_step hd members hp h rfl hrun
    refine ⟨hrun₀, hstep, ?_⟩
    rw [if_pos hrun]
    exact Part.Surveyed.settle (.group frame _ stale) hsurveyed
termination_by structural p => p

/-- The step for several parts. -/
theorem locateParts_step {m : M} {descend : Nat → Job M O Unit} (hd : Descends m descend)
    {owner : Nat} : ∀ (parts : List (Part M O)) {parts' : List (Part M O)} {s s' : Survey M O},
      Part.AllNew parts → Ready m s.tree → locateParts descend m owner parts s = (parts', s') →
      s'.isRunning = true →
      s.isRunning = true ∧ Step m owner s.tree s'.tree ∧ Part.SurveyedAll m s'.tree owner parts'
  | [], parts', s, s', hp, h, hl, hrun => by
    cases hl
    exact ⟨hrun, .refl owner h, trivial⟩
  | p :: rest, parts', s, s', hp, h, hl, hrun => by
    simp only [Part.AllNew] at hp
    rw [locateParts_cons] at hl
    dsimp only at hl
    split at hl
    · next hrun₁ =>
      cases hl
      obtain ⟨hrun₀, hstep₁, hfirst⟩ := locatePart_step hd p hp.1 h rfl hrun₁
      obtain ⟨_, hstep₂, hsurveyed⟩ := locateParts_step hd rest hp.2 hstep₁.ready rfl hrun
      exact ⟨hrun₀, hstep₁.trans hstep₂, hfirst.keep (hstep₂.keeps.behind owner) _, hsurveyed⟩
    · next hrun₁ =>
      cases hl
      exact absurd hrun hrun₁
termination_by structural parts => parts

end

/-! ## Nodes -/

/-- Locating a node keeps the invariant, by induction on the depth. -/
theorem locateWithin_descends (m : M) :
    ∀ depth, Descends m (locateWithin m depth : Nat → Job M O Unit)
  | 0 => by
    intro id t t' h
    cases h
  | depth + 1 => by
    intro id t t' h hready
    obtain ⟨n, hn, ⟨hpassed, rfl⟩ | ⟨place, parts, s, hplace, hlocated, hparts, hfailure, rfl⟩⟩ :=
      locateWithin_eq_ok h
    · refine ⟨.refl t', hready, fun _ => Or.inl, fun {k} hk hsome => ?_⟩
      obtain rfl := Option.some.inj (hn.symm.trans hk)
      rw [isLocated_eq hn]
      refine hpassed.resolve_left fun hnone => ?_
      rw [hnone] at hsome
      cases hsome
    · have hnot : n.isLocated = false := (Node.isLocated_of_place hplace).trans hlocated
      have hid : t.isLocated id = false := by rw [isLocated_eq hn, hnot]
      have hrun : s.isRunning = true := by rw [Survey.isRunning, hfailure]; rfl
      obtain ⟨_, hstep, hsurveyed⟩ := locateParts_step (locateWithin_descends m depth) n.parts
        (hready.fresh hn hnot) hready hparts hrun
      obtain ⟨k, hk, hkept⟩ := hstep.keeps.node hn
      have hsome : k.place.isSome = true := by rw [hkept.place, hplace]; rfl
      have hdone := k.isLocated_finish parts s.cursor hsome
      obtain ⟨hkeeps, hready'⟩ := hready.change hid hstep.keeps hstep.ready
        (fun x hx => (hstep.later x hx).imp_right Nat.le_of_lt) hk
        (g := fun n => n.finish parts s.cursor) rfl rfl (k.span?_finish parts s.cursor)
        (fun _ => hsurveyed) (fun hfalse => by rw [hdone] at hfalse; cases hfalse)
      refine ⟨hkeeps, hready', fun x hx => ?_, fun _ _ => ?_⟩
      · rcases isLocated_modify_cases hx with rfl | hx
        · exact Or.inr (Nat.le_refl _)
        · exact (hstep.later x hx).imp_right Nat.le_of_lt
      · rw [Survey.finish, isLocated_eq (getElem?_modify_self _ hk), hdone]

end Reprint.Tree
