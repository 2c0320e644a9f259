import Reprint.Proofs.Tree.Orderly
import Reprint.Proofs.Tree.Unsearched

/-!
# What was located is apart

A tree is made from a source and located.  Suppose that once it is planted
no span is empty, and the spans of the nodes right below a node do not
intersect.  Then no two marks intersect when it is located, and no siblings
overlap (`locate_apart`).  Delimiters and literals that were searched for
need no further condition.  A pinned literal is taken where it is, so it has
to be clear when its turn comes (`Turn.IsClear`).

* `turns` lists the pinned literals that locating a planted tree comes to,
  with the tree at that time.  It follows `locateWithin` and changes nothing.
* `Carries` says what a `descend` has to do for the steps for an item, a list
  and a part, and `locateWithin_carries` is the induction on the depth.
-/

namespace Reprint.Tree

variable {M O : Type}

/-! ## Turns -/

/-- A pinned literal that a visit has come to. -/
structure Turn (M O : Type) where
  /-- The tree at that time. -/
  tree : Tree M O
  owner : Nat
  span : Span

/-- The literal is not empty, it lies within the span of its owner, and it
intersects no mark and no span of a node but its owner and the ancestors of
its owner. -/
def Turn.IsClear (turn : Turn M O) : Prop :=
  turn.span.isEmpty = false ∧
    (turn.tree.spanOf turn.owner).any (fun own => own.contains turn.span) = true ∧
      turn.tree.blocks (turn.tree.lineage turn.owner) turn.span = false

instance (turn : Turn M O) : Decidable turn.IsClear :=
  inferInstanceAs (Decidable (_ ∧ _ ∧ _))

section Turns

variable [DecidableEq O] (descend : Nat → Job M O Unit) (below : Nat → Tree M O → List (Turn M O))
  (m : M) (owner : Nat)

/-- The turns of an object, where `below` gives those of a node. -/
def objectTurns (object : O) (t : Tree M O) : List (Turn M O) :=
  match t.getNode m owner object with
  | .error _ => []
  | .ok (id, t) => if t.isLocated id then [] else below id t

/-- The turns of the items of a list. -/
def itemsTurns (frame : Frame) (count : Nat) :
    Nat → List O → ItemList M O → Survey M O → List (Turn M O)
  | _, [], _, _ => []
  | index, object :: rest, list, s =>
    if (list.item? object).isSome then
      itemsTurns frame count (index + 1) rest { list with repeats := list.repeats ++ [object] } s
    else
      let (lead, trail) := list.around frame index count
      objectTurns below m owner object s.tree ++
        match locateItem descend m owner object lead trail s with
        | (none, s) => if s.isRunning then itemsTurns frame count (index + 1) rest list s else []
        | (some id, s) =>
          itemsTurns frame count (index + 1) rest
            { list with listed := list.listed ++ [⟨object, id, lead, trail⟩] } s

mutual

/-- The turns of a part. -/
def partTurns : Part M O → Survey M O → List (Turn M O)
  | .literal _ _ place, s => place.span?.toList.map fun span => ⟨s.tree, owner, span⟩
  | .slot _ supply _, s =>
    match supply m with
    | none => []
    | some object => objectTurns below m owner object s.tree
  | .items frame list, s =>
    itemsTurns descend below m owner frame (list.supply m).length 0 (list.supply m) list s
  | .choice _ test yes no _, s =>
    if test m then partTurns yes s
    else
      match no with
      | none => []
      | some other => partTurns other s
  | .group _ members _, s => partsTurns members s
termination_by structural p => p

/-- The turns of several parts. -/
def partsTurns : List (Part M O) → Survey M O → List (Turn M O)
  | [], _ => []
  | p :: rest, s =>
    let after := (locatePart descend m owner p s).2
    partTurns p s ++ if after.isRunning then partsTurns rest after else []
termination_by structural parts => parts

end

/-- The turns of a node and of the nodes below it.  The first number bounds
the depth. -/
def turnsWithin : Nat → Nat → Tree M O → List (Turn M O)
  | 0, _, _ => []
  | depth + 1, id, t =>
    match t.nodes[id]? with
    | none => []
    | some n =>
      match n.place with
      | none => []
      | some place =>
        if place.located then []
        else
          partsTurns (locateWithin m depth) (turnsWithin depth) m id n.parts
            ⟨t, place.span.start, none⟩

/-- The turns of a planted tree. -/
def turns (t : Tree M O) : List (Turn M O) := turnsWithin m (t.depthBound m) root t

end Turns

/-! ## Parts -/

section Parts

variable [DecidableEq O] {m : M} {owner : Nat} {descend : Nat → Job M O Unit}
  {below : Nat → Tree M O → List (Turn M O)}

/-- The invariant of the visit of the parts of a node. -/
structure Surveying (m : M) (owner : Nat) (s : Survey M O) : Prop where
  orderly : Orderly m s.tree
  cursor : ∃ own, s.tree.spanOf owner = some own ∧ own.touches s.cursor = true

/-- What a `descend` keeps that locates a node and the nodes below it, if the
pinned literals are clear that it comes to. -/
def Carries (m : M) (descend : Nat → Job M O Unit) (below : Nat → Tree M O → List (Turn M O)) :
    Prop :=
  ∀ (id : Nat) (t t' : Tree M O), Orderly m t → (∀ turn ∈ below id t, turn.IsClear) →
    descend id t = .ok () t' → Orderly m t' ∧ t.Steady t'

/-- The step for a literal. -/
theorem locateLiteral_carries {s s' : Survey M O} {frame : Frame} {text : Text}
    {place place' : LiteralPlace} (h : Surveying m owner s)
    (hturn : ∀ span, place.span? = some span → (Turn.mk s.tree owner span).IsClear)
    (hrun : locateLiteral s owner frame text place = .ok (place', s')) :
    Surveying m owner s' ∧ s.tree.Steady s'.tree := by
  obtain ⟨own, hown, hcursor⟩ := h.cursor
  rcases locateLiteral_cases hrun with ⟨_, _, rfl⟩ |
    ⟨span, t, u, before, behind, hspan, hmarked, haround, _, rfl⟩
  · exact ⟨h, .refl _⟩
  have ht : Orderly m t ∧ s.tree.Steady t ∧
      ∃ own', t.spanOf owner = some own' ∧ own'.contains span = true := by
    unfold literalSpan? at hspan
    cases hpinned : place.span? with
    | some pinned =>
      rw [hpinned] at hspan
      cases hspan
      obtain ⟨hsolid, hwithin, hfree⟩ := hturn span hpinned
      rw [hown, Option.any_some] at hwithin
      exact h.orderly.markPinned hown hwithin hsolid hfree hmarked
    | none =>
      simp only [hpinned] at hspan
      cases htext : text.isEmpty with
      | true =>
        rw [htext, if_pos rfl] at hspan
        cases hspan
      | false =>
        rw [htext, if_neg Bool.false_ne_true] at hspan
        exact h.orderly.markFound hown hcursor (List.isEmpty_eq_false_iff.1 htext) hspan hmarked
  obtain ⟨horderly, hsteady, own', hown', hcontains⟩ := ht
  obtain ⟨horderly', hsteady', hcovers⟩ := horderly.locateAround hown' hcontains haround
  exact ⟨⟨horderly', hcovers⟩, hsteady.trans hsteady'⟩

/-- The step for an item. -/
theorem locateItem_carries (hdescend : Carries m descend below) {object : O} {lead trail : Text}
    {s s' : Survey M O} {found : Option Nat} (h : Surveying m owner s)
    (hsettled : Settled m s.tree owner object)
    (hturns : ∀ turn ∈ objectTurns below m owner object s.tree, turn.IsClear)
    (hl : locateItem descend m owner object lead trail s = (found, s'))
    (hrun : found = none → s'.isRunning = true) :
    Surveying m owner s' ∧ s.tree.Steady s'.tree := by
  -- the tree after the visit of the node, which had been made before
  have hvisited : ∀ {id : Nat} {t u : Tree M O}, s.tree.getNode m owner object = .ok (id, t) →
      t.isLocated id = false → descend id t = .ok () u →
      Orderly m u ∧ s.tree.Steady u ∧
        ∃ own, u.spanOf owner = some own ∧ own.touches s.cursor = true := by
    intro id t u hget hfresh hdown
    obtain ⟨rfl, -⟩ := hsettled.getNode_eq hget
    unfold objectTurns at hturns
    simp only [hget, hfresh, Bool.false_eq_true, if_false] at hturns
    obtain ⟨hu, hsteady⟩ := hdescend id _ u h.orderly hturns hdown
    obtain ⟨own, hown, hcursor⟩ := h.cursor
    obtain ⟨own₁, hown₁, hgrown⟩ := hsteady.toExtends.spanOf hown
    exact ⟨hu, hsteady, own₁, hown₁, Span.touches_of_contains hgrown hcursor⟩
  cases locateItem_visit hl with
  | skipped => exact ⟨h, .refl _⟩
  | refused => cases hrun rfl
  | again hget =>
    obtain ⟨rfl, -⟩ := hsettled.getNode_eq hget
    exact ⟨h, .refl _⟩
  | failed => cases hrun rfl
  | unread hget hfresh hdown =>
    obtain ⟨hu, hsteady, hcursor⟩ := hvisited hget hfresh hdown
    exact ⟨⟨hu, hcursor⟩, hsteady⟩
  | blocked => cases hrun rfl
  | @found id t u v span before behind hget hfresh hdown hspan haround =>
    obtain ⟨hu, hsteady, own₁, hown₁, -⟩ := hvisited hget hfresh hdown
    obtain ⟨-, n, hn, hbelow⟩ := hsettled.getNode_eq hget
    -- the span of the item lies within that of its owner
    have hcontains : own₁.contains span = true := by
      obtain ⟨k, hk, hspan⟩ := spanOf_eq_some.1 hspan
      obtain ⟨l, hl, hownl⟩ := spanOf_eq_some.1 hown₁
      have hlineage := hsteady.ties.lineage id
      rw [h.orderly.wellFormed.lineage_child hn (below?_eq_some hbelow).1, lineage_eq hk,
        List.cons.injEq] at hlineage
      apply hu.wellFormed.nested hk hspan _ hl hownl
      rw [hlineage.2, lineage_eq hn]
      exact List.mem_cons_self
    obtain ⟨hv, hsteady', own₂, hown₂, hstop⟩ := hu.locateAround hown₁ hcontains haround
    obtain ⟨hw, hsteady''⟩ := hv.delimit id before behind
    obtain ⟨own₃, hown₃, hgrown⟩ := hsteady''.toExtends.spanOf hown₂
    exact ⟨⟨hw, own₃, hown₃, Span.touches_of_contains hgrown hstop⟩,
      (hsteady.trans hsteady').trans hsteady''⟩

/-- The step for a list. -/
theorem locateItems_carries (hdescend : Carries m descend below) {frame : Frame} {count : Nat}
    {objects : List O} {index : Nat} {list list' : ItemList M O} {extent extent' : Option Span}
    {s s' : Survey M O} (h : Surveying m owner s)
    (hsettled : ∀ object ∈ objects, Settled m s.tree owner object)
    (hturns : ∀ turn ∈ itemsTurns descend below m owner frame count index objects list s,
      turn.IsClear)
    (hl : locateItems descend m owner frame count index objects list extent s = (list', extent', s'))
    (hrun : s'.isRunning = true) : Surveying m owner s' ∧ s.tree.Steady s'.tree := by
  induction objects generalizing index list extent s with
  | nil =>
    cases hl
    exact ⟨h, .refl _⟩
  | cons object rest ih =>
    rw [locateItems] at hl
    rw [itemsTurns] at hturns
    by_cases hfound : (list.item? object).isSome = true
    · rw [if_pos hfound] at hl hturns
      exact ih h (fun o ho => hsettled o (List.mem_cons_of_mem _ ho)) hturns hl
    · rw [if_neg hfound] at hl hturns
      cases hpair : list.around frame index count with
      | mk lead trail =>
      rw [hpair] at hl hturns
      dsimp only at hl hturns
      rw [List.forall_mem_append] at hturns
      obtain ⟨hturn, hturns⟩ := hturns
      cases hitem : locateItem descend m owner object lead trail s with
      | mk found s₁ =>
      rw [hitem] at hl hturns
      have hstep : (found = none → s₁.isRunning = true) →
          Surveying m owner s₁ ∧ s.tree.Steady s₁.tree :=
        locateItem_carries hdescend h (hsettled object List.mem_cons_self) hturn hitem
      -- the rest of the list, once the first object is done
      have hrest : ∀ {list₁ : ItemList M O} {extent₁ : Option Span},
          Surveying m owner s₁ ∧ s.tree.Steady s₁.tree →
          (∀ turn ∈ itemsTurns descend below m owner frame count (index + 1) rest list₁ s₁,
            turn.IsClear) →
          locateItems descend m owner frame count (index + 1) rest list₁ extent₁ s₁ =
            (list', extent', s') → Surveying m owner s' ∧ s.tree.Steady s'.tree := by
        intro list₁ extent₁ hdone hturns hl
        obtain ⟨hs, hsteady⟩ := ih hdone.1
          (fun o ho => (hsettled o (List.mem_cons_of_mem _ ho)).steady h.orderly.wellFormed hdone.2)
          hturns hl
        exact ⟨hs, hdone.2.trans hsteady⟩
      cases found with
      | some id =>
        have hfound : some id = none → s₁.isRunning = true := fun h => by cases h
        exact hrest (hstep hfound) hturns hl
      | none =>
        cases hrunning : s₁.isRunning with
        | true =>
          simp only [hrunning, if_true] at hl hturns
          exact hrest (hstep fun _ => hrunning) hturns hl
        | false =>
          simp only [hrunning, Bool.false_eq_true, if_false] at hl
          cases hl
          rw [hrunning] at hrun
          cases hrun

mutual

/-- The step for a part. -/
theorem locatePart_carries (hdescend : Carries m descend below) :
    ∀ (p : Part M O) {p' : Part M O} {s s' : Survey M O}, Surveying m owner s →
      (∀ object ∈ p.selected m, Settled m s.tree owner object) →
      (∀ turn ∈ partTurns descend below m owner p s, turn.IsClear) →
      locatePart descend m owner p s = (p', s') → s'.isRunning = true →
      Surveying m owner s' ∧ s.tree.Steady s'.tree
  | .literal frame wording place, p', s, s', h, _, hturns, hl, hrun => by
    rw [locatePart] at hl
    cases hliteral : locateLiteral s owner frame (wording.text m) place with
    | error e =>
      rw [hliteral] at hl
      cases hl
      cases hrun
    | ok located =>
      obtain ⟨place', s₁⟩ := located
      rw [hliteral] at hl
      cases hl
      apply locateLiteral_carries h _ hliteral
      intro span hspan
      apply hturns
      rw [partTurns, hspan]
      exact List.mem_singleton.2 rfl
  | .slot frame supply listed, p', s, s', h, hsettled, hturns, hl, hrun => by
    rw [locatePart] at hl
    rw [partTurns] at hturns
    rw [Part.selected] at hsettled
    cases hsupply : supply m with
    | none =>
      rw [hsupply] at hl
      cases hl
      exact ⟨h, .refl _⟩
    | some object =>
      rw [hsupply] at hl hturns hsettled
      cases hitem : locateItem descend m owner object frame.leadText frame.trailText s with
      | mk found s₁ =>
      have hstep : (found = none → s₁.isRunning = true) →
          Surveying m owner s₁ ∧ s.tree.Steady s₁.tree :=
        locateItem_carries hdescend h (hsettled object (List.mem_singleton.2 rfl)) hturns hitem
      dsimp only at hl
      rw [hitem] at hl
      cases found with
      | some id =>
        cases hl
        have hfound : some id = none → s'.isRunning = true := fun h => by cases h
        exact hstep hfound
      | none =>
        cases hl
        exact hstep fun _ => hrun
  | .items frame list, p', s, s', h, hsettled, hturns, hl, hrun => by
    rw [locatePart_items] at hl
    rw [partTurns] at hturns
    rw [Part.selected] at hsettled
    cases hl
    exact locateItems_carries hdescend h hsettled hturns rfl hrun
  | .choice frame test yes no taken, p', s, s', h, hsettled, hturns, hl, hrun => by
    rw [partTurns.eq_def] at hturns
    rw [Part.selected.eq_def] at hsettled
    dsimp only at hturns hsettled
    cases htest : test m with
    | true =>
      rw [locatePart_yes htest] at hl
      simp only [htest, if_true] at hturns hsettled
      cases hl
      exact locatePart_carries hdescend yes h hsettled hturns rfl hrun
    | false =>
      simp only [htest, Bool.false_eq_true, if_false] at hturns hsettled
      cases no with
      | none =>
        rw [locatePart_neither htest] at hl
        cases hl
        exact ⟨h, .refl _⟩
      | some other =>
        rw [locatePart_no htest] at hl
        cases hl
        exact locatePart_carries hdescend other h hsettled hturns rfl hrun
  | .group frame members stale, p', s, s', h, hsettled, hturns, hl, hrun => by
    rw [locatePart_group] at hl
    rw [partTurns] at hturns
    rw [Part.selected] at hsettled
    cases hl
    exact locateParts_carries hdescend members h hsettled hturns rfl hrun
termination_by structural p => p

/-- The step for several parts. -/
theorem locateParts_carries (hdescend : Carries m descend below) :
    ∀ (parts : List (Part M O)) {parts' : List (Part M O)} {s s' : Survey M O},
      Surveying m owner s →
      (∀ object ∈ Part.selectedAll m parts, Settled m s.tree owner object) →
      (∀ turn ∈ partsTurns descend below m owner parts s, turn.IsClear) →
      locateParts descend m owner parts s = (parts', s') → s'.isRunning = true →
      Surveying m owner s' ∧ s.tree.Steady s'.tree
  | [], _, s, s', h, _, _, hl, _ => by
    rw [locateParts] at hl
    cases hl
    exact ⟨h, .refl _⟩
  | p :: rest, parts', s, s', h, hsettled, hturns, hl, hrun => by
    rw [locateParts_cons] at hl
    rw [partsTurns, List.forall_mem_append] at hturns
    rw [Part.selectedAll, List.forall_mem_append] at hsettled
    obtain ⟨hturn, hturns⟩ := hturns
    dsimp only at hl
    split at hl
    · next hrunning =>
      rw [if_pos hrunning] at hturns
      obtain ⟨hs, hsteady⟩ := locatePart_carries hdescend p h hsettled.1 hturn rfl hrunning
      cases hl
      obtain ⟨hs', hsteady'⟩ := locateParts_carries hdescend rest hs
        (fun o ho => (hsettled.2 o ho).steady h.orderly.wellFormed hsteady) hturns rfl hrun
      exact ⟨hs', hsteady.trans hsteady'⟩
    · next hstopped =>
      cases hl
      exact absurd hrun hstopped
termination_by structural parts => parts

end

end Parts

/-! ## Nodes -/

section Nodes

variable [DecidableEq O] {m : M}

/-- Locating a node keeps pieces apart, by induction on the depth. -/
theorem locateWithin_carries (m : M) :
    ∀ depth, Carries m (locateWithin m depth : Nat → Job M O Unit) (turnsWithin m depth)
  | 0, _, _, _, _, _, hrun => by cases hrun
  | depth + 1, id, t, t', h, hturns, hrun => by
    obtain ⟨n, hn, ⟨_, rfl⟩ | ⟨place, parts, s, hplace, hlocated, hparts, hfailure, rfl⟩⟩ :=
      locateWithin_eq_ok hrun
    · exact ⟨h, .refl _⟩
    · simp only [turnsWithin, hn, hplace, hlocated, Bool.false_eq_true, if_false] at hturns
      have hspan : t.spanOf id = some place.span := by
        rw [spanOf_eq hn, Node.span?, hplace, Option.map_some]
      have hstart : Surveying m id ⟨t, place.span.start, none⟩ :=
        ⟨h, place.span, hspan, Span.touches_start _⟩
      have hnot : n.isLocated = false := (Node.isLocated_of_place hplace).trans hlocated
      obtain ⟨hs, hsteady⟩ := locateParts_carries (locateWithin_carries m depth) n.parts hstart
        (h.full hn hnot) hturns hparts (by rw [Survey.isRunning, hfailure]; rfl)
      obtain ⟨own, hown, _⟩ := hs.cursor
      obtain ⟨hu, hsteady'⟩ := hs.orderly.settle hown parts s.cursor
      exact ⟨hu, hsteady.trans hsteady'⟩

/-- A tree is located whose spans are apart once it is planted, and whose
pinned literals are clear when their turns come.  Then no siblings overlap,
and no two marks intersect, whichever nodes own them. -/
theorem locate_apart {language : Language M O} {source : Text} {object : O} {t₀ t t' : Tree M O}
    (hroot : ofRoot language m source object = .ok t₀) (hplant : plant m root t₀ = .ok () t)
    (hspread : t.Spread) (hturns : ∀ turn ∈ turns m t, turn.IsClear)
    (hlocate : locate m t₀ = .ok () t') :
    t'.check = .ok () ∧ t'.marks.Pairwise fun a b => a.span.intersects b.span = false := by
  obtain ⟨hwell, hmarks, hfull⟩ := plant_full hroot hplant
  obtain ⟨t₁, t₂, hplant', hfrom, rfl⟩ := locate_eq_ok (new_of_ofRoot hroot).2.2 hlocate
  rw [hplant] at hplant'
  cases hplant'
  have hstart : Orderly m t := ⟨hwell, .of_spread hspread hmarks, fun {id n} hn _ => hfull id n hn⟩
  obtain ⟨hend, _⟩ := locateWithin_carries m _ root t t₂ hstart hturns hfrom
  have hcomplete : Apart { t₂ with complete := true } :=
    hend.apart.of_same (fun _ => rfl) (fun _ => rfl) rfl
  exact ⟨hcomplete.check_eq_ok (hend.wellFormed.toTied.of_sameTies fun _ => rfl), hend.apart.marks⟩

end Nodes

/-- Two words in parentheses.  The words are pinned; what is around them is
searched for, and there are gaps. -/
def pairOfWords : Language Unit Nat where
  layout _ object := some <|
    match object with
    | 0 =>
      { origin := some (.ok (.between ⟨1, 2⟩ ⟨1, 6⟩))
        parts := [(((Part.objects fun _ => [1, 2]).setLead [',']).setFirstLead ['(']).setLastTrail
          [')']] }
    | k + 1 =>
      { origin := some (.ok (.between ⟨1, 3 * k + 2⟩ ⟨1, 3 * k + 3⟩))
        parts := [(Part.constant ['x']).pinned (.between ⟨1, 3 * k + 2⟩ ⟨1, 3 * k + 3⟩)] }
  describe _ _ := ""
  size _ := 3

theorem locate_pairOfWords :
    ∃ t₀ t t', ofRoot pairOfWords () "( x, x )".toList 0 = .ok t₀ ∧ plant () root t₀ = .ok () t ∧
      t.Spread ∧ (∀ turn ∈ turns () t, turn.IsClear) ∧ locate () t₀ = .ok () t' ∧
        t'.check = .ok () ∧ t'.marks.Pairwise fun a b => a.span.intersects b.span = false := by
  have made : ∃ t₀, ofRoot pairOfWords () "( x, x )".toList 0 = .ok t₀ := ⟨_, rfl⟩
  obtain ⟨t₀, made⟩ := made
  have planted : ∃ t, plant () root t₀ = .ok () t := ⟨_, by cases made; rfl⟩
  obtain ⟨t, planted⟩ := planted
  have spread : t.Spread := by
    cases made
    cases planted
    decide +kernel
  have clear : ∀ turn ∈ turns () t, turn.IsClear := by
    cases made
    cases planted
    decide +kernel
  have located : ∃ t', locate () t₀ = .ok () t' := ⟨_, by cases made; rfl⟩
  obtain ⟨t', located⟩ := located
  exact ⟨t₀, t, t', made, planted, spread, clear, located,
    locate_apart made planted spread clear located⟩

end Reprint.Tree
