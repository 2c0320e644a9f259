import Reprint.Proofs.Tree.Keeping
import Reprint.Proofs.Tree.Visit

/-!
# Trees before they are located

A tree is prepared when it was made for a root and has since been
planted, printed and edited, but never located (`Tree.Prepared`).  No node
of such a tree is located and nothing has been found of its parts
(`Prepared.unsearched`), because printing only adds nodes and moves positions
(`Unsearched.prints`).

`Unsearched.locate` is the result of the visit: locating such a tree makes
its parts surveyed, and locates its root if that was read from the source.
-/

namespace Reprint.Tree

variable {M O : Type}

/-! ## Printing one node -/

section PrintWithin

variable [DecidableEq O] {m : M} {depth id : Nat} {margin : Margin} {t : Tree M O}
  {n : Node M O}

/-- A node that is not located has its normal text. -/
theorem printWithin_of_normal (hn : t.nodes[id]? = some n) (hnone : n.located? = none) :
    printWithin m (depth + 1) id margin t =
      normalNode (printWithin m depth) m id margin t := by
  simp only [printWithin, node_eq_ok.2 hn, hnone]

/-- A node that is located has the text of its patch. -/
theorem printWithin_of_located {place : Place} (hn : t.nodes[id]? = some n)
    (hplace : n.located? = some place) :
    printWithin m (depth + 1) id margin t =
      match patchOf (printWithin m depth) m id n.parts place t with
      | .error e t => .error e t
      | .ok patch t =>
        match patch.text with
        | .ok text => .ok text t
        | .error e => .error (.source e) t := by
  have hnode := node_eq_ok.2 hn
  cases hpatch : patchOf (printWithin m depth) m id n.parts place t with
  | error e t' => simp only [printWithin, hnode, hplace, hpatch]
  | ok patch t' =>
    cases htext : patch.text with
    | ok text => simp only [printWithin, hnode, hplace, hpatch, htext]
    | error e => simp only [printWithin, hnode, hplace, hpatch, htext]

end PrintWithin

/-! ## Renders -/

/-- The trees that renders of the same model lead to. -/
inductive Rendered [DecidableEq O] (m : M) (t : Tree M O) : Tree M O → Prop
  | refl : Rendered m t t
  | root {u : Tree M O} (tree : Rendered m t u) : Rendered m t ((printRoot m).after u)
  | source {u : Tree M O} (tree : Rendered m t u) : Rendered m t ((printSource m).after u)
  | mapped {u : Tree M O} (tree : Rendered m t u) (file : Text) :
      Rendered m t ((printMapped m file).after u)

/-- Printing the root with the source around it changes the tree in the same
way as printing the root alone. -/
theorem after_printSource [DecidableEq O] (m : M) (t : Tree M O) :
    (printSource m).after t = (printRoot m).after t := by
  unfold Job.after printSource
  simp only [bind, EStateM.bind]
  cases printRoot m t with
  | error e u => rfl
  | ok text u =>
    simp only [Job.get_eq]
    cases u.node root with
    | error e => rfl
    | ok n =>
      dsimp only
      cases n.located? with
      | none => rfl
      | some place =>
        dsimp only
        cases u.source.extract ⟨u.source.start, place.span.start⟩ <;>
          cases u.source.extract ⟨place.span.stop, u.source.stop⟩ <;> rfl

/-! ## Trees in which nothing was searched for -/

/-- A tree of a language and a source of which no node is located and
nothing has been found of the parts. -/
structure Unsearched (l : Language M O) (s : Source) (t : Tree M O) : Prop where
  language : t.language = l
  source : t.source = s
  sound : t.IsSound
  layouts : ∀ {m object layout}, t.language.layout m object = some layout →
    Part.AllNew layout.parts
  known : ∀ {id : Nat} {n : Node M O}, t.nodes[id]? = some n →
    ∃ m layout, t.language.layout m n.object = some layout
  node : ∀ {id : Nat} {n : Node M O}, t.nodes[id]? = some n →
    n.isLocated = false ∧ Part.AllNew n.parts
  incomplete : t.complete = false

namespace Unsearched

variable {l : Language M O} {s : Source}

theorem ready {t : Tree M O} (h : Unsearched l s t) (m : M) : Ready m t where
  sound := h.sound
  layouts := h.layouts
  known := h.known
  fresh hn _ := (h.node hn).2
  surveyed hn hlocated := by
    rw [(h.node hn).1] at hlocated
    cases hlocated

/-- A step that locates no node keeps the tree unsearched. -/
theorem of_ready {m : M} {t : Tree M O} (hlanguage : t.language = l) (hsource : t.source = s)
    (h : Ready m t) (hnone : ∀ x, t.isLocated x = false)
    (hincomplete : t.complete = false) : Unsearched l s t where
  language := hlanguage
  source := hsource
  sound := h.sound
  layouts := h.layouts
  known := h.known
  node {id n} hn := by
    have hlocated := hnone id
    rw [isLocated_eq hn] at hlocated
    exact ⟨hlocated, h.fresh hn hlocated⟩
  incomplete := hincomplete

/-- A new tree. -/
theorem ofRoot {language : Language M O} {m : M} {source : Text} {object : O} {t : Tree M O}
    (layouts : ∀ {m object layout}, language.layout m object = some layout →
      Part.AllNew layout.parts)
    (h : Tree.ofRoot language m source object = .ok t) :
    Unsearched language (.ofText source) t := by
  obtain ⟨layout, place, hlayout, hplace, rfl, hnode⟩ := node_of_ofRoot h
  refine ⟨rfl, rfl, ⟨fun hn hc => ?_, fun hn hp => ?_⟩, layouts, fun hn => ?_, fun hn => ?_, rfl⟩
  · rw [hnode hn] at hc
    cases hc
  · rw [hnode hn] at hp
    dsimp only at hp
    subst hp
    exact (placeOf_eq_ok hplace).1
  · rw [hnode hn]
    exact ⟨m, layout, hlayout⟩
  · rw [hnode hn]
    refine ⟨?_, layouts hlayout⟩
    cases place with
    | none => rfl
    | some p =>
      rw [(placeOf_eq_ok hplace).2]
      rfl

/-- Other settings change nothing. -/
theorem settings {t : Tree M O} (h : Unsearched l s t) (settings : Settings) :
    Unsearched l s { t with settings := settings } :=
  ⟨h.language, h.source, ⟨h.sound.child, h.sound.valid⟩, h.layouts, h.known, h.node, h.incomplete⟩

/-- Parts may be changed as long as nothing is found of them. -/
theorem editParts {t t' : Tree M O} {id : Nat}
    {change : List (Part M O) → Except Error (List (Part M O))} (h : Unsearched l s t)
    (hchange : ∀ {parts parts'}, Part.AllNew parts → change parts = .ok parts' →
      Part.AllNew parts')
    (ht : t.editParts id change = .ok t') : Unsearched l s t' := by
  obtain ⟨n, parts, hn, hparts, rfl⟩ := editParts_eq_ok ht
  have hnode : ∀ {x : Nat} {k : Node M O},
      (t.modify id fun n => { n with parts := parts }).nodes[x]? = some k →
      ∃ j, t.nodes[x]? = some j ∧ k.object = j.object ∧ k.children = j.children ∧
        k.place = j.place ∧ (k.parts = j.parts ∨ k.parts = parts) := by
    intro x k hk
    rcases modify_cases hk with ⟨j, _, hj, rfl⟩ | ⟨_, hk⟩
    · exact ⟨j, hj, rfl, rfl, rfl, Or.inr rfl⟩
    · exact ⟨k, hk, rfl, rfl, rfl, Or.inl rfl⟩
  refine ⟨h.language, h.source, ⟨fun hk hc => ?_, fun hk hp => ?_⟩, h.layouts, fun hk => ?_,
    fun hk => ?_, h.incomplete⟩
  · obtain ⟨j, hj, _, hchildren, _⟩ := hnode hk
    rw [size_modify]
    exact h.sound.child hj (hchildren ▸ hc)
  · obtain ⟨j, hj, _, _, hplace, _⟩ := hnode hk
    exact h.sound.valid hj (hplace ▸ hp)
  · obtain ⟨j, hj, hobject, _⟩ := hnode hk
    rw [hobject]
    exact h.known hj
  · obtain ⟨j, hj, _, _, hplace, hcase⟩ := hnode hk
    constructor
    · rw [Node.isLocated, Node.located?, hplace]
      exact (h.node hj).1
    · rcases hcase with heq | heq <;> rw [heq]
      · exact (h.node hj).2
      · exact hchange (h.node hn).2 hparts

section Growth

variable [DecidableEq O]

theorem getNode {m : M} {t t' : Tree M O} {parent id : Nat} {object : O} (h : Unsearched l s t)
    (hget : t.getNode m parent object = .ok (id, t')) : Unsearched l s t' := by
  have hstep : Step m parent t t' := .getNode parent (h.ready m) hget
  have hrestored := Restored.getNode hget
  refine of_ready (hrestored.language.trans h.language) (hrestored.source.trans h.source) hstep.ready
    (fun x => ?_) (hrestored.complete.trans h.incomplete)
  by_contra hlocated
  obtain ⟨n', hn'⟩ := exists_node_of_isLocated (Bool.eq_true_of_not_eq_false hlocated)
  rw [isLocated_eq hn'] at hlocated
  rcases node_of_getNode hget hn' with ⟨n, hn, hkept, _⟩ | ⟨_, hmade⟩
  · exact hlocated (hkept.located.trans (h.node hn).1)
  · exact hlocated hmade.located

/-- A tree without located nodes is printed from its model alone, which adds
nodes and moves positions only. -/
theorem prints (m : M) : Prints m (Unsearched l s) where
  getNode ht hget := ht.getNode hget
  insertion {t} id q h := by
    have hnode : ∀ {x : Nat} {k : Node M O},
        (t.modify id fun n => n.mapPlace fun p => { p with insertion := q }).nodes[x]? = some k →
        ∃ j, t.nodes[x]? = some j ∧ k.object = j.object ∧ k.children = j.children ∧
          k.parts = j.parts ∧ k.isLocated = j.isLocated ∧
          ∀ p, k.place = some p → ∃ p', j.place = some p' ∧ p'.span = p.span := by
      intro x k hk
      rcases modify_cases hk with ⟨j, _, hj, rfl⟩ | ⟨_, hk⟩
      · refine ⟨j, hj, rfl, rfl, rfl, j.isLocated_mapPlace fun _ => rfl, fun p hp => ?_⟩
        obtain ⟨p', hp', rfl⟩ := Option.map_eq_some_iff.1 hp
        exact ⟨p', hp', rfl⟩
      · exact ⟨k, hk, rfl, rfl, rfl, rfl, fun p hp => ⟨p, hp, rfl⟩⟩
    refine ⟨h.language, h.source, ⟨fun hk hc => ?_, fun hk hp => ?_⟩, h.layouts, fun hk => ?_,
      fun hk => ?_, h.incomplete⟩
    · obtain ⟨j, hj, _, hchildren, _⟩ := hnode hk
      rw [size_modify]
      exact h.sound.child hj (hchildren ▸ hc)
    · obtain ⟨j, hj, _, _, _, _, hplace⟩ := hnode hk
      obtain ⟨p', hp', hspan⟩ := hplace _ hp
      rw [← hspan]
      exact h.sound.valid hj hp'
    · obtain ⟨j, hj, hobject, _⟩ := hnode hk
      rw [hobject]
      exact h.known hj
    · obtain ⟨j, hj, _, _, hparts, hlocated, _⟩ := hnode hk
      rw [hparts, hlocated]
      exact h.node hj

end Growth

end Unsearched

/-- A tree that was made for a root and has not been located since. -/
inductive Prepared [DecidableEq O] (language : Language M O) (source : Text) : Tree M O → Prop
  | root {m : M} {object : O} {t : Tree M O} (made : ofRoot language m source object = .ok t) :
      Prepared language source t
  | settings {t : Tree M O} (tree : Prepared language source t) (settings : Settings) :
      Prepared language source { t with settings := settings }
  /-- A change of parts that lets nothing be found of them. -/
  | edit {t t' : Tree M O} {id : Nat}
      {change : List (Part M O) → Except Error (List (Part M O))}
      (tree : Prepared language source t)
      (new : ∀ {parts parts'}, Part.AllNew parts → change parts = .ok parts' →
        Part.AllNew parts')
      (edited : t.editParts id change = .ok t') : Prepared language source t'
  | plant {t : Tree M O} (tree : Prepared language source t) (m : M) (id : Nat) :
      Prepared language source ((Tree.plant m id).after t)
  | print {t : Tree M O} (tree : Prepared language source t) (m : M) (id : Nat)
      (margin : Margin) : Prepared language source ((Tree.print m id margin).after t)
  | printSource {t : Tree M O} (tree : Prepared language source t) (m : M) :
      Prepared language source ((Tree.printSource m).after t)
  | printMapped {t : Tree M O} (tree : Prepared language source t) (m : M) (file : Text) :
      Prepared language source ((Tree.printMapped m file).after t)

theorem Prepared.unsearched [DecidableEq O] {language : Language M O} {source : Text}
    (layouts : ∀ {m object layout}, language.layout m object = some layout →
      Part.AllNew layout.parts) {t : Tree M O} (h : Prepared language source t) :
    Unsearched language (.ofText source) t := by
  induction h with
  | root made => exact .ofRoot layouts made
  | settings _ settings ih => exact ih.settings settings
  | edit _ new edited ih => exact ih.editParts new edited
  | plant _ m id ih => exact (Unsearched.prints m).plant id _ ih
  | print _ m id margin ih => exact (Unsearched.prints m).print id margin _ ih
  | printSource _ m ih => exact (Unsearched.prints m).printSource _ ih
  | printMapped _ m file ih => exact (Unsearched.prints m).printMapped file _ ih

/-! ## The result of the visit -/

section Locate

variable [DecidableEq O] {l : Language M O} {s : Source} {m : M} {t t' : Tree M O}

/-- The first locating plants the tree and then locates the root. -/
theorem locate_of_incomplete (hincomplete : t.complete = false) :
    locate m t = match plant m root t with
      | .error e t => .error e t
      | .ok _ t =>
        match locateFrom m root t with
        | .error e t => .error e t
        | .ok _ t => .ok () { t with complete := true } := by
  unfold locate
  simp only [bind, EStateM.bind, Job.get_eq, hincomplete,
    Bool.false_eq_true, if_false]
  cases plant m root t with
  | error e t₁ => rfl
  | ok u t₁ =>
    dsimp only
    cases locateFrom m root t₁ <;> rfl

theorem locate_eq_ok (hincomplete : t.complete = false) (h : locate m t = .ok () t') :
    ∃ t₁ t₂, plant m root t = .ok () t₁ ∧ locateFrom m root t₁ = .ok () t₂ ∧
      t' = { t₂ with complete := true } := by
  rw [locate_of_incomplete hincomplete] at h
  split at h
  · cases h
  next t₁ hplant =>
  split at h
  · cases h
  next t₂ hfrom =>
  cases h
  exact ⟨t₁, t₂, hplant, hfrom, rfl⟩

/-- Locating a tree for the first time makes its parts surveyed.  The root
is located if it was read from the source. -/
theorem Unsearched.locate (h : Unsearched l s t) (hlocate : Tree.locate m t = .ok () t') :
    Ready m t' ∧ t'.language = l ∧ t'.source = s ∧ ∃ n, t'.nodes[root]? = some n ∧
      (n.place.isSome = true → n.isLocated = true) := by
  obtain ⟨t₁, t₂, hplant, hfrom, rfl⟩ := locate_eq_ok h.incomplete hlocate
  have h₁ : Unsearched l s t₁ := ((Unsearched.prints m).plant root).of_ok h hplant
  obtain ⟨hkeeps, hready, _, hself⟩ := locateWithin_descends m _ root t₁ t₂ hfrom (h₁.ready m)
  refine ⟨⟨⟨hready.sound.child, hready.sound.valid⟩, hready.layouts, hready.known, hready.fresh,
    fun hn hlocated => ?_⟩, hkeeps.language.trans h₁.language, hkeeps.source.trans h₁.source,
    ?_⟩
  · have hsurveyed := hready.surveyed hn hlocated
    have hsame : ∀ x, KeepsBehind x t₂ { t₂ with complete := true } :=
      fun _ _ c _ hc hl => ⟨c, hc, rfl, hl, rfl, rfl⟩
    exact Part.SurveyedAll.keep (hsame _) _ hsurveyed
  · obtain ⟨k, hk, _⟩ := locateWithin_eq_ok hfrom
    obtain ⟨n, hn, hkept⟩ := hkeeps.node hk
    refine ⟨n, hn, fun hplace => ?_⟩
    rw [← isLocated_eq hn]
    exact hself hk (hkept.place ▸ hplace)

end Locate

end Reprint.Tree
