import Reprint.Proofs.Tree.Cases
import Reprint.Proofs.Tree.Restored
import Reprint.Proofs.Tree.Surveyed

/-!
# Locating keeps the parts surveyed

`Tree.Ready` is the invariant of the visit that locates a tree: the parts
of a node are new before the node is located, and surveyed from then on.

* `Ready.of_keeps` is the transfer to a tree that differs in marks, spans
  and new nodes only; `Ready.getNode` and `Ready.mark` are cases of it.
* `locateDelimiter_step`, `locateAround_step` and `locateLiteral_step` are the
  steps of the visit that record pieces of the source only.
-/

namespace Reprint.Tree

variable {M O : Type}

/-- The invariant of the visit that locates a tree. -/
structure Ready (m : M) (t : Tree M O) : Prop where
  sound : t.IsSound
  layouts : ∀ {m object layout}, t.language.layout m object = some layout →
    Part.AllNew layout.parts
  known : ∀ {id : Nat} {n : Node M O}, t.nodes[id]? = some n →
    ∃ m layout, t.language.layout m n.object = some layout
  fresh : ∀ {id : Nat} {n : Node M O}, t.nodes[id]? = some n → n.isLocated = false →
    Part.AllNew n.parts
  surveyed : ∀ {id : Nat} {n : Node M O}, t.nodes[id]? = some n → n.isLocated = true →
    Part.SurveyedAll m t id n.parts

/-- What locating something below a node does to the tree: the invariant
stays, and all nodes that are located now come later than the node. -/
structure Step (m : M) (owner : Nat) (t t' : Tree M O) : Prop where
  keeps : Keeps m t t'
  ready : Ready m t'
  later : ∀ x, t'.isLocated x = true → t.isLocated x = true ∨ owner < x

theorem Step.refl {m : M} {t : Tree M O} (owner : Nat) (h : Ready m t) : Step m owner t t :=
  ⟨.refl t, h, fun _ => Or.inl⟩

theorem Step.trans {m : M} {t u v : Tree M O} {owner : Nat} (htu : Step m owner t u)
    (huv : Step m owner u v) : Step m owner t v where
  keeps := htu.keeps.trans huv.keeps
  ready := huv.ready
  later x hx := by
    rcases huv.later x hx with hx | hx
    · exact htu.later x hx
    · exact Or.inr hx

/-- The invariant passes to a tree in which the nodes have the same parts
and are located as before, but for new nodes with new parts. -/
theorem Step.of_keeps {m : M} {t t' : Tree M O} (owner : Nat) (h : Ready m t)
    (keeps : Keeps m t t') (sound : t'.IsSound)
    (same : ∀ {id : Nat} {n' : Node M O}, t'.nodes[id]? = some n' →
      (∃ n, t.nodes[id]? = some n ∧ n'.object = n.object ∧ n'.parts = n.parts ∧
        n'.isLocated = n.isLocated) ∨
        n'.isLocated = false ∧ ∃ layout, t.language.layout m n'.object = some layout ∧
          n'.parts = layout.parts) : Step m owner t t' where
  keeps := keeps
  ready :=
    { sound := sound
      layouts := fun hl => h.layouts (keeps.language ▸ hl)
      known := fun hn' => by
        rw [keeps.language]
        rcases same hn' with ⟨n, hn, hobject, _⟩ | ⟨_, layout, hlayout, _⟩
        · rw [hobject]
          exact h.known hn
        · exact ⟨m, layout, hlayout⟩
      fresh := fun hn' hloc => by
        rcases same hn' with ⟨n, hn, _, hparts, hlocated⟩ | ⟨_, layout, hlayout, hparts⟩
        · rw [hparts]
          exact h.fresh hn (hlocated ▸ hloc)
        · rw [hparts]
          exact h.layouts hlayout
      surveyed := fun hn' hloc => by
        rcases same hn' with ⟨n, hn, _, hparts, hlocated⟩ | ⟨hnot, _⟩
        · rw [hparts]
          exact Part.SurveyedAll.keep (keeps.behind _) _ (h.surveyed hn (hlocated ▸ hloc))
        · rw [hnot] at hloc
          cases hloc }
  later x hx := by
    unfold isLocated at hx
    split at hx
    · next n' hn' =>
      rcases same hn' with ⟨n, hn, _, _, hlocated⟩ | ⟨hnot, _⟩
      · left
        rw [isLocated_eq hn, ← hlocated, hx]
      · rw [hnot] at hx
        cases hx
    · cases hx

theorem Step.mark {m : M} {t t' : Tree M O} (owner : Nat) {id : Nat} {role : Role} {span : Span}
    (h : Ready m t) (hmark : t.mark id role span = .ok t') : Step m owner t t' := by
  refine .of_keeps owner h (.mark hmark) (h.sound.mark hmark) fun {x n'} hn' => Or.inl ?_
  obtain ⟨n, hn, hkept, _⟩ := node_of_mark hmark hn'
  exact ⟨n, hn, hkept.object, hkept.parts, hkept.located⟩

/-- A change of a node that had not been located at the start of the visit. -/
theorem Keeps.change {m : M} {t u : Tree M O} {id : Nat} {n : Node M O} {g : Node M O → Node M O}
    (hid : t.isLocated id = false) (keeps : Keeps m t u) (hn : u.nodes[id]? = some n)
    (object : (g n).object = n.object) (children : (g n).children = n.children)
    (span : (g n).span? = n.span?) : Keeps m t (u.modify id g) := by
  have hself := getElem?_modify_self g hn
  refine ⟨keeps.source, keeps.settings, keeps.language, fun {x k} hk => ?_,
    fun {x k k' c} hk hk' hc => ?_⟩
  · obtain ⟨k', hk', hkept⟩ := keeps.node hk
    by_cases hx : id = x
    · subst hx
      rw [hn] at hk'
      cases hk'
      rw [isLocated_eq hk] at hid
      have hplace : (g n).place.isSome = n.place.isSome := by
        simpa [Node.span?] using congrArg Option.isSome span
      exact ⟨g n, hself, .of_not_located hid (object.trans hkept.object)
        (children ▸ hkept.children) (hplace.trans hkept.place)⟩
    · exact ⟨k', by rwa [getElem?_modify_of_ne _ _ hx], hkept⟩
  · have hold : ∃ j, u.nodes[x]? = some j ∧ c ∈ j.children := by
      rcases modify_cases hk' with ⟨j, rfl, hj, rfl⟩ | ⟨_, hk'⟩
      · rw [hn] at hj
        cases hj
        exact ⟨n, hn, children ▸ hc⟩
      · exact ⟨k', hk', hc⟩
    obtain ⟨j, hj, hc⟩ := hold
    rcases keeps.child hk hj hc with hc | ⟨i, hi, hmake⟩
    · exact Or.inl hc
    · right
      by_cases hx : id = c
      · subst hx
        rw [hn] at hi
        cases hi
        exact ⟨g n, hself, by rwa [object]⟩
      · exact ⟨i, by rwa [getElem?_modify_of_ne _ _ hx], hmake⟩

/-- A sound tree stays sound when a node keeps its children and its span. -/
theorem IsSound.change {u : Tree M O} {id : Nat} {n : Node M O} {g : Node M O → Node M O}
    (h : u.IsSound) (hn : u.nodes[id]? = some n) (children : (g n).children = n.children)
    (span : (g n).span? = n.span?) : (u.modify id g).IsSound := by
  refine ⟨fun {x k c} hk hc => ?_, fun {x k p} hk hp => ?_⟩
  · rw [size_modify]
    rcases modify_cases hk with ⟨j, rfl, hj, rfl⟩ | ⟨_, hk⟩
    · rw [hn] at hj
      cases hj
      exact h.child hn (children ▸ hc)
    · exact h.child hk hc
  · rw [source_modify]
    rcases modify_cases hk with ⟨j, rfl, hj, rfl⟩ | ⟨_, hk⟩
    · rw [hn] at hj
      cases hj
      have hspan : n.span? = some p.span := by rw [← span, Node.span?, hp, Option.map_some]
      obtain ⟨q, hq, hpq⟩ := Option.map_eq_some_iff.1 hspan
      rw [← hpq]
      exact h.valid hn hq
    · exact h.valid hk hp

/-- The invariant passes to a tree in which a node was changed that had not
been located at the start of the visit. -/
theorem Ready.change {m : M} {t u : Tree M O} {id : Nat} {n : Node M O} {g : Node M O → Node M O}
    (ready : Ready m t) (hid : t.isLocated id = false) (keeps : Keeps m t u) (hu : Ready m u)
    (hnew : ∀ x, u.isLocated x = true → t.isLocated x = true ∨ id ≤ x)
    (hn : u.nodes[id]? = some n) (object : (g n).object = n.object)
    (children : (g n).children = n.children) (span : (g n).span? = n.span?)
    (surveyed : (g n).isLocated = true → Part.SurveyedAll m u id (g n).parts)
    (fresh : (g n).isLocated = false → Part.AllNew (g n).parts) :
    Keeps m t (u.modify id g) ∧ Ready m (u.modify id g) := by
  have hkeeps : Keeps m t (u.modify id g) := keeps.change hid hn object children span
  have hbehind : ∀ {x : Nat}, id ≤ x → KeepsBehind x u (u.modify id g) := by
    intro x hx y c hy hc hlocated
    exact ⟨c, by rwa [getElem?_modify_of_ne _ _ (by omega)], rfl, hlocated, rfl, rfl⟩
  have hchanged : ∀ {j : Node M O}, u.nodes[id]? = some j → j = n := by
    intro j hj
    rw [hn] at hj
    cases hj
    rfl
  refine ⟨hkeeps, hu.sound.change hn children span, hu.layouts, fun {x k} hk => ?_,
    fun {x k} hk hlocated => ?_, fun {x k} hk hlocated => ?_⟩
  · rcases modify_cases hk with ⟨j, rfl, hj, rfl⟩ | ⟨_, hk⟩
    · cases hchanged hj
      rw [object]
      exact hu.known hn
    · exact hu.known hk
  · rcases modify_cases hk with ⟨j, rfl, hj, rfl⟩ | ⟨_, hk⟩
    · cases hchanged hj
      exact fresh hlocated
    · exact hu.fresh hk hlocated
  · rcases modify_cases hk with ⟨j, rfl, hj, rfl⟩ | ⟨_, hk⟩
    · cases hchanged hj
      exact Part.SurveyedAll.keep (hbehind (Nat.le_refl _)) _ (surveyed hlocated)
    · have hlocatedx : u.isLocated x = true := by rw [isLocated_eq hk, hlocated]
      rcases hnew x hlocatedx with hold | hle
      · -- A node that was located before lists nodes that were located
        -- before, and the changed one is not among them.
        obtain ⟨k₀, hk₀⟩ := exists_node_of_isLocated hold
        rw [isLocated_eq hk₀] at hold
        obtain ⟨k', hk', hkept⟩ := keeps.node hk₀
        rw [hk] at hk'
        cases hk'
        rw [hkept.parts hold]
        exact Part.SurveyedAll.keep (hkeeps.behind x) _ (ready.surveyed hk₀ hold)
      · exact Part.SurveyedAll.keep (hbehind hle) _ (hu.surveyed hk hlocated)

section AddNode

variable [DecidableEq O]

theorem Step.getNode {m : M} {t t' : Tree M O} (owner : Nat) {parent id : Nat} {object : O}
    (h : Ready m t) (hget : t.getNode m parent object = .ok (id, t')) : Step m owner t t' := by
  refine .of_keeps owner h (.getNode hget) (h.sound.getNode hget) fun {x n'} hn' => ?_
  rcases node_of_getNode hget hn' with ⟨n, hn, hkept, _⟩ | ⟨_, hmade⟩
  · exact Or.inl ⟨n, hn, hkept.object, hkept.parts, hkept.located⟩
  · obtain ⟨layout, _, hlayout, _, hparts⟩ := hmade.layout
    exact Or.inr ⟨hmade.located, layout, hlayout, hparts⟩

end AddNode

/-! ## Delimiters and literals -/

theorem locateDelimiter_step {m : M} {t t' : Tree M O} (owner : Nat) {id : Nat} {boundary : Position}
    {literal : Text} {role : Role} {d : Delimiter} (h : Ready m t)
    (hd : t.locateDelimiter id boundary literal role = .ok (d, t')) :
    Step m owner t t' ∧ d.literal = literal := by
  rcases locateDelimiter_cases hd with ⟨rfl, ⟨rfl, rfl⟩ | rfl⟩ | ⟨window, _, _, rfl, hmark⟩
  · exact ⟨.refl owner h, rfl⟩
  · exact ⟨.refl owner h, rfl⟩
  · exact ⟨.mark owner h hmark, rfl⟩

theorem locateAround_step {m : M} {t t' : Tree M O} (owner : Nat) {id : Nat} {span : Span}
    {lead trail : Text} {before behind : Delimiter} (h : Ready m t)
    (ha : t.locateAround id span lead trail = .ok (before, behind, t')) :
    Step m owner t t' ∧ before.literal = lead ∧ behind.literal = trail := by
  obtain ⟨u, hbefore, hbehind⟩ := locateAround_cases ha
  obtain ⟨hstep, hlead⟩ := locateDelimiter_step owner h hbefore
  obtain ⟨hstep', htrail⟩ := locateDelimiter_step owner hstep.ready hbehind
  exact ⟨hstep.trans hstep', hlead, htrail⟩

theorem locateLiteral_step {m : M} {s s' : Survey M O} {owner : Nat} {frame : Frame}
    {text : Text} {place place' : LiteralPlace} (h : Ready m s.tree)
    (hl : locateLiteral s owner frame text place = .ok (place', s')) :
    Step m owner s.tree s'.tree ∧ s'.failure = s.failure := by
  rcases locateLiteral_cases hl with ⟨_, _, rfl⟩ | ⟨span, t, u, before, behind, _, hmarked, haround, _, rfl⟩
  · exact ⟨.refl owner h, rfl⟩
  · have hstep : Step m owner s.tree t := by
      rcases markLiteral_cases hmarked with rfl | hmark
      · exact .refl owner h
      · exact .mark owner h hmark
    exact ⟨hstep.trans (locateAround_step owner hstep.ready haround).1, rfl⟩

end Reprint.Tree
