import Reprint.Proofs.Tree.Encased
import Reprint.Proofs.Tree.Sprouted

/-!
# Normal text some levels deeper

The normal text of a node is made at level zero and then moved in as a whole.  So a
margin that is some levels deeper makes the same text, moved in by these levels once
more (`normalNode_nest`), whatever is below the node.

That compares two margins in one tree.  Printing makes the nodes that it needs, so the
second of two calls finds another tree than the first one.  As long as nothing is
located this makes no difference (`outcome_within_nest_after`).
-/

namespace Reprint

variable {M O : Type}

namespace Tree

/-- Making something of a result. -/
theorem Job.outcome_map {α β : Type} (f : α → β) (job : Job M O α) (t : Tree M O) :
    Job.outcome (f <$> job) t = (job.outcome t).map f := by
  rw [map_eq_pure_bind, Job.outcome_bind_pure]

/-- What is made of a result depends on the operation in the present tree only. -/
theorem Job.map_congr {α β : Type} (f : α → β) {job job' : Job M O α} {t : Tree M O}
    (h : job t = job' t) : (f <$> job) t = (f <$> job') t := by
  rw [map_eq_pure_bind, map_eq_pure_bind]
  change EStateM.bind job _ t = EStateM.bind job' _ t
  unfold EStateM.bind
  rw [h]

variable [DecidableEq O]

section Levels

variable {margin : Margin} {m : M} {id : Nat}

/-- The parts of a node are printed with the unit of its margin, but without its
levels. -/
theorem normalNode_nest {print : Nat → Margin → Job M O Text} (hunit : '\n' ∉ margin.unit)
    (n : Nat) : normalNode print m id (margin.within (.nest n)) =
      (margin.flush.within (.nest n)).apply <$> normalNode print m id margin := by
  unfold normalNode
  rw [map_bind]
  congr 1
  funext t
  cases t.node id with
  | error e => rfl
  | ok k =>
    simp only [Margin.apply_within_nest hunit, map_bind, map_pure]
    rfl

/-- The bound on the depth does not depend on the margin. -/
theorem printNormal_within_nest (hunit : '\n' ∉ margin.unit) (n : Nat) :
    (printNormal m id (margin.within (.nest n)) : Job M O Text) =
      (margin.flush.within (.nest n)).apply <$> printNormal m id margin := by
  funext t
  change normalNode (printWithin m (t.depthBound m)) m id (margin.within (.nest n)) t = _
  rw [normalNode_nest hunit]
  exact Job.map_congr _ rfl

/-- One call after the other, as long as nothing is located: the nodes that the first
one made are those that the second one would have made. -/
theorem outcome_within_nest_after {t : Tree M O} (hunit : '\n' ∉ margin.unit) (n : Nat)
    (hsound : t.IsSound) (hnone : ∀ k ∈ t.nodes, k.isLocated = false)
    (hdeep : (printNormal m id margin).outcome t ≠ .error .cyclicModel) :
    (printNormal m id (margin.within (.nest n))).outcome ((printNormal m id margin).after t) =
      ((printNormal m id margin).outcome t).map (margin.flush.within (.nest n)).apply := by
  have hsame : (printNormal m id margin).outcome ((printNormal m id margin).after t) =
      (printNormal m id margin).outcome t := by
    rcases Nat.lt_or_ge id t.nodes.size with hid | hid
    · have hself : Sprouted m t t := .refl fun hn => hnone _ (Array.mem_of_getElem? hn)
      have hafter := (Sprouted.prints m t).printNormal id margin t hself
      exact (hafter.printNormal_alike hself hsound hid margin).resolve_left hdeep
    · -- without a node nothing is printed and nothing changes
      have hnode : t.node id = .error (.unknownNode id) := by
        rw [node, Array.getElem?_eq_none hid]
      have hrun : printNormal m id margin t = .error (.unknownNode id) t := by
        simp only [printNormal, normalNode, bind, EStateM.bind, Job.get_eq, hnode]
        rfl
      rw [Job.after, hrun]
  rw [printNormal_within_nest hunit, Job.outcome_map, hsame]

/-- Levels add up.  Moving a text in by some levels and then by others moves it in by
all of them, and keeps the number of its lines.  So the normal text of a node some
levels deeper is its normal text moved in by these levels: in one and the same tree,
with the same failures and the same nodes made, and also if the one is printed after
the other in a tree of which nothing was located, unless nodes are nested too deep. -/
theorem printNormal_nest {unit : Text} (hunit : '\n' ∉ unit) :
    (∀ (a b : Nat) (text : Text),
      (Margin.mk a unit).apply ((Margin.mk b unit).apply text) =
        (Margin.mk (a + b) unit).apply text ∧
      ((Margin.mk a unit).apply text).lines.length = text.lines.length) ∧
    ∀ (m : M) (t : Tree M O) (id level n : Nat),
      let margin := Margin.mk level unit
      let moved := (margin.flush.within (.nest n)).apply
      printNormal m id (margin.within (.nest n)) t = (moved <$> printNormal m id margin) t ∧
      (t.IsSound → (∀ k ∈ t.nodes, k.isLocated = false) →
        (printNormal m id margin).outcome t ≠ .error .cyclicModel →
        (printNormal m id (margin.within (.nest n))).outcome ((printNormal m id margin).after t) =
          ((printNormal m id margin).outcome t).map moved) := by
  refine ⟨fun a b text => ⟨?_, Margin.length_lines_apply hunit a text⟩,
    fun m t id level n => ⟨?_, outcome_within_nest_after hunit n⟩⟩
  · rw [Margin.apply_apply hunit, Nat.add_comm]
  · rw [printNormal_within_nest hunit]

end Levels

/-- A box two levels deeper, in the tree that printing it before has left. -/
theorem printNormal_nest_boxes :
    '\n' ∉ ['\t'] ∧ ∃ t u : Tree Unit Nat, ofModel (boxes 1) () 1 = .ok t ∧ t.IsSound ∧
      (∀ k ∈ t.nodes, k.isLocated = false) ∧
      printNormal () root ⟨1, ['\t']⟩ t =
        .ok ['\t', '(', '\n', '\t', '\t', 'x', '\n', '\t', ')'] u ∧
      (printNormal () root ((Margin.mk 1 ['\t']).within (.nest 2))).outcome u =
        .ok ['\t', '\t', '\t', '(', '\n', '\t', '\t', '\t', '\t', 'x', '\n', '\t', '\t',
          '\t', ')'] := by
  have hunit : '\n' ∉ ['\t'] := by decide
  have hprinted : (ofModel (boxes 1) () 1).toOption.bind
      (printNormal () root ⟨1, ['\t']⟩).result? =
        some ['\t', '(', '\n', '\t', '\t', 'x', '\n', '\t', ')'] := by
    decide +kernel
  obtain ⟨t, hmade⟩ : ∃ t, ofModel (boxes 1) () 1 = .ok t := ⟨_, rfl⟩
  rw [hmade] at hprinted
  obtain ⟨u, hrun⟩ := Job.result?_eq_some hprinted
  have hsound : t.IsSound := (wellFormed_ofRoot hmade).isSound
  have hnone : ∀ k ∈ t.nodes, k.isLocated = false := by
    obtain ⟨layout, place, hlayout, hplace, -, hnode⟩ := node_of_ofRoot hmade
    intro k hk
    obtain ⟨x, hx⟩ := Array.getElem?_of_mem hk
    rw [hnode hx]
    cases place with
    | none => rfl
    | some p => rw [Node.isLocated, Node.located?, (placeOf_eq_ok hplace).2]; rfl
  have houtcome := Job.outcome_ok hrun
  have hafter := ((printNormal_nest hunit).2 () t root 1 2).2 hsound hnone (by simp [houtcome])
  rw [houtcome, Job.after_of_ok hrun] at hafter
  refine ⟨hunit, t, u, hmade, hsound, hnone, hrun, hafter.trans ?_⟩
  decide

end Tree

end Reprint
