import Reprint.Proofs.Tree.Ready

/-!
# Settled parts

A part is settled when the source has all that the model needs for it
(`Part.Settled`): a literal is in the source with its wording, or renders
to nothing; an object is the one that was found, with no delimiter
missing, or the language has no layout for it.

`Tree.Visited` are the nodes that printing goes through, from a node to
those that were found in the parts that are selected (`Part.Finds`).
-/

namespace Reprint

open Reprint.Tree

variable {M O : Type}

/-- The language has no layout for the object, whatever the model. -/
def Language.IsForeign (l : Language M O) (object : O) : Prop := ∀ m, l.layout m object = none

/-- There was nothing to look for, or it was found. -/
def Delimiter.IsResolved : Delimiter → Prop
  | missing _ => False
  | _ => True

/-- Nothing has to be inserted for it then. -/
theorem Delimiter.IsResolved.toInsert_eq_nil {d : Delimiter} (h : d.IsResolved) :
    d.toInsert = [] := by
  cases d with
  | empty => rfl
  | present => rfl
  | missing => exact absurd h id

/-! ## Settled parts -/

/-- The object is what was found at a node, and no delimiter is missing. -/
def Tree.IsFound (t : Tree M O) (id : Nat) (object : O) : Prop :=
  ∃ c, t.nodes[id]? = some c ∧ c.object = object ∧ c.before.IsResolved ∧ c.behind.IsResolved

namespace Part

mutual

/-- The part, as it is selected now, was found to hold a node. -/
def Finds (m : M) (id : Nat) : Part M O → Prop
  | .literal .. => False
  | .slot _ _ listed => listed = some id
  | .items _ list => ∃ item ∈ list.listed, item.node = id
  | .choice _ test yes no _ =>
    if test m then Finds m id yes
    else
      match no with
      | none => False
      | some other => Finds m id other
  | .group _ members _ => FindsAny m id members
termination_by structural p => p

/-- One of the parts was found to hold a node. -/
def FindsAny (m : M) (id : Nat) : List (Part M O) → Prop
  | [] => False
  | p :: rest => Finds m id p ∨ FindsAny m id rest
termination_by structural parts => parts

end

mutual

/-- What a surveyed part finds is located and comes later than its owner. -/
theorem Surveyed.of_finds {m : M} {t : Tree M O} {owner id : Nat} : ∀ p : Part M O,
    p.Surveyed m t owner → p.Finds m id → owner < id ∧ t.isLocated id = true
  | .literal .., _, hfinds => hfinds.elim
  | .slot _ supply listed, hsurveyed, hfinds => by
    simp only [Surveyed] at hsurveyed
    simp only [Finds] at hfinds
    obtain ⟨hlt, c, hc, hlocated, _⟩ := hsurveyed id hfinds
    exact ⟨hlt, by rw [isLocated_eq hc, hlocated]⟩
  | .items _ list, hsurveyed, hfinds => by
    simp only [Surveyed] at hsurveyed
    simp only [Finds] at hfinds
    obtain ⟨item, hitem, rfl⟩ := hfinds
    obtain ⟨hlt, c, hc, _, hlocated⟩ := hsurveyed.mem_later item hitem
    exact ⟨hlt, by rw [isLocated_eq hc, hlocated]⟩
  | .choice _ test yes none taken, hsurveyed, hfinds => by
    simp only [Surveyed] at hsurveyed
    simp only [Finds] at hfinds
    by_cases htest : test m = true
    · simp only [if_pos htest] at hsurveyed hfinds
      exact Surveyed.of_finds yes hsurveyed.2 hfinds
    · rw [if_neg htest] at hfinds
      exact hfinds.elim
  | .choice _ test yes (some other) taken, hsurveyed, hfinds => by
    simp only [Surveyed] at hsurveyed
    simp only [Finds] at hfinds
    by_cases htest : test m = true
    · simp only [if_pos htest] at hsurveyed hfinds
      exact Surveyed.of_finds yes hsurveyed.2 hfinds
    · simp only [if_neg htest] at hsurveyed hfinds
      exact Surveyed.of_finds other hsurveyed.2 hfinds
  | .group _ members _, hsurveyed, hfinds => by
    simp only [Surveyed] at hsurveyed
    simp only [Finds] at hfinds
    exact SurveyedAll.of_finds members hsurveyed hfinds
termination_by structural p => p

theorem SurveyedAll.of_finds {m : M} {t : Tree M O} {owner id : Nat} : ∀ parts : List (Part M O),
    SurveyedAll m t owner parts → FindsAny m id parts →
    owner < id ∧ t.isLocated id = true
  | [], _, hfinds => hfinds.elim
  | p :: rest, hsurveyed, hfinds => by
    simp only [SurveyedAll] at hsurveyed
    simp only [FindsAny] at hfinds
    rcases hfinds with hfinds | hfinds
    · exact Surveyed.of_finds p hsurveyed.1 hfinds
    · exact SurveyedAll.of_finds rest hsurveyed.2 hfinds
termination_by structural parts => parts

end

variable [DecidableEq O]

mutual

/-- The source has all that the model needs for the part. -/
def Settled (m : M) (t : Tree M O) : Part M O → Prop
  | .literal frame wording place =>
    match place.span? with
    | some span => t.source.extract span.toBounds = .ok (wording.text m) ∧
        place.before.IsResolved ∧ place.behind.IsResolved
    | none => frame.wrap t.settings.margin (wording.text m) = []
  | .slot _ supply listed =>
    ∀ object, supply m = some object → t.language.IsForeign object ∨
      ∃ id, listed = some id ∧ t.IsFound id object
  | .items _ list =>
    ∀ object ∈ list.supply m, t.language.IsForeign object ∨
      ∃ item, list.item? object = some item ∧ t.IsFound item.node object
  | .choice _ test yes no _ =>
    if test m then Settled m t yes
    else
      match no with
      | none => True
      | some other => Settled m t other
  | .group _ members _ => SettledAll m t members
termination_by structural p => p

/-- The source has all that the model needs for the parts. -/
def SettledAll (m : M) (t : Tree M O) : List (Part M O) → Prop
  | [] => True
  | p :: rest => Settled m t p ∧ SettledAll m t rest
termination_by structural parts => parts

end

end Part

namespace Tree

/-- The nodes that printing visits: the root, and what was found in the
selected parts of a visited node. -/
inductive Visited (m : M) (t : Tree M O) : Nat → Prop
  | root : Visited m t Tree.root
  | step {parent id : Nat} {n : Node M O} (visited : Visited m t parent)
      (node : t.nodes[parent]? = some n) (found : Part.FindsAny m id n.parts) : Visited m t id

/-- The nodes that printing visits from a node on: itself, and what was found
in the selected parts of a visited node. -/
inductive Reaches (m : M) (t : Tree M O) (start : Nat) : Nat → Prop
  | refl : Reaches m t start start
  | step {parent id : Nat} {n : Node M O} (reaches : Reaches m t start parent)
      (node : t.nodes[parent]? = some n) (found : Part.FindsAny m id n.parts) :
      Reaches m t start id

theorem Visited.reaches {m : M} {t : Tree M O} {id : Nat} (h : Visited m t id) :
    Reaches m t Tree.root id := by
  induction h with
  | root => exact .refl
  | step _ node found ih => exact .step ih node found

theorem Reaches.visited {m : M} {t : Tree M O} {id : Nat} (h : Reaches m t Tree.root id) :
    Visited m t id := by
  induction h with
  | refl => exact .root
  | step _ node found ih => exact .step ih node found

/-- The parts of all visited nodes are settled. -/
def AllSettled [DecidableEq O] (m : M) (t : Tree M O) : Prop :=
  ∀ {id : Nat} {n : Node M O}, Visited m t id → t.nodes[id]? = some n → Part.SettledAll m t n.parts

/-- An object that has a node has a layout for some model. -/
theorem Ready.not_isForeign {m : M} {t : Tree M O} (ready : Ready m t) {id : Nat}
    {c : Node M O} (hc : t.nodes[id]? = some c) : ¬ t.language.IsForeign c.object := by
  intro hforeign
  obtain ⟨m', layout, hlayout⟩ := ready.known hc
  rw [hforeign m'] at hlayout
  cases hlayout

end Tree

end Reprint
