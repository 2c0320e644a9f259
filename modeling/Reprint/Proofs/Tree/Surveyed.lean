import Reprint.Proofs.Tree.Arena

/-!
# What locating finds out

`Part.IsNew` says that nothing has been found of a part yet, as it is with
the parts of a layout.  `Part.Surveyed` says what is known of a part after
its node was located for a model: a slot remembers the node of the object
that is in it, a choice the part that is selected, and a list its items in
the order in which the model lists them (`ItemList.Walk`).

What is known stays known as long as located nodes keep their objects and
their delimiters (`Part.Surveyed.keep`).
-/

namespace Reprint

open Reprint.Tree

variable {M O : Type}

namespace Part

mutual

/-- Nothing has been found of the part, though a literal may be pinned. -/
def IsNew : Part M O → Prop
  | .literal _ _ place => place.before = .empty ∧ place.behind = .empty
  | .slot _ _ listed => listed = none
  | .items _ list => list.listed = [] ∧ list.repeats = []
  | .choice _ _ yes no taken =>
    taken = none ∧ IsNew yes ∧
      match no with
      | none => True
      | some other => IsNew other
  | .group _ members _ => AllNew members
termination_by structural p => p

/-- Nothing has been found of any of the parts. -/
def AllNew : List (Part M O) → Prop
  | [] => True
  | p :: rest => IsNew p ∧ AllNew rest
termination_by structural ps => ps

end

end Part

/-- What is known of the items of a list: `Walk t owner around index objects
done later again` says that the objects from `index` on, with `done` found
before them, add the items `later` and the repetitions `again`.  The item of
an object stands at its first occurrence and has the literals of that
place. -/
inductive ItemList.Walk (t : Tree M O) (owner : Nat) (around : Nat → Text × Text) :
    Nat → List O → List (ListedItem O) → List (ListedItem O) → List O → Prop
  | nil {index : Nat} {done : List (ListedItem O)} : Walk t owner around index [] done [] []
  /-- An object that was found before. -/
  | again {index : Nat} {object : O} {rest again : List O} {done later : List (ListedItem O)}
      (found : ∃ item ∈ done, item.object = object)
      (tail : Walk t owner around (index + 1) rest done later again) :
      Walk t owner around index (object :: rest) done later (object :: again)
  /-- An object that this list does not find anywhere. -/
  | skip {index : Nat} {object : O} {rest again : List O} {done later : List (ListedItem O)}
      (fresh : ∀ item ∈ done, item.object ≠ object)
      (never : ∀ item ∈ later, item.object ≠ object)
      (tail : Walk t owner around (index + 1) rest done later again) :
      Walk t owner around index (object :: rest) done later again
  /-- An object that is found here. -/
  | take {index : Nat} {rest again : List O} {done later : List (ListedItem O)}
      {item : ListedItem O} {c : Node M O}
      (fresh : ∀ other ∈ done, other.object ≠ item.object)
      (below : owner < item.node) (node : t.nodes[item.node]? = some c)
      (object : c.object = item.object) (located : c.isLocated = true)
      (before : c.before.literal = (around index).1)
      (behind : c.behind.literal = (around index).2)
      (tail : Walk t owner around (index + 1) rest (done ++ [item]) later again) :
      Walk t owner around index (item.object :: rest) done (item :: later) again

namespace Part

mutual

/-- What is known of a part after its node was located for a model. -/
def Surveyed (m : M) (t : Tree M O) (owner : Nat) : Part M O → Prop
  | .literal .. => True
  | .slot _ supply listed =>
    ∀ id, listed = some id → owner < id ∧
      ∃ c, t.nodes[id]? = some c ∧ c.isLocated = true ∧ supply m = some c.object
  | .items frame list =>
    ItemList.Walk t owner (list.around frame · (list.supply m).length) 0 (list.supply m) []
      list.listed list.repeats
  | .choice _ test yes no taken =>
    if test m then taken = some true ∧ Surveyed m t owner yes
    else
      match no with
      | none => taken = none
      | some other => taken = some false ∧ Surveyed m t owner other
  | .group _ members _ => SurveyedAll m t owner members
termination_by structural p => p

/-- What is known of several parts. -/
def SurveyedAll (m : M) (t : Tree M O) (owner : Nat) : List (Part M O) → Prop
  | [] => True
  | p :: rest => Surveyed m t owner p ∧ SurveyedAll m t owner rest
termination_by structural ps => ps

end

end Part

/-! ## What is known stays known -/

/-- The located nodes behind `owner` stay located, with their objects and
their delimiters. -/
def Tree.KeepsBehind (owner : Nat) (t t' : Tree M O) : Prop :=
  ∀ {id : Nat} {c : Node M O}, owner < id → t.nodes[id]? = some c → c.isLocated = true →
    ∃ c', t'.nodes[id]? = some c' ∧ c'.object = c.object ∧ c'.isLocated = true ∧
      c'.before = c.before ∧ c'.behind = c.behind

theorem Tree.Keeps.behind {m : M} {t t' : Tree M O} (hk : Keeps m t t') (owner : Nat) :
    KeepsBehind owner t t' := by
  intro id c _ hc hlocated
  obtain ⟨c', hc', hkept⟩ := hk.node hc
  exact ⟨c', hc', hkept.object, hkept.located hlocated, hkept.before hlocated,
    hkept.behind hlocated⟩

/-- The walk of a list stays, as located nodes do. -/
theorem ItemList.Walk.keep {t t' : Tree M O} {owner index : Nat}
    {around : Nat → Text × Text} {objects again : List O} {done later : List (ListedItem O)}
    (h : Walk t owner around index objects done later again) (hk : KeepsBehind owner t t') :
    Walk t' owner around index objects done later again := by
  induction h with
  | nil => exact .nil
  | again found _ ih => exact .again found ih
  | skip fresh never _ ih => exact .skip fresh never ih
  | take fresh below node object located before behind _ ih =>
    obtain ⟨c', hc', hobject, hlocated, hbefore, hbehind⟩ := hk below node located
    exact .take fresh below hc' (hobject.trans object) hlocated
      (by rw [hbefore, before]) (by rw [hbehind, behind]) ih

/-- The items of a walk are located and come after their owner. -/
theorem ItemList.Walk.mem_later {t : Tree M O} {owner index : Nat}
    {around : Nat → Text × Text} {objects again : List O} {done later : List (ListedItem O)}
    (h : Walk t owner around index objects done later again) :
    ∀ item ∈ later, owner < item.node ∧
      ∃ c, t.nodes[item.node]? = some c ∧ c.object = item.object ∧ c.isLocated = true := by
  induction h with
  | nil => simp
  | again _ _ ih => exact ih
  | skip _ _ _ ih => exact ih
  | take _ below node object located _ _ _ ih =>
    intro x hx
    rcases List.mem_cons.1 hx with rfl | hx
    · exact ⟨below, _, node, object, located⟩
    · exact ih x hx

namespace Part

mutual

theorem Surveyed.keep {m : M} {t t' : Tree M O} {owner : Nat} (hk : KeepsBehind owner t t') :
    ∀ p : Part M O, p.Surveyed m t owner → p.Surveyed m t' owner
  | .literal .., _ => trivial
  | .slot _ supply listed, h => by
    simp only [Surveyed] at h ⊢
    intro id hid
    obtain ⟨hlt, c, hc, hlocated, hsupply⟩ := h id hid
    obtain ⟨c', hc', hobject, hlocated, _⟩ := hk hlt hc hlocated
    exact ⟨hlt, c', hc', hlocated, by rw [hobject, hsupply]⟩
  | .items frame list, h => by
    simp only [Surveyed] at h ⊢
    exact h.keep hk
  | .choice _ test yes none taken, h => by
    simp only [Surveyed] at h ⊢
    split
    · next htest =>
      rw [if_pos htest] at h
      exact ⟨h.1, Surveyed.keep hk yes h.2⟩
    · next htest => rwa [if_neg htest] at h
  | .choice _ test yes (some other) taken, h => by
    simp only [Surveyed] at h ⊢
    split
    · next htest =>
      rw [if_pos htest] at h
      exact ⟨h.1, Surveyed.keep hk yes h.2⟩
    · next htest =>
      rw [if_neg htest] at h
      exact ⟨h.1, Surveyed.keep hk other h.2⟩
  | .group _ members _, h => by
    simp only [Surveyed] at h ⊢
    exact SurveyedAll.keep hk members h
termination_by structural p => p

theorem SurveyedAll.keep {m : M} {t t' : Tree M O} {owner : Nat} (hk : KeepsBehind owner t t') :
    ∀ parts : List (Part M O), SurveyedAll m t owner parts → SurveyedAll m t' owner parts
  | [], _ => trivial
  | p :: rest, h => by
    simp only [SurveyedAll] at h ⊢
    exact ⟨Surveyed.keep hk p h.1, SurveyedAll.keep hk rest h.2⟩
termination_by structural parts => parts

end

mutual

/-- Settling changes extents only. -/
theorem Surveyed.settle {m : M} {t : Tree M O} {owner : Nat} :
    ∀ p : Part M O, p.Surveyed m t owner → p.settle.Surveyed m t owner
  | .literal .., h => h
  | .slot .., h => h
  | .items .., h => h
  | .choice .., h => by simpa [Part.settle] using h
  | .group _ members false, h => by simpa [Part.settle] using h
  | .group _ members true, h => by
    simp only [Part.settle, Surveyed] at h ⊢
    exact SurveyedAll.settle members h
termination_by structural p => p

theorem SurveyedAll.settle {m : M} {t : Tree M O} {owner : Nat} :
    ∀ parts : List (Part M O), SurveyedAll m t owner parts →
      SurveyedAll m t owner (Part.settleAll parts)
  | [], _ => trivial
  | p :: rest, h => by
    simp only [Part.settleAll, SurveyedAll] at h ⊢
    exact ⟨Surveyed.settle p h.1, SurveyedAll.settle rest h.2⟩
termination_by structural parts => parts

end

end Part

end Reprint
