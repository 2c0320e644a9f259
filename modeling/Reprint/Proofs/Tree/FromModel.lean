import Reprint.Proofs.Tree.Runs

/-!
# Normal text without printing

`Part.spell` is the normal text of a part without a tree: the objects in it have
the texts that `below` gives.  It is defined if all of them have one, and an object
of which `below` says that it has no text counts like one without a layout.

`Tree.spell` gives the texts of objects that are not printed from the source, and
neither are the objects in them, down to a depth.  It reads the parts of the nodes that
are there and the layouts of the others.

If every object below a node is printed as `below` says, then so is a part
(`Runs.normalPart`), whatever the tree is like.
-/

namespace Reprint

open Reprint.Tree

variable {M O : Type}

namespace Part

section Spell

variable (below : O → Margin → Option (Option Text)) (m : M) (unit : Margin)

/-- The normal text of the items of a list, the first of which has the given
index among `count`. -/
def spellItems (frame : Frame) (list : ItemList M O) (count : Nat) : Nat → List O → Option Text
  | _, [] => some []
  | index, object :: rest => do
    let text ← (below object unit).map fun body =>
      match body with
      | none => []
      | some body => (list.around frame index count).1 ++ body ++ (list.around frame index count).2
    return text ++ (← spellItems frame list count (index + 1) rest)

mutual

/-- The normal text of a part. -/
def spell : Part M O → Option Text
  | .literal frame wording _ => some (frame.wrap unit (wording.text m))
  | .slot frame supply _ =>
    match supply m with
    | none => some []
    | some object => (below object unit).map fun body => (body.map (frame.wrap unit)).getD []
  | .items frame list =>
    (spellItems below unit frame list (list.supply m).length 0 (list.supply m)).map
      (unit.within frame.indent).apply
  | .choice frame test yes no _ =>
    if test m then (spell yes).map (frame.wrap unit)
    else
      match no with
      | none => some []
      | some other => (spell other).map (frame.wrap unit)
  | .group frame members _ => (spellAll members).map (frame.wrap unit)
termination_by structural p => p

/-- The normal text of several parts. -/
def spellAll : List (Part M O) → Option Text
  | [] => some []
  | p :: rest => do
    let text ← spell p
    return text ++ (← spellAll rest)
termination_by structural parts => parts

end

end Spell

end Part

namespace Tree

variable [DecidableEq O]

/-- The normal text of an object below a node, unless it or an object in it is
printed from the source, or they are nested deeper than a number.  An object without
a layout has no text.  A new node has a number that is beyond those of the tree. -/
def spell (t : Tree M O) (m : M) : Nat → Nat → O → Margin → Option (Option Text)
  | 0, owner, object, _ =>
    if ((t.nodes[owner]?).bind (t.below? · object)).isSome ||
      (t.language.layout m object).isSome then none else some none
  | depth + 1, owner, object, margin =>
    match (t.nodes[owner]?).bind (t.below? · object) with
    | some id =>
      match t.nodes[id]? with
      | none => none
      | some n =>
        if n.isLocated then none
        else (Part.spellAll (t.spell m depth id) m margin.flush n.parts).map fun text =>
          some (margin.apply text)
    | none =>
      match t.language.layout m object with
      | none => some none
      | some layout =>
        if layout.origin.isSome then none
        else (Part.spellAll (t.spell m depth t.nodes.size) m margin.flush layout.parts).map
          fun text => some (margin.apply text)

/-- All new nodes are alike. -/
theorem spell_of_size_le {t : Tree M O} {m : M} {owner : Nat} (h : t.nodes.size ≤ owner)
    (depth : Nat) : t.spell m depth owner = t.spell m depth t.nodes.size := by
  have hnone : t.nodes[owner]? = none := Array.getElem?_eq_none h
  have hnone' : t.nodes[t.nodes.size]? = none := Array.getElem?_eq_none (Nat.le_refl _)
  funext object margin
  cases depth <;> simp only [spell, hnone, hnone']

end Tree

/-! ## Printing what is spelled -/

namespace Runs

variable [DecidableEq O] {P : Tree M O → Prop} {below : O → Margin → Option (Option Text)} {m : M}
  {owner : Nat} {print : Nat → Margin → Job M O Text} {unit : Margin}

/-- The items of a list. -/
theorem normalItems (hbelow : ∀ object margin body, below object margin = some body →
      Runs P (printBelow print m owner object margin) body P) {frame : Frame}
    {list : ItemList M O} {count : Nat} : ∀ {objects : List O} {index : Nat} {text : Text},
      Part.spellItems below unit frame list count index objects = some text →
      Runs P (normalItems print m owner unit frame list count index objects) text P
  | [], _, _, h => by
    cases h
    exact .pure (fun _ => id) []
  | object :: rest, index, text, h => by
    rw [Part.spellItems] at h
    obtain ⟨head, hhead, h⟩ := Option.bind_eq_some_iff.1 h
    obtain ⟨tail, htail, h⟩ := Option.bind_eq_some_iff.1 h
    cases h
    obtain ⟨body, hbody, rfl⟩ := Option.map_eq_some_iff.1 hhead
    rw [Tree.normalItems]
    refine .bind (hbelow object unit body hbody) ?_
    have hrest := normalItems hbelow htail
    cases body with
    | none => exact .bind (.pure (fun _ => id) _) (.bind hrest (.pure (fun _ => id) _))
    | some body => exact .bind (.pure (fun _ => id) _) (.bind hrest (.pure (fun _ => id) _))

mutual

/-- A part whose text is spelled is printed so. -/
theorem normalPart (hbelow : ∀ object margin body, below object margin = some body →
      Runs P (printBelow print m owner object margin) body P) :
    ∀ (p : Part M O) {text : Text}, p.spell below m unit = some text →
      Runs P (normalPart print m owner unit p) text P
  | .literal frame wording place, text, h => by
    rw [Part.spell, Option.some.injEq] at h
    rw [Tree.normalPart, h]
    exact .pure (fun _ => id) text
  | .slot frame supply listed, text, h => by
    rw [Part.spell] at h
    rw [Tree.normalPart]
    cases hsupply : supply m with
    | none =>
      rw [hsupply] at h
      cases h
      exact .pure (fun _ => id) []
    | some object =>
      rw [hsupply] at h
      obtain ⟨body, hbody, rfl⟩ := Option.map_eq_some_iff.1 h
      refine .bind (hbelow object unit body hbody) ?_
      cases body with
      | none => exact .pure (fun _ => id) []
      | some body => exact .pure (fun _ => id) _
  | .items frame list, text, h => by
    rw [Part.spell] at h
    obtain ⟨items, hitems, rfl⟩ := Option.map_eq_some_iff.1 h
    rw [Tree.normalPart]
    exact .bind (normalItems hbelow hitems) (.pure (fun _ => id) _)
  | .choice frame test yes none taken, text, h => by
    rw [Part.spell] at h
    rw [Tree.normalPart]
    split at h
    · next htest =>
      obtain ⟨inner, hinner, rfl⟩ := Option.map_eq_some_iff.1 h
      rw [if_pos htest]
      exact .bind (normalPart hbelow yes hinner) (.pure (fun _ => id) _)
    · next htest =>
      cases h
      rw [if_neg htest]
      exact .pure (fun _ => id) []
  | .choice frame test yes (some other) taken, text, h => by
    rw [Part.spell] at h
    rw [Tree.normalPart]
    split at h
    · next htest =>
      obtain ⟨inner, hinner, rfl⟩ := Option.map_eq_some_iff.1 h
      rw [if_pos htest]
      exact .bind (normalPart hbelow yes hinner) (.pure (fun _ => id) _)
    · next htest =>
      obtain ⟨inner, hinner, rfl⟩ := Option.map_eq_some_iff.1 h
      rw [if_neg htest]
      exact .bind (normalPart hbelow other hinner) (.pure (fun _ => id) _)
  | .group frame members stale, text, h => by
    rw [Part.spell] at h
    obtain ⟨inner, hinner, rfl⟩ := Option.map_eq_some_iff.1 h
    rw [Tree.normalPart]
    exact .bind (normalParts hbelow members hinner) (.pure (fun _ => id) _)
termination_by structural p => p

/-- Parts whose texts are spelled are printed so. -/
theorem normalParts (hbelow : ∀ object margin body, below object margin = some body →
      Runs P (printBelow print m owner object margin) body P) :
    ∀ (parts : List (Part M O)) {text : Text}, Part.spellAll below m unit parts = some text →
      Runs P (normalParts print m owner unit parts) text P
  | [], text, h => by
    cases h
    exact .pure (fun _ => id) []
  | p :: rest, text, h => by
    rw [Part.spellAll] at h
    obtain ⟨head, hhead, h⟩ := Option.bind_eq_some_iff.1 h
    obtain ⟨tail, htail, h⟩ := Option.bind_eq_some_iff.1 h
    cases h
    rw [Tree.normalParts]
    exact .bind (normalPart hbelow p hhead)
      (.bind (normalParts hbelow rest htail) (.pure (fun _ => id) _))
termination_by structural parts => parts

end

end Runs

end Reprint
