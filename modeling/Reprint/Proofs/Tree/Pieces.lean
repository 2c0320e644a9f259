import Reprint.Proofs.Tree.Matching

/-!
# The pieces of a node that a flip of choices changes

Between two models nothing may change in a part but the tests of its choices
(`Part.OnlyFlips`).  `Part.pieces` lists what may be written anew then: the choices
of which the other part is selected now, and the nodes that were found in the parts
that are still selected.
-/

namespace Reprint

open Reprint.Tree

variable {M O : Type}

/-- A piece of the source of a node that may be written anew. -/
inductive Piece (M O : Type) where
  /-- What a choice covers of which another part is selected now, or none. -/
  | flipped (covered : Option Span) (other : Option (Part M O))
  /-- What a node was found in that is still needed. -/
  | kept (id : Nat)

namespace Part

section Pieces

variable (m m' : M)

mutual

/-- The two models agree on the part except that some choices flip.  Nothing is
asked of the part of a choice that is no longer selected. -/
def OnlyFlips : Part M O → Prop
  | .literal _ wording _ => wording.text m' = wording.text m
  | .slot _ supply _ => supply m' = supply m
  | .items _ list => list.supply m' = list.supply m
  | .choice _ test yes no _ =>
    if test m' = test m then
      if test m then OnlyFlips yes
      else
        match no with
        | none => True
        | some other => OnlyFlips other
    else True
  | .group _ members _ => AllOnlyFlip members
termination_by structural p => p

/-- The two models agree on the parts except that some choices flip. -/
def AllOnlyFlip : List (Part M O) → Prop
  | [] => True
  | p :: rest => OnlyFlips p ∧ AllOnlyFlip rest
termination_by structural parts => parts

end

mutual

/-- The pieces of a part that may be written anew for the second model, if it was
located for the first one. -/
def pieces : Part M O → List (Piece M O)
  | .literal .. => []
  | .slot _ _ listed => listed.toList.map .kept
  | .items _ list => list.listed.map fun item => .kept item.node
  | .choice frame test yes no taken =>
    if test m' = test m then
      if test m then pieces yes
      else
        match no with
        | none => []
        | some other => pieces other
    else [.flipped (taken.bind fun _ => frame.extent) (if test m' then some yes else no)]
  | .group _ members _ => allPieces members
termination_by structural p => p

/-- The pieces of several parts. -/
def allPieces : List (Part M O) → List (Piece M O)
  | [] => []
  | p :: rest => pieces p ++ allPieces rest
termination_by structural parts => parts

end

end Pieces

variable {m : M}

mutual

theorem OnlyFlips.refl : ∀ p : Part M O, p.OnlyFlips m m
  | .literal .. | .slot .. | .items .. => by simp only [OnlyFlips]
  | .choice _ test yes none _ => by
    simp only [OnlyFlips, if_true]
    split
    · exact OnlyFlips.refl yes
    · trivial
  | .choice _ test yes (some other) _ => by
    simp only [OnlyFlips, if_true]
    split
    · exact OnlyFlips.refl yes
    · exact OnlyFlips.refl other
  | .group _ members _ => by
    simp only [OnlyFlips]
    exact AllOnlyFlip.refl members
termination_by structural p => p

/-- A model agrees with itself. -/
theorem AllOnlyFlip.refl : ∀ parts : List (Part M O), AllOnlyFlip m m parts
  | [] => trivial
  | p :: rest => ⟨OnlyFlips.refl p, AllOnlyFlip.refl rest⟩
termination_by structural parts => parts

end

mutual

theorem flipped_not_mem_pieces {covered : Option Span} {other : Option (Part M O)} :
    ∀ p : Part M O, Piece.flipped covered other ∉ p.pieces m m
  | .literal .. => by simp [pieces]
  | .slot .. => by simp [pieces]
  | .items .. => by simp [pieces]
  | .choice _ test yes none _ => by
    simp only [pieces, if_true]
    split
    · exact flipped_not_mem_pieces yes
    · exact List.not_mem_nil
  | .choice _ test yes (some other) _ => by
    simp only [pieces, if_true]
    split
    · exact flipped_not_mem_pieces yes
    · exact flipped_not_mem_pieces other
  | .group _ members _ => by
    simp only [pieces]
    exact flipped_not_mem_allPieces members
termination_by structural p => p

/-- For the model that parts were located for no choice flips. -/
theorem flipped_not_mem_allPieces {covered : Option Span} {other : Option (Part M O)} :
    ∀ parts : List (Part M O), Piece.flipped covered other ∉ allPieces m m parts
  | [] => List.not_mem_nil
  | p :: rest => by
    simp only [allPieces, List.mem_append, not_or]
    exact ⟨flipped_not_mem_pieces p, flipped_not_mem_allPieces rest⟩
termination_by structural parts => parts

end

mutual

theorem finds_of_kept {m' : M} {id : Nat} : ∀ p : Part M O, Piece.kept id ∈ p.pieces m m' →
    p.Finds m id
  | .literal .., h => by simp [pieces] at h
  | .slot _ _ listed, h => by
    simp only [pieces, List.mem_map, Option.mem_toList] at h
    obtain ⟨x, hx, hid⟩ := h
    cases hid
    exact hx
  | .items _ list, h => by
    simp only [pieces, List.mem_map] at h
    obtain ⟨item, hitem, hid⟩ := h
    cases hid
    exact ⟨item, hitem, rfl⟩
  | .choice _ test yes none _, h => by
    simp only [pieces] at h
    simp only [Finds]
    split at h
    · split at h
      · next htest =>
        rw [if_pos htest]
        exact finds_of_kept yes h
      · cases h
    · simp at h
  | .choice _ test yes (some other) _, h => by
    simp only [pieces] at h
    simp only [Finds]
    split at h
    · split at h
      · next htest =>
        rw [if_pos htest]
        exact finds_of_kept yes h
      · next htest =>
        rw [if_neg htest]
        exact finds_of_kept other h
    · simp at h
  | .group _ members _, h => by
    simp only [pieces] at h
    simp only [Finds]
    exact findsAny_of_kept members h
termination_by structural p => p

/-- A node that is kept was found in the parts. -/
theorem findsAny_of_kept {m' : M} {id : Nat} : ∀ parts : List (Part M O),
    Piece.kept id ∈ allPieces m m' parts → FindsAny m id parts
  | [], h => by cases h
  | p :: rest, h => by
    simp only [allPieces, List.mem_append] at h
    exact h.imp (finds_of_kept p) (findsAny_of_kept rest)
termination_by structural parts => parts

end

end Part

end Reprint
