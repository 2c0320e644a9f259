import Mathlib.Data.List.Induction
import Reprint.Proofs.Part.Every
import Reprint.Proofs.Span

/-!
# Extents that are up to date

A group keeps its extent and says whether that is stale (`Part.settle`).  The
extent is right when it is the union of what the members cover
(`Span.IsUnion`, `Part.isUnion_extentOf`).

`Part.UpToDate` says that a part has no group, however deep, whose extent is
wrong without being stale.  Asking for extents keeps that (`UpToDate.settle`),
adding a member does (`UpToDate.addMember`), and a group that is up to date
answers with the union of what its members answer with
(`UpToDate.isUnion_settle`).  A part of which no group was ever asked is up to
date whatever its frames hold (`Unasked.upToDate`).
-/

namespace Reprint

variable {M O : Type}

/-- The smallest span that covers all spans that are there: it contains them,
and one of them stands at each of its ends.  There is none if no span is
there. -/
def Span.IsUnion (spans : List (Option Span)) : Option Span → Prop
  | none => ∀ s ∈ spans, s = none
  | some u =>
    (∀ s, some s ∈ spans → u.contains s = true) ∧
      (∃ s, some s ∈ spans ∧ s.start = u.start) ∧ ∃ s, some s ∈ spans ∧ s.stop = u.stop

/-- One more span. -/
theorem Span.IsUnion.join {spans : List (Option Span)} {u : Option Span}
    (h : IsUnion spans u) (a : Option Span) : IsUnion (spans ++ [a]) (Span.join u a) := by
  cases a with
  | none =>
    rw [join_none_right]
    cases u with
    | none => exact List.forall_mem_append.2 ⟨h, by simp⟩
    | some u => simpa [IsUnion] using h
  | some a =>
    have hmem : some a ∈ spans ++ [some a] := List.mem_append_right _ List.mem_cons_self
    cases u with
    | none =>
      refine ⟨fun s hs => ?_, ⟨a, hmem, rfl⟩, ⟨a, hmem, rfl⟩⟩
      rcases List.mem_append.1 hs with hs | hs
      · cases h _ hs
      · obtain rfl : s = a := by simpa using hs
        exact contains_self _
    | some u =>
      obtain ⟨hall, ⟨b, hb, hstart⟩, c, hc, hstop⟩ := h
      refine ⟨fun s hs => ?_, ?_, ?_⟩
      · rcases List.mem_append.1 hs with hs | hs
        · exact contains_trans (union_contains_left u a) (hall s hs)
        · obtain rfl : s = a := by simpa using hs
          exact union_contains_right u s
      · rcases Position.earlier_eq_or u.start a.start with hend | hend
        · exact ⟨b, List.mem_append_left _ hb, hstart.trans hend.symm⟩
        · exact ⟨a, hmem, hend.symm⟩
      · rcases Position.later_eq_or u.stop a.stop with hend | hend
        · exact ⟨c, List.mem_append_left _ hc, hstop.trans hend.symm⟩
        · exact ⟨a, hmem, hend.symm⟩

namespace Part

/-- The extent of several parts is the union of theirs. -/
theorem isUnion_extentOf (parts : List (Part M O)) :
    Span.IsUnion (parts.map fun p => p.frame.extent) (extentOf parts) := by
  induction parts using List.reverseRecOn with
  | nil => simp [extentOf, Span.IsUnion]
  | append_singleton parts p ih =>
    rw [extentOf, List.foldl_append, List.map_append]
    exact ih.join p.frame.extent

theorem settleAll_eq_map : ∀ parts : List (Part M O), settleAll parts = parts.map settle
  | [] => rfl
  | p :: rest => by rw [settleAll, settleAll_eq_map rest, List.map_cons]

theorem settleAll_settleAll (parts : List (Part M O)) :
    settleAll (settleAll parts) = settleAll parts := by
  rw [settleAll_eq_map, settleAll_eq_map, List.map_map]
  exact List.map_congr_left fun p _ => settle_settle p

/-! ## Groups that were asked -/

/-- A group is stale: nobody has asked it for its extent. -/
def IsStale : Part M O → Prop
  | .group _ _ stale => stale = true
  | _ => True

/-- A group is stale or has the extent of its members. -/
def IsRight : Part M O → Prop
  | .group frame members stale => stale = false → frame.extent = extentOf (settleAll members)
  | _ => True

/-- Nobody has asked any group in the part for its extent. -/
def Unasked (p : Part M O) : Prop := p.Every IsStale

/-- Every group in the part is stale or has the extent of its members. -/
def UpToDate (p : Part M O) : Prop := p.Every IsRight

theorem IsStale.isRight : ∀ p : Part M O, p.IsStale → p.IsRight
  | .group _ _ _, hstale => fun hfresh => by
    rw [IsStale, hfresh] at hstale
    cases hstale
  | .literal .., _ => trivial
  | .slot .., _ => trivial
  | .items .., _ => trivial
  | .choice .., _ => trivial

theorem Unasked.upToDate {p : Part M O} (h : p.Unasked) : p.UpToDate :=
  Every.imp h IsStale.isRight

/-- Asking for the extent of a part. -/
theorem UpToDate.settle {p : Part M O} (h : p.UpToDate) : p.settle.UpToDate := by
  refine Every.settle (fun frame members _ => ?_) h
  rw [Part.settle]
  exact fun _ => by rw [settleAll_settleAll]

/-- Adding a member. -/
theorem UpToDate.addMember {p member q : Part M O} (hp : p.UpToDate) (hmember : member.UpToDate)
    (h : p.addMember member = .ok q) : q.UpToDate :=
  Every.addMember (P := IsRight) (fun _ _ => nofun) hp hmember h

theorem Unasked.addMember {p member q : Part M O} (hp : p.Unasked) (hmember : member.Unasked)
    (h : p.addMember member = .ok q) : q.Unasked :=
  Every.addMember (P := IsStale) (fun _ _ => rfl) hp hmember h

/-- A group that is up to date answers with the union of the answers of its
members. -/
theorem UpToDate.isUnion_settle {frame : Frame} {members : List (Part M O)} {stale : Bool}
    (h : (group frame members stale).UpToDate) :
    Span.IsUnion (members.map fun q => q.settle.frame.extent)
      (group frame members stale).settle.frame.extent := by
  have hextent : (group frame members stale).settle.frame.extent =
      extentOf (Part.settleAll members) := by
    cases stale with
    | true => rw [Part.settle, Part.frame]
    | false =>
      rw [Part.settle, Part.frame]
      exact h.self rfl
  have hunion := isUnion_extentOf (Part.settleAll members)
  rwa [← hextent, settleAll_eq_map, List.map_map] at hunion

end Part

end Reprint
