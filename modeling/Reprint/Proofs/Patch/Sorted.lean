import Mathlib.Data.List.Induction
import Reprint.Proofs.Patch.Splice

/-!
# Edits in the order in which they apply

`Patch.ordered` is the list of the edits sorted by the start and then by the
stop of their targets, edits with the same target in the order of addition
(`Edit.exists_numbered`).

`Patch.IsSound` is what is known of every patch whose edits were accepted one
after the other: their targets are valid, lie in the base and do not
intersect.  Sorted, such edits follow each other, also where an empty target
touches another one (`Patch.exists_run`), so a sound patch has a text
(`Patch.IsSound.splices`).
-/

namespace Reprint

open Reprint.Tree

namespace Edit

theorem before_eq_true {e f : Edit} :
    e.before f = true ↔ e.target.start < f.target.start ∨
      e.target.start = f.target.start ∧ e.target.stop < f.target.stop := by
  simp [before]

theorem before_eq_false {e f : Edit} :
    e.before f = false ↔ f.target.start < e.target.start ∨
      f.target.start = e.target.start ∧ f.target.stop ≤ e.target.stop := by
  rw [← Bool.not_eq_true, before_eq_true]
  simp only [Position.lt_def, Position.le_def, Position.eq_iff]
  omega

/-- An edit that applies before another one applies before all that stand behind that. -/
theorem before_of_before_of_not_before {e f g : Edit} (hef : e.before f = true)
    (hgf : g.before f = false) : e.before g = true := by
  rw [before_eq_true] at hef ⊢
  rw [before_eq_false] at hgf
  simp only [Position.lt_def, Position.le_def, Position.eq_iff] at hef hgf ⊢
  omega

/-! ## Numbered edits -/

/-- The first of two edits, which are numbered in the order of addition, has
the smaller start, or the smaller stop, or the smaller number. -/
def Precedes (x y : Edit × Nat) : Prop :=
  x.1.target.start < y.1.target.start ∨
    x.1.target.start = y.1.target.start ∧
      (x.1.target.stop < y.1.target.stop ∨
        x.1.target.stop = y.1.target.stop ∧ x.2 < y.2)

theorem precedes_of_before {x y : Edit × Nat} (h : x.1.before y.1 = true) : Precedes x y := by
  rcases before_eq_true.1 h with hstart | ⟨hstart, hstop⟩
  · exact Or.inl hstart
  · exact Or.inr ⟨hstart, Or.inl hstop⟩

theorem precedes_of_not_before {x y : Edit × Nat} (h : y.1.before x.1 = false) (hnumber : x.2 < y.2) :
    Precedes x y := by
  rw [before_eq_false] at h
  unfold Precedes
  simp only [Position.lt_def, Position.le_def, Position.eq_iff] at h ⊢
  omega

theorem Precedes.not_before {x y : Edit × Nat} (h : Precedes x y) : y.1.before x.1 = false := by
  rw [before_eq_false]
  unfold Precedes at h
  simp only [Position.lt_def, Position.le_def, Position.eq_iff] at h ⊢
  omega

theorem before_of_precedes {e : Edit} {x y : Edit × Nat} (h : e.before x.1 = true)
    (hxy : Precedes x y) : e.before y.1 = true :=
  before_of_before_of_not_before h hxy.not_before

/-- An edit with a number above all others is put in its place. -/
theorem exists_numbered_place (e : Edit) {n : Nat} {numbered : List (Edit × Nat)}
    (hsorted : numbered.Pairwise Precedes) (hnumber : ∀ x ∈ numbered, x.2 < n) :
    ∃ numbered' : List (Edit × Nat), numbered'.Perm ((e, n) :: numbered) ∧ numbered'.Pairwise Precedes ∧
      e.place (numbered.map Prod.fst) = numbered'.map Prod.fst := by
  induction numbered with
  | nil => exact ⟨[(e, n)], .refl _, List.pairwise_singleton _ _, rfl⟩
  | cons x rest ih =>
    obtain ⟨hx, hrest⟩ := List.pairwise_cons.1 hsorted
    cases hbefore : e.before x.1 with
    | true =>
      refine ⟨(e, n) :: x :: rest, .refl _, List.pairwise_cons.2 ⟨fun y hy => ?_, hsorted⟩, ?_⟩
      · rcases List.mem_cons.1 hy with rfl | hy
        · exact precedes_of_before hbefore
        · exact precedes_of_before (before_of_precedes hbefore (hx y hy))
      · rw [List.map_cons, place, if_pos hbefore]
        rfl
    | false =>
      obtain ⟨placed, hperm, hplaced, hmap⟩ :=
        ih hrest fun y hy => hnumber y (List.mem_cons_of_mem x hy)
      refine ⟨x :: placed, ?_, List.pairwise_cons.2 ⟨fun y hy => ?_, hplaced⟩, ?_⟩
      · exact (hperm.cons x).trans (.swap (e, n) x rest)
      · rcases List.mem_cons.1 (hperm.mem_iff.1 hy) with rfl | hy
        · exact precedes_of_not_before hbefore (hnumber x List.mem_cons_self)
        · exact hx y hy
      · rw [List.map_cons, place, hbefore, if_neg Bool.false_ne_true, hmap, List.map_cons]

/-- The order of the edits is the one by start, stop and number. -/
theorem exists_numbered (edits : List Edit) :
    ∃ numbered : List (Edit × Nat), numbered.Perm edits.zipIdx ∧ numbered.Pairwise Precedes ∧
      sort edits = numbered.map Prod.fst := by
  induction edits using List.reverseRecOn with
  | nil => exact ⟨[], .refl _, .nil, rfl⟩
  | append_singleton edits e ih =>
    obtain ⟨numbered, hperm, hsorted, hmap⟩ := ih
    have hnumber : ∀ x ∈ numbered, x.2 < edits.length := fun x hx => by
      have hindex := List.snd_lt_of_mem_zipIdx (hperm.mem_iff.1 hx)
      omega
    obtain ⟨placed, hperm', hsorted', hmap'⟩ := exists_numbered_place e hsorted hnumber
    refine ⟨placed, ?_, hsorted', ?_⟩
    · rw [List.zipIdx_append]
      refine hperm'.trans ((hperm.cons _).trans ?_)
      simpa using (List.perm_append_singleton (e, edits.length) edits.zipIdx).symm
    · rw [sort_append, List.foldl_cons, List.foldl_nil, hmap, hmap']

theorem perm_sort (edits : List Edit) : (sort edits).Perm edits := by
  obtain ⟨numbered, hperm, _, hmap⟩ := exists_numbered edits
  rw [hmap]
  simpa using hperm.map Prod.fst

/-- No edit stands behind one that it applies before. -/
theorem pairwise_sort (edits : List Edit) :
    (sort edits).Pairwise fun e f => f.before e = false := by
  obtain ⟨numbered, _, hsorted, hmap⟩ := exists_numbered edits
  rw [hmap, List.pairwise_map]
  exact hsorted.imp Precedes.not_before

end Edit

namespace Patch

/-! ## Sorted edits follow each other -/

variable {s : Source} {a b : Nat}

/-- Sorted edits that do not intersect make a text of the piece that they lie
in. -/
theorem exists_run {edits : List Edit} (hb : b ≤ s.charCount) (hab : a ≤ b)
    (htarget : ∀ e ∈ edits, ∃ c d, a ≤ c ∧ c ≤ d ∧ d ≤ b ∧ e.target = window s c d)
    (hsorted : edits.Pairwise fun e f => f.before e = false) (hapart : edits.Pairwise Edit.Apart) :
    ∃ text, Run s a b edits text := by
  induction edits generalizing a with
  | nil => exact ⟨_, .nil hab hb⟩
  | cons e rest ih =>
    obtain ⟨hfirst, hsorted⟩ := List.pairwise_cons.1 hsorted
    obtain ⟨hclear, hapart⟩ := List.pairwise_cons.1 hapart
    obtain ⟨c, d, hac, hcd, hdb, he⟩ := htarget e List.mem_cons_self
    -- A target that starts before `d` would intersect `e`, or be empty at its start and then
    -- be sorted before it.
    have hbehind : ∀ f ∈ rest, ∃ c' d', d ≤ c' ∧ c' ≤ d' ∧ d' ≤ b ∧ f.target = window s c' d' := by
      intro f hf
      obtain ⟨c', d', hac', hcd', hdb', hf'⟩ := htarget f (List.mem_cons_of_mem e hf)
      have horder := Edit.before_eq_false.1 (hfirst f hf)
      have happart : e.target.intersects f.target = false := hclear f hf
      rw [← Bool.not_eq_true, he, hf',
        intersects_window hcd (by omega) hcd' (by omega)] at happart
      rw [he, hf', start_window hcd (by omega), start_window hcd' (by omega),
        stop_window hcd (by omega), stop_window hcd' (by omega),
        Source.place_lt_place (by omega) (by omega), Source.place_inj (by omega) (by omega),
        Source.place_le_place (by omega) (by omega)] at horder
      exact ⟨c', d', by omega, hcd', hdb', hf'⟩
    obtain ⟨text, htail⟩ := ih hdb hbehind hsorted hapart
    exact ⟨_, .cons hac hcd he htail⟩

/-- Edits that were accepted one after the other. -/
structure IsSound (p : Patch) : Prop where
  base : p.source.validateBounds p.base.toBounds = .ok ()
  fits : ∀ e ∈ p.edits, p.source.validateBounds e.target.toBounds = .ok () ∧
    p.base.contains e.target = true
  apart : p.edits.Pairwise Edit.Apart

namespace IsSound

variable {p : Patch}

/-- A patch without edits. -/
theorem ofBase {source : Source} {base : Span} (h : ofBase source base = .ok p) : p.IsSound := by
  obtain ⟨hvalid, rfl⟩ := ofBase_eq_ok_iff.1 h
  exact ⟨hvalid, List.forall_mem_nil _, .nil⟩

/-- The base is a window, and the edits make a text of it. -/
theorem splices (h : p.IsSound) :
    ∃ a b text, p.base = window p.source a b ∧ Splices p.source a b p.edits text := by
  obtain ⟨a, b, hab, hb, hbase⟩ := exists_window h.base
  have htarget : ∀ e ∈ Edit.sort p.edits, ∃ c d, a ≤ c ∧ c ≤ d ∧ d ≤ b ∧
      e.target = window p.source c d := by
    intro e he
    obtain ⟨hvalid, hcontains⟩ := h.fits e (Edit.mem_sort.1 he)
    obtain ⟨c, d, hcd, hd, he⟩ := exists_window hvalid
    rw [hbase, he, contains_window hab hb hcd hd] at hcontains
    exact ⟨c, d, hcontains.1, hcd, hcontains.2, he⟩
  have hapart : (Edit.sort p.edits).Pairwise Edit.Apart :=
    h.apart.perm (Edit.perm_sort p.edits).symm fun hef => hef.symm
  obtain ⟨text, hrun⟩ := exists_run hb hab htarget (Edit.pairwise_sort p.edits) hapart
  exact ⟨a, b, text, hbase, h.apart, hrun⟩

end IsSound

end Patch

end Reprint
