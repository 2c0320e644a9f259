import Reprint.Proofs.Patch.Sorted

/-!
# Patches within patches

The new text of a piece of the source may itself be that of a patch.  `Patch.Refines`
says that one edit of a piece, or none, comes to the same as some edits within the
piece.  Then the edits within the pieces can be put in the places of the edits of
the pieces, all at once (`Run.refine`).
-/

namespace Reprint.Patch

open Reprint.Tree

variable {s : Source} {a b c d : Nat} {edits : List Edit} {text : Text}

namespace Run

/-- The edits in front of an edit and those behind it. -/
theorem split {e : Edit} {ys : List Edit} (hcd : c ≤ d) (hd : d ≤ s.charCount)
    (htarget : e.target = window s c d) : ∀ {xs : List Edit} {a : Nat} {text : Text},
      Run s a b (xs ++ e :: ys) text →
      ∃ left right, Run s a c xs left ∧ Run s d b ys right ∧ text = left ++ e.text ++ right
  | [], a, _, @Run.cons _ _ _ c' d' _ _ _ start order target tail => by
    have hle := tail.le
    rw [htarget] at target
    have hstart : (window s c d).start = (window s c' d').start := by rw [target]
    have hstop : (window s c d).stop = (window s c' d').stop := by rw [target]
    rw [start_window hcd hd, start_window order (by omega),
      Source.place_inj (by omega) (by omega)] at hstart
    rw [stop_window hcd hd, stop_window order (by omega), Source.place_inj hd (by omega)] at hstop
    subst hstart hstop
    exact ⟨_, _, .nil start (by omega), tail, rfl⟩
  | x :: xs, a, _, .cons start order target tail => by
    obtain ⟨left, right, hleft, hright, rfl⟩ := split hcd hd htarget tail
    exact ⟨_, right, .cons start order target hleft, hright, by simp only [List.append_assoc]⟩

/-- A piece that no edit touches lies between the edits in front of it and those
behind it. -/
theorem gap (hcd : c ≤ d) (hdb : d ≤ b) (h : Run s a b edits text) : a ≤ c →
    (∀ e ∈ edits, e.target.intersects (window s c d) = false) →
    ∃ xs ys left right, edits = xs ++ ys ∧ Run s a c xs left ∧ Run s d b ys right ∧
      text = left ++ s.text.piece c d ++ right := by
  induction h with
  | @nil a b order bound =>
    intro hac _
    refine ⟨[], [], _, _, rfl, .nil hac (by omega), .nil hdb bound, ?_⟩
    rw [Text.piece_append hac hcd, Text.piece_append (by omega) hdb]
  | @cons a b c' d' e rest text start order target tail ih =>
    intro hac hapart
    have hle := tail.le
    by_cases hfront : d' ≤ c
    · obtain ⟨xs, ys, left, right, rfl, hleft, hright, rfl⟩ :=
        ih hdb hfront fun f hf => hapart f (List.mem_cons_of_mem e hf)
      exact ⟨e :: xs, ys, _, right, rfl, .cons start order target hleft, hright,
        by simp only [List.append_assoc]⟩
    · have hbehind : d ≤ c' := by
        have hnot := hapart e List.mem_cons_self
        rw [target, ← Bool.not_eq_true,
          intersects_window order (by omega) hcd (by omega)] at hnot
        omega
      refine ⟨[], e :: rest, _, _, rfl, .nil hac (by omega), .cons hbehind order target tail, ?_⟩
      rw [← Text.piece_append (by omega : a ≤ d) hbehind, ← Text.piece_append hac hcd]
      simp only [List.append_assoc]

end Run

/-- One edit of a piece, or none, comes to the same as some edits within it. -/
def Refines (s : Source) (span : Span) (whole within : List Edit) : Prop :=
  ∃ c d text ordered, c ≤ d ∧ d ≤ s.charCount ∧ span = window s c d ∧ Run s c d ordered text ∧
    ordered.Perm within ∧
      (whole = [] ∧ text = s.text.piece c d ∨ ∃ e, whole = [e] ∧ e.target = span ∧ e.text = text)

namespace Refines

variable {span other : Span} {whole within : List Edit}

/-- An edit refines itself. -/
theorem of_edit {e : Edit} (h : s.validateBounds e.target.toBounds = .ok ()) :
    Refines s e.target [e] [e] := by
  obtain ⟨c, d, hcd, hd, htarget⟩ := exists_window h
  have hrun := Run.cons (Nat.le_refl c) hcd htarget (.nil (Nat.le_refl d) hd)
  rw [Text.piece_self, Text.piece_self, List.append_nil, List.nil_append] at hrun
  exact ⟨c, d, e.text, [e], hcd, hd, htarget, hrun, .refl _, Or.inr ⟨e, rfl, rfl, rfl⟩⟩

/-- The edits within a piece touch no piece that it does not intersect. -/
theorem intersects_eq_false (h : Refines s span whole within)
    (hother : s.validateBounds other.toBounds = .ok ()) (hapart : span.intersects other = false) :
    ∀ e ∈ within, e.target.intersects other = false := by
  intro e he
  obtain ⟨c, d, _, _, hcd, hd, rfl, hrun, hperm, _⟩ := h
  obtain ⟨k, l, hkl, hl, rfl⟩ := exists_window hother
  obtain ⟨c', d', hc', hcd', hd', htarget⟩ := hrun.target e (hperm.mem_iff.2 he)
  rw [← Bool.not_eq_true, intersects_window hcd hd hkl hl] at hapart
  rw [← Bool.not_eq_true, htarget, intersects_window hcd' (by omega) hkl hl]
  omega

theorem validateBounds (h : Refines s span whole within) :
    s.validateBounds span.toBounds = .ok () := by
  obtain ⟨c, d, _, _, hcd, hd, rfl, _⟩ := h
  exact validateBounds_window hcd hd

theorem target_eq (h : Refines s span whole within) : ∀ e ∈ whole, e.target = span := by
  intro e he
  obtain ⟨_, _, _, _, _, _, _, _, _, ⟨rfl, _⟩ | ⟨f, rfl, hf, _⟩⟩ := h
  · cases he
  · rwa [List.mem_singleton.1 he]

theorem pairwise (h : Refines s span whole within) : whole.Pairwise Edit.Apart := by
  obtain ⟨_, _, _, _, _, _, _, _, _, ⟨rfl, _⟩ | ⟨f, rfl, hf, _⟩⟩ := h
  · exact .nil
  · exact List.pairwise_singleton _ _

/-- One piece is refined, and the edits of the others stay. -/
theorem step {edits others : List Edit} (h : Refines s span whole within)
    (hcontains : (window s a b).contains span = true) (hrun : Run s a b edits text)
    (hperm : edits.Perm (whole ++ others))
    (hothers : ∀ e ∈ others, e.target.intersects span = false) :
    ∃ refined, Run s a b refined text ∧ refined.Perm (within ++ others) := by
  obtain ⟨c, d, piece, ordered, hcd, hd, rfl, hwithin, hordered,
    ⟨rfl, rfl⟩ | ⟨e, rfl, htarget, rfl⟩⟩ := h
  · have hle := hrun.le
    rw [contains_window hle.1 hle.2 hcd hd] at hcontains
    obtain ⟨xs, ys, left, right, rfl, hleft, hright, rfl⟩ :=
      hrun.gap hcd hcontains.2 hcontains.1 fun e he => hothers e (hperm.mem_iff.1 he)
    refine ⟨xs ++ ordered ++ ys, (hleft.append hwithin).append hright, ?_⟩
    rw [List.append_assoc]
    exact (List.perm_append_comm_assoc xs ordered ys).trans (hordered.append hperm)
  · obtain ⟨xs, ys, rfl⟩ := List.append_of_mem (hperm.mem_iff.2 List.mem_cons_self)
    obtain ⟨left, right, hleft, hright, rfl⟩ := Run.split hcd hd htarget hrun
    refine ⟨xs ++ ordered ++ ys, (hleft.append hwithin).append hright, ?_⟩
    have hrest : (xs ++ ys).Perm others :=
      List.Perm.cons_inv (List.perm_middle.symm.trans hperm)
    rw [List.append_assoc]
    exact (List.perm_append_comm_assoc xs ordered ys).trans (hordered.append hrest)

end Refines

/-- The edits within pieces that do not intersect make the same text as the edits
of the pieces.  The induction is on the pieces that are still to be refined. -/
theorem Run.refine {α : Type} {span : α → Span} {whole within : α → List Edit} :
    ∀ {pieces : List α}, (∀ x ∈ pieces, Refines s (span x) (whole x) (within x)) →
      (∀ x ∈ pieces, (window s a b).contains (span x) = true) →
      pieces.Pairwise (fun x y => (span x).intersects (span y) = false) →
      ∀ {done edits : List Edit}, Run s a b edits text → edits.Perm (done ++ pieces.flatMap whole) →
        (∀ e ∈ done, ∀ x ∈ pieces, e.target.intersects (span x) = false) →
        ∃ refined, Run s a b refined text ∧ refined.Perm (done ++ pieces.flatMap within)
  | [], _, _, _, done, edits, hrun, hperm, _ => ⟨edits, hrun, hperm⟩
  | x :: pieces, hrefines, hcontains, hapart, done, edits, hrun, hperm, hdone => by
    obtain ⟨hx, hapart⟩ := List.pairwise_cons.1 hapart
    have hrefine := hrefines x List.mem_cons_self
    have hrest : ∀ y ∈ pieces, Refines s (span y) (whole y) (within y) :=
      fun y hy => hrefines y (List.mem_cons_of_mem x hy)
    have hothers : ∀ e ∈ done ++ pieces.flatMap whole, e.target.intersects (span x) = false := by
      intro e he
      rcases List.mem_append.1 he with he | he
      · exact hdone e he x List.mem_cons_self
      · obtain ⟨y, hy, he⟩ := List.mem_flatMap.1 he
        rw [(hrest y hy).target_eq e he, Span.intersects_comm]
        exact hx y hy
    rw [List.flatMap_cons] at hperm ⊢
    obtain ⟨refined, hrun', hperm'⟩ := hrefine.step (hcontains x List.mem_cons_self) hrun
      (hperm.trans (List.perm_append_comm_assoc ..)) hothers
    have hdone' : ∀ e ∈ done ++ within x, ∀ y ∈ pieces, e.target.intersects (span y) = false := by
      intro e he y hy
      rcases List.mem_append.1 he with he | he
      · exact hdone e he y (List.mem_cons_of_mem x hy)
      · exact hrefine.intersects_eq_false (hrest y hy).validateBounds (hx y hy) e he
    obtain ⟨all, hall, hpermall⟩ := Run.refine hrest
      (fun y hy => hcontains y (List.mem_cons_of_mem x hy)) hapart hrun'
      (hperm'.trans (by rw [List.append_assoc]; exact List.perm_append_comm_assoc ..)) hdone'
    exact ⟨all, hall, by rwa [List.append_assoc] at hpermall⟩

/-- The edits of pieces that do not intersect fit into a base that contains the
pieces, and make the same text as the edits within them. -/
theorem exists_refined {α : Type} {base : Span} {span : α → Span} {whole within : α → List Edit}
    {pieces : List α} (hbase : s.validateBounds base.toBounds = .ok ())
    (hrefines : ∀ x ∈ pieces, Refines s (span x) (whole x) (within x))
    (hcontains : ∀ x ∈ pieces, base.contains (span x) = true)
    (hapart : pieces.Pairwise fun x y => (span x).intersects (span y) = false) :
    ∃ a b text refined, base = window s a b ∧ Splices s a b (pieces.flatMap whole) text ∧
      Run s a b refined text ∧ refined.Perm (pieces.flatMap within) := by
  have hsound : IsSound ⟨s, base, pieces.flatMap whole⟩ := by
    refine ⟨hbase, fun e he => ?_,
      List.pairwise_flatMap.2 ⟨fun x hx => (hrefines x hx).pairwise, ?_⟩⟩
    · obtain ⟨x, hx, he⟩ := List.mem_flatMap.1 he
      rw [(hrefines x hx).target_eq e he]
      exact ⟨(hrefines x hx).validateBounds, hcontains x hx⟩
    · refine hapart.imp_of_mem fun {x y} hx hy hxy e he f hf => ?_
      unfold Edit.Apart
      rwa [(hrefines x hx).target_eq e he, (hrefines y hy).target_eq f hf]
  obtain ⟨a, b, text, hwindow, hsplices⟩ := hsound.splices
  dsimp only at hwindow hsplices
  obtain ⟨refined, hrun, hperm⟩ := Run.refine hrefines (hwindow ▸ hcontains) hapart hsplices.run
    (Edit.perm_sort _) (List.forall_mem_nil _)
  exact ⟨a, b, text, refined, hwindow, hsplices, hrun, hperm⟩

end Reprint.Patch
