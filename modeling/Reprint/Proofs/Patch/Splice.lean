import Reprint.Patch.Basic
import Reprint.Proofs.Source.Place

/-!
# The text of a patch, piece by piece

`Patch.Splices s a b edits text` says that the edits fit into the piece of
the source between two offsets, do not intersect, and make `text` of it.
Then a patch of that piece accepts all of them (`Splices.compatible`) and
has that text (`Splices.patch_text`).

Edits are added in the order in which a revision comes upon them, which
is not their order in the source.  `Splices.cut` takes such a list apart
at an offset: the text is that of the edits on the left followed by that
of the edits on the right, however the two lists were interleaved.

`Patch.Makes` says the same of positions instead of offsets.
-/

namespace Reprint

open Reprint.Tree

namespace Edit

/-- Whether the targets of two edits have a character in common, or one of
them lies strictly within the other. -/
def Apart (e f : Edit) : Prop := e.target.intersects f.target = false

theorem Apart.symm {e f : Edit} (h : e.Apart f) : f.Apart e := by
  unfold Apart at *
  rwa [Span.intersects_comm]

/-! ## The order of edits -/

/-- An edit goes before all edits of the second list that it applies
before, so its place is found in the first. -/
theorem place_append_of_before {e : Edit} {xs ys : List Edit} (h : ∀ y ∈ ys, e.before y = true) :
    e.place (xs ++ ys) = e.place xs ++ ys := by
  induction xs with
  | nil =>
    cases ys with
    | nil => rfl
    | cons y rest => simp [place, h y List.mem_cons_self]
  | cons x rest ih =>
    rw [List.cons_append, place, place]
    split
    · rfl
    · rw [ih, List.cons_append]

/-- An edit goes behind all edits that it does not apply before. -/
theorem place_append_of_not_before {e : Edit} {xs ys : List Edit}
    (h : ∀ x ∈ xs, e.before x = false) : e.place (xs ++ ys) = xs ++ e.place ys := by
  induction xs with
  | nil => rfl
  | cons x rest ih =>
    rw [List.cons_append, place, h x List.mem_cons_self, ih fun y hy => h y (List.mem_cons_of_mem _ hy)]
    simp

theorem mem_place {e f : Edit} {xs : List Edit} : f ∈ e.place xs ↔ f = e ∨ f ∈ xs := by
  induction xs with
  | nil => simp [place]
  | cons x rest ih =>
    rw [place]
    split
    · simp
    · simp [ih, or_left_comm]

/-- The edits in the order in which they apply. -/
def sort (edits : List Edit) : List Edit := edits.foldl (fun placed e => e.place placed) []

theorem foldl_place_of_before (xs ys : List Edit) {edits : List Edit}
    (h : ∀ e ∈ edits, ∀ y ∈ ys, e.before y = true) :
    edits.foldl (fun placed e => e.place placed) (xs ++ ys) =
      edits.foldl (fun placed e => e.place placed) xs ++ ys := by
  induction edits generalizing xs with
  | nil => rfl
  | cons e rest ih =>
    rw [List.foldl_cons, List.foldl_cons, place_append_of_before (h e List.mem_cons_self)]
    exact ih _ fun f hf => h f (List.mem_cons_of_mem _ hf)

theorem foldl_place_of_not_before (xs ys : List Edit) {edits : List Edit}
    (h : ∀ e ∈ edits, ∀ x ∈ xs, e.before x = false) :
    edits.foldl (fun placed e => e.place placed) (xs ++ ys) =
      xs ++ edits.foldl (fun placed e => e.place placed) ys := by
  induction edits generalizing ys with
  | nil => rfl
  | cons e rest ih =>
    rw [List.foldl_cons, List.foldl_cons, place_append_of_not_before (h e List.mem_cons_self)]
    exact ih _ fun f hf => h f (List.mem_cons_of_mem _ hf)

theorem mem_sort {e : Edit} {edits : List Edit} : e ∈ sort edits ↔ e ∈ edits := by
  have hfold : ∀ (edits placed : List Edit),
      e ∈ edits.foldl (fun placed e => e.place placed) placed ↔ e ∈ edits ∨ e ∈ placed := by
    intro edits
    induction edits with
    | nil => simp
    | cons f rest ih =>
      intro placed
      rw [List.foldl_cons, ih, mem_place, List.mem_cons]
      rw [or_assoc, or_left_comm]
  exact (hfold edits []).trans (by simp)

theorem sort_append (xs ys : List Edit) :
    sort (xs ++ ys) = ys.foldl (fun placed e => e.place placed) (sort xs) :=
  List.foldl_append

/-- Two interleaved lists are sorted one after the other if no edit of the
second applies before one of the first.  An edit of the first that was added
behind one of the second has to apply strictly before it. -/
theorem sort_interleaved {first second third fourth : List Edit}
    (h : ∀ e ∈ first ++ third, ∀ f ∈ second ++ fourth, f.before e = false)
    (hthird : ∀ e ∈ third, ∀ f ∈ second, e.before f = true) :
    sort (first ++ second ++ (third ++ fourth)) = sort (first ++ third) ++ sort (second ++ fourth) := by
  have hsecond : sort (first ++ second) = sort first ++ sort second := by
    have := foldl_place_of_not_before (sort first) [] fun f (hf : f ∈ second) e he =>
      h e (by simp [mem_sort.1 he]) f (by simp [hf])
    rwa [List.append_nil, ← sort_append] at this
  have hinner : third.foldl (fun placed e => e.place placed) (sort first ++ sort second) =
      sort (first ++ third) ++ sort second := by
    rw [foldl_place_of_before _ _ fun e he f hf => hthird e he f (mem_sort.1 hf), ← sort_append]
  rw [sort_append, List.foldl_append, hsecond, hinner,
    foldl_place_of_not_before _ _ fun f hf e he => h e (mem_sort.1 he) f (by simp [hf]),
    ← sort_append]

end Edit

namespace Patch

/-! ## Sorted edits -/

/-- The text that sorted edits make of a piece of the source. -/
inductive Run (s : Source) : Nat → Nat → List Edit → Text → Prop
  | nil {a b : Nat} (order : a ≤ b) (bound : b ≤ s.charCount) : Run s a b [] (s.text.piece a b)
  | cons {a b c d : Nat} {e : Edit} {rest : List Edit} {text : Text} (start : a ≤ c) (order : c ≤ d)
      (target : e.target = window s c d) (tail : Run s d b rest text) :
      Run s a b (e :: rest) (s.text.piece a c ++ e.text ++ text)

namespace Run

variable {s : Source} {a b c : Nat} {edits : List Edit} {text : Text}

theorem le (h : Run s a b edits text) : a ≤ b ∧ b ≤ s.charCount := by
  induction h with
  | nil order bound => exact ⟨order, bound⟩
  | cons start order _ _ ih => omega

/-- The targets of the edits lie in the piece. -/
theorem target (h : Run s a b edits text) :
    ∀ e ∈ edits, ∃ c d, a ≤ c ∧ c ≤ d ∧ d ≤ b ∧ e.target = window s c d := by
  induction h with
  | nil => simp
  | cons start order target tail ih =>
    intro e he
    have hle := tail.le
    rcases List.mem_cons.1 he with rfl | he
    · exact ⟨_, _, start, order, hle.1, target⟩
    · obtain ⟨c, d, hc, hcd, hd, htarget⟩ := ih e he
      exact ⟨c, d, by omega, hcd, hd, htarget⟩

/-- More text of the source in front. -/
theorem extend (h : Run s c b edits text) (hac : a ≤ c) :
    Run s a b edits (s.text.piece a c ++ text) := by
  cases h with
  | nil order bound =>
    rw [Text.piece_append hac order]
    exact .nil (by omega) bound
  | cons start order target tail =>
    rw [List.append_assoc, ← List.append_assoc (s.text.piece a c), Text.piece_append hac start,
      ← List.append_assoc]
    exact .cons (by omega) order target tail

/-- More text of the source behind. -/
theorem widen {d : Nat} (h : Run s a c edits text) (hcd : c ≤ d) (hd : d ≤ s.charCount) :
    Run s a d edits (text ++ s.text.piece c d) := by
  induction h with
  | nil order _ =>
    rw [Text.piece_append order hcd]
    exact .nil (by omega) hd
  | cons start order target _ ih =>
    rw [List.append_assoc]
    exact .cons start order target (ih hcd)

theorem append {more : List Edit} {rest : Text} (h : Run s a c edits text)
    (hmore : Run s c b more rest) : Run s a b (edits ++ more) (text ++ rest) := by
  induction h with
  | nil order _ => exact hmore.extend order
  | cons start order target _ ih =>
    rw [List.append_assoc]
    exact .cons start order target (ih hmore)

/-- The segments of sorted edits read as their text. -/
theorem mapM_segments (h : Run s a b edits text) :
    ∃ pieces, (segmentsFrom (s.place b) (s.place a) edits).mapM (segmentText s) = .ok pieces ∧
      pieces.flatten = text := by
  induction h with
  | @nil a b order bound =>
    refine ⟨[s.text.piece a b], ?_, by simp⟩
    simp only [segmentsFrom, List.mapM_cons, List.mapM_nil, segmentText,
      Source.extract_place order bound]
    rfl
  | @cons a b c d e rest text start order target tail ih =>
    obtain ⟨pieces, hpieces, htext⟩ := ih
    have hle := tail.le
    refine ⟨s.text.piece a c :: e.text :: pieces, ?_, by simp [htext]⟩
    have hstart : e.target.start = s.place c := by rw [target, start_window order (by omega)]
    have hstop : e.target.stop = s.place d := by rw [target, stop_window order (by omega)]
    simp only [segmentsFrom, List.mapM_cons, segmentText, hstart, hstop,
      Source.extract_place start (by omega : c ≤ s.charCount), hpieces]
    rfl

end Run

/-! ## Edits in any order -/

/-- The edits fit into the piece of the source between two offsets and make
a text of it. -/
structure Splices (s : Source) (a b : Nat) (edits : List Edit) (text : Text) : Prop where
  apart : edits.Pairwise Edit.Apart
  run : Run s a b (Edit.sort edits) text

theorem ofBase_eq_ok_iff {source : Source} {base : Span} {p : Patch} :
    ofBase source base = .ok p ↔
      source.validateBounds base.toBounds = .ok () ∧ p = ⟨source, base, []⟩ := by
  unfold ofBase
  cases source.validateBounds base.toBounds with
  | error e => simp [bind, Except.bind]
  | ok _ => simp [bind, Except.bind, pure, Except.pure, eq_comm]

/-- The edits can be added to a patch one after the other. -/
structure Compatible (p : Patch) (edits : List Edit) : Prop where
  fits : ∀ e ∈ edits, p.source.validateBounds e.target.toBounds = .ok () ∧
    p.base.contains e.target = true
  apart : (p.edits ++ edits).Pairwise Edit.Apart

/-- A patch with more edits. -/
def extend (p : Patch) (edits : List Edit) : Patch := { p with edits := p.edits ++ edits }

@[simp] theorem extend_nil (p : Patch) : p.extend [] = p := by simp [extend]

theorem extend_append (p : Patch) (first second : List Edit) :
    p.extend (first ++ second) = (p.extend first).extend second := by
  simp [extend]

theorem Compatible.left {p : Patch} {first second : List Edit} (h : p.Compatible (first ++ second)) :
    p.Compatible first where
  fits e he := h.fits e (List.mem_append_left _ he)
  apart := by
    have happart := h.apart
    rw [← List.append_assoc, List.pairwise_append] at happart
    exact happart.1

theorem Compatible.right {p : Patch} {first second : List Edit} (h : p.Compatible (first ++ second)) :
    (p.extend first).Compatible second where
  fits e he := h.fits e (List.mem_append_right _ he)
  apart := by
    have happart := h.apart
    rwa [← List.append_assoc] at happart

/-- A compatible edit is accepted. -/
theorem add_of_compatible {p : Patch} {e : Edit} (h : p.Compatible [e]) :
    p.add e = .ok (p.extend [e]) := by
  obtain ⟨hvalid, hbase⟩ := h.fits e List.mem_cons_self
  have hfind : p.edits.find? (fun earlier => earlier.target.intersects e.target) = none := by
    rw [List.find?_eq_none]
    intro f hf hintersects
    have happart := h.apart
    rw [List.pairwise_append] at happart
    have : f.target.intersects e.target = false := happart.2.2 f hf e List.mem_cons_self
    rw [this] at hintersects
    cases hintersects
  unfold add
  rw [hvalid, hbase, hfind]
  rfl

namespace Splices

variable {s : Source} {a b c : Nat} {edits : List Edit} {text : Text}

theorem le (h : Splices s a b edits text) : a ≤ b ∧ b ≤ s.charCount := h.run.le

theorem target (h : Splices s a b edits text) :
    ∀ e ∈ edits, ∃ c d, a ≤ c ∧ c ≤ d ∧ d ≤ b ∧ e.target = window s c d :=
  fun e he => h.run.target e (Edit.mem_sort.2 he)

theorem nil (hab : a ≤ b) (hb : b ≤ s.charCount) : Splices s a b [] (s.text.piece a b) :=
  ⟨.nil, .nil hab hb⟩

/-- One edit. -/
theorem single {d : Nat} (e : Edit) (hac : a ≤ c) (hcd : c ≤ d) (hdb : d ≤ b) (hb : b ≤ s.charCount)
    (htarget : e.target = window s c d) :
    Splices s a b [e] (s.text.piece a c ++ e.text ++ s.text.piece d b) :=
  ⟨List.pairwise_singleton _ _, .cons hac hcd htarget (.nil hdb hb)⟩

/-- Two interleaved lists of edits on both sides of an offset.  Those on the
left that were added behind some on the right start in front of the offset. -/
theorem cut (first second third fourth : List Edit) {left right : Text}
    (hleft : Splices s a c (first ++ third) left) (hright : Splices s c b (second ++ fourth) right)
    (hthird : ∀ e ∈ third, e.target.start < s.place c) :
    Splices s a b (first ++ second ++ (third ++ fourth)) (left ++ right) := by
  have hb := hright.le
  have hsides : ∀ e ∈ first ++ third, ∀ f ∈ second ++ fourth,
      f.before e = false ∧ e.Apart f ∧ (e.target.start < s.place c → e.before f = true) := by
    intro e he f hf
    obtain ⟨c₁, d₁, h₁, hcd₁, hd₁, htarget₁⟩ := hleft.target e he
    obtain ⟨c₂, d₂, h₂, hcd₂, hd₂, htarget₂⟩ := hright.target f hf
    unfold Edit.before Edit.Apart
    rw [← Bool.not_eq_true (Span.intersects ..), htarget₁, htarget₂,
      intersects_window hcd₁ (by omega) hcd₂ (by omega), start_window hcd₁ (by omega),
      start_window hcd₂ (by omega), stop_window hcd₁ (by omega), stop_window hcd₂ (by omega)]
    simp only [Bool.or_eq_false_iff, Bool.and_eq_false_iff, Bool.or_eq_true, decide_eq_false_iff_not,
      decide_eq_true_eq, Source.place_lt_place (by omega : c₂ ≤ s.charCount) (by omega : c₁ ≤ s.charCount),
      Source.place_lt_place (by omega : d₂ ≤ s.charCount) (by omega : d₁ ≤ s.charCount),
      Source.place_lt_place (by omega : c₁ ≤ s.charCount) (by omega : c₂ ≤ s.charCount),
      Source.place_lt_place (by omega : c₁ ≤ s.charCount) (by omega : c ≤ s.charCount)]
    exact ⟨⟨by omega, Or.inr (by omega)⟩, by omega, fun hlt => Or.inl (by omega)⟩
  constructor
  · have happart := hleft.apart
    have happart' := hright.apart
    rw [List.pairwise_append] at happart happart'
    simp only [List.pairwise_append, List.mem_append] at hsides ⊢
    refine ⟨⟨happart.1, happart'.1, fun e he f hf => (hsides e (Or.inl he) f (Or.inl hf)).2.1⟩,
      ⟨happart.2.1, happart'.2.1, fun e he f hf => (hsides e (Or.inr he) f (Or.inr hf)).2.1⟩, ?_⟩
    rintro e (he | he) f (hf | hf)
    · exact happart.2.2 e he f hf
    · exact (hsides e (Or.inl he) f (Or.inr hf)).2.1
    · exact (hsides f (Or.inr hf) e (Or.inl he)).2.1.symm
    · exact happart'.2.2 e he f hf
  · rw [Edit.sort_interleaved (fun e he f hf => (hsides e he f hf).1) fun e he f hf =>
      (hsides e (List.mem_append_right _ he) f (List.mem_append_left _ hf)).2.2 (hthird e he)]
    exact hleft.run.append hright.run

/-- Edits on the left of an offset followed by edits on the right. -/
theorem append {more : List Edit} {rest : Text} (h : Splices s a c edits text)
    (hmore : Splices s c b more rest) : Splices s a b (edits ++ more) (text ++ rest) := by
  have := cut edits more [] [] (by simpa using h) (by simpa using hmore) (by simp)
  simpa using this

/-- More text of the source in front. -/
theorem extend (h : Splices s c b edits text) (hac : a ≤ c) :
    Splices s a b edits (s.text.piece a c ++ text) :=
  ⟨h.apart, h.run.extend hac⟩

/-- More text of the source behind. -/
theorem widen {d : Nat} (h : Splices s a c edits text) (hcd : c ≤ d) (hd : d ≤ s.charCount) :
    Splices s a d edits (text ++ s.text.piece c d) :=
  ⟨h.apart, h.run.widen hcd hd⟩

/-- An insertion at the start of the piece that was added first. -/
theorem insert (h : Splices s a b edits text) (e : Edit) (htarget : e.target = window s a a) :
    Splices s a b (e :: edits) (e.text ++ text) := by
  have hle := h.le
  have hrest : ∀ f ∈ edits, f.before e = false ∧ e.Apart f := by
    intro f hf
    obtain ⟨c, d, hc, hcd, hd, hf⟩ := h.target f hf
    constructor
    · unfold Edit.before
      rw [htarget, hf, start_window hcd (by omega), start_window (Nat.le_refl a) (by omega),
        stop_window hcd (by omega), stop_window (Nat.le_refl a) (by omega)]
      simp only [Bool.or_eq_false_iff, Bool.and_eq_false_iff, decide_eq_false_iff_not,
        Source.place_lt_place (by omega : c ≤ s.charCount) (by omega : a ≤ s.charCount),
        Source.place_lt_place (by omega : d ≤ s.charCount) (by omega : a ≤ s.charCount)]
      exact ⟨by omega, Or.inr (by omega)⟩
    · unfold Edit.Apart
      rw [← Bool.not_eq_true, htarget, hf, intersects_window (Nat.le_refl a) (by omega) hcd (by omega)]
      omega
  refine ⟨List.pairwise_cons.2 ⟨fun f hf => (hrest f hf).2, h.apart⟩, ?_⟩
  have hsort : Edit.sort (e :: edits) = e :: Edit.sort edits := by
    have := Edit.foldl_place_of_not_before [e] [] (by
      intro f hf x hx
      rw [List.mem_singleton.1 hx]
      exact (hrest f hf).1 : ∀ f ∈ edits, ∀ x ∈ [e], f.before x = false)
    rwa [List.append_nil] at this
  rw [hsort, ← List.nil_append (e.text ++ text), ← Text.piece_self s.text a, ← List.append_assoc]
  exact .cons (Nat.le_refl a) (Nat.le_refl a) htarget h.run

/-- A patch of the piece accepts the edits. -/
theorem compatible (h : Splices s a b edits text) :
    (⟨s, window s a b, []⟩ : Patch).Compatible edits where
  fits e he := by
    have hle := h.le
    obtain ⟨c, d, hc, hcd, hd, htarget⟩ := h.target e he
    rw [htarget]
    have hd : d ≤ s.charCount := by omega
    exact ⟨validateBounds_window hcd hd,
      (contains_window hle.1 hle.2 hcd hd).2 ⟨hc, by omega⟩⟩
  apart := h.apart

/-- The text of the patch. -/
theorem patch_text (h : Splices s a b edits text) :
    (⟨s, window s a b, edits⟩ : Patch).text = .ok text := by
  obtain ⟨pieces, hpieces, htext⟩ := h.run.mapM_segments
  have hle := h.le
  have hsegments : (⟨s, window s a b, edits⟩ : Patch).segments =
      segmentsFrom (s.place b) (s.place a) (Edit.sort edits) := by
    unfold segments
    rw [start_window hle.1 hle.2, stop_window hle.1 hle.2]
    rfl
  unfold Patch.text
  rw [hsegments, hpieces]
  exact congrArg Except.ok htext

end Splices

/-! ## Between positions -/

/-- A valid span is the window between two offsets. -/
theorem exists_window {s : Source} {t : Span} (h : s.validateBounds t.toBounds = .ok ()) :
    ∃ c d, c ≤ d ∧ d ≤ s.charCount ∧ t = window s c d := by
  obtain ⟨c, d, hcd, hd, hstart, hstop⟩ := Source.exists_place_of_validateBounds h
  refine ⟨c, d, hcd, hd, Span.ext ?_ ?_⟩
  · rw [hstart, start_window hcd hd]
  · rw [hstop, stop_window hcd hd]

/-- The edits fit into the piece of the source between two positions and make
a text of it. -/
def Makes (s : Source) (p q : Position) (edits : List Edit) (text : Text) : Prop :=
  ∃ a b, p = s.place a ∧ q = s.place b ∧ Splices s a b edits text

namespace Makes

variable {s : Source} {p q r : Position} {edits more : List Edit} {text rest : Text}

/-- Without edits the text stays as it is. -/
theorem nil (hp : s.isValid p = true) (hq : s.isValid q = true) (hpq : p ≤ q) :
    Makes s p q [] (s.slice ⟨p, q⟩) := by
  obtain ⟨a, ha, rfl⟩ := Source.exists_place_of_isValid hp
  obtain ⟨b, hb, rfl⟩ := Source.exists_place_of_isValid hq
  rw [Source.place_le_place ha hb] at hpq
  rw [Source.slice_place s hpq hb]
  exact ⟨a, b, rfl, rfl, .nil hpq hb⟩

/-- One edit of the whole piece. -/
theorem single {e : Edit} (h : s.validateBounds e.target.toBounds = .ok ()) :
    Makes s e.target.start e.target.stop [e] e.text := by
  obtain ⟨a, b, hab, hb, htarget⟩ := exists_window h
  have hsingle := Splices.single e (Nat.le_refl a) hab (Nat.le_refl b) hb htarget
  rw [Text.piece_self, Text.piece_self, List.append_nil] at hsingle
  exact ⟨a, b, by rw [htarget, start_window hab hb], by rw [htarget, stop_window hab hb], hsingle⟩

/-- Interleaved edits on both sides of a position.  Those on the left that were
added behind some on the right are not empty. -/
theorem cut (first second third fourth : List Edit) {left right : Text}
    (hleft : Makes s p q (first ++ third) left) (hright : Makes s q r (second ++ fourth) right)
    (hthird : ∀ e ∈ third, e.target.isEmpty = false) :
    Makes s p r (first ++ second ++ (third ++ fourth)) (left ++ right) := by
  obtain ⟨a, b, rfl, rfl, hleft⟩ := hleft
  obtain ⟨b', c, hb, rfl, hright⟩ := hright
  have hle := hleft.le
  have hle' := hright.le
  obtain rfl := (Source.place_inj (by omega) (by omega)).1 hb
  refine ⟨a, c, rfl, rfl, Splices.cut first second third fourth hleft hright fun e he => ?_⟩
  obtain ⟨j, k, hj, hjk, hk, htarget⟩ := hleft.target e (List.mem_append_right _ he)
  have hne := hthird e he
  rw [htarget, ← Bool.not_eq_true, isEmpty_window hjk (by omega)] at hne
  rw [htarget, start_window hjk (by omega), Source.place_lt_place (by omega) (by omega)]
  omega

/-- Edits on the left of a position followed by edits on the right. -/
theorem append (h : Makes s p q edits text) (hmore : Makes s q r more rest) :
    Makes s p r (edits ++ more) (text ++ rest) := by
  have := cut edits more [] [] (by simpa using h) (by simpa using hmore) (by simp)
  simpa using this

theorem congr {text' : Text} (h : Makes s p q edits text) (htext : text = text') :
    Makes s p q edits text' := htext ▸ h

/-- An insertion in front of the piece that was added first. -/
theorem insert (h : Makes s p q edits text) (e : Edit) (htarget : e.target = Span.point p) :
    Makes s p q (e :: edits) (e.text ++ text) := by
  obtain ⟨a, b, rfl, rfl, h⟩ := h
  have hle := h.le
  exact ⟨a, b, rfl, rfl, h.insert e (htarget.trans (point_place (by omega)))⟩

/-- The text of a patch of the piece. -/
theorem patch_text {span : Span} (h : Makes s span.start span.stop edits text) :
    (⟨s, span, edits⟩ : Patch).text = .ok text := by
  obtain ⟨a, b, hstart, hstop, h⟩ := h
  have hle := h.le
  have hspan : span = window s a b := by
    refine Span.ext ?_ ?_
    · rw [hstart, start_window hle.1 hle.2]
    · rw [hstop, stop_window hle.1 hle.2]
  rw [hspan]
  exact h.patch_text

/-- The targets of the edits are valid and lie in the piece. -/
theorem target (h : Makes s p q edits text) : ∀ e ∈ edits,
    s.validateBounds e.target.toBounds = .ok () ∧ p ≤ e.target.start ∧ e.target.stop ≤ q := by
  obtain ⟨a, b, rfl, rfl, h⟩ := h
  intro e he
  have hle := h.le
  obtain ⟨c, d, hac, hcd, hdb, htarget⟩ := h.target e he
  rw [htarget, start_window hcd (by omega), stop_window hcd (by omega),
    Source.place_le_place (by omega) (by omega), Source.place_le_place (by omega) (by omega)]
  exact ⟨validateBounds_window hcd (by omega), hac, hdb⟩

/-- A patch with no edits of the piece so far accepts the edits. -/
theorem compatible {patch : Patch} {span : Span} (h : Makes s span.start span.stop edits text)
    (hsource : patch.source = s) (hbase : patch.base.contains span = true)
    (hapart : patch.edits.Pairwise Edit.Apart)
    (hclear : ∀ e ∈ patch.edits, e.target.stop ≤ span.start ∨ span.stop ≤ e.target.start) :
    patch.Compatible edits where
  fits e he := by
    obtain ⟨hvalid, hstart, hstop⟩ := h.target e he
    rw [hsource]
    exact ⟨hvalid, Span.contains_trans hbase (Span.contains_iff.2 ⟨hstart, hstop⟩)⟩
  apart := by
    obtain ⟨a, b, _, _, hsplices⟩ := id h
    refine List.pairwise_append.2 ⟨hapart, hsplices.apart, fun e he f hf => ?_⟩
    obtain ⟨_, hstart, hstop⟩ := h.target f hf
    unfold Edit.Apart Span.intersects
    rw [Bool.and_eq_false_iff, decide_eq_false_iff_not, decide_eq_false_iff_not]
    rcases hclear e he with hbefore | hbehind
    · exact Or.inr fun hlt => Position.not_le.2 hlt (Position.le_trans hbefore hstart)
    · exact Or.inl fun hlt => Position.not_le.2 hlt (Position.le_trans hstop hbehind)

end Makes

end Patch

end Reprint
