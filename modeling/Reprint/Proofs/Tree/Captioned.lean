import Reprint.Proofs.Tree.Captions
import Reprint.Proofs.Tree.Quiet
import Reprint.Proofs.Tree.Ready
import Reprint.Proofs.Tree.Revises
import Reprint.Proofs.Tree.Unsearched

/-!
# Objects made of literals

This is about an object whose parts are captions and whose span is the whole
source.  Locating it always succeeds and finds of every caption what
`Caption.seek` says (`Lone.locateParts`), because only the pieces found before
are in the way of a search.  Printing it gives `Caption.rendered`
(`Captioned.printRoot`).

So it depends on the places of the literals alone whether the source is printed
again: `printRoot_captions`.
-/

namespace Reprint

open Reprint.Tree

variable {M O : Type}

/-- Text that is hung is empty only if it was. -/
theorem Text.eq_nil_of_hang {indentation t : Text} (h : Text.hang indentation t = []) : t = [] := by
  unfold Text.hang at h
  cases hlines : t.lines with
  | nil => exact absurd hlines (Text.lines_ne_nil t)
  | cons first rest =>
    rw [hlines] at h
    cases rest with
    | nil => rw [← Text.unlines_lines t, hlines]; exact h
    | cons second rest =>
      dsimp only at h
      rw [List.map_cons, Text.unlines_cons_of_ne_nil (List.cons_ne_nil _ _)] at h
      simp at h

/-! ## Locating captions -/

namespace Tree

/-- A tree of one node, which covers the source. -/
structure Lone (text : Text) (t : Tree M O) (n : Node M O) : Prop where
  nodes : t.nodes = #[n]
  source : t.source = .ofText text
  top : n.ancestors = []
  covers : n.span? = some (Source.ofText text).fullSpan

/-- The pieces that were found end at an offset or in front of it, and one of
them does end there. -/
structure Marked (text : Text) (c : Nat) (marks : List Mark) : Prop where
  within : ∀ mark ∈ marks, ∃ u v, u ≤ v ∧ v ≤ c ∧ mark.span = window (.ofText text) u v
  last : c = 0 ∨ ∃ mark ∈ marks, ∃ u, u < c ∧ mark.span = window (.ofText text) u c

variable {text literal : Text} {t : Tree M O} {n : Node M O} {a b c e u v : Nat} {marks : List Mark}

theorem fullSpan_ofText (text : Text) :
    (Source.ofText text).fullSpan = window (.ofText text) 0 text.length := by
  have hstop := (Source.ofText text).place_charCount
  rw [Source.charCount_ofText] at hstop
  rw [Source.fullSpan, ← Source.place_zero, ← hstop]
  rfl

namespace Lone

theorem withMarks (h : Lone text t n) (marks : List Mark) : Lone text { t with marks := marks } n :=
  ⟨h.nodes, h.source, h.top, h.covers⟩

theorem node (h : Lone text t n) : t.nodes[root]? = some n := by
  rw [h.nodes]
  rfl

theorem lineage (h : Lone text t n) : t.lineage root = [root] := by
  rw [lineage_eq h.node, h.top]

theorem place (h : Lone text t n) :
    ∃ p, n.place = some p ∧ p.span = window (.ofText text) 0 text.length := by
  have hcovers := h.covers
  rw [fullSpan_ofText] at hcovers
  exact Option.map_eq_some_iff.1 hcovers

/-- Only marks are in the way of the root. -/
theorem blocks_iff (h : Lone text t n) {span : Span} :
    t.blocks (t.lineage root) span = false ↔
      ∀ mark ∈ t.marks, mark.span.intersects span = false := by
  rw [blocks_eq_false, h.lineage]
  refine ⟨fun hfree => hfree.2, fun hfree => ⟨fun id own hid hown => ?_, hfree⟩⟩
  obtain ⟨k, hk, _⟩ := spanOf_eq_some.1 hown
  have hlt := lt_size_of_node hk
  rw [h.nodes] at hlt
  exact absurd (List.mem_singleton.2 (Nat.lt_one_iff.1 hlt)) hid

/-- A mark in the source changes nothing else. -/
theorem mark (h : Lone text t n) (role : Role) (huv : u ≤ v) (hv : v ≤ text.length) :
    t.mark root role (window (.ofText text) u v) =
      .ok { t with marks := t.marks ++ [⟨root, role, window (.ofText text) u v⟩] } := by
  have hcount := Source.charCount_ofText text
  rw [mark_of_valid (by rw [h.source]; exact validateBounds_window huv (by omega))]
  refine congrArg Except.ok (grow_eq_self fun y hy k p hk hp => ?_)
  have hmarked := h.withMarks (t.marks ++ [⟨root, role, window (.ofText text) u v⟩])
  rw [hmarked.lineage, List.mem_singleton] at hy
  obtain ⟨q, hq, hspan⟩ := h.place
  rw [hy, hmarked.node, Option.some.injEq] at hk
  rw [← hk, hq, Option.some.injEq] at hp
  rw [← hp, hspan, contains_window (Nat.zero_le _) (by omega) huv (by omega)]
  omega

/-- A search forward from where the marks end. -/
theorem findForward (h : Lone text t n) (ha : a ≤ text.length)
    (hmarks : ∀ mark ∈ t.marks, ∃ u v, u ≤ v ∧ v ≤ a ∧ mark.span = window (.ofText text) u v) :
    t.findForward root ((Source.ofText text).place a) literal =
      .ok ((text.firstMatch literal a).map fun p => window (.ofText text) p (p + literal.length)) := by
  have hcount := Source.charCount_ofText text
  rw [← h.source]
  refine (findForward_of_free h.node h.source ha fun u v hau huv hv => ?_).trans (by rw [h.source])
  rw [h.blocks_iff]
  intro mark hmark
  obtain ⟨u', v', huv', hv', hspan⟩ := hmarks mark hmark
  rw [hspan, h.source, ← Bool.not_eq_true, intersects_window huv' (by omega) huv (by omega)]
  omega

/-- A search backward from the literal that was found last. -/
theorem findBackward (h : Lone text t n) (hmarked : Marked text a marks) (hab : a ≤ b) (hbe : b ≤ e)
    (he : e ≤ text.length) (hliteral : literal ≠ [])
    (hmarks : t.marks = marks ++ [⟨root, .literal, window (.ofText text) b e⟩]) :
    t.findBackward root ((Source.ofText text).place b) literal =
      .ok ((text.lastMatch literal a b).map fun p => window (.ofText text) p (p + literal.length)) := by
  have hcount := Source.charCount_ofText text
  rw [← h.source]
  refine (findBackward_of_blocked h.node h.source hab (by omega) hliteral
    (fun u v hau huv hv => ?_) fun u v hua hav huv hv => ?_).trans (by rw [h.source])
  · rw [h.blocks_iff, hmarks, h.source]
    intro mark hmark
    rcases List.mem_append.1 hmark with hmark | hmark
    · obtain ⟨u', v', huv', hv', hspan⟩ := hmarked.within mark hmark
      rw [hspan, ← Bool.not_eq_true, intersects_window huv' (by omega) huv (by omega)]
      omega
    · rw [List.mem_singleton.1 hmark, ← Bool.not_eq_true, intersects_window hbe (by omega) huv (by omega)]
      omega
  · rcases hmarked.last with rfl | ⟨mark, hmark, u', hu', hspan⟩
    · exact absurd hua (Nat.not_lt_zero u)
    · refine Bool.not_eq_false _ ▸ fun hfree => ?_
      have hapart := h.blocks_iff.1 hfree mark (hmarks ▸ List.mem_append_left _ hmark)
      rw [hspan, h.source, ← Bool.not_eq_true, intersects_window (Nat.le_of_lt hu') (by omega)
        (Nat.le_of_lt huv) (by omega)] at hapart
      omega

/-- The literal in front of the one that was found last. -/
theorem locateDelimiter_lead (h : Lone text t n) (hmarked : Marked text a marks) (hab : a ≤ b)
    (hbe : b ≤ e) (he : e ≤ text.length) (lead : Text)
    (hmarks : t.marks = marks ++ [⟨root, .literal, window (.ofText text) b e⟩]) :
    ∃ more, t.locateDelimiter root ((Source.ofText text).place b) lead .lead =
        .ok (Caption.leadFrom text lead a b, { t with marks := t.marks ++ more }) ∧
      ∀ mark ∈ more, ∃ u v, u ≤ v ∧ v ≤ b ∧ mark.span = window (.ofText text) u v := by
  by_cases hlead : lead = []
  · refine ⟨[], ?_, by simp⟩
    rw [locateDelimiter_eq, Caption.leadFrom, if_pos hlead, if_pos (List.isEmpty_iff.2 hlead),
      List.append_nil]
  · have hfind : t.findOutward root ((Source.ofText text).place b) lead .lead = _ :=
      h.findBackward hmarked hab hbe he hlead hmarks
    rw [Caption.leadFrom, if_neg hlead]
    cases hmatch : text.lastMatch lead a b with
    | none =>
      refine ⟨[], ?_, by simp⟩
      rw [hmatch] at hfind
      rw [locateDelimiter_eq, if_neg (mt List.isEmpty_iff.1 hlead), hfind, List.append_nil]
      rfl
    | some q =>
      obtain ⟨_, hqb, _⟩ := Text.lastMatch_eq_some hmatch
      have hcount := Source.charCount_ofText text
      have houtward : outwardSpan ((Source.ofText text).place b)
          (window (.ofText text) q (q + lead.length)) .lead = window (.ofText text) q b := by
        show Span.between (window _ _ _).start _ = _
        rw [start_window (by omega) (by omega)]
        rfl
      refine ⟨[⟨root, .lead, window (.ofText text) q b⟩], ?_, fun mark hmark => ?_⟩
      · rw [hmatch] at hfind
        rw [locateDelimiter_eq, if_neg (mt List.isEmpty_iff.1 hlead), hfind]
        simp only [Option.map_some, houtward, h.mark .lead (by omega : q ≤ b) (by omega)]
      · rw [List.mem_singleton.1 hmark]
        exact ⟨q, b, by omega, Nat.le_refl b, rfl⟩

/-- The literal behind everything that was found. -/
theorem locateDelimiter_trail (h : Lone text t n) (he : e ≤ text.length) (trail : Text)
    (hmarks : ∀ mark ∈ t.marks, ∃ u v, u ≤ v ∧ v ≤ e ∧ mark.span = window (.ofText text) u v) :
    ∃ more, t.locateDelimiter root ((Source.ofText text).place e) trail .trail =
        .ok ((Caption.trailFrom text trail e).1, { t with marks := t.marks ++ more }) ∧
      (more = [] ∧ (Caption.trailFrom text trail e).2 = e ∨ ∃ next, e < next ∧
        (Caption.trailFrom text trail e).2 = next ∧
        more = [⟨root, .trail, window (.ofText text) e next⟩]) := by
  by_cases htrail : trail = []
  · rw [Caption.trailFrom, if_pos htrail]
    refine ⟨[], ?_, Or.inl ⟨rfl, rfl⟩⟩
    rw [locateDelimiter_eq, if_pos (List.isEmpty_iff.2 htrail), List.append_nil]
  · have hfind : t.findOutward root ((Source.ofText text).place e) trail .trail = _ :=
      h.findForward he hmarks
    rw [Caption.trailFrom, if_neg htrail]
    cases hmatch : text.firstMatch trail e with
    | none =>
      refine ⟨[], ?_, Or.inl ⟨rfl, rfl⟩⟩
      rw [hmatch] at hfind
      rw [locateDelimiter_eq, if_neg (mt List.isEmpty_iff.1 htrail), hfind, List.append_nil]
      rfl
    | some q =>
      obtain ⟨heq, hq, _⟩ := Text.firstMatch_eq_some hmatch
      have hpos := List.length_pos_iff.2 htrail
      have hcount := Source.charCount_ofText text
      have houtward : outwardSpan ((Source.ofText text).place e)
          (window (.ofText text) q (q + trail.length)) .trail =
          window (.ofText text) e (q + trail.length) := by
        show Span.between _ (window _ _ _).stop = _
        rw [stop_window (by omega) (by omega)]
        rfl
      refine ⟨_, ?_, Or.inr ⟨q + trail.length, by omega, rfl, rfl⟩⟩
      rw [hmatch] at hfind
      rw [locateDelimiter_eq, if_neg (mt List.isEmpty_iff.1 htrail), hfind]
      simp only [Option.map_some, houtward,
        h.mark .trail (by omega : e ≤ q + trail.length) (by omega)]

/-- A caption is located, whatever is found of it. -/
theorem locateLiteral (h : Lone text t n) (hmarked : Marked text c t.marks)
    (hc : c ≤ text.length) (m : M) (x : Caption M) :
    ∃ marks, Tree.locateLiteral ⟨t, (Source.ofText text).place c, none⟩ root x.frame
        (x.wording.text m) {} =
        .ok ((x.seek m text c).1,
          ⟨{ t with marks := marks }, (Source.ofText text).place (x.seek m text c).2, none⟩) ∧
      Marked text (x.seek m text c).2 marks := by
  have hcount := Source.charCount_ofText text
  cases hstart : x.start? m text c with
  | none =>
    refine ⟨t.marks, ?_, ?_⟩
    · have hspan : literalSpan? ⟨t, (Source.ofText text).place c, none⟩ root (x.wording.text m) {} =
          .ok none := by
        unfold Caption.start? at hstart
        unfold literalSpan?
        dsimp only
        split at hstart
        · next hempty => rw [hempty]; rfl
        · next hne =>
          rw [if_neg (mt List.isEmpty_iff.1 hne), h.findForward hc hmarked.within, hstart]
          rfl
      rw [locateLiteral_eq, hspan, Caption.seek_none hstart]
    · rw [Caption.seek_none hstart]
      exact hmarked
  | some p =>
    obtain ⟨hne, hcp, hp, _⟩ := Caption.start?_eq_some hstart
    have hpos := List.length_pos_iff.2 hne
    generalize hlength : (x.wording.text m).length = length at hp hpos
    have hspan : literalSpan? ⟨t, (Source.ofText text).place c, none⟩ root (x.wording.text m) {} =
        .ok (some (window (.ofText text) p (p + length))) := by
      unfold Caption.start? at hstart
      rw [if_neg hne] at hstart
      unfold literalSpan?
      dsimp only
      rw [if_neg (mt List.isEmpty_iff.1 hne), h.findForward hc hmarked.within, hstart, hlength]
      rfl
    have hempty : (window (.ofText text) p (p + length)).isEmpty = false := by
      rw [← Bool.not_eq_true, isEmpty_window (by omega) (by omega)]
      omega
    -- The literal, what is in front of it and what is behind it are marked in this order.
    let t₁ : Tree M O := { t with
      marks := t.marks ++ [⟨root, .literal, window (.ofText text) p (p + length)⟩] }
    have h₁ : Lone text t₁ n := h.withMarks _
    obtain ⟨leads, hlead, hleads⟩ := h₁.locateDelimiter_lead hmarked hcp (by omega) hp x.frame.leadText rfl
    have hwithin : ∀ mark ∈ t₁.marks ++ leads,
        ∃ u v, u ≤ v ∧ v ≤ p + length ∧ mark.span = window (.ofText text) u v := by
      intro mark hmark
      rcases List.mem_append.1 hmark with hmark | hmark
      · rcases List.mem_append.1 hmark with hmark | hmark
        · obtain ⟨u, v, huv, hv, hspan⟩ := hmarked.within mark hmark
          exact ⟨u, v, huv, by omega, hspan⟩
        · rw [List.mem_singleton.1 hmark]
          exact ⟨p, p + length, by omega, Nat.le_refl _, rfl⟩
      · obtain ⟨u, v, huv, hv, hspan⟩ := hleads mark hmark
        exact ⟨u, v, huv, by omega, hspan⟩
    obtain ⟨trails, htrail, htrails⟩ :=
      (h₁.withMarks (t₁.marks ++ leads)).locateDelimiter_trail hp x.frame.trailText hwithin
    refine ⟨t₁.marks ++ leads ++ trails, ?_, ?_⟩
    · have haround : t₁.locateAround root (window (.ofText text) p (p + length)) x.frame.leadText
          x.frame.trailText = .ok (Caption.leadFrom text x.frame.leadText c p,
            (Caption.trailFrom text x.frame.trailText (p + length)).1,
            { t with marks := t₁.marks ++ leads ++ trails }) := by
        unfold locateAround
        rw [start_window (by omega) (by omega), stop_window (by omega) (by omega), hlead]
        simp only [bind, Except.bind]
        rw [htrail]
        rfl
      have hstop : (Caption.trailFrom text x.frame.trailText (p + length)).1.stopBehind
          (window (.ofText text) p (p + length)) =
          (Source.ofText text).place (Caption.trailFrom text x.frame.trailText (p + length)).2 :=
        Caption.stopBehind_trailFrom x.frame.trailText (by omega) hp
      have hmark : t.markLiteral root (window (.ofText text) p (p + length)) = .ok t₁ := by
        unfold markLiteral
        rw [hempty, if_neg Bool.false_ne_true]
        exact h.mark .literal (by omega) hp
      rw [locateLiteral_eq, hspan, Caption.seek_some hstart, hlength]
      simp only [hmark, haround, hstop]
    · rw [Caption.seek_some hstart, hlength]
      rcases htrails with ⟨rfl, hnext⟩ | ⟨next, hlt, hnext, rfl⟩
      · rw [hnext, List.append_nil]
        refine ⟨hwithin, Or.inr ⟨⟨root, .literal, window (.ofText text) p (p + length)⟩, ?_, p, by omega, rfl⟩⟩
        simp [t₁]
      · rw [hnext]
        constructor
        · intro mark hmark
          rcases List.mem_append.1 hmark with hmark | hmark
          · obtain ⟨u, v, huv, hv, hspan⟩ := hwithin mark hmark
            exact ⟨u, v, huv, by omega, hspan⟩
          · rw [List.mem_singleton.1 hmark]
            exact ⟨p + length, next, by omega, Nat.le_refl _, rfl⟩
        · exact Or.inr ⟨_, List.mem_append_right _ List.mem_cons_self, p + length, hlt, rfl⟩

end Lone

section Parts

variable [DecidableEq O] {m : M} {captions : List (Caption M)}

/-- Captions are located one after the other. -/
theorem Lone.locateParts (descend : Nat → Job M O Unit) (m : M) :
    ∀ (captions : List (Caption M)) {c : Nat} {t : Tree M O},
    Lone text t n → Marked text c t.marks → c ≤ text.length →
    ∃ marks, Tree.locateParts descend m root (captions.map Caption.part)
        ⟨t, (Source.ofText text).place c, none⟩ =
      (Caption.sought m text c captions,
        ⟨{ t with marks := marks }, (Source.ofText text).place (Caption.soughtEnd m text c captions), none⟩)
  | [], c, t, _, _, _ => ⟨t.marks, rfl⟩
  | x :: rest, c, t, h, hmarked, hc => by
    obtain ⟨marks, hlocated, hmarked'⟩ := h.locateLiteral hmarked hc m x
    obtain ⟨marks', hrest⟩ := Lone.locateParts descend m rest (h.withMarks marks) hmarked'
      (Caption.seek_bounds m x hc).2
    refine ⟨marks', ?_⟩
    rw [List.map_cons, Tree.locateParts, Caption.part, Tree.locatePart, hlocated]
    dsimp only [Survey.isRunning, Option.isNone_none]
    rw [hrest]
    rfl

/-! ## Printing captions -/

/-- The edits of captions make their rendered text. -/
theorem reviseParts_sought {u : Tree M O} (print : Nat → Margin → Job M O Text) {unit : Margin}
    {fresh : Caption M → Text} (hsource : u.source = .ofText text) (hfresh : ∀ x : Caption M,
      u.aligned root x.frame.indent (x.frame.wrap unit (x.wording.text m)) = fresh x) :
    ∀ (captions : List (Caption M)) {c : Nat}, c ≤ text.length →
    ∃ edits stop, Revises (· = u) (reviseParts print m root unit (Caption.sought m text c captions))
        ((Source.ofText text).place c) () edits stop ∧
      Patch.Splices (.ofText text) c text.length edits (Caption.rendered m text fresh c captions)
  | [], c, hc => by
    have hnil := Patch.Splices.nil (s := .ofText text) hc (by rw [Source.charCount_ofText])
    rw [Source.text_ofText] at hnil
    exact ⟨[], _, .pure _ (), hnil⟩
  | x :: rest, c, hc => by
    have hcount := Source.charCount_ofText text
    obtain ⟨edits, stop, hrest, hsplices⟩ := reviseParts_sought print hsource hfresh rest
      (Caption.seek_bounds m x hc).2
    cases hstart : x.start? m text c with
    | none =>
      rw [Caption.rendered_none hstart]
      rw [Caption.seek_none hstart] at hrest hsplices
      have hpart : Revises (· = u) (revisePart print m root unit
          (.literal { x.frame with extent := none } x.wording {}))
          ((Source.ofText text).place c) () (insertion ((Source.ofText text).place c) (fresh x))
          ((Source.ofText text).place c) :=
        .part _ (.pure (fun _ h => h) _) fun t ht => ht ▸ hfresh x
      refine ⟨_, stop, ?_, insertion_splices hsplices (fresh x)⟩
      rw [Caption.sought, Caption.seek_none hstart]
      exact .bind hpart hrest
    | some p =>
      obtain ⟨_, hcp, hp, hpiece⟩ := Caption.start?_eq_some hstart
      have hnext := Caption.trailFrom_bounds text x.frame.trailText hp
      rw [Caption.rendered_some hstart]
      rw [Caption.seek_some hstart] at hrest hsplices
      rw [Caption.sought, Caption.seek_some hstart]
      generalize hlength : (x.wording.text m).length = length at *
      have htext : ∀ t, t = u → t.sourceText (window (.ofText text) p (p + length)) =
          .ok (x.wording.text m) := by
        rintro t rfl
        unfold sourceText
        rw [hsource, extract_window (by omega) (by omega), Source.text_ofText, hpiece]
        rfl
      have hliteral := Revises.literalPlace (O := O) ((Source.ofText text).place c) htext
        ⟨some (window (.ofText text) p (p + length)), Caption.leadFrom text x.frame.leadText c p,
          (Caption.trailFrom text x.frame.trailText (p + length)).1⟩ (x.wording.text m)
      rw [replacement, if_pos rfl, List.nil_append,
        Caption.stopBehind_trailFrom x.frame.trailText (by omega) hp,
        start_window (by omega) (by omega), stop_window (by omega) (by omega)] at hliteral
      refine ⟨_, stop, .bind hliteral hrest, ?_⟩
      -- From the end of the literal back to where it was looked for.
      have hbehind := insertion_splices (hsplices.extend hnext.1)
        (Caption.trailFrom text x.frame.trailText (p + length)).1.toInsert
      have hbefore := insertion_splices (hbehind.extend (by omega : p ≤ p + length))
        (Caption.leadFrom text x.frame.leadText c p).toInsert
      have hall := hbefore.extend hcp
      rw [Source.text_ofText, hpiece] at hall
      rwa [List.append_assoc]

/-- The text of a caption that was not found. -/
def freshCaption (t : Tree M O) (m : M) (x : Caption M) : Text :=
  t.aligned root x.frame.indent (x.frame.wrap t.settings.margin (x.wording.text m))

/-- A tree of one object whose parts are captions that were looked for. -/
structure Captioned (m : M) (text : Text) (captions : List (Caption M)) (settings : Settings)
    (t : Tree M O) : Prop where
  lone : ∃ n p, Lone text t n ∧ n.place = some p ∧ p.located = true ∧
    n.parts = Caption.sought m text 0 captions
  settings : t.settings = settings

namespace Captioned

variable {settings : Settings}

omit [DecidableEq O] in
/-- Where the node takes new text does not matter. -/
theorem moved (h : Captioned m text captions settings t) (i : Position) :
    Captioned m text captions settings
      (t.modify root fun n => n.mapPlace fun p => { p with insertion := i }) := by
  obtain ⟨n, p, hlone, hp, hlocated, hparts⟩ := h.lone
  refine ⟨⟨n.mapPlace fun p => { p with insertion := i }, { p with insertion := i }, ⟨?_, hlone.source,
    hlone.top, ?_⟩, ?_, hlocated, hparts⟩, h.settings⟩
  · rw [modify, hlone.nodes]
    rfl
  · rw [← hlone.covers]
    simp [Node.mapPlace, Node.span?, hp]
  · rw [Node.mapPlace, hp]
    rfl

/-- The patch of the root. -/
theorem patchOf (h : Captioned m text captions settings t) (print : Nat → Margin → Job M O Text) :
    ∃ n p patch v, t.nodes[root]? = some n ∧ n.located? = some p ∧
      Tree.patchOf print m root n.parts p t = .ok patch v ∧
      patch.text = .ok (Caption.rendered m text (t.freshCaption m) 0 captions) ∧
      Captioned m text captions settings v := by
  obtain ⟨n, p, hlone, hp, hlocated, hparts⟩ := h.lone
  obtain ⟨q, hq, hspan⟩ := hlone.place
  rw [hp, Option.some.injEq] at hq
  rw [← hq] at hspan
  have hcount := Source.charCount_ofText text
  have hfresh : ∀ x : Caption M, t.aligned root x.frame.indent
      (x.frame.wrap t.settings.margin (x.wording.text m)) = t.freshCaption m x := fun _ => rfl
  obtain ⟨edits, stop, hrevises, hsplices⟩ :=
    reviseParts_sought print hlone.source hfresh captions (Nat.zero_le text.length)
  obtain ⟨u, hrun, hu⟩ := hrevises t ⟨.ofText text, window (.ofText text) 0 text.length, []⟩ rfl
    hsplices.compatible
  rw [hu] at hrun
  have hbase : Patch.ofBase t.source p.span =
      .ok ⟨.ofText text, window (.ofText text) 0 text.length, []⟩ := by
    rw [hlone.source, hspan]
    exact Patch.ofBase_eq_ok_iff.2 ⟨validateBounds_window (Nat.zero_le _) (by omega), rfl⟩
  refine ⟨n, p, _, _, hlone.node, Node.located?_eq_some.2 ⟨hp, hlocated⟩, ?_, hsplices.patch_text,
    h.moved stop⟩
  have hstart : p.span.start = (Source.ofText text).place 0 := by
    rw [hspan, start_window (Nat.zero_le _) (by omega)]
  unfold Tree.patchOf
  simp only [hbase, hparts, hstart, hrun]
  rfl

/-- The text of the root. -/
theorem printRoot (h : Captioned m text captions settings t) :
    ∃ v, Tree.printRoot m t = .ok (Caption.rendered m text (t.freshCaption m) 0 captions) v ∧
      Captioned m text captions settings v := by
  obtain ⟨n, p, patch, v, hn, hp, hpatch, htext, hv⟩ :=
    h.patchOf (printWithin m (t.nodes.size + t.language.size m))
  refine ⟨v, ?_, hv⟩
  show printWithin m (t.nodes.size + t.language.size m + 1) root t.settings.margin t = _
  rw [printWithin_of_located hn hp, hpatch]
  simp only [htext]

/-- Renders keep everything but where the node takes new text. -/
theorem rendered (h : Captioned m text captions settings t) {u : Tree M O} (hu : Rendered m t u) :
    Captioned m text captions settings u := by
  induction hu with
  | refl => exact h
  | root _ ih =>
    obtain ⟨v, hrun, hv⟩ := ih.printRoot
    rw [Job.after, hrun]
    exact hv
  | source _ ih =>
    obtain ⟨v, hrun, hv⟩ := ih.printRoot
    rw [after_printSource, Job.after, hrun]
    exact hv
  | @mapped u _ file ih =>
    obtain ⟨n, p, patch, v, hn, hp, hpatch, htext, hv⟩ := ih.patchOf (printWithin m (u.depthBound m))
    unfold Job.after printMapped
    simp only [node_eq_ok.2 hn, hp, hpatch, htext]
    cases patch.toSourceMap file <;> exact hv

end Captioned

/-- A source made of captions is located. -/
theorem exists_captioned {language : Language M O} {object : O}
    (hlayout : language.layout m object =
      some ⟨some (.ok (Source.ofText text).fullSpan), captions.map Caption.part⟩) :
    ∃ t, ofSource language m text object = .ok t ∧
      ∀ settings, Captioned m text captions settings { t with settings := settings } := by
  have hcount := Source.charCount_ofText text
  have hplace : placeOf (Source.ofText text) (some (.ok (Source.ofText text).fullSpan)) =
      .ok (some (Place.ofSpan (Source.ofText text).fullSpan)) := by
    unfold placeOf
    simp only [bind, Except.bind]
    rw [fullSpan_ofText, validateBounds_window (Nat.zero_le _) (by omega)]
    rfl
  let n : Node M O := ⟨object, [], [], some (Place.ofSpan (Source.ofText text).fullSpan),
    captions.map Caption.part⟩
  let t₀ : Tree M O := { language := language, source := .ofText text, nodes := #[n] }
  have hmade : ofRoot language m text object = .ok t₀ :=
    newNode_of_layout (t := { language := language, source := .ofText text }) hlayout hplace
  have hlone : Lone text t₀ n := ⟨rfl, rfl, rfl, rfl⟩
  have hplant : plant m root t₀ = .ok () t₀ := by
    show plantWithin m (t₀.nodes.size + t₀.language.size m + 1) root t₀ = _
    unfold plantWithin
    simp only [bind, EStateM.bind, Job.get_eq, node_eq_ok.2 hlone.node, n,
      Caption.selectedAll_part]
    rfl
  have hmarked : Marked text 0 t₀.marks := ⟨by simp [t₀], Or.inl rfl⟩
  obtain ⟨marks, hparts⟩ := hlone.locateParts
    (locateWithin m (t₀.nodes.size + t₀.language.size m)) m captions hmarked (Nat.zero_le _)
  let stop := (Source.ofText text).place (Caption.soughtEnd m text 0 captions)
  have hfrom : locateFrom m root t₀ = .ok () (Tree.modify { t₀ with marks := marks } root fun k =>
      k.finish (Caption.sought m text 0 captions) stop) := by
    have hstart : (Place.ofSpan (Source.ofText text).fullSpan).span.start =
        (Source.ofText text).place 0 := by
      show (Source.ofText text).fullSpan.start = _
      rw [fullSpan_ofText, start_window (Nat.zero_le _) (by omega)]
    refine locateWithin_of_parts hlone.node rfl rfl ?_
    rw [hstart]
    exact hparts
  let place : Place := { Place.ofSpan (Source.ofText text).fullSpan with
    located := true, insertion := stop }
  let located : Node M O := ⟨object, [], [], some place, Caption.sought m text 0 captions⟩
  refine ⟨{ t₀ with nodes := #[located], marks := marks, complete := true }, ?_, fun settings =>
    ⟨⟨located, place, ⟨rfl, rfl, rfl, rfl⟩, rfl, rfl, rfl⟩, rfl⟩⟩
  unfold ofSource
  rw [hmade]
  simp only [bind, Except.bind, locate_of_incomplete (rfl : t₀.complete = false), hplant, hfrom]
  rfl

omit [DecidableEq O] in
/-- A caption that was not found goes in unless there is nothing to write. -/
theorem freshCaption_eq_nil {x : Caption M} :
    t.freshCaption m x = [] ↔ x.frame.wrap t.settings.margin (x.wording.text m) = [] := by
  unfold freshCaption
  refine ⟨fun h => ?_, fun h => by rw [h, aligned_nil]⟩
  unfold aligned at h
  split at h
  · exact h
  · split at h
    · exact Text.eq_nil_of_hang h
    · exact h

/-- A source that is made of literals which are not pinned is read, and prints as
it is, before and after other renders, if the first occurrence of every literal
behind those in front of it is where it is meant to be.  If all of them keep
their indentation, then it prints as it is only in that case. -/
theorem printRoot_captions {language : Language M O} {object : O}
    (layout : language.layout m object =
      some ⟨some (.ok (Source.ofText text).fullSpan), captions.map Caption.part⟩)
    (document : text = Caption.document m captions) :
    ∃ t, ofSource language m text object = .ok t ∧
      ∀ (settings : Settings) (u : Tree M O), Rendered m { t with settings := settings } u →
        (Caption.Anchored m text settings.margin 0 0 captions →
          ∃ v, printRoot m u = .ok text v) ∧
        ((∀ x ∈ captions, x.frame.indent = .keep) → (∃ v, printRoot m u = .ok text v) →
          Caption.Anchored m text settings.margin 0 0 captions) := by
  obtain ⟨t, hmade, hcaptioned⟩ := exists_captioned layout
  refine ⟨t, hmade, fun settings u hu => ?_⟩
  have hprinted := (hcaptioned settings).rendered hu
  obtain ⟨v, hrun, _⟩ := hprinted.printRoot
  constructor
  · intro hanchored
    have hfresh : ∀ x : Caption M,
        x.frame.wrap settings.margin (x.wording.text m) = [] → u.freshCaption m x = [] :=
      fun x hx => freshCaption_eq_nil.2 (by rw [hprinted.settings]; exact hx)
    have hsource := Caption.rendered_of_anchored hfresh (Nat.le_refl 0) (Nat.zero_le _) document
      hanchored
    rw [hsource, Text.piece_zero_length] at hrun
    exact ⟨v, hrun⟩
  · rintro hkeep ⟨v', hrun'⟩
    rw [hrun] at hrun'
    have hsource := (EStateM.Result.ok.inj hrun').1
    have hwrap : ∀ x ∈ captions, ∀ word,
        x.frame.wrap settings.margin word = x.frame.leadText ++ word ++ x.frame.trailText := by
      intro x hx word
      rw [Frame.wrap, hkeep x hx]
      exact if_pos rfl
    have hfresh : ∀ x ∈ captions, u.freshCaption m x = [] → x.spelling m = [] := by
      intro x hx hnil
      rw [freshCaption_eq_nil, hprinted.settings, hwrap x hx, List.append_assoc] at hnil
      exact hnil
    refine Caption.anchored_of_length hfresh (fun x hx hspelling => ?_) (Nat.zero_le _) ?_ ?_
    · obtain ⟨hlead, hrest⟩ := List.append_eq_nil_iff.1 hspelling
      rw [hwrap x hx, hlead, (List.append_eq_nil_iff.1 hrest).2]
      rfl
    · rw [← document]
      exact Nat.add_zero _
    · rw [hsource]
      exact Nat.le_refl _

end Parts

/-- A language of one object, which is made of literals. -/
def captionLanguage (text : Text) (captions : List (Caption Unit)) : Language Unit Unit where
  layout _ _ := some ⟨some (.ok (Source.ofText text).fullSpan), captions.map Caption.part⟩
  describe _ _ := "literals"
  size _ := 1

/-- A bracketed letter, an empty literal, and a letter behind a comma. -/
def bracketedPair : List (Caption Unit) :=
  [⟨{ lead := some ['('], trail := some [')'] }, .constant ['a']⟩, ⟨{}, .constant []⟩,
    ⟨{ lead := some [','] }, .computed fun _ => ['b']⟩]

theorem printRoot_bracketedPair :
    Caption.Anchored () "(a),b".toList ({} : Settings).margin 0 0 bracketedPair ∧
      ∃ t v, ofSource (captionLanguage "(a),b".toList bracketedPair) () "(a),b".toList () = .ok t ∧
        printRoot () { t with settings := {} } = .ok "(a),b".toList v := by
  have hanchored : Caption.Anchored () "(a),b".toList ({} : Settings).margin 0 0 bracketedPair := by
    decide
  obtain ⟨t, hmade, hprints⟩ := printRoot_captions (m := ()) (O := Unit)
    (rfl : (captionLanguage "(a),b".toList bracketedPair).layout () () = some
      ⟨some (.ok (Source.ofText "(a),b".toList).fullSpan), bracketedPair.map Caption.part⟩) (by decide)
  obtain ⟨v, hrun⟩ := (hprints {} _ .refl).1 hanchored
  exact ⟨hanchored, t, v, hmade, hrun⟩

/-- A letter behind the same letter. -/
def doubledLetter : List (Caption Unit) := [⟨{ lead := some ['a'] }, .constant ['a']⟩]

/-- The first one is taken for the second, and nothing is left in front of it. -/
theorem printRoot_doubledLetter :
    Caption.document () doubledLetter = "aa".toList ∧
      ¬ ∃ t v, ofSource (captionLanguage "aa".toList doubledLetter) () "aa".toList () = .ok t ∧
        printRoot () t = .ok "aa".toList v := by
  have hprinted : (ofSource (captionLanguage "aa".toList doubledLetter) () "aa".toList ()).toOption.bind
      (printRoot ()).result? = some "aaa".toList := by
    decide +kernel
  refine ⟨rfl, fun ⟨t, v, hmade, hrun⟩ => ?_⟩
  rw [hmade] at hprinted
  simp only [Except.toOption, Option.bind_some, Job.result?, hrun] at hprinted
  exact absurd hprinted (by decide)

end Tree

end Reprint
