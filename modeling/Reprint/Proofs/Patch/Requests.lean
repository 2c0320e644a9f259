import Mathlib.Data.List.Basic
import Mathlib.Data.Nat.Init
import Reprint.Proofs.Patch.Sorted

/-!
# Requests for edits

A `Patch.Request` asks for a replacement, an insertion or a removal, and
`Patch.serve` answers several requests one after the other, where a refused
one leaves the patch as it is.

`Patch.serve_reads` says what comes of them.  A request without anything to do
is granted and changes nothing.  Any other one is refused for the first of the
reasons of `Patch.Refuses`, or its edit is added if there is none
(`Patch.Answers`).  The patch always has a text (`Patch.Reads`), and that text
can be had in two more ways: by replacing one target after the other, from the
last to the first (`Patch.spliced`), and by putting the texts of the edits
between the characters of the base that no target covers (`Woven`).
-/

namespace Reprint

open Reprint.Tree

/-! ## Offsets of positions -/

/-- The number of characters before a position. -/
def Source.index (s : Source) (p : Position) : Nat := s.lineStart p.line + p.column

theorem Source.offset_eq_index {s : Source} {p : Position} (h : s.isValid p = true) :
    s.offset p = .ok (s.index p) := by
  unfold offset
  rw [validate_eq_ok h]
  rfl

theorem Source.index_place {s : Source} {k : Nat} (h : k ≤ s.charCount) : s.index (s.place k) = k := by
  have hoffset := offset_place h
  rw [offset_eq_index (isValid_place h)] at hoffset
  exact Except.ok.inj hoffset

/-! ## Texts that are put together -/

namespace Text

/-- The text with the characters between two offsets replaced. -/
def splice (t : Text) (a b : Nat) (new : Text) : Text := t.take a ++ new ++ t.drop b

/-- The characters between two offsets that are not covered, in order. -/
def uncovered (t : Text) (covered : Nat → Bool) (a b : Nat) : Text :=
  (List.range' a (b - a)).filterMap fun k => if covered k then none else t[k]?

section Uncovered

variable {t : Text} {covered : Nat → Bool} {a b c : Nat}

theorem uncovered_append (hac : a ≤ c) (hcb : c ≤ b) :
    t.uncovered covered a c ++ t.uncovered covered c b = t.uncovered covered a b := by
  have hrange := @List.range'_append a (c - a) (b - c) 1
  rw [Nat.one_mul, show a + (c - a) = c by omega, show c - a + (b - c) = b - a by omega] at hrange
  unfold uncovered
  rw [← List.filterMap_append, hrange]

theorem uncovered_of_covered (h : ∀ k, a ≤ k → k < b → covered k = true) :
    t.uncovered covered a b = [] := by
  unfold uncovered
  rw [List.filterMap_eq_nil_iff]
  intro k hk
  rw [List.mem_range'_1] at hk
  exact if_pos (h k hk.1 (by omega))

theorem uncovered_of_clear (hab : a ≤ b) (hb : b ≤ t.length)
    (h : ∀ k, a ≤ k → k < b → covered k = false) : t.uncovered covered a b = t.piece a b := by
  induction b, hab using Nat.le_induction with
  | base => simp [uncovered]
  | succ b hab ih =>
    have hpiece := ih (by omega) fun k hk hkb => h k hk (by omega)
    obtain ⟨c, hget⟩ : ∃ c, t[b]? = some c := ⟨_, List.getElem?_eq_getElem hb⟩
    have hlast : t.uncovered covered b (b + 1) = [c] := by
      simp [uncovered, h b hab (Nat.lt_succ_self b), hget]
    rw [← uncovered_append hab (Nat.le_succ b), hpiece, hlast,
      ← Text.piece_append hab (Nat.le_succ b), Text.piece_succ hget]

theorem uncovered_congr {covered' : Nat → Bool}
    (h : ∀ k, a ≤ k → k < b → covered k = covered' k) :
    t.uncovered covered a b = t.uncovered covered' a b := by
  unfold uncovered
  refine List.filterMap_congr fun k hk => ?_
  rw [List.mem_range'_1] at hk
  rw [h k hk.1 (by omega)]

end Uncovered

end Text

/-- A text is made of kept characters, in order, with new texts put between
them, in order. -/
inductive Woven : Text → List Text → Text → Prop
  | last (kept : Text) : Woven kept [] kept
  | next (piece new : Text) {kept text : Text} {fresh : List Text} (tail : Woven kept fresh text) :
      Woven (piece ++ kept) (new :: fresh) (piece ++ new ++ text)

namespace Patch

/-! ## The text of a patch by offsets -/

/-- Replaces the target of an edit in a text that begins with the base. -/
def spliceEdit (p : Patch) (e : Edit) (t : Text) : Text :=
  let origin := p.source.index p.base.start
  t.splice (p.source.index e.target.start - origin) (p.source.index e.target.stop - origin) e.text

/-- The base with the targets replaced one at a time, from the last to the
first. -/
def spliced (p : Patch) : Text := p.ordered.foldr p.spliceEdit (p.source.slice p.base.toBounds)

/-- Whether the target of an edit covers the character at an offset. -/
def covers (s : Source) (edits : List Edit) (k : Nat) : Bool :=
  edits.any fun e => s.index e.target.start ≤ k && k < s.index e.target.stop

/-- The characters of the base that no target covers. -/
def untouched (p : Patch) : Text :=
  p.source.text.uncovered (covers p.source p.edits) (p.source.index p.base.start)
    (p.source.index p.base.stop)

namespace Run

variable {s : Source} {a b : Nat} {edits : List Edit} {text : Text}

/-- The edits one after the other, from the last to the first, in a text that
begins at an offset before them. -/
theorem spliced (h : Run s a b edits text) {p : Patch} {o : Nat} (hsource : p.source = s)
    (horigin : s.index p.base.start = o) (hoa : o ≤ a) :
    edits.foldr p.spliceEdit (s.text.piece o b) = s.text.piece o a ++ text := by
  induction h with
  | nil order bound => exact (Text.piece_append hoa order).symm
  | @cons a b c d e rest text start order target tail ih =>
    have hle := tail.le
    have hod : (s.text.piece o d).length = d - o :=
      Text.length_piece (by unfold Source.charCount at hle; omega)
    rw [List.foldr_cons, ih (by omega)]
    unfold spliceEdit
    rw [hsource, horigin, target, start_window order (by omega), stop_window order (by omega),
      Source.index_place (by omega), Source.index_place (by omega)]
    have htake : (s.text.piece o d ++ text).take (c - o) = s.text.piece o c := by
      have hoc : (s.text.piece o c).length = c - o :=
        Text.length_piece (by unfold Source.charCount at hle; omega)
      rw [← Text.piece_append (show o ≤ c by omega) order, List.append_assoc, ← hoc, List.take_left]
    have hdrop : (s.text.piece o d ++ text).drop (d - o) = text := by rw [← hod, List.drop_left]
    dsimp only
    rw [Text.splice, htake, hdrop, ← Text.piece_append hoa start]
    simp only [List.append_assoc]

/-- The texts of the edits between the characters that they do not cover. -/
theorem woven (h : Run s a b edits text) :
    Woven (s.text.uncovered (covers s edits) a b) (edits.map Edit.text) text := by
  induction h with
  | @nil a b order bound =>
    have hclear : s.text.uncovered (covers s []) a b = s.text.piece a b :=
      Text.uncovered_of_clear order bound fun k _ _ => rfl
    rw [hclear]
    exact .last _
  | @cons a b c d e rest text start order target tail ih =>
    have hle := tail.le
    have hstart : s.index e.target.start = c := by
      rw [target, start_window order (by omega), Source.index_place (by omega)]
    have hstop : s.index e.target.stop = d := by
      rw [target, stop_window order (by omega), Source.index_place (by omega)]
    have hrest : ∀ k, k < d → covers s rest k = false := by
      intro k hk
      rw [covers, List.any_eq_false]
      intro f hf
      obtain ⟨c', d', hc', hcd', hd', htarget⟩ := tail.target f hf
      rw [htarget, start_window hcd' (by omega), Source.index_place (by omega)]
      simp
      omega
    have hcovers : ∀ k,
        covers s (e :: rest) k = (decide (c ≤ k) && decide (k < d) || covers s rest k) := by
      intro k
      rw [covers, List.any_cons, hstart, hstop, covers]
    have hbefore : s.text.uncovered (covers s (e :: rest)) a c = s.text.piece a c :=
      Text.uncovered_of_clear start (show c ≤ s.charCount by omega) fun k _ hk => by
        rw [hcovers, hrest k (by omega)]
        simp
        omega
    have htarget : s.text.uncovered (covers s (e :: rest)) c d = [] :=
      Text.uncovered_of_covered fun k hck hkd => by
        rw [hcovers]
        simp [hck, hkd]
    have hbehind :
        s.text.uncovered (covers s (e :: rest)) d b = s.text.uncovered (covers s rest) d b :=
      Text.uncovered_congr fun k hdk _ => by
        rw [hcovers]
        simp
        omega
    rw [← Text.uncovered_append start (by omega : c ≤ b), ← Text.uncovered_append order hle.1, hbefore,
      htarget, hbehind, List.nil_append]
    exact .next _ _ ih

end Run

/-- What the text of a patch is. -/
structure Reads (p : Patch) (text : Text) : Prop where
  text_eq : p.text = .ok text
  /-- The edits are sorted by start, stop and the order of addition. -/
  sorted : ∃ numbered : List (Edit × Nat), numbered.Perm p.edits.zipIdx ∧
    numbered.Pairwise Edit.Precedes ∧ p.ordered = numbered.map Prod.fst
  spliced : text = p.spliced
  woven : Woven p.untouched (p.ordered.map Edit.text) text

/-- A sound patch has a text. -/
theorem IsSound.reads {p : Patch} (h : p.IsSound) : ∃ text, p.Reads text := by
  obtain ⟨a, b, text, hbase, hsplices⟩ := h.splices
  obtain ⟨hab, hb⟩ := hsplices.le
  have hpatch : p = ⟨p.source, window p.source a b, p.edits⟩ := by rw [← hbase]
  have hstart : p.source.index p.base.start = a := by
    rw [hbase, start_window hab hb, Source.index_place (by omega)]
  have hstop : p.source.index p.base.stop = b := by
    rw [hbase, stop_window hab hb, Source.index_place hb]
  have hordered : p.ordered = Edit.sort p.edits := rfl
  refine ⟨text, ?_, Edit.exists_numbered p.edits, ?_, ?_⟩
  · have htext := hsplices.patch_text
    rwa [← hpatch] at htext
  · have hrun := hsplices.run.spliced rfl hstart (Nat.le_refl a)
    rw [Text.piece_self, List.nil_append] at hrun
    unfold Patch.spliced
    rw [hordered, hbase, slice_window hab hb, hrun]
  · have hwoven := hsplices.run.woven
    have hcovers : covers p.source (Edit.sort p.edits) = covers p.source p.edits :=
      funext fun k => (Edit.perm_sort p.edits).any_eq
    rw [hcovers] at hwoven
    unfold Patch.untouched
    rw [hstart, hstop, hordered]
    exact hwoven

/-! ## Requests -/

/-- What can be asked of a patch. -/
inductive Request where
  | replace (target : Span) (text : Text)
  | insert (position : Position) (text : Text)
  | remove (target : Span)

namespace Request

/-- Whether there is nothing to do. -/
def isIdle : Request → Bool
  | replace _ _ => false
  | insert _ text => text.isEmpty
  | remove target => target.isEmpty

/-- The edit that is asked for. -/
def edit : Request → Edit
  | replace target text => ⟨.replace, target, text⟩
  | insert position text => ⟨.insert, Span.point position, text⟩
  | remove target => ⟨.remove, target, []⟩

/-- Asks for the edit. -/
def ask (p : Patch) : Request → Except Source.Error Patch
  | replace target text => p.replace target text
  | insert position text => p.insert position text
  | remove target => p.remove target

end Request

/-- The patch after several requests, of which the refused ones have no
effect. -/
def serve (p : Patch) (requests : List Request) : Patch :=
  requests.foldl (fun p r => (r.ask p).toOption.getD p) p

/-- The reason to refuse an edit: the first thing that is wrong with it. -/
inductive Refuses (p : Patch) (e : Edit) : Source.Error → Prop
  | start (invalid : p.source.isValid e.target.start = false) :
      Refuses p e (.outOfBounds e.target.start p.source.size)
  | stop (valid : p.source.isValid e.target.start = true)
      (invalid : p.source.isValid e.target.stop = false) :
      Refuses p e (.outOfBounds e.target.stop p.source.size)
  | outside (start : p.source.isValid e.target.start = true)
      (stop : p.source.isValid e.target.stop = true)
      (outside : ¬ (p.base.start ≤ e.target.start ∧ e.target.stop ≤ p.base.stop)) :
      Refuses p e (.outsideBase e.target p.base)
  | conflict {earlier later : List Edit} {f : Edit}
      (start : p.source.isValid e.target.start = true)
      (stop : p.source.isValid e.target.stop = true)
      (inside : p.base.start ≤ e.target.start ∧ e.target.stop ≤ p.base.stop)
      (split : p.edits = earlier ++ f :: later) (first : ∀ x ∈ earlier, x.Apart e)
      (overlap : f.target.start < e.target.stop ∧ e.target.start < f.target.stop) :
      Refuses p e (.conflict f.target e.target)

/-- How a patch answers a request. -/
structure Answers (p : Patch) (r : Request) : Prop where
  idle : r.isIdle = true → r.ask p = .ok p
  refused : r.isIdle = false → ∀ error, r.ask p = .error error ↔ p.Refuses r.edit error
  granted : r.isIdle = false → (∀ error, ¬ p.Refuses r.edit error) →
    r.ask p = .ok (p.extend [r.edit])

section Answers

variable {p : Patch} {e : Edit} {error : Source.Error}

theorem add_of_refuses (h : p.Refuses e error) : p.add e = .error error := by
  unfold add Source.validateBounds Source.validate
  cases h with
  | start invalid =>
    rw [invalid, if_neg Bool.false_ne_true]
    rfl
  | stop valid invalid =>
    rw [valid, invalid, if_pos rfl, if_neg Bool.false_ne_true]
    rfl
  | outside start stop outside =>
    have hcontains : p.base.contains e.target = false := by
      rw [← Bool.not_eq_true, Span.contains_iff]
      exact outside
    rw [start, stop, if_pos rfl, if_pos rfl, hcontains]
    rfl
  | @conflict earlier later f start stop inside split first overlap =>
    have hintersects : f.target.intersects e.target = true := by
      simpa [Span.intersects] using overlap
    have hfind : p.edits.find? (fun x => x.target.intersects e.target) = some f := by
      have hearlier : earlier.find? (fun x => x.target.intersects e.target) = none :=
        List.find?_eq_none.2 fun x hx => Bool.eq_false_iff.1 (first x hx)
      rw [split, List.find?_append, hearlier, Option.none_or]
      exact List.find?_cons_of_pos hintersects
    rw [start, stop, if_pos rfl, if_pos rfl, Span.contains_iff.2 inside, hfind]
    rfl

/-- An edit is refused, or it goes with the edits that are there. -/
theorem IsSound.refuses_or_compatible (h : p.IsSound) (e : Edit) :
    (∃ error, p.Refuses e error) ∨ p.Compatible [e] := by
  cases hstart : p.source.isValid e.target.start with
  | false => exact Or.inl ⟨_, .start hstart⟩
  | true =>
    cases hstop : p.source.isValid e.target.stop with
    | false => exact Or.inl ⟨_, .stop hstart hstop⟩
    | true =>
      by_cases hinside : p.base.start ≤ e.target.start ∧ e.target.stop ≤ p.base.stop
      · cases hfind : p.edits.find? (fun x => x.target.intersects e.target) with
        | some f =>
          obtain ⟨hf, earlier, later, hsplit, hfirst⟩ := List.find?_eq_some_iff_append.1 hfind
          have hoverlap : f.target.start < e.target.stop ∧ e.target.start < f.target.stop := by
            simpa [Span.intersects] using hf
          refine Or.inl ⟨_, .conflict hstart hstop hinside hsplit (fun x hx => ?_) hoverlap⟩
          simpa [Edit.Apart] using hfirst x hx
        | none =>
          refine Or.inr ⟨fun x hx => ?_, ?_⟩
          · rw [List.mem_singleton.1 hx]
            exact ⟨Source.validateBounds_eq_ok_iff.2 ⟨hstart, hstop⟩, Span.contains_iff.2 hinside⟩
          · rw [List.pairwise_append]
            refine ⟨h.apart, List.pairwise_singleton _ _, fun x hx y hy => ?_⟩
            rw [List.mem_singleton.1 hy]
            exact Bool.eq_false_iff.2 (List.find?_eq_none.1 hfind x hx)
      · exact Or.inl ⟨_, .outside hstart hstop hinside⟩

/-- A patch with more edits. -/
theorem IsSound.extend {edits : List Edit} (h : p.IsSound) (hedits : p.Compatible edits) :
    (p.extend edits).IsSound where
  base := h.base
  fits x hx := by
    rcases List.mem_append.1 hx with hx | hx
    · exact h.fits x hx
    · exact hedits.fits x hx
  apart := hedits.apart

/-- A request with something to do is a request for its edit. -/
theorem Request.ask_eq_add {r : Request} (h : r.isIdle = false) (p : Patch) : r.ask p = p.add r.edit := by
  cases r with
  | replace target text => rfl
  | insert position text => exact if_neg (Bool.eq_false_iff.1 h)
  | remove target => exact if_neg (Bool.eq_false_iff.1 h)

theorem Request.ask_of_isIdle {r : Request} (h : r.isIdle = true) (p : Patch) : r.ask p = .ok p := by
  cases r with
  | replace target text => cases h
  | insert position text => exact if_pos h
  | remove target => exact if_pos h

theorem IsSound.answers (h : p.IsSound) (r : Request) : p.Answers r where
  idle hidle := Request.ask_of_isIdle hidle p
  refused hidle error := by
    rw [Request.ask_eq_add hidle]
    refine ⟨fun hadd => ?_, add_of_refuses⟩
    rcases h.refuses_or_compatible r.edit with ⟨error', hrefuses⟩ | hedit
    · rw [add_of_refuses hrefuses] at hadd
      cases hadd
      exact hrefuses
    · rw [add_of_compatible hedit] at hadd
      cases hadd
  granted hidle hnone := by
    rw [Request.ask_eq_add hidle]
    rcases h.refuses_or_compatible r.edit with ⟨error, hrefuses⟩ | hedit
    · exact absurd hrefuses (hnone error)
    · exact add_of_compatible hedit

/-- A patch stays sound whatever is asked of it, and edits are only added. -/
theorem IsSound.serve (h : p.IsSound) (requests : List Request) :
    (p.serve requests).IsSound ∧ ∃ edits, p.serve requests = p.extend edits := by
  induction requests generalizing p with
  | nil => exact ⟨h, [], (extend_nil p).symm⟩
  | cons r rest ih =>
    have hstep : (r.ask p = .ok p ∨ ∃ error, r.ask p = .error error) ∨
        r.ask p = .ok (p.extend [r.edit]) ∧ p.Compatible [r.edit] := by
      cases hidle : r.isIdle with
      | true => exact Or.inl (Or.inl (Request.ask_of_isIdle hidle p))
      | false =>
        rw [Request.ask_eq_add hidle]
        rcases h.refuses_or_compatible r.edit with ⟨error, hrefuses⟩ | hedit
        · exact Or.inl (Or.inr ⟨error, add_of_refuses hrefuses⟩)
        · exact Or.inr ⟨add_of_compatible hedit, hedit⟩
    have hserve : p.serve (r :: rest) = Patch.serve ((r.ask p).toOption.getD p) rest := rfl
    rw [hserve]
    rcases hstep with (hrun | ⟨error, hrun⟩) | ⟨hrun, hedit⟩ <;> rw [hrun]
    · exact ih h
    · exact ih h
    · obtain ⟨hsound, edits, hedits⟩ := ih (h.extend hedit)
      exact ⟨hsound, [r.edit] ++ edits, hedits.trans (extend_append p _ _).symm⟩

end Answers

/-- One request more. -/
theorem serve_append_singleton (p : Patch) (requests : List Request) (r : Request) :
    p.serve (requests ++ [r]) = (r.ask (p.serve requests)).toOption.getD (p.serve requests) :=
  List.foldl_append

/-- Every request is granted or refused as it should be, a refused one leaves
the patch as it is, and the patch always has the text that its edits make of
its base. -/
theorem serve_reads {s : Source} {base : Span} (h : s.validateBounds base.toBounds = .ok ()) :
    ∃ empty, ofBase s base = .ok empty ∧ empty.edits = [] ∧ ∀ requests : List Request,
      let p := empty.serve requests
      p.source = s ∧ p.base = base ∧
        (∀ r, p.Answers r ∧ (∀ q, r.ask p = .ok q → empty.serve (requests ++ [r]) = q) ∧
          ∀ error, r.ask p = .error error → empty.serve (requests ++ [r]) = p) ∧
        ∃ text, p.Reads text := by
  have hbase : ofBase s base = .ok ⟨s, base, []⟩ := by
    unfold ofBase
    rw [h]
    rfl
  refine ⟨_, hbase, rfl, fun requests => ?_⟩
  obtain ⟨hsound, edits, hedits⟩ := (IsSound.ofBase hbase).serve requests
  refine ⟨congrArg source hedits, congrArg Patch.base hedits,
    fun r => ⟨hsound.answers r, fun q hq => ?_, fun error herror => ?_⟩, hsound.reads⟩
  · rw [serve_append_singleton, hq]
    rfl
  · rw [serve_append_singleton, herror]
    rfl

/-- The piece of two lines from the second character on.  A replacement over
the line end and insertions at both ends of it are granted in any order, and
an insertion within it is refused. -/
theorem serve_overLineEnd :
    (Source.ofText ['a', 'b', '\n', 'c', 'd']).validateBounds ⟨⟨1, 1⟩, ⟨2, 1⟩⟩ = .ok () ∧
      ∃ p : Patch, p.Reads ['-', 'x', '+', 'c'] ∧
        (Request.insert ⟨1, 2⟩ ['!']).ask p =
          .error (.conflict (.between ⟨1, 1⟩ ⟨2, 0⟩) (.point ⟨1, 2⟩)) ∧
        p.Answers (.insert ⟨1, 2⟩ ['!']) := by
  obtain ⟨empty, hempty, _, hserve⟩ :=
    @serve_reads (.ofText ['a', 'b', '\n', 'c', 'd']) (.between ⟨1, 1⟩ ⟨2, 1⟩) rfl
  obtain ⟨_, _, hanswers, text, htext⟩ := hserve
    [.insert ⟨2, 0⟩ ['+'], .replace (.between ⟨1, 1⟩ ⟨2, 0⟩) ['x'], .remove (.point ⟨2, 0⟩),
      .insert ⟨1, 0⟩ ['!'], .insert ⟨1, 1⟩ ['-']]
  cases hempty
  cases htext.text_eq
  exact ⟨rfl, _, htext, rfl, (hanswers _).1⟩

end Patch

end Reprint
