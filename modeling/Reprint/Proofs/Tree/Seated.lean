import Reprint.Proofs.Tree.Revises

/-!
# Places and the edits of an item

A place is seated in a source (`Place.Seated`) when its span and the
delimiters that were found around it follow each other in the source and no
literal is missing.

`Place.keptText` is the text of such a place when a text stands for its span
and two literals are needed around it: a delimiter that was found keeps its own
text as long as its literal is the one that is needed.  That is what the edits
of an item make of the source (`Place.Seated.makes`).
-/

namespace Reprint

namespace Source

variable {s : Source} {p q : Position}

@[simp] theorem slice_self (h : s.isValid p = true) : s.slice ⟨p, p⟩ = [] := by
  obtain ⟨a, ha, rfl⟩ := exists_place_of_isValid h
  rw [slice_place s (Nat.le_refl a) ha, Text.piece_self]

instance (s : Source) (b : Bounds) : Decidable (s.validateBounds b = .ok ()) :=
  decidable_of_iff _ validateBounds_eq_ok_iff.symm

theorem validateBounds_between (hp : s.isValid p = true) (hq : s.isValid q = true) :
    s.validateBounds (Span.between p q).toBounds = .ok () := by
  rw [validateBounds_eq_ok_iff]
  show s.isValid (p.earlier q) = true ∧ s.isValid (p.later q) = true
  constructor
  · rcases Position.earlier_eq_or p q with h | h <;> rw [h] <;> assumption
  · rcases Position.later_eq_or p q with h | h <;> rw [h] <;> assumption

end Source

/-! ## Delimiters that were settled -/

namespace Delimiter

/-- No literal was searched for, or it was found and its span meets a
condition. -/
def Settled (d : Delimiter) (C : Span → Prop) : Prop :=
  match d with
  | empty => True
  | present _ span => C span
  | missing _ => False

instance (d : Delimiter) (C : Span → Prop) [DecidablePred C] : Decidable (d.Settled C) :=
  match d with
  | empty => inferInstanceAs (Decidable True)
  | present _ span => inferInstanceAs (Decidable (C span))
  | missing _ => inferInstanceAs (Decidable False)

/-- The text of a delimiter when a literal is needed that may be another
one. -/
def textFor (s : Source) (d : Delimiter) (literal : Text) : Text :=
  match d with
  | present found span => if found = literal then s.slice span.toBounds else literal
  | _ => literal

/-- Where a delimiter starts and stops that is anchored at a position. -/
def startAt (d : Delimiter) (anchor : Position) : Position :=
  (d.span?.map fun s => s.start).getD anchor

def stopAt (d : Delimiter) (anchor : Position) : Position :=
  (d.span?.map fun s => s.stop).getD anchor

end Delimiter

namespace Place

/-- Where the place with its delimiters starts. -/
def leadStart (p : Place) : Position := p.before.startAt p.span.start

/-- Where the place with its delimiters stops. -/
def trailStop (p : Place) : Position := p.behind.stopAt p.span.stop

/-- The parts of the place follow each other in the source. -/
structure Seated (s : Source) (p : Place) : Prop where
  valid : s.validateBounds p.span.toBounds = .ok ()
  before : p.before.Settled fun lead =>
    s.validateBounds lead.toBounds = .ok () ∧ lead.stop ≤ p.span.start
  behind : p.behind.Settled fun trail =>
    s.validateBounds trail.toBounds = .ok () ∧ p.span.stop ≤ trail.start

instance (s : Source) (p : Place) : Decidable (p.Seated s) :=
  decidable_of_iff (s.validateBounds p.span.toBounds = .ok () ∧
      (p.before.Settled fun lead =>
        s.validateBounds lead.toBounds = .ok () ∧ lead.stop ≤ p.span.start) ∧
      p.behind.Settled fun trail =>
        s.validateBounds trail.toBounds = .ok () ∧ p.span.stop ≤ trail.start)
    ⟨fun h => ⟨h.1, h.2.1, h.2.2⟩, fun h => ⟨h.valid, h.before, h.behind⟩⟩

/-- The text of a place when the literals around it and the text of its span
may be others. -/
def keptText (s : Source) (p : Place) (around : Text × Text) (text : Text) : Text :=
  p.before.textFor s around.1 ++ s.slice ⟨p.before.stopAt p.span.start, p.span.start⟩ ++ text ++
    s.slice ⟨p.span.stop, p.behind.startAt p.span.stop⟩ ++ p.behind.textFor s around.2

end Place

namespace Tree

theorem insertion_makes {s : Source} {p q : Position} {edits : List Edit} {rest : Text}
    (h : Patch.Makes s p q edits rest) (text : Text) :
    Patch.Makes s p q (insertion p text ++ edits) (text ++ rest) := by
  unfold insertion
  split
  · next htext =>
    rw [List.isEmpty_iff.1 htext]
    exact h
  · exact h.insert ⟨.insert, Span.point p, text⟩ rfl

/-- The edits of a delimiter that was settled make its text. -/
theorem delimiterEdits_makes {s : Source} {d : Delimiter} {C : Span → Prop} (h : d.Settled C)
    (hC : ∀ span, C span → s.validateBounds span.toBounds = .ok ()) {anchor : Position}
    (hanchor : s.isValid anchor = true) (literal : Text) :
    Patch.Makes s (d.startAt anchor) (d.stopAt anchor) (delimiterEdits d literal anchor)
      (d.textFor s literal) := by
  cases d with
  | missing _ => exact h.elim
  | empty =>
    have hinsert := insertion_makes (.nil hanchor hanchor (Position.le_refl anchor)) literal
    rwa [Source.slice_self hanchor, List.append_nil, List.append_nil] at hinsert
  | present found span =>
    have hvalid := hC span h
    show Patch.Makes s span.start span.stop (if found = literal then [] else _)
      (if found = literal then _ else literal)
    split
    · rw [Source.validateBounds_eq_ok_iff] at hvalid
      exact .nil hvalid.1 hvalid.2 span.start_le_stop
    · exact Patch.Makes.single (e := ⟨.replace, span, literal⟩) hvalid

theorem replacement_makes {s : Source} {span : Span} (h : s.validateBounds span.toBounds = .ok ())
    (text : Text) :
    Patch.Makes s span.start span.stop (replacement span (s.slice span.toBounds) text) text := by
  unfold replacement
  split
  · next htext =>
    rw [Source.validateBounds_eq_ok_iff] at h
    rw [htext]
    exact .nil h.1 h.2 span.start_le_stop
  · exact Patch.Makes.single (e := ⟨.replace, span, text⟩) h

/-- The edits of an item that is still listed. -/
def itemEdits (s : Source) (p : Place) (around : Text × Text) (text : Text) : List Edit :=
  delimiterEdits p.before around.1 p.span.start ++
    (replacement p.span (s.slice p.span.toBounds) text ++
      delimiterEdits p.behind around.2 p.span.stop)

end Tree

namespace Place.Seated

open Reprint.Tree

variable {s : Source} {p : Place}

theorem isValid (h : p.Seated s) :
    s.isValid p.span.start = true ∧ s.isValid p.span.stop = true :=
  Source.validateBounds_eq_ok_iff.1 h.valid

/-- The delimiter in front. -/
theorem lead (h : p.Seated s) :
    s.isValid p.leadStart = true ∧ s.isValid (p.before.stopAt p.span.start) = true ∧
      p.leadStart ≤ p.before.stopAt p.span.start ∧ p.before.stopAt p.span.start ≤ p.span.start := by
  have hbefore := h.before
  unfold leadStart
  cases hdelimiter : p.before with
  | missing _ =>
    rw [hdelimiter] at hbefore
    exact hbefore.elim
  | empty => exact ⟨h.isValid.1, h.isValid.1, Position.le_refl _, Position.le_refl _⟩
  | present found span =>
    rw [hdelimiter] at hbefore
    obtain ⟨hvalid, hle⟩ := hbefore
    rw [Source.validateBounds_eq_ok_iff] at hvalid
    exact ⟨hvalid.1, hvalid.2, span.start_le_stop, hle⟩

/-- The delimiter behind. -/
theorem trail (h : p.Seated s) :
    s.isValid (p.behind.startAt p.span.stop) = true ∧ s.isValid p.trailStop = true ∧
      p.span.stop ≤ p.behind.startAt p.span.stop ∧ p.behind.startAt p.span.stop ≤ p.trailStop := by
  have hbehind := h.behind
  unfold trailStop
  cases hdelimiter : p.behind with
  | missing _ =>
    rw [hdelimiter] at hbehind
    exact hbehind.elim
  | empty => exact ⟨h.isValid.2, h.isValid.2, Position.le_refl _, Position.le_refl _⟩
  | present found span =>
    rw [hdelimiter] at hbehind
    obtain ⟨hvalid, hle⟩ := hbehind
    rw [Source.validateBounds_eq_ok_iff] at hvalid
    exact ⟨hvalid.1, hvalid.2, hle, span.start_le_stop⟩

theorem leadStart_le_trailStop (h : p.Seated s) : p.leadStart ≤ p.trailStop :=
  Position.le_trans h.lead.2.2.1 (Position.le_trans h.lead.2.2.2 (Position.le_trans
    p.span.start_le_stop (Position.le_trans h.trail.2.2.1 h.trail.2.2.2)))

/-- The extent goes from the delimiter in front to the one behind. -/
theorem extent (h : p.Seated s) : p.extent = some (Span.between p.leadStart p.trailStop) := by
  have hlead : Span.join (some p.span) p.before.span? =
      some (Span.between p.leadStart p.span.stop) := by
    have hbefore := h.before
    unfold leadStart
    cases hdelimiter : p.before with
    | present found span =>
      rw [hdelimiter] at hbefore
      exact congrArg some (Span.union_ahead hbefore.2)
    | _ => exact congrArg some (Span.between_start_stop p.span).symm
  have hle := Position.le_trans h.lead.2.2.1 (Position.le_trans h.lead.2.2.2 p.span.start_le_stop)
  have hbehind := h.behind
  unfold Place.extent trailStop
  rw [hlead]
  cases hdelimiter : p.behind with
  | present found span =>
    rw [hdelimiter] at hbehind
    refine congrArg some ((Span.union_behind ?_).trans ?_)
    · rw [Span.stop_between hle]
      exact hbehind.2
    · rw [Span.start_between hle]
      rfl
  | _ => rfl

/-- The edits of an item make the text of its place. -/
theorem makes (h : p.Seated s) (around : Text × Text) (text : Text) :
    Patch.Makes s p.leadStart p.trailStop (itemEdits s p around text)
      (p.keptText s around text) := by
  obtain ⟨_, hleadStop, _, hlead⟩ := h.lead
  obtain ⟨htrailStart, _, htrail, _⟩ := h.trail
  have hbefore := delimiterEdits_makes h.before (fun _ hspan => hspan.1) h.isValid.1 around.1
  have hbehind := delimiterEdits_makes h.behind (fun _ hspan => hspan.1) h.isValid.2 around.2
  have hinner := replacement_makes h.valid text
  have hgap := Patch.Makes.nil hleadStop h.isValid.1 hlead
  have hgap' := Patch.Makes.nil h.isValid.2 htrailStart htrail
  have hall := (hbefore.append hgap).append (hinner.append (hgap'.append hbehind))
  simp only [List.append_nil, List.nil_append] at hall
  refine hall.congr ?_
  unfold keptText
  simp only [List.append_assoc]

end Place.Seated

end Reprint
