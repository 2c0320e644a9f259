import Reprint.Proofs.Tree.Searches

/-!
# Literals with literals around them

A `Caption` is a literal with the literals around it, of which nothing has
been found.  This is about sources that are made of captions.

What is found of captions can be told from the text alone: `Caption.seek` looks
for the first occurrence of the literal behind an offset, then for the literals
around it from there outward.  `Caption.rendered` is the text that is printed
then: the source, with every literal inserted that was not found.

A search finds what it comes upon first, which need not be what was meant.
`Caption.Anchored` says that it is: the first occurrence of every literal is
at the place where the literals in front of it put it.  Then the text is the
source (`Caption.rendered_of_anchored`), and for captions that are printed as
they are spelled only then (`Caption.anchored_of_length`).
-/

namespace Reprint

open Reprint.Tree

variable {M O : Type}

/-- A literal of which nothing has been found. -/
structure Caption (M : Type) where
  frame : Frame
  wording : Wording M

namespace Caption

/-- The part of a caption. -/
def part (x : Caption M) : Part M O := .literal x.frame x.wording {}

/-- The text that a caption stands for. -/
def spelling (m : M) (x : Caption M) : Text :=
  x.frame.leadText ++ (x.wording.text m ++ x.frame.trailText)

/-- The text that captions stand for. -/
def document (m : M) (captions : List (Caption M)) : Text := captions.flatMap (spelling m)

/-! ## What a search finds -/

/-- Where the literal of a caption is found, if it is looked for from an offset
on.  An empty one is not looked for. -/
def start? (m : M) (text : Text) (c : Nat) (x : Caption M) : Option Nat :=
  if x.wording.text m = [] then none else text.firstMatch (x.wording.text m) c

/-- What is found in front of an offset, back to another one. -/
def leadFrom (text lead : Text) (c p : Nat) : Delimiter :=
  if lead = [] then .empty
  else
    match text.lastMatch lead c p with
    | none => .missing lead
    | some q => .present lead (window (.ofText text) q p)

/-- What is found behind an offset, and where the search goes on. -/
def trailFrom (text trail : Text) (e : Nat) : Delimiter × Nat :=
  if trail = [] then (.empty, e)
  else
    match text.firstMatch trail e with
    | none => (.missing trail, e)
    | some q => (.present trail (window (.ofText text) e (q + trail.length)), q + trail.length)

/-- What is found of a caption from an offset on, and where the search goes on. -/
def seek (m : M) (text : Text) (c : Nat) (x : Caption M) : LiteralPlace × Nat :=
  match x.start? m text c with
  | none => ({}, c)
  | some p =>
    let e := p + (x.wording.text m).length
    let (behind, next) := trailFrom text x.frame.trailText e
    (⟨some (window (.ofText text) p e), leadFrom text x.frame.leadText c p, behind⟩, next)

/-- The parts of captions that were looked for from an offset on. -/
def sought (m : M) (text : Text) : Nat → List (Caption M) → List (Part M O)
  | _, [] => []
  | c, x :: rest =>
    let found := x.seek m text c
    .literal { x.frame with extent := found.1.extent } x.wording found.1 ::
      sought m text found.2 rest

/-- Where the search ends. -/
def soughtEnd (m : M) (text : Text) : Nat → List (Caption M) → Nat
  | c, [] => c
  | c, x :: rest => soughtEnd m text (x.seek m text c).2 rest

/-- The text of captions from an offset on.  `fresh` is the text of one that
was not found. -/
def rendered (m : M) (text : Text) (fresh : Caption M → Text) : Nat → List (Caption M) → Text
  | c, [] => text.piece c text.length
  | c, x :: rest =>
    match x.start? m text c with
    | none => fresh x ++ rendered m text fresh c rest
    | some p =>
      let e := p + (x.wording.text m).length
      let (behind, next) := trailFrom text x.frame.trailText e
      text.piece c p ++ ((leadFrom text x.frame.leadText c p).toInsert ++ (x.wording.text m ++
        (behind.toInsert ++ (text.piece e next ++ rendered m text fresh next rest))))

/-- The literals are found where they are meant to be: of the first one the
text starts at the offset `a`, and it is looked for from the offset `c` on.  An
empty literal is not found, so nothing may have to be written for it. -/
def Anchored (m : M) (text : Text) (margin : Margin) : Nat → Nat → List (Caption M) → Prop
  | _, _, [] => True
  | c, a, x :: rest =>
    let next := a + (x.spelling m).length
    if x.wording.text m = [] then
      x.frame.wrap margin [] = [] ∧ Anchored m text margin c next rest
    else
      text.firstMatch (x.wording.text m) c = some (a + x.frame.leadText.length) ∧
        Anchored m text margin next next rest

theorem selectedAll_part (m : M) (captions : List (Caption M)) :
    Part.selectedAll m (captions.map part : List (Part M O)) = [] := by
  induction captions with
  | nil => rfl
  | cons x rest ih => exact ih

instance decidableAnchored (m : M) (text : Text) (margin : Margin) : ∀ (c a : Nat)
    (captions : List (Caption M)), Decidable (Anchored m text margin c a captions)
  | _, _, [] => .isTrue trivial
  | c, a, x :: rest =>
    have := decidableAnchored m text margin c (a + (x.spelling m).length) rest
    have := decidableAnchored m text margin (a + (x.spelling m).length) (a + (x.spelling m).length) rest
    decidable_of_iff (if x.wording.text m = [] then
      x.frame.wrap margin [] = [] ∧ Anchored m text margin c (a + (x.spelling m).length) rest
    else
      text.firstMatch (x.wording.text m) c = some (a + x.frame.leadText.length) ∧
        Anchored m text margin (a + (x.spelling m).length) (a + (x.spelling m).length) rest) Iff.rfl

variable {m : M} {text lead trail : Text} {c p e : Nat} {x : Caption M} {captions rest : List (Caption M)}

/-! ## Bounds -/

theorem start?_eq_some (h : x.start? m text c = some p) : x.wording.text m ≠ [] ∧ c ≤ p ∧
    p + (x.wording.text m).length ≤ text.length ∧
    text.piece p (p + (x.wording.text m).length) = x.wording.text m := by
  unfold start? at h
  split at h
  · cases h
  · next hne =>
    obtain ⟨hcp, hp, hpiece, _⟩ := Text.firstMatch_eq_some h
    exact ⟨hne, hcp, hp, hpiece⟩

theorem trailFrom_bounds (text trail : Text) (he : e ≤ text.length) :
    e ≤ (trailFrom text trail e).2 ∧ (trailFrom text trail e).2 ≤ text.length := by
  unfold trailFrom
  split
  · exact ⟨Nat.le_refl e, he⟩
  · split
    · exact ⟨Nat.le_refl e, he⟩
    · next q hq =>
      obtain ⟨heq, hq, _⟩ := Text.firstMatch_eq_some hq
      exact ⟨by omega, hq⟩

/-- The search goes on where the literal behind ends. -/
theorem stopBehind_trailFrom (trail : Text) (hpe : p ≤ e) (he : e ≤ text.length) :
    (trailFrom text trail e).1.stopBehind (window (.ofText text) p e) =
      (Source.ofText text).place (trailFrom text trail e).2 := by
  have hcount := Source.charCount_ofText text
  unfold trailFrom
  split
  · exact stop_window hpe (by omega)
  · split
    · exact stop_window hpe (by omega)
    · next q hq =>
      obtain ⟨heq, hq, _⟩ := Text.firstMatch_eq_some hq
      exact stop_window (by omega) (by omega)

theorem seek_none (h : x.start? m text c = none) : x.seek m text c = ({}, c) := by
  rw [seek, h]

theorem seek_some (h : x.start? m text c = some p) :
    x.seek m text c =
      (⟨some (window (.ofText text) p (p + (x.wording.text m).length)),
        leadFrom text x.frame.leadText c p,
        (trailFrom text x.frame.trailText (p + (x.wording.text m).length)).1⟩,
        (trailFrom text x.frame.trailText (p + (x.wording.text m).length)).2) := by
  rw [seek, h]

theorem seek_bounds (m : M) (x : Caption M) (hc : c ≤ text.length) :
    c ≤ (x.seek m text c).2 ∧ (x.seek m text c).2 ≤ text.length := by
  cases h : x.start? m text c with
  | none =>
    rw [seek_none h]
    exact ⟨Nat.le_refl c, hc⟩
  | some p =>
    obtain ⟨_, hcp, hp, _⟩ := start?_eq_some h
    have hnext := trailFrom_bounds text x.frame.trailText hp
    rw [seek_some h]
    exact ⟨by omega, hnext.2⟩

theorem rendered_none {fresh : Caption M → Text} (h : x.start? m text c = none) :
    rendered m text fresh c (x :: rest) = fresh x ++ rendered m text fresh c rest := by
  rw [rendered, h]

theorem rendered_some {fresh : Caption M → Text} (h : x.start? m text c = some p) :
    rendered m text fresh c (x :: rest) =
      text.piece c p ++ ((leadFrom text x.frame.leadText c p).toInsert ++ (x.wording.text m ++
        ((trailFrom text x.frame.trailText (p + (x.wording.text m).length)).1.toInsert ++
          (text.piece (p + (x.wording.text m).length) (x.seek m text c).2 ++
            rendered m text fresh (x.seek m text c).2 rest)))) := by
  rw [rendered, h, seek_some h]

/-! ## When the text is the source -/

/-- A text that stands at an offset. -/
theorem piece_of_drop {a : Nat} {tail : Text} (h : text.drop a = lead ++ tail) :
    text.piece a (a + lead.length) = lead ∧ text.drop (a + lead.length) = tail := by
  constructor
  · rw [Text.piece, List.drop_take, Nat.add_sub_cancel_left, h, List.take_left]
  · rw [← List.drop_drop, h, List.drop_left]

/-- A literal that stands in front is found. -/
theorem toInsert_leadFrom {a : Nat} (hca : c ≤ a) (h : text.piece a (a + lead.length) = lead) :
    (leadFrom text lead c (a + lead.length)).toInsert = [] := by
  unfold leadFrom
  split
  · rfl
  · split
    · next hnone => exact absurd h (Text.lastMatch_eq_none.1 hnone a hca (Nat.le_refl _))
    · rfl

/-- A literal that stands behind is found right there. -/
theorem trailFrom_of_piece (he : e + trail.length ≤ text.length)
    (h : text.piece e (e + trail.length) = trail) :
    (trailFrom text trail e).1.toInsert = [] ∧ (trailFrom text trail e).2 = e + trail.length := by
  unfold trailFrom
  split
  · next hempty => rw [hempty]; exact ⟨rfl, rfl⟩
  · have hfirst : text.firstMatch trail e = some e :=
      Text.firstMatch_of_first (Nat.le_refl e) he h fun q heq hqe => absurd hqe (by omega)
    rw [hfirst]
    exact ⟨rfl, rfl⟩

/-- A text with the source around it. -/
theorem piece_around {word : Text} (hcp : c ≤ p) (hp : p + word.length ≤ text.length)
    (h : text.piece p (p + word.length) = word) :
    text.piece c p ++ (word ++ text.piece (p + word.length) text.length) = text.piece c text.length := by
  have happend := Text.piece_append (t := text) (Nat.le_add_right p word.length) hp
  rw [h] at happend
  rw [happend, Text.piece_append hcp (by omega)]

/-- Nothing goes in if the literals are where they are meant to be. -/
theorem rendered_of_anchored {margin : Margin} {fresh : Caption M → Text}
    (hfresh : ∀ x : Caption M, x.frame.wrap margin (x.wording.text m) = [] → fresh x = []) :
    ∀ {captions : List (Caption M)} {c a : Nat}, c ≤ a → a ≤ text.length →
      text.drop a = document m captions → Anchored m text margin c a captions →
      rendered m text fresh c captions = text.piece c text.length
  | [], _, _, _, _, _, _ => rfl
  | x :: rest, c, a, hca, ha, hdrop, hanchored => by
    rw [document, List.flatMap_cons, spelling, List.append_assoc] at hdrop
    have hbound := congrArg List.length hdrop
    obtain ⟨hlead, hdrop⟩ := piece_of_drop hdrop
    rw [List.append_assoc] at hdrop
    obtain ⟨_, hdrop⟩ := piece_of_drop hdrop
    obtain ⟨htrail, hdrop⟩ := piece_of_drop hdrop
    have hlength : (x.spelling m).length =
        x.frame.leadText.length + ((x.wording.text m).length + x.frame.trailText.length) := by
      rw [spelling, List.length_append, List.length_append]
    have hnext : a + (x.spelling m).length =
        a + x.frame.leadText.length + (x.wording.text m).length + x.frame.trailText.length := by
      omega
    replace hbound : a + (x.spelling m).length ≤ text.length := by
      simp only [List.length_drop, List.length_append] at hbound
      omega
    rw [Anchored] at hanchored
    split at hanchored
    · next hempty =>
      obtain ⟨hwrap, hrest⟩ := hanchored
      have hnone : x.start? m text c = none := by rw [start?, if_pos hempty]
      rw [rendered_none hnone, hfresh x (by rw [hempty]; exact hwrap), List.nil_append]
      exact rendered_of_anchored hfresh (by omega) hbound (hnext ▸ hdrop) hrest
    · next hne =>
      obtain ⟨hfirst, hrest⟩ := hanchored
      have hstart : x.start? m text c = some (a + x.frame.leadText.length) := by
        rw [start?, if_neg hne, hfirst]
      obtain ⟨_, _, hp, hpiece⟩ := start?_eq_some hstart
      obtain ⟨hbehind, hstop⟩ := trailFrom_of_piece (hnext ▸ hbound) htrail
      have hseek : (x.seek m text c).2 = a + (x.spelling m).length := by
        rw [seek_some hstart, hstop, hnext]
      have htail := rendered_of_anchored hfresh (Nat.le_refl _) hbound (hnext ▸ hdrop) hrest
      rw [rendered_some hstart, toInsert_leadFrom hca hlead, hbehind, hseek, htail, List.nil_append,
        List.nil_append, Text.piece_append (by omega) hbound]
      exact piece_around (by omega) hp hpiece

/-- Every literal that was not found makes the text longer. -/
theorem length_rendered (m : M) (fresh : Caption M → Text) : ∀ (captions : List (Caption M)) {c : Nat},
    c ≤ text.length → text.length ≤ (rendered m text fresh c captions).length + c
  | [], c, hc => by
    rw [rendered, Text.length_piece (Nat.le_refl _)]
    omega
  | x :: rest, c, hc => by
    have hbounds := seek_bounds m x hc
    have hrest := length_rendered m fresh rest hbounds.2
    cases hstart : x.start? m text c with
    | none =>
      rw [rendered_none hstart, List.length_append]
      simp only [seek_none hstart] at hrest
      omega
    | some p =>
      obtain ⟨_, hcp, hp, _⟩ := start?_eq_some hstart
      have hnext := trailFrom_bounds text x.frame.trailText hp
      simp only [seek_some hstart] at hrest hbounds
      rw [rendered_some hstart, seek_some hstart]
      simp only [List.length_append, Text.length_piece hbounds.2,
        Text.length_piece (show p ≤ text.length by omega)]
      omega

/-- A literal in front that was found has room there. -/
theorem lead_le_of_toInsert (hcp : c ≤ p) (h : (leadFrom text lead c p).toInsert = []) :
    c + lead.length ≤ p := by
  unfold leadFrom at h
  split at h
  · next hempty => rw [hempty]; exact hcp
  · next hne =>
    split at h
    · exact absurd h hne
    · next q hq =>
      obtain ⟨hcq, hqp, _⟩ := Text.lastMatch_eq_some hq
      omega

/-- So has a literal behind. -/
theorem trail_le_of_toInsert (h : (trailFrom text trail e).1.toInsert = []) :
    e + trail.length ≤ (trailFrom text trail e).2 := by
  unfold trailFrom at h ⊢
  split
  · next hempty => rw [hempty]; exact Nat.le_refl e
  · next hne =>
    rw [if_neg hne] at h
    split
    · next hnone =>
      rw [hnone] at h
      exact absurd h hne
    · next q hq =>
      obtain ⟨heq, _⟩ := Text.firstMatch_eq_some hq
      exact Nat.add_le_add_right heq _

/-- If the text is no longer than the source, then a literal that was found has
room for the literals around it, and the text behind is no longer either. -/
theorem seek_of_length {fresh : Caption M → Text} (hc : c ≤ text.length)
    (hstart : x.start? m text c = some p)
    (h : (rendered m text fresh c (x :: rest)).length + c ≤ text.length) :
    c + x.frame.leadText.length ≤ p ∧
      p + (x.wording.text m).length + x.frame.trailText.length ≤ (x.seek m text c).2 ∧
      (rendered m text fresh (x.seek m text c).2 rest).length + (x.seek m text c).2 ≤ text.length := by
  obtain ⟨_, hcp, hp, _⟩ := start?_eq_some hstart
  have hnext := trailFrom_bounds text x.frame.trailText hp
  have hrest := length_rendered m fresh rest (seek_bounds m x hc).2
  rw [rendered_some hstart] at h
  simp only [seek_some hstart] at h hrest ⊢
  simp only [List.length_append, Text.length_piece hnext.2,
    Text.length_piece (show p ≤ text.length by omega)] at h
  have hlead : (leadFrom text x.frame.leadText c p).toInsert = [] := List.length_eq_zero_iff.1 (by omega)
  have htrail : (trailFrom text x.frame.trailText (p + (x.wording.text m).length)).1.toInsert = [] :=
    List.length_eq_zero_iff.1 (by omega)
  have hlead := lead_le_of_toInsert hcp hlead
  have htrail := trail_le_of_toInsert htrail
  exact ⟨hlead, htrail, by omega⟩

section Converse

variable {fresh : Caption M → Text} (hfresh : ∀ x ∈ captions, fresh x = [] → x.spelling m = [])
include hfresh

/-- If the text is no longer than the source, then the source has room for all
literals. -/
theorem document_le_of_length (hc : c ≤ text.length)
    (h : (rendered m text fresh c captions).length + c ≤ text.length) :
    (document m captions).length + c ≤ text.length := by
  induction captions generalizing c with
  | nil =>
    rw [document, List.flatMap_nil, List.length_nil]
    omega
  | cons x rest ih =>
    have ih := fun {c} => @ih c fun y hy => hfresh y (List.mem_cons_of_mem x hy)
    rw [document, List.flatMap_cons, List.length_append]
    cases hstart : x.start? m text c with
    | none =>
      have hrest := length_rendered m fresh rest hc
      rw [rendered_none hstart, List.length_append] at h
      have hspelling := hfresh x List.mem_cons_self (List.length_eq_zero_iff.1 (by omega))
      rw [hspelling, List.length_nil, Nat.zero_add]
      exact ih hc (by omega)
    | some p =>
      obtain ⟨hlead, htrail, hrest⟩ := seek_of_length hc hstart h
      have hrest := ih (seek_bounds m x hc).2 hrest
      rw [document] at hrest
      simp only [spelling, List.length_append]
      omega

/-- If the text is no longer than the source and the source is no longer than
the literals, then these are where they are meant to be. -/
theorem anchored_of_length {margin : Margin} (hwrap : ∀ x ∈ captions,
      x.spelling m = [] → x.frame.wrap margin [] = []) (hc : c ≤ text.length)
    (hdocument : (document m captions).length + c = text.length)
    (h : (rendered m text fresh c captions).length + c ≤ text.length) :
    Anchored m text margin c c captions := by
  induction captions generalizing c with
  | nil => trivial
  | cons x rest ih =>
    have hfresh' := fun y hy => hfresh y (List.mem_cons_of_mem x hy)
    have ih := fun {c} => @ih c hfresh' fun y hy => hwrap y (List.mem_cons_of_mem x hy)
    rw [document, List.flatMap_cons, List.length_append] at hdocument
    rw [Anchored]
    cases hstart : x.start? m text c with
    | none =>
      have hrest := length_rendered m fresh rest hc
      rw [rendered_none hstart, List.length_append] at h
      have hspelling := hfresh x List.mem_cons_self (List.length_eq_zero_iff.1 (by omega))
      have hempty : x.wording.text m = [] :=
        (List.append_eq_nil_iff.1 (List.append_eq_nil_iff.1 hspelling).2).1
      rw [hspelling, List.length_nil] at hdocument ⊢
      rw [if_pos hempty]
      refine ⟨hwrap x List.mem_cons_self hspelling, ih hc ?_ (by omega)⟩
      rw [document]
      omega
    | some p =>
      obtain ⟨hne, _⟩ := start?_eq_some hstart
      obtain ⟨hlead, htrail, hrest⟩ := seek_of_length hc hstart h
      have hbounds := seek_bounds m x hc
      have hroom := document_le_of_length hfresh' hbounds.2 hrest
      rw [document] at hroom
      -- There is no room to spare, so the literal starts right behind the one in front.
      have hlength : (x.spelling m).length =
          x.frame.leadText.length + ((x.wording.text m).length + x.frame.trailText.length) := by
        rw [spelling, List.length_append, List.length_append]
      obtain rfl : p = c + x.frame.leadText.length := by omega
      have hnext : (x.seek m text c).2 = c + (x.spelling m).length := by omega
      rw [if_neg hne]
      rw [hnext] at hrest
      rw [start?, if_neg hne] at hstart
      refine ⟨hstart, ih (by omega) ?_ hrest⟩
      rw [document]
      omega

end Converse

end Caption

end Reprint
