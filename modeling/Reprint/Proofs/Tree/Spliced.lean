import Reprint.Proofs.Tree.Order
import Reprint.Proofs.Tree.Restored
import Reprint.Proofs.Tree.Seated

/-!
# The text of a list with items gone and items new

The text of a list whose items keep their order, written as one recursion over
the items found in the source (`splice`).  `arrange` sorts the objects that the
model lists now into the new ones and the ones that were found.

* `Row` says that the items of the source stand one behind the other.
* `removals` are the edits for the items that are gone, and `removals_makes`
  says that they leave the text of `splice` with nothing listed.
* `splice_listed` and `splice_first` are the steps from one listed item to the
  next, for an induction over the objects that the model lists.

The edits for the listed items are compared with `splice` in `InPlace`.
-/

namespace Reprint

open Reprint.Tree

variable {M O : Type}

namespace ItemList

/-! ## Items in a row -/

section Row

variable (s : Source) (place : Nat → Place)

/-- The items stand one behind the other between two positions. -/
def Row (stop : Position) : Position → List (ListedItem O) → Prop
  | a, [] => s.isValid a = true ∧ s.isValid stop = true ∧ a ≤ stop
  | a, item :: rest => s.isValid a = true ∧ a ≤ (place item.node).leadStart ∧
    (place item.node).Seated s ∧ Row stop (place item.node).trailStop rest

instance decidableRow (stop : Position) : ∀ (a : Position) (items : List (ListedItem O)),
    Decidable (Row s place stop a items)
  | a, [] => inferInstanceAs (Decidable (s.isValid a = true ∧ s.isValid stop = true ∧ a ≤ stop))
  | a, item :: rest =>
    have := decidableRow stop (place item.node).trailStop rest
    inferInstanceAs (Decidable (s.isValid a = true ∧ a ≤ (place item.node).leadStart ∧
      (place item.node).Seated s ∧ Row s place stop (place item.node).trailStop rest))

variable {s place} {stop a : Position} {gone more items : List (ListedItem O)} {item : ListedItem O}

/-- The items in front of an item and those behind it. -/
theorem Row.split (h : Row s place stop a (gone ++ item :: more)) :
    Row s place (place item.node).leadStart a gone ∧ (place item.node).Seated s ∧
      Row s place stop (place item.node).trailStop more := by
  induction gone generalizing a with
  | nil =>
    obtain ⟨ha, hle, hseated, hmore⟩ := h
    exact ⟨⟨ha, hseated.lead.1, hle⟩, hseated, hmore⟩
  | cons d gone ih =>
    obtain ⟨ha, hle, hseated, hrest⟩ := h
    obtain ⟨hgone, hitem, hmore⟩ := ih hrest
    exact ⟨⟨ha, hle, hseated, hgone⟩, hitem, hmore⟩

end Row

/-! ## The text of a list -/

/-- An object found in the source that the model still lists. -/
structure Kept (O : Type) where
  object : O
  /-- Its index among the objects that the model lists now. -/
  index : Nat
  text : Text
  /-- The texts of the new objects right behind it. -/
  behind : Text

/-- Sorts the objects that the model lists now, the first of which has the
given index: the texts of the new ones in front, and those that were found,
each with the texts of the new ones right behind it. -/
def arrange (found : O → Bool) : Nat → List O → List Text → Text × List (Kept O)
  | index, object :: rest, text :: texts =>
    let later := arrange found (index + 1) rest texts
    if found object then ([], ⟨object, index, text, later.1⟩ :: later.2)
    else (text ++ later.1, later.2)
  | _, _, _ => ([], [])

/-- Whether the gap in front of an item that is gone goes with it: it is blank,
the item is not the first one, and no delimiter in front of it owns the gap. -/
def takesGap (s : Source) (first : Bool) (a : Position) (p : Place) : Bool :=
  !first && p.before.span?.isNone && Text.isBlank (s.slice ⟨a, p.leadStart⟩)

section Splice

variable [DecidableEq O] (s : Source) (place : Nat → Place) (around : Nat → Text × Text)

/-- The text from a position on, for the items of the source that are left.
New text goes in front of the first of them that is still listed. -/
def splice (stop : Position) : Bool → Position → Text → List (ListedItem O) → List (Kept O) → Text
  | _, a, _, [], _ => s.slice ⟨a, stop⟩
  | first, a, news, item :: rest, kept =>
    let p := place item.node
    let gap := s.slice ⟨a, p.leadStart⟩
    match kept.find? fun k => k.object = item.object with
    | some k =>
      gap ++ news ++ p.keptText s (around k.index) k.text ++ k.behind ++
        splice stop false p.trailStop [] rest kept
    | none =>
      (if takesGap s first a p then [] else gap) ++ splice stop false p.trailStop news rest kept

/-- The piece that is removed with an item that is gone. -/
def goneSpan (first : Bool) (a : Position) (p : Place) : Span :=
  Span.between (if takesGap s first a p then a else p.leadStart) p.trailStop

/-- The removal of a piece, which is no edit if the piece is empty. -/
def removal (span : Span) : List Edit := if span.isEmpty then [] else [⟨.remove, span, []⟩]

/-- The removals of the items that are gone. -/
def removals (current : List O) : Bool → Position → List (ListedItem O) → List Edit
  | _, _, [] => []
  | first, a, item :: rest =>
    (if current.contains item.object then [] else removal (goneSpan s first a (place item.node))) ++
      removals current false (place item.node).trailStop rest

variable {s place around} {stop a : Position} {first : Bool} {items gone more : List (ListedItem O)}
  {item : ListedItem O} {kept : List (Kept O)} {current : List O}

/-! ## Items that are gone -/

theorem removal_makes {span : Span} (h : s.validateBounds span.toBounds = .ok ()) :
    Patch.Makes s span.start span.stop (removal span) [] := by
  unfold removal
  split
  · next hempty =>
    have hstart : span.start = span.stop := of_decide_eq_true hempty
    rw [Source.validateBounds_eq_ok_iff] at h
    have hnil := Patch.Makes.nil h.1 h.2 span.start_le_stop
    rw [← hstart, Source.slice_self h.1] at hnil
    rwa [← hstart]
  · exact Patch.Makes.single (e := ⟨.remove, span, []⟩) h

/-- An item that is gone leaves the gap in front of it, if that stays. -/
theorem goneSpan_makes {p : Place} (ha : s.isValid a = true) (hle : a ≤ p.leadStart)
    (hp : p.Seated s) :
    Patch.Makes s a p.trailStop (removal (goneSpan s first a p))
      (if takesGap s first a p then [] else s.slice ⟨a, p.leadStart⟩) := by
  have hlead := hp.lead.1
  have htrail := hp.trail.2.1
  have horder := hp.leadStart_le_trailStop
  unfold goneSpan
  split
  · have hremove := removal_makes (Source.validateBounds_between ha htrail)
    rwa [Span.start_between (Position.le_trans hle horder),
      Span.stop_between (Position.le_trans hle horder)] at hremove
  · have hremove := removal_makes (Source.validateBounds_between hlead htrail)
    rw [Span.start_between horder, Span.stop_between horder] at hremove
    have hgap := (Patch.Makes.nil ha hlead hle).append hremove
    rwa [List.append_nil, List.nil_append] at hgap

theorem isEmpty_of_mem_removals : ∀ {items : List (ListedItem O)} {first : Bool} {a : Position},
    ∀ e ∈ removals s place current first a items, e.target.isEmpty = false
  | [], _, _, e, he => absurd he List.not_mem_nil
  | item :: rest, first, a, e, he => by
    rw [removals, List.mem_append] at he
    rcases he with he | he
    · split at he
      · cases he
      · unfold removal at he
        split at he
        · cases he
        · next hempty =>
          rw [List.mem_singleton.1 he]
          exact Bool.eq_false_iff.2 hempty
    · exact isEmpty_of_mem_removals e he

theorem removals_listed (h : item.object ∈ current) :
    removals s place current first a (gone ++ item :: more) =
      removals s place current first a gone ++
        removals s place current false (place item.node).trailStop more := by
  induction gone generalizing first a with
  | nil => simp [removals, h]
  | cons d gone ih => rw [List.cons_append, removals, removals, ih, List.append_assoc]

/-- The text without the items that are gone. -/
theorem removals_makes : ∀ {gone : List (ListedItem O)} {first : Bool} {a : Position},
    Row s place stop a gone → (∀ d ∈ gone, d.object ∉ current) →
    Patch.Makes s a stop (removals s place current first a gone)
      (splice s place around stop first a [] gone [])
  | [], _, _, h, _ => .nil h.1 h.2.1 h.2.2
  | d :: gone, first, a, h, habsent => by
    obtain ⟨ha, hle, hseated, hrest⟩ := h
    have hd : current.contains d.object = false := by simpa using habsent d List.mem_cons_self
    rw [removals, hd, splice]
    exact (goneSpan_makes ha hle hseated).append
      (removals_makes hrest fun x hx => habsent x (List.mem_cons_of_mem _ hx))

/-! ## Items that are listed -/

omit [DecidableEq O] in
theorem object_mem_of_mem_arrange {found : O → Bool} : ∀ {objects : List O} {index : Nat}
    {texts : List Text}, ∀ k ∈ (arrange found index objects texts).2, k.object ∈ objects
  | [], _, _, _, hk => absurd hk List.not_mem_nil
  | _ :: _, _, [], _, hk => absurd hk List.not_mem_nil
  | object :: rest, index, text :: texts, k, hk => by
    rw [arrange] at hk
    split at hk
    · rcases List.mem_cons.1 hk with rfl | hk
      · exact List.mem_cons_self
      · exact List.mem_cons_of_mem _ (object_mem_of_mem_arrange k hk)
    · exact List.mem_cons_of_mem _ (object_mem_of_mem_arrange k hk)

/-- Only the objects of the items matter. -/
theorem splice_congr {kept' : List (Kept O)} {news : Text} (hsame : ∀ item ∈ items,
    kept.find? (fun k => k.object = item.object) = kept'.find? fun k => k.object = item.object) :
    splice s place around stop first a news items kept =
      splice s place around stop first a news items kept' := by
  induction items generalizing first a news with
  | nil => rfl
  | cons item rest ih =>
    have hrest := fun x hx => hsame x (List.mem_cons_of_mem item hx)
    rw [splice, splice, hsame item List.mem_cons_self]
    cases kept'.find? fun k => k.object = item.object <;> simp only [ih hrest]

/-- The first item that is listed comes behind some items that are gone. -/
theorem splice_listed {k : Kept O} (news : Text)
    (habsent : ∀ d ∈ gone, kept.find? (fun k => k.object = d.object) = none)
    (hk : kept.find? (fun k => k.object = item.object) = some k) :
    splice s place around stop first a news (gone ++ item :: more) kept =
      splice s place around (place item.node).leadStart first a [] gone [] ++ (news ++
        ((place item.node).keptText s (around k.index) k.text ++ (k.behind ++
          splice s place around stop false (place item.node).trailStop [] more kept))) := by
  induction gone generalizing first a with
  | nil =>
    rw [List.nil_append, splice, splice, hk]
    simp only [List.append_assoc]
  | cons d gone ih =>
    rw [List.cons_append, splice, habsent d List.mem_cons_self, splice,
      ih fun x hx => habsent x (List.mem_cons_of_mem d hx)]
    simp only [List.find?_nil, List.append_assoc]

/-- Nothing stands in front of an item that is listed where the text starts. -/
theorem splice_first {k : Kept O} (h : (place item.node).Seated s)
    (hk : kept.find? (fun k => k.object = item.object) = some k) :
    splice s place around stop first (place item.node).leadStart [] (item :: more) kept =
      (place item.node).keptText s (around k.index) k.text ++ (k.behind ++
        splice s place around stop false (place item.node).trailStop [] more kept) := by
  rw [splice, hk, Source.slice_self h.lead.1]
  simp only [List.nil_append, List.append_assoc]

end Splice

end ItemList

end Reprint
