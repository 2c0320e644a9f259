import Mathlib.Data.List.Nodup
import Reprint.Proofs.Tree.Stands

/-!
# Bringing a list up to date in place

A list of which items are still listed, in the order in which they stand in the
source, is brought up to date item by item: `revisePart_spliced`.  Its text is
`ItemList.spliced`, which goes through the items of the source, while the revision
goes through the objects of the model first and through the items that are gone
afterwards.

* `Aligned` is how both go together, so the induction of `turns_reviseListed` is on
  it.  A new object goes in at the cursor, and an item that is listed comes
  behind some that are gone (`makes_listed`).
* `makes_spliced` adds the items that are gone in front of the first one that is
  listed, with which the revision starts (`turns_moveToFirst`).
* `turns_removeGone` goes through the items that are gone.  `gonePiece_eq` is the
  piece that goes with one of them.

The texts of the objects are those of `itemTexts`.  An item whose span grows while
they are made is not covered: its text then replaces more than its place.
-/

namespace Reprint

open Reprint.Tree

variable {M O : Type}

namespace ItemList

variable [DecidableEq O] {s : Source} {place : Nat → Place} {list : ItemList M O} {frame : Frame}
  {stop : Position} {print : Nat → Margin → Job M O Text} {m : M} {owner count : Nat} {unit : Margin}
  {current spare : List O} {v : Tree M O}

/-- Whether an object was found in the source. -/
def found (list : ItemList M O) (object : O) : Bool := (list.item? object).isSome

/-- The edits of an item that is still listed go between those of the items in
front of it that are gone and those of the items behind it. -/
theorem makes_listed {gone more : List (ListedItem O)} {c : ListedItem O} {rest : List O}
    {index : Nat} {text : Text} {later : List Text} {around : Nat → Text × Text} {a : Position}
    {edits : List Edit} (hgone : Row s place (place c.node).leadStart a gone)
    (hseated : (place c.node).Seated s) (hcurrent : c.object ∈ current)
    (hgone' : ∀ d ∈ gone, d.object ∉ current) (habsent : ∀ d ∈ gone, d.object ∉ c.object :: rest)
    (hnew : ∀ d ∈ more, d.object ≠ c.object) (hfound : list.found c.object = true)
    (hmakes : Patch.Makes s (place c.node).trailStop stop
      (edits ++ removals s place current false (place c.node).trailStop more)
      ((arrange list.found (index + 1) rest later).1 ++
        splice s place around stop false (place c.node).trailStop [] more
          (arrange list.found (index + 1) rest later).2)) :
    Patch.Makes s a stop (itemEdits s (place c.node) (around index) text ++ edits ++
        removals s place current false a (gone ++ c :: more))
      ((arrange list.found index (c.object :: rest) (text :: later)).1 ++
        splice s place around stop false a [] (gone ++ c :: more)
          (arrange list.found index (c.object :: rest) (text :: later)).2) := by
  generalize hlater : arrange list.found (index + 1) rest later = tail at hmakes
  have harrange : arrange list.found index (c.object :: rest) (text :: later) =
      ([], ⟨c.object, index, text, tail.1⟩ :: tail.2) := by
    rw [arrange, if_pos hfound, hlater]
  have hbehind : splice s place around stop false (place c.node).trailStop [] more
      (⟨c.object, index, text, tail.1⟩ :: tail.2) =
      splice s place around stop false (place c.node).trailStop [] more tail.2 :=
    splice_congr fun d hd => List.find?_cons_of_neg (by simpa using (hnew d hd).symm)
  have hnone : ∀ d ∈ gone, (⟨c.object, index, text, tail.1⟩ :: tail.2 : List (Kept O)).find?
      (fun k => k.object = d.object) = none := by
    intro d hd
    rw [List.find?_eq_none]
    intro k hk hobject
    have hmem : k.object ∈ c.object :: rest := by
      rcases List.mem_cons.1 hk with rfl | hk
      · exact List.mem_cons_self
      · rw [← hlater] at hk
        exact List.mem_cons_of_mem _ (object_mem_of_mem_arrange k hk)
    exact habsent d hd (of_decide_eq_true hobject ▸ hmem)
  have hleft : Patch.Makes s a (place c.node).leadStart (removals s place current false a gone)
      (splice s place around (place c.node).leadStart false a [] gone []) :=
    removals_makes hgone hgone'
  have hright := (hseated.makes (around index) text).append hmakes
  rw [← List.append_assoc] at hright
  have hall := Patch.Makes.cut [] _ _ _ hleft hright isEmpty_of_mem_removals
  rw [harrange, removals_listed hcurrent, splice_listed [] hnone (List.find?_cons_of_pos (by simp)),
    hbehind]
  exact hall

/-- From an item that is still listed on, new text goes in behind the item in
front of it. -/
theorem turns_reviseListed (spare current : List O)
    (hprint : ∀ id margin t, Job.Keeping (Grown t) (print id margin))
    (hv : Stands s place list.listed v) {items : List (ListedItem O)} {objects : List O}
    (haligned : Aligned ListedItem.object items objects) :
    ∀ {index : Nat} {done : List O} {t : Tree M O} {a : Position} {texts : List Text},
    Row s place stop a items → objects.Nodup → (∀ x ∈ objects, x ∉ done) →
    (∀ x ∈ objects, ∀ item, list.item? x = some item → item ∈ items) →
    (∀ item ∈ items, item ∈ list.listed ∧ list.item? item.object = some item) →
    (∀ item ∈ items, item.object ∈ current ↔ item.object ∈ objects) →
    Stands s place list.listed t →
    itemTexts print m owner unit frame list count index objects t = .ok texts v →
    ∃ edits b, Turns t v
        (reviseListed print m owner unit frame list count index objects done spare) a () edits b ∧
      Patch.Makes s a stop (edits ++ removals s place current false a items)
        ((arrange list.found index objects texts).1 ++
          splice s place (list.around frame · count) stop false a [] items
            (arrange list.found index objects texts).2) := by
  induction haligned with
  | nil entries =>
    intro index done t a texts hrow _ _ _ _ hlisted _ htexts
    cases htexts
    refine ⟨[], a, .of_revises (.pure a ()), ?_⟩
    exact removals_makes hrow fun d hd => mt (hlisted d hd).1 List.not_mem_nil
  | @fresh entries x rest new tail ih =>
    intro index done t a texts hrow hnodup hdone hfound hitems hlisted ht htexts
    obtain ⟨hx, hnodup⟩ := List.nodup_cons.1 hnodup
    have hnone : list.item? x = none := by
      cases hitem : list.item? x with
      | none => rfl
      | some item =>
        have hobject : item.object = x := by simpa using List.find?_some hitem
        exact absurd hobject (new item (hfound x List.mem_cons_self item hitem))
    obtain ⟨text, later, u, rfl, htext, hlater⟩ := itemTexts_cons_eq_ok htexts
    have hu := ht.between hv (grown_itemText hprint htext) (grown_itemTexts hprint hlater)
    obtain ⟨edits, b, hturns, hmakes⟩ := ih hrow hnodup
      (fun y hy => hdone y (List.mem_cons_of_mem x hy))
      (fun y hy => hfound y (List.mem_cons_of_mem x hy)) hitems
      (fun d hd => by simpa [new d hd] using hlisted d hd) hu hlater
    rw [itemText_fresh hnone] at htext
    refine ⟨insertion a text ++ edits, b, ?_, ?_⟩
    · rw [reviseListed_fresh hnone]
      exact .bind_nil (.freshText htext a) (.bind (.of_revises (.insertHere a text)) hturns)
    · have harrange : arrange list.found index (x :: rest) (text :: later) =
          (text ++ (arrange list.found (index + 1) rest later).1,
            (arrange list.found (index + 1) rest later).2) := by
        rw [arrange, found, hnone]
        rfl
      rw [harrange, List.append_assoc, List.append_assoc]
      exact insertion_makes hmakes text
  | @keep gone more c rest absent new tail ih =>
    intro index done t a texts hrow hnodup hdone hfound hitems hlisted ht htexts
    obtain ⟨hc, hnodup⟩ := List.nodup_cons.1 hnodup
    obtain ⟨hgone, hseated, hmore⟩ := hrow.split
    have hmem : c ∈ gone ++ c :: more := List.mem_append_right _ List.mem_cons_self
    have hlater : ∀ d ∈ more, d ∈ gone ++ c :: more :=
      fun d hd => List.mem_append_right _ (List.mem_cons_of_mem c hd)
    obtain ⟨hclisted, hitem⟩ := hitems c hmem
    obtain ⟨text, later, u, rfl, htext, htexts⟩ := itemTexts_cons_eq_ok htexts
    have hu := ht.between hv (grown_itemText hprint htext) (grown_itemTexts hprint htexts)
    have hdone' : ∀ x ∈ rest, x ∉ c.object :: done := by
      intro x hx hmem
      rcases List.mem_cons.1 hmem with rfl | hmem
      · exact hc hx
      · exact hdone x (List.mem_cons_of_mem _ hx) hmem
    have hfound' : ∀ x ∈ rest, ∀ item, list.item? x = some item → item ∈ more := by
      intro x hx item hxitem
      have hobject : item.object = x := by simpa using List.find?_some hxitem
      rcases List.mem_append.1 (hfound x (List.mem_cons_of_mem _ hx) item hxitem) with hmem | hmem
      · exact absurd (List.mem_cons_of_mem _ (hobject ▸ hx)) (absent item hmem)
      · rcases List.mem_cons.1 hmem with rfl | hmem
        · exact absurd (hobject ▸ hx) hc
        · exact hmem
    have hlisted' : ∀ d ∈ more, d.object ∈ current ↔ d.object ∈ rest := by
      intro d hd
      rw [hlisted d (hlater d hd), List.mem_cons]
      exact or_iff_right (new d hd)
    obtain ⟨edits, b, hturns, hmakes⟩ := ih hmore hnodup hdone' hfound'
      (fun d hd => hitems d (hlater d hd)) hlisted' hu htexts
    rw [itemText_found hitem] at htext
    refine ⟨itemEdits s (place c.node) (list.around frame index count) text ++ edits, b, ?_, ?_⟩
    · rw [reviseListed_found hitem (hdone c.object List.mem_cons_self)]
      exact .bind (.listed ht hu hclisted hseated _ htext a) hturns
    · have hcurrent : c.object ∈ current := (hlisted c hmem).2 List.mem_cons_self
      have hgone' : ∀ d ∈ gone, d.object ∉ current := fun d hd hdcurrent =>
        absent d hd ((hlisted d (List.mem_append_left _ hd)).1 hdcurrent)
      exact makes_listed hgone hseated hcurrent hgone' absent new (by rw [found, hitem]; rfl) hmakes

/-! ## The items that are gone -/

variable {t : Tree M O}

omit [DecidableEq O] in
/-- The piece that goes with an item that is gone. -/
theorem gonePiece_eq {items : List (ListedItem O)} {item : ListedItem O} {previous : Option Nat}
    {first : Bool} {a : Position} (ht : Stands s place items t) (hitem : item ∈ items)
    (hseated : (place item.node).Seated s) (ha : s.isValid a = true)
    (hle : a ≤ (place item.node).leadStart)
    (hprevious : previous = none ∧ first = true ∨ ∃ before ∈ items, previous = some before.node ∧
      first = false ∧ (place before.node).Seated s ∧ a = (place before.node).trailStop) :
    t.gonePiece previous item.node = .ok (some (goneSpan s first a (place item.node))) := by
  obtain ⟨n, hn, hlead, hextent⟩ := ht.extent hitem hseated
  have horder := hseated.leadStart_le_trailStop
  unfold Tree.gonePiece
  simp only [hn, bind, Except.bind, hextent, hlead]
  rcases hprevious with ⟨rfl, rfl⟩ | ⟨before, hbefore, rfl, rfl, hstands, rfl⟩
  · cases (place item.node).before.span? <;> rfl
  · unfold goneSpan takesGap
    cases hspan : (place item.node).before.span? with
    | some span => rfl
    | none =>
      obtain ⟨k, hk, _, hkextent⟩ := ht.extent hbefore hstands
      have hkorder := hstands.leadStart_le_trailStop
      simp only [hk, hkextent, Span.stop_between hkorder, Span.start_between horder, Bool.not_false,
        Option.isNone_none, Bool.true_and]
      by_cases hlt : (place before.node).trailStop < (place item.node).leadStart
      · have hgap : t.sourceText (Span.between (place before.node).trailStop (place item.node).leadStart) =
            .ok (s.slice ⟨(place before.node).trailStop, (place item.node).leadStart⟩) := by
          unfold sourceText
          rw [ht.source, Source.extract_span (Source.validateBounds_between ha hseated.lead.1)]
          show Except.ok (s.slice ⟨(Span.between _ _).start, (Span.between _ _).stop⟩) = _
          rw [Span.start_between hle, Span.stop_between hle]
        have hunion : (Span.between (place before.node).trailStop (place item.node).leadStart).union
            (Span.between (place item.node).leadStart (place item.node).trailStop) =
            Span.between (place before.node).trailStop (place item.node).trailStop := by
          rw [Span.union_behind, Span.start_between hle, Span.stop_between horder]
          rw [Span.stop_between hle, Span.start_between horder]
          exact Position.le_refl _
        rw [if_pos hlt, hgap]
        dsimp only
        rw [hunion]
        split <;> rfl
      · have hsame : (place before.node).trailStop = (place item.node).leadStart :=
          Position.le_antisymm hle (Classical.byContradiction fun h => hlt (Position.not_le.1 h))
        rw [if_neg hlt, hsame]
        split <;> rfl

/-- The items that are gone are removed. -/
theorem turns_removeGone {listed : List (ListedItem O)} (ht : Stands s place listed t) :
    ∀ {items : List (ListedItem O)} {previous : Option Nat} {first : Bool} {a : Position},
      Row s place stop a items → (∀ item ∈ items, item ∈ listed) →
      (previous = none ∧ first = true ∨ ∃ before ∈ listed, previous = some before.node ∧
        first = false ∧ (place before.node).Seated s ∧ a = (place before.node).trailStop) →
      ∀ p, Turns t t (removeGone current previous items) p () (removals s place current first a items) p
  | [], _, _, _, _, _, _, p => .of_revises (.pure p ())
  | item :: rest, previous, first, a, hrow, hitems, hprevious, p => by
    obtain ⟨ha, hle, hseated, hrest⟩ := hrow
    have hitem := hitems item List.mem_cons_self
    have hnext := turns_removeGone ht hrest (fun d hd => hitems d (List.mem_cons_of_mem item hd))
      (Or.inr ⟨item, hitem, rfl, rfl, hseated, rfl⟩) p
    rw [removeGone, removals]
    cases hcurrent : current.contains item.object with
    | true => exact hnext
    | false =>
      have hpiece := gonePiece_eq ht hitem hseated ha hle hprevious
      exact .read hpiece (.bind (.of_revises (.removal p _)) hnext)

/-! ## The whole list -/

/-- The revision starts in front of the first item that is still listed. -/
theorem turns_moveToFirst {c : ListedItem O} (ht : Stands s place list.listed t)
    (hfind : list.listed.find? (fun item =>
      current.contains item.object) = some c) (a : Position) :
    Turns t t (moveToFirst list current) a () [] (place c.node).leadStart := by
  obtain ⟨n, p, hn, hp, hspan, hbefore, _⟩ := ht.node c (List.mem_of_find?_eq_some hfind)
  have hstart : (n.before.span?.map fun s => s.start).or (n.span?.map fun s => s.start) =
      some (place c.node).leadStart := by
    rw [Node.before, Node.span?, hp, Option.map_some, Option.map_some, Option.getD_some, hbefore, hspan]
    unfold Place.leadStart Delimiter.startAt
    cases (place c.node).before.span? <;> rfl
  unfold moveToFirst
  rw [hfind]
  refine .read (node_eq_ok.2 hn) ?_
  rw [hstart]
  exact .of_revises (.moveTo a _)

/-- The text of a list within a span: the texts of the objects that the model
lists now in the places of the items that were found in the source. -/
def spliced (s : Source) (place : Nat → Place) (frame : Frame) (list : ItemList M O) (span : Span)
    (current : List O) (texts : List Text) : Text :=
  let arranged := arrange list.found 0 current texts
  splice s place (list.around frame · current.length) span.stop true span.start arranged.1 list.listed
    arranged.2

theorem found_iff {x : O} : list.found x = true ↔ x ∈ list.listed.map ListedItem.object := by
  rw [found, item?, List.find?_isSome, List.mem_map]
  simp

/-- Items of different objects are told apart by their objects. -/
theorem item?_of_mem (hdistinct : (list.listed.map ListedItem.object).Nodup) {item : ListedItem O}
    (hitem : item ∈ list.listed) : list.item? item.object = some item := by
  cases hfind : list.item? item.object with
  | none =>
    rw [item?, List.find?_eq_none] at hfind
    exact absurd (decide_eq_true rfl) (hfind item hitem)
  | some other =>
    have hobject : other.object = item.object := by simpa using List.find?_some hfind
    exact congrArg some (List.inj_on_of_nodup_map hdistinct (List.mem_of_find?_eq_some hfind) hitem hobject)

/-- Every object that was found in the source is among the arranged ones. -/
theorem exists_kept {found : O → Bool} {x : O} (hx : found x = true) :
    ∀ {objects : List O} {index : Nat} {texts : List Text}, texts.length = objects.length →
      x ∈ objects → ∃ k, (arrange found index objects texts).2.find? (fun k => k.object = x) = some k
  | [], _, _, _, hmem => absurd hmem List.not_mem_nil
  | y :: rest, index, [], hlength, _ => absurd hlength (by simp)
  | y :: rest, index, text :: texts, hlength, hmem => by
    rw [arrange]
    by_cases hyx : y = x
    · rw [hyx, if_pos hx]
      exact ⟨_, List.find?_cons_of_pos (by simp)⟩
    · have hrest : ∃ k, (arrange found (index + 1) rest texts).2.find? (fun k => k.object = x) = some k :=
        exists_kept hx (Nat.succ.inj hlength) ((List.mem_cons.1 hmem).resolve_left (Ne.symm hyx))
      split
      · rw [List.find?_cons_of_neg (by simpa using hyx)]
        exact hrest
      · exact hrest

/-- The items from the first one on that is still listed are aligned with
the objects that the model lists now. -/
theorem aligned_remaining {gone more : List (ListedItem O)} {c : ListedItem O}
    (hlisted : list.listed = gone ++ c :: more) (hgone : ∀ d ∈ gone, d.object ∉ current)
    (hdistinct : (list.listed.map ListedItem.object).Nodup) (honce : current.Nodup)
    (horder : current.filter list.found =
      (list.listed.map ListedItem.object).filter current.contains) :
    Aligned ListedItem.object (c :: more) current := by
  rw [hlisted, List.map_append] at hdistinct horder
  refine aligned_of_order current (c :: more) (List.nodup_append.1 hdistinct).2.1 ?_
  have hnone : (gone.map ListedItem.object).filter current.contains = [] := by
    refine List.filter_eq_nil_iff.2 fun x hx => ?_
    obtain ⟨d, hd, rfl⟩ := List.mem_map.1 hx
    simpa using hgone d hd
  rw [List.filter_append, hnone, List.nil_append] at horder
  rw [eraseDups_of_nodup honce, ← horder]
  refine List.filter_congr fun x hx => ?_
  rw [Bool.eq_iff_iff, found_iff, hlisted, List.map_append, List.mem_append, List.contains_iff_mem]
  refine (or_iff_right fun hmem => ?_).symm
  obtain ⟨d, hd, rfl⟩ := List.mem_map.1 hmem
  exact hgone d hd hx

theorem isReordered_eq_false (honce : current.Nodup) (horder : current.filter list.found =
    (list.listed.map ListedItem.object).filter current.contains) :
    list.isReordered current = false := by
  unfold isReordered inModelOrder inSourceOrder
  rw [eraseDups_of_nodup honce]
  exact decide_eq_false (not_not.2 horder)

/-- The edits of the items from the first one on that is still listed, with
the removals of those in front of it, make the text of the whole list. -/
theorem makes_spliced {span : Span} {gone more : List (ListedItem O)} {c : ListedItem O}
    {texts : List Text} {edits : List Edit} (hlisted : list.listed = gone ++ c :: more)
    (hrow : Row s place span.stop span.start list.listed) (hc : c.object ∈ current)
    (hgone : ∀ d ∈ gone, d.object ∉ current) (hitem : list.item? c.object = some c)
    (hlength : texts.length = current.length)
    (hmakes : Patch.Makes s (place c.node).leadStart span.stop
      (edits ++ removals s place current false (place c.node).leadStart (c :: more))
      ((arrange list.found 0 current texts).1 ++
        splice s place (list.around frame · current.length) span.stop false (place c.node).leadStart []
          (c :: more) (arrange list.found 0 current texts).2)) :
    Patch.Makes s span.start span.stop
      (edits ++ removals s place current true span.start list.listed)
      (spliced s place frame list span current texts) := by
  have hfound : list.found c.object = true := by rw [found, hitem]; rfl
  obtain ⟨k, hk⟩ : ∃ k, (arrange list.found 0 current texts).2.find?
      (fun k => k.object = c.object) = some k :=
    exists_kept hfound hlength hc
  have habsent : ∀ d ∈ gone, (arrange list.found 0 current texts).2.find?
      (fun k => k.object = d.object) = none := by
    intro d hd
    rw [List.find?_eq_none]
    intro k hk hobject
    exact hgone d hd (of_decide_eq_true hobject ▸ object_mem_of_mem_arrange k hk)
  obtain ⟨hgoneRow, hseated, _⟩ := (hlisted ▸ hrow).split
  have hleft : Patch.Makes s span.start (place c.node).leadStart
      (removals s place current true span.start gone)
      (splice s place (list.around frame · current.length) (place c.node).leadStart true span.start []
        gone []) :=
    removals_makes hgoneRow hgone
  have hremovals : removals s place current false (place c.node).leadStart (c :: more) =
      removals s place current false (place c.node).trailStop more := by
    rw [removals, if_pos (by simpa using hc), List.nil_append]
  rw [splice_first hseated hk, hremovals] at hmakes
  unfold spliced
  rw [hlisted, removals_listed hc]
  dsimp only
  rw [splice_listed _ habsent hk]
  exact Patch.Makes.cut [] edits _ _ hleft hmakes isEmpty_of_mem_removals

end ItemList

namespace Tree

open ItemList

variable [DecidableEq O] {s : Source} {place : Nat → Place} {list : ItemList M O} {frame : Frame}
  {print : Nat → Margin → Job M O Text} {m : M} {owner : Nat} {unit : Margin} {t v : Tree M O}
  {texts : List Text} {span : Span}

/-- A list of which an item is still listed is brought up to date item by item. -/
theorem turns_reviseItems (hprint : ∀ id margin t, Job.Keeping (Grown t) (print id margin))
    (ht : Stands s place list.listed t) (hv : Stands s place list.listed v)
    (hrow : Row s place span.stop span.start list.listed)
    (hdistinct : (list.listed.map ListedItem.object).Nodup) {current : List O}
    (hcurrent : list.supply m = current) (honce : current.Nodup)
    (hremains : ∃ item ∈ list.listed, item.object ∈ current)
    (horder : current.filter list.found =
      (list.listed.map ListedItem.object).filter current.contains)
    (htexts : itemTexts print m owner unit frame list current.length 0 current t = .ok texts v)
    (a : Position) :
    ∃ edits b, Turns t v (reviseItems print m owner unit frame list) a () edits b ∧
      Patch.Makes s span.start span.stop edits (spliced s place frame list span current texts) := by
  -- The first item that is still listed, with those in front of it that are gone.
  obtain ⟨c, hfind⟩ := Option.isSome_iff_exists.1 (List.find?_isSome.2 (by simpa using hremains) :
    (list.listed.find? fun item => current.contains item.object).isSome = true)
  obtain ⟨hc, gone, more, hlisted, hgone⟩ := List.find?_eq_some_iff_append.1 hfind
  have hc : c.object ∈ current := by simpa using hc
  have hgone : ∀ d ∈ gone, d.object ∉ current := fun d hd => by simpa using hgone d hd
  have hmem : ∀ d ∈ c :: more, d ∈ list.listed :=
    fun d hd => hlisted ▸ List.mem_append_right _ hd
  obtain ⟨hgoneRow, hseated, hmore⟩ := (hlisted ▸ hrow).split
  have haligned := aligned_remaining hlisted hgone hdistinct honce horder
  have hfound : ∀ x ∈ current, ∀ item, list.item? x = some item → item ∈ c :: more := by
    intro x hx item hitem
    have hobject : item.object = x := by simpa using List.find?_some hitem
    have hitem := List.mem_of_find?_eq_some hitem
    rw [hlisted] at hitem
    exact (List.mem_append.1 hitem).resolve_left fun hd => hgone item hd (hobject ▸ hx)
  have hrowRest : Row s place span.stop (place c.node).leadStart (c :: more) :=
    ⟨hseated.lead.1, Position.le_refl _, hseated, hmore⟩
  obtain ⟨edits, b, hturns, hmakes⟩ := turns_reviseListed list.repeats current hprint hv
    haligned hrowRest honce (fun _ _ => List.not_mem_nil) hfound
    (fun d hd => ⟨hmem d hd, item?_of_mem hdistinct (hmem d hd)⟩) (fun _ _ => Iff.rfl) ht htexts
  have hremoved : Turns v v (removeGone current none list.listed) b ()
      (removals s place current true span.start list.listed) b :=
    turns_removeGone hv hrow (fun d hd => hd) (Or.inl ⟨rfl, rfl⟩) b
  refine ⟨edits ++ removals s place current true span.start list.listed, b, ?_, ?_⟩
  · unfold reviseItems
    simp only [hcurrent, isReordered_eq_false honce horder, Bool.false_and, Bool.false_eq_true,
      if_false]
    exact .bind_nil (turns_moveToFirst ht hfind a) (.bind hturns hremoved)
  · exact makes_spliced hlisted hrow hc hgone (item?_of_mem hdistinct (hmem c List.mem_cons_self))
      (length_itemTexts htexts) hmakes

/-- The items of a list were found in the source, one behind the other within a
span, each with a literal around it that is there or was not looked for.  The
model now lists some of them, in the order in which they stand, and other
objects besides.  If all that it lists can be printed, and no item takes more of
the source for that, then the list is brought up to date: the text of the span
is spliced of the items that stay, each with its text between the literals that
it needs now, the new objects right behind the one in front of them, and what
stands between the items.  A blank gap in front of an item that is gone goes with
it, unless that is the first one or a delimiter in front of it was found. -/
theorem revisePart_spliced {depth : Nat}
    (places : ∀ item ∈ list.listed, t.placeOfNode item.node = .ok (place item.node))
    (row : Row t.source place span.stop span.start list.listed)
    (distinct : (list.listed.map ListedItem.object).Nodup)
    {current : List O} (supply : list.supply m = current) (once : current.Nodup)
    (remains : ∃ item ∈ list.listed, item.object ∈ current)
    (order : current.filter list.found =
      (list.listed.map ListedItem.object).filter current.contains)
    (printed : itemTexts (printWithin m depth) m owner unit frame list current.length 0 current t =
      .ok texts v)
    (steady : ∀ item ∈ list.listed, v.spanOf item.node = t.spanOf item.node)
    {patch : Patch} (source : patch.source = t.source) (base : patch.base.contains span = true)
    (apart : patch.edits.Pairwise Edit.Apart)
    (clear : ∀ e ∈ patch.edits, e.target.stop ≤ span.start ∨ span.stop ≤ e.target.start)
    (cursor : Position) :
    ∃ edits stop, revisePart (printWithin m depth) m owner unit (.items frame list) ⟨t, patch, cursor⟩ =
        .ok () ⟨v, patch.extend edits, stop⟩ ∧
      Patch.Makes t.source span.start span.stop edits
        (spliced t.source place frame list span current texts) := by
  have hprint : ∀ id margin (t : Tree M O), Job.Keeping (Grown t) (printWithin m depth id margin) :=
    fun id margin t => (Grown.prints m t).printWithin depth id margin
  have ht : Stands t.source place list.listed t := .of_places places
  have hv := ht.of_steady (grown_itemTexts hprint printed) steady
  obtain ⟨edits, stop, hturns, hmakes⟩ := turns_reviseItems hprint ht hv row distinct supply once
    remains order printed cursor
  have hlisted : list.listed.isEmpty = false := by
    obtain ⟨item, hitem, _⟩ := remains
    rw [List.isEmpty_eq_false_iff]
    exact List.ne_nil_of_mem hitem
  refine ⟨edits, stop, ?_, hmakes⟩
  rw [revisePart, hlisted, if_neg Bool.false_ne_true]
  exact hturns patch (hmakes.compatible source base apart clear)

/-- Checks a tree whose root consists of a list. -/
def checkList {M O : Type} (made : Except Error (Tree M O))
    (check : Tree M O → Frame → ItemList M O → Bool) : Bool :=
  match made with
  | .error _ => false
  | .ok t =>
    match (t.nodes[root]?).map Node.parts with
    | some [.items frame list] => check t frame list
    | _ => false

omit [DecidableEq O] in
theorem exists_of_checkList {made : Except Error (Tree M O)}
    {check : Tree M O → Frame → ItemList M O → Bool} (h : checkList made check = true) :
    ∃ t n frame list, made = .ok t ∧ t.nodes[root]? = some n ∧ n.parts = [.items frame list] ∧
      check t frame list = true := by
  unfold checkList at h
  split at h
  · cases h
  · next t =>
    split at h
    · next frame list hparts =>
      obtain ⟨n, hn, hparts⟩ := Option.map_eq_some_iff.1 hparts
      exact ⟨t, n, frame, list, rfl, hn, hparts, h⟩
    · cases h

/-- Words of one letter with commas between them.  The model lists them, and
each was read from a column of the only line or has no source text. -/
def letters (stop : Nat) (column : Nat → Option Nat) : Language (List Nat) Nat where
  layout _ object :=
    match object with
    | 0 => some
      { origin := some (.ok (.between ⟨1, 0⟩ ⟨1, stop⟩))
        parts := [(Part.objects id).joinedBy [',']] }
    | k + 1 => some
      { origin := (column (k + 1)).map fun c => .ok (.between ⟨1, c⟩ ⟨1, c + 1⟩)
        parts := [.constant [Char.ofNat (97 + k)]] }
  describe _ _ := ""
  size objects := objects.length + 1

/-- The place of a letter behind a comma that owns some columns. -/
def letterPlace (before : Delimiter) (column : Nat) : Place where
  parsed := .between ⟨1, column⟩ ⟨1, column + 1⟩
  span := .between ⟨1, column⟩ ⟨1, column + 1⟩
  before := before
  insertion := ⟨1, column + 1⟩
  located := true

/-- The places of three letters with a comma and a blank between them. -/
def letterPlaces (id : Nat) : Place :=
  if id = 1 then letterPlace .empty 0
  else letterPlace (.present [','] (.between ⟨1, 3 * id - 5⟩ ⟨1, 3 * id - 3⟩)) (3 * id - 3)

/-- Of three letters the first one goes, so the second one needs no comma any
more, and a new one comes in front of the last, whose comma keeps its blank. -/
theorem revisePart_letters :
    ∃ t v n frame list edits stop,
      ofSource (letters 7 fun k => if k ≤ 3 then some (3 * (k - 1)) else none) [1, 2, 3]
        ['a', ',', ' ', 'b', ',', ' ', 'c'] 0 = .ok t ∧
      t.nodes[root]? = some n ∧ n.parts = [.items frame list] ∧
      revisePart (printWithin [2, 4, 3] 3) [2, 4, 3] root t.settings.margin (.items frame list)
        ⟨t, ⟨t.source, .between ⟨1, 0⟩ ⟨1, 7⟩, []⟩, ⟨1, 0⟩⟩ =
          .ok () ⟨v, ⟨t.source, .between ⟨1, 0⟩ ⟨1, 7⟩, edits⟩, stop⟩ ∧
      (⟨t.source, .between ⟨1, 0⟩ ⟨1, 7⟩, edits⟩ : Patch).text =
        .ok ['b', ',', 'd', ',', ' ', 'c'] := by
  have checked : checkList (ofSource (letters 7 fun k => if k ≤ 3 then some (3 * (k - 1)) else none)
      [1, 2, 3] ['a', ',', ' ', 'b', ',', ' ', 'c'] 0) (fun t frame list =>
        decide ((∀ item ∈ list.listed,
            (t.nodes[item.node]?).bind Node.place = some (letterPlaces item.node)) ∧
          Row t.source letterPlaces ⟨1, 7⟩ ⟨1, 0⟩ list.listed ∧
          (list.listed.map ListedItem.object).Nodup) &&
        decide (list.supply [2, 4, 3] = [2, 4, 3] ∧
          (∃ item ∈ list.listed, item.object ∈ ([2, 4, 3] : List Nat)) ∧
          [2, 4, 3].filter list.found = (list.listed.map ListedItem.object).filter [2, 4, 3].contains) &&
        decide ((itemTexts (printWithin [2, 4, 3] 3) [2, 4, 3] root t.settings.margin frame list 3 0
            [2, 4, 3]).result? t = some [['b'], [',', 'd'], ['c']] ∧
          (∀ item ∈ list.listed, ((itemTexts (printWithin [2, 4, 3] 3) [2, 4, 3] root
            t.settings.margin frame list 3 0 [2, 4, 3]).after t).spanOf item.node =
              t.spanOf item.node) ∧
          spliced t.source letterPlaces frame list (.between ⟨1, 0⟩ ⟨1, 7⟩) [2, 4, 3]
            [['b'], [',', 'd'], ['c']] = ['b', ',', 'd', ',', ' ', 'c'])) = true := by
    decide +kernel
  obtain ⟨t, n, frame, list, made, node, parts, checked⟩ := exists_of_checkList checked
  simp only [Bool.and_eq_true, decide_eq_true_eq] at checked
  obtain ⟨⟨⟨places, row, distinct⟩, supply, remains, order⟩, printed, steady, pieces⟩ := checked
  obtain ⟨v, printed⟩ := Job.result?_eq_some printed
  simp only [Job.after, printed] at steady
  have row : Row t.source letterPlaces (Span.between ⟨1, 0⟩ ⟨1, 7⟩).stop
      (Span.between ⟨1, 0⟩ ⟨1, 7⟩).start list.listed := row
  obtain ⟨edits, stop, revised, makes⟩ := revisePart_spliced
    (fun item hitem => placeOfNode_eq_ok.2 (Option.bind_eq_some_iff.1 (places item hitem)))
    row distinct supply (by decide) remains order printed steady
    (show (⟨t.source, .between ⟨1, 0⟩ ⟨1, 7⟩, []⟩ : Patch).source = t.source from rfl) rfl .nil
    (fun _ he => absurd he List.not_mem_nil) ⟨1, 0⟩
  exact ⟨t, v, n, frame, list, edits, stop, made, node, parts, revised, pieces ▸ makes.patch_text⟩

/-- A comma that was found in front of an item keeps the blank in front of it:
without the item that blank is still there, although the item was not the first
one. -/
theorem printSource_spacedLetters :
    ∃ t n frame list v,
      ofSource (letters 5 fun k => some (4 * (k - 1))) [1, 2] ['a', ' ', ',', ' ', 'b'] 0 = .ok t ∧
      t.nodes[root]? = some n ∧ n.parts = [.items frame list] ∧
      list.listed.map (fun item => (item.object, t.extentOfNode item.node)) =
        [(1, some (.between ⟨1, 0⟩ ⟨1, 1⟩)), (2, some (.between ⟨1, 2⟩ ⟨1, 5⟩))] ∧
      t.sourceText (.between ⟨1, 1⟩ ⟨1, 2⟩) = .ok [' '] ∧ list.supply [1] = [1] ∧
      printSource [1] t = .ok ['a', ' '] v := by
  have checked : checkList (ofSource (letters 5 fun k => some (4 * (k - 1))) [1, 2]
      ['a', ' ', ',', ' ', 'b'] 0) (fun t _ list =>
        decide (list.listed.map (fun item => (item.object, t.extentOfNode item.node)) =
          [(1, some (.between ⟨1, 0⟩ ⟨1, 1⟩)), (2, some (.between ⟨1, 2⟩ ⟨1, 5⟩))] ∧
          t.source = .ofText ['a', ' ', ',', ' ', 'b'] ∧ list.supply [1] = [1] ∧
          (printSource [1]).result? t = some ['a', ' '])) = true := by
    decide +kernel
  obtain ⟨t, n, frame, list, made, node, parts, checked⟩ := exists_of_checkList checked
  obtain ⟨extents, source, supply, printed⟩ := of_decide_eq_true checked
  obtain ⟨v, printed⟩ := Job.result?_eq_some printed
  exact ⟨t, n, frame, list, v, made, node, parts, extents, by rw [sourceText, source]; rfl, supply,
    printed⟩

end Tree

end Reprint
