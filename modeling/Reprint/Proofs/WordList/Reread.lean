import Reprint.Proofs.WordList.AtHome
import Reprint.Proofs.WordList.Spelled

/-!
# Reading what was printed

The text that is printed for an edited model is a document, and it is read
as a model with the words and lists of the edited one
(`readDocument_printed`).  `Model.Rereadable` is what that takes.

The text of an entry spells the shape that its cell has now
(`Kept.told_spells`), by induction on the entry.  In the source all items
have commas between them (`spaced_of_chain`), so what is left of items that
are gone are spaces.  Only what stands behind the last item is left as it
is, and so a list with a separator there has to keep an item.
-/

namespace Reprint.WordList

open Reprint.Tree

/-! ## Pieces of the source -/

section Pieces

variable {text : Text} {first : Bool} {a b : Nat}

theorem Ahead.leading (h : Ahead text first a b) : Leading first (text.piece a b) := by
  cases first with
  | true => exact Spaces.chars h
  | false => exact Gap.parting h

/-- A character that is no space is the separator of its gap. -/
theorem Gap.split {p : Nat} {c : Char} (h : Gap text a b) (hap : a ≤ p) (hpb : p + 1 ≤ b)
    (hc : text.piece p (p + 1) = [c]) (hspace : isSpace c = false) :
    Blank (text.piece a p) ∧ Gap text p b := by
  obtain ⟨k, hbefore, hseparator, hbehind⟩ := h
  have hmem : ∀ {x y : Nat}, x ≤ p → p + 1 ≤ y → c ∈ text.piece x y := by
    intro x y hxp hpy
    rw [← Text.piece_append hxp (show p ≤ y by omega), ← Text.piece_append (Nat.le_succ p) hpy, hc]
    exact List.mem_append_right _ (List.mem_append_left _ List.mem_cons_self)
  have hkp : k ≤ p := by
    refine Nat.not_lt.1 fun hlt => ?_
    have := hbefore.chars c (hmem hap hlt)
    rw [hspace] at this
    cases this
  have hpk : p ≤ k := by
    refine Nat.not_lt.1 fun hlt => ?_
    have := hbehind.chars c (hmem hlt hpb)
    rw [hspace] at this
    cases this
  obtain rfl : p = k := Nat.le_antisymm hpk hkp
  exact ⟨hbefore.chars, p, .refl hbefore.bound, hseparator, hbehind⟩

end Pieces

/-- Spaces in front of the first item. -/
theorem Shape.SpellRow.lead {shapes : List Shape} {ahead row : Text} (hahead : Blank ahead)
    (h : Shape.SpellRow true shapes row) :
    ∃ row' gap, ahead ++ row = row' ++ gap ∧ Shape.SpellRow true shapes row' ∧ Blank gap := by
  cases shapes with
  | nil =>
    obtain rfl : row = [] := h
    exact ⟨[], ahead, List.append_nil ahead, rfl, hahead⟩
  | cons shape rest =>
    obtain ⟨first, body, tail, rfl, hfirst, hbody, htail⟩ := h
    refine ⟨ahead ++ (first ++ (body ++ tail)), [], (List.append_nil _).symm, ?_, .nil⟩
    exact ⟨ahead ++ first, body, tail, (List.append_assoc _ _ _).symm, hahead.append hfirst, hbody,
      htail⟩

/-! ## Items with commas between them -/

section Commas

variable {text : Text}

/-- A comma in front of an item. -/
theorem Entry.comma_ahead {c : Entry} {first : Bool} {a : Nat}
    (hahead : Ahead text first a c.start) (hbefore : c.before = if first then none else some a)
    (h : gapOffsets text comma c.before c.start = []) :
    Blank (text.piece a (c.cut text comma)) ∧ Parting (c.joint text comma 1) := by
  have hcomma : Parting comma := ⟨[], ',', [], rfl, .nil, by decide, .nil⟩
  cases first with
  | true =>
    rcases c.lead_cases text comma with ⟨hlead, hcut, _⟩ | ⟨x, _, _, hx, _⟩ | ⟨x, p, _, _, hx, _⟩
    · rw [hcut, Entry.joint, hlead]
      exact ⟨hahead.leading, hcomma⟩
    · rw [hbefore] at hx
      cases hx
    · rw [hbefore] at hx
      cases hx
  | false =>
    have hgap : Gap text a c.start := hahead
    rcases c.lead_cases text comma with ⟨_, _, hnone⟩ | ⟨x, _, _, hx, _, hmatch⟩ |
      ⟨x, p, hlead, hcut, hx, _, hxp, hp, hpiece⟩
    · rw [hbefore] at hnone
      rcases hnone with hnone | hnone <;> cases hnone
    · rw [hbefore] at hx
      cases hx
      have hinfix := (lastMatch_eq_none_iff (Nat.le_of_lt hgap.lt.1) hgap.lt.2).1 hmatch
      have hsome : c.before = some a := hbefore
      rw [hsome, gapOffsets, if_neg hinfix] at h
      cases h
    · rw [hbefore] at hx
      cases hx
      obtain ⟨hblank, hrest⟩ := hgap.split hxp hp hpiece (by decide)
      rw [Entry.joint, hlead]
      show Blank (text.piece a (c.cut text comma)) ∧ Parting (text.piece (c.cut text comma) c.start)
      rw [hcut]
      exact ⟨hblank, hrest.parting⟩

/-- The items of a list in which every gap has a comma. -/
theorem Entry.spaced_of_chain : ∀ (items : List Item) (first : Bool) {node base a stop : Nat}
    {ancestors : List Nat} {row : List Entry},
    row = Entry.row node base ancestors (if first then none else some a) items →
    Chain text first row a stop →
    Item.unseparatedFrom text comma (if first then none else some a) items = [] →
    Entry.Spaced text a row
  | [], first, node, base, a, stop, ancestors, row, hrow, _, _ => by
    subst hrow
    trivial
  | item :: rest, first, node, base, a, stop, ancestors, row, hrow, hchain, h => by
    rw [Entry.row] at hrow
    subst hrow
    rw [Chain] at hchain
    obtain ⟨hahead, hfits, hbefore, htail⟩ := hchain
    rw [Item.unseparatedFrom, List.append_eq_nil_iff, List.append_eq_nil_iff] at h
    obtain ⟨hblank, hjoint⟩ := Entry.comma_ahead hahead hbefore h.1.1
    exact ⟨hblank, hjoint, Entry.spaced_of_chain rest false rfl htail h.2⟩

end Commas

/-! ## The end of a list -/

namespace Entry

/-- The offset of the closing bracket, or the end of the text. -/
def close (text : Text) (e : Entry) : Nat := if e.isBracketed then e.outer else text.length

/-- What stands between the last item and the end of a list. -/
def tail (text : Text) (e : Entry) : Text := text.piece (rowStop e.inner e.items) (e.close text)

/-- A list with a separator behind its last item. -/
def Trails (text : Text) (e : Entry) : Prop :=
  e.items ≠ [] ∧ ∃ c ∈ e.tail text, isSeparator c = true

variable {text : Text} {e : Entry}

/-- The end of a list that is the whole document. -/
theorem tail_document {items : List Item} (hplain : e.isBracketed = false)
    (hitem : e.item = .list (bytesOfItems text.length items) false items)
    (hfit : Item.FitAll text true items 0 text.length) :
    Behind text e.items.isEmpty (rowStop e.inner e.items) text.length := by
  have hrow := items_list hitem
  cases items with
  | nil =>
    have hinner : e.inner = text.length := by
      rw [inner, hplain, if_neg Bool.false_ne_true, start, hitem]
      rfl
    rw [show e.items = [] from hrow, rowStop, hinner]
    exact Or.inl (.refl (Nat.le_refl _))
  | cons item rest =>
    have hchain : Chain text true e.items 0 text.length := by
      rw [hrow]
      exact .of_fitAll hfit
    have hbehind := hchain.behind
    rw [Bool.true_and] at hbehind
    -- Where the row ends does not depend on where it starts, as there is an item.
    rw [hrow] at hbehind ⊢
    exact hbehind

theorem tail_behind {bytes : Nat × Nat} {bracketed : Bool} {items : List Item} (h : e.IsLaid text)
    (hitem : e.item = .list bytes bracketed items) :
    Behind text e.items.isEmpty (rowStop e.inner e.items) (e.close text) := by
  have hbracketed : e.isBracketed = bracketed := by
    rw [isBracketed, hitem]
  rw [close]
  split
  · have hbehind := (h.list hitem).chain.behind
    rwa [Bool.true_and] at hbehind
  · next hplain =>
    rcases h with h | ⟨items', hitem', hfit⟩
    · rw [hitem, Item.Fits] at h
      exact absurd (hbracketed.trans h.1) hplain
    · exact tail_document (by simpa using hplain) hitem' hfit

/-- What stands behind the last item may stay where it is, unless a list
with a separator there has no item any more. -/
theorem tail_trailing {bytes : Nat × Nat} {bracketed : Bool} {items : List Item}
    {current : List Nat} (h : e.IsLaid text) (hitem : e.item = .list bytes bracketed items)
    (hkept : e.Trails text → current ≠ []) : Trailing current.isEmpty (e.tail text) := by
  have htrailing := (tail_behind h hitem).trailing
  rcases htrailing with hblank | ⟨hsome, hparting⟩
  · exact Or.inl hblank
  · refine Or.inr ⟨?_, hparting⟩
    obtain ⟨before, c, behind, htail, _, hc, _⟩ := hparting
    have hmem : c ∈ e.tail text := by
      rw [tail, htail]
      exact List.mem_append_right before List.mem_cons_self
    simpa using hkept ⟨by simpa using hsome, c, hmem, hc⟩

end Entry

/-! ## Entries -/

/-- What an edited model needs for its text to be read as this model: names
are words and lists within lists have brackets, items that were read are in
their lists only, and a list with a separator behind its last item is not
emptied. -/
structure Model.Rereadable (text : Text) (item : Item) (m : Model) : Prop where
  edited : (Model.ofItem item).Edited m
  acyclic : m.Acyclic
  atHome : (Model.ofItem item).AtHome m
  legible : m.Legible m.root
  trails : ∀ {e : Entry}, (Entry.ofItem item).Holds e → e.Trails text → m.items e.address ≠ []

section Entries

variable {text : Text} {item : Item} {m : Model} {e : Entry}

/-- The indentation of a line is made of spaces. -/
theorem blank_indentationOf (s : Source) (line : Nat) : Blank (s.indentationOf line) := by
  unfold Source.indentationOf
  split
  · next row _ =>
    intro c hc
    have hindent := List.all_eq_true.1 (List.all_takeWhile (l := row)) c hc
    simp only [Bool.or_eq_true, decide_eq_true_eq] at hindent
    rcases hindent with rfl | rfl <;> decide
  · exact .nil

theorem Entry.hung_hung (e : Entry) (t : Text) : Hung t (e.hung text t) :=
  hung_hang (blank_indentationOf _ _) t

theorem Model.Legible.reaches {a b : Nat} (h : m.Legible a) (hab : m.Reaches a b) : m.Legible b := by
  induction hab with
  | refl => exact h
  | step hmem _ ih => exact ih (h.item hmem)

theorem Entry.Kept.reaches_root (h : Entry.Kept m (.ofItem item) e) (hm : (Model.ofItem item).Edited m) :
    m.Reaches m.root e.address := by
  rw [hm.root, (Model.cells_ofItem item).1]
  exact h.reaches

/-- The items of a list spell the shapes of what it lists now, if the text of
each item spells its shape. -/
theorem Entry.Kept.toldItems_spells (h : Entry.Kept m (.ofItem item) e)
    (hread : readDocument text = .ok item) (hm : m.Rereadable text item)
    (hcommas : item.unseparated text comma = []) {bytes : Nat × Nat} {bracketed : Bool}
    {items : List Item} (hitem : e.item = .list bytes bracketed items) {shapes : List Shape}
    (hshapes : m.HaveShapes shapes (m.items e.address))
    (hbody : ∀ c ∈ e.items, c.address ∈ m.items e.address → ∀ shape, m.HasShape shape c.address →
      shape.Spells (c.told text comma m)) :
    ∃ row gap, e.toldItems text comma (e.hung text) (e.body text comma m) (m.items e.address) =
        row ++ (gap ++ text.piece (rowStop e.inner e.items) e.outer) ∧
      Shape.SpellRow true shapes row ∧ Blank gap := by
  have hlaid := ((laid_ofItem hread).holds h.holds).1
  have hlist := hlaid.list hitem
  have hreaches := h.reaches_root hm.edited
  have hunseparated := h.holds.unseparated comma hcommas
  rw [hitem, Item.unseparated] at hunseparated
  have hspaced := spaced_of_chain items true (items_list hitem) hlist.chain hunseparated
  have hspells : ∀ x ∈ m.items e.address, ∀ shape, m.HasShape shape x →
      shape.Spells (e.body text comma m x) := by
    intro x hx shape hshape
    by_cases hc : ∃ c ∈ e.items, c.address = x
    · obtain ⟨c, hc, rfl⟩ := hc
      rw [body_item hc]
      exact hbody c hc hx shape hshape
    · rw [body_other fun c hcm heq => hc ⟨c, hcm, heq⟩]
      exact Model.text_spells ((hm.edited.unfolds hm.acyclic).reaches (h.reaches.item hx))
        (hm.legible.reaches (hreaches.item hx))
        (fun hcell => hm.legible.brackets hreaches hx hcell) shape hshape
  obtain ⟨ahead, row, gap, htold, hahead, hrow, hgap⟩ :=
    Entry.toldItems_spells e.hung_hung hlist hspaced hshapes hspells
  obtain ⟨row', gap', hlead, hrow', hgap'⟩ := hrow.lead hahead
  refine ⟨row', gap' ++ gap, ?_, hrow', hgap'.append hgap⟩
  rw [htold, ← List.append_assoc ahead, hlead]
  simp only [List.append_assoc]

/-- The text of an entry spells the shape of its cell. -/
theorem Entry.Kept.told_spells (hread : readDocument text = .ok item)
    (hm : m.Rereadable text item) (hcommas : item.unseparated text comma = []) :
    ∀ e : Entry, Entry.Kept m (.ofItem item) e → e.item.Fits text → ∀ shape,
      m.HasShape shape e.address → shape.Spells (e.told text comma m) := by
  intro e
  induction e using Entry.induction with
  | h e ih =>
    intro h hfits shape hshape
    have hlaid : e.IsLaid text := Or.inl hfits
    cases hitem : e.item with
    | word w =>
      obtain ⟨name, loudness, hcell⟩ := hm.edited.redone.word h.holds hitem
      cases shape with
      | list shapes =>
        obtain ⟨_, _, _, hlist, _⟩ := hshape
        rw [hcell] at hlist
        cases hlist
      | word name' loudness' =>
        obtain ⟨read, hword⟩ := hshape
        rw [hcell] at hword
        cases hword
        rw [told_word hitem, Model.name_word hcell, Model.loudness_word hcell]
        have hname := hm.legible.names (h.reaches_root hm.edited) hcell
        exact ⟨hname.1, hname.2, rfl⟩
    | list bytes bracketed items =>
      obtain ⟨now, current, hcell⟩ := hm.edited.redone.list h.holds hitem
      cases shape with
      | word name loudness =>
        obtain ⟨_, hword⟩ := hshape
        rw [hcell] at hword
        cases hword
      | list shapes =>
        obtain ⟨_, _, _, hlist, hshapes⟩ := hshape
        rw [hcell] at hlist
        cases hlist
        rw [← Model.items_list hcell] at hshapes
        obtain ⟨row, gap, htold, hrow, hgap⟩ := h.toldItems_spells hread hm hcommas hitem hshapes
          fun c hc hlisted shape hshape =>
            ih c hc (.item h hc hlisted) (hlaid.item hc).1 shape hshape
        have hbracketed : e.isBracketed = true := by
          rw [hitem, Item.Fits] at hfits
          rw [isBracketed, hitem]
          exact hfits.1
        obtain ⟨hinner, houter, hopen, hclose⟩ := (hlaid.list hitem).bracketed hbracketed
        have htail : e.tail text = text.piece (rowStop e.inner e.items) e.outer := by
          rw [tail, close, if_pos hbracketed]
        have htrailing := tail_trailing hlaid hitem (hm.trails h.holds)
        rw [← hshapes.isEmpty, htail] at htrailing
        refine ⟨row, gap ++ text.piece (rowStop e.inner e.items) e.outer, ?_, hrow,
          htrailing.append hgap⟩
        rw [told_list hitem, htold, hinner, hopen, ← houter, hclose]
        rfl

/-- The text of an edited document spells the shapes of what it lists. -/
theorem toldSource_spells (hread : readDocument text = .ok item) (hm : m.Rereadable text item)
    (hcommas : item.unseparated text comma = []) :
    ∃ shapes row behind, m.HasShape (.list shapes) m.root ∧
      toldSource text comma m (.ofItem item) = row ++ behind ∧ Shape.SpellRow true shapes row ∧
      Trailing shapes.isEmpty behind := by
  obtain ⟨items, hitem, hfit⟩ := readDocument_fits hread
  have hroot : m.root = (Entry.ofItem item).address := hm.edited.redone.root
  have hlaid := laid_ofItem hread
  have hentry : (Entry.ofItem item).item = .list (bytesOfItems text.length items) false items := hitem
  have hplain : (Entry.ofItem item).isBracketed = false := by rw [Entry.isBracketed, hentry]
  have hkept : Entry.Kept m (.ofItem item) (.ofItem item) := .refl
  obtain ⟨now, current, hcell⟩ := hm.edited.redone.list (.refl _) hentry
  obtain ⟨shapes, hshapes⟩ := Model.exists_haveShapes (m.items (Entry.ofItem item).address) fun x hx =>
    ((hm.edited.unfolds hm.acyclic).item hx).exists_hasShape
  obtain ⟨row, gap, htold, hrow, hgap⟩ := hkept.toldItems_spells hread hm hcommas hentry hshapes
    fun c hc hlisted shape hshape =>
      Entry.Kept.told_spells hread hm hcommas c (.item .refl hc hlisted) (hlaid.item hc).1 shape hshape
  have hlist := hlaid.list hentry
  obtain ⟨hinner, houter⟩ := hlist.plain hplain
  have hchain := hlist.chain.rowStop
  have hbounds := hlaid.bounds
  obtain ⟨hahead, _, _⟩ := Entry.document_frame hfit
  have hstart : (bytesOfItems text.length items).1 = (Entry.ofItem item).start := by
    rw [Entry.start, hentry]
    rfl
  rw [hstart] at hahead
  obtain ⟨row', gap', hlead, hrow', hgap'⟩ := hrow.lead hahead.chars
  have htrailing := Entry.tail_trailing hlaid hentry (hm.trails (.refl _))
  rw [← hshapes.isEmpty] at htrailing
  refine ⟨shapes, row', gap' ++ (gap ++ (Entry.ofItem item).tail text), ?_, ?_, hrow',
    .append hgap' (.append hgap htrailing)⟩
  · rw [hroot]
    exact ⟨now, current, _, hcell, Model.items_list hcell ▸ hshapes⟩
  · have htail : text.piece (Entry.rowStop (Entry.ofItem item).inner (Entry.ofItem item).items)
          (Entry.ofItem item).outer ++ text.piece (Entry.ofItem item).stop text.length =
        (Entry.ofItem item).tail text := by
      rw [Entry.tail, Entry.close, if_neg (by simp [hplain]), houter]
      exact Text.piece_append (by omega) hbounds.2
    have hopen : text.piece (Entry.ofItem item).start (Entry.ofItem item).inner = [] := by
      rw [hinner, Text.piece_self]
    have hclose : text.piece (Entry.ofItem item).outer (Entry.ofItem item).stop = [] := by
      rw [houter, Text.piece_self]
    rw [toldSource, Entry.told_list hentry, htold, hopen, hclose, ← htail, List.nil_append,
      List.append_nil, ← List.append_assoc, hlead]
    simp only [List.append_assoc]

end Entries

/-! ## Documents -/

section Documents

variable {text : Text} {item : Item} {m : Model}

theorem Entry.haveShapes_row : ∀ (items : List Item) {node base : Nat} {ancestors : List Nat}
    {before : Option Nat},
    (∀ c ∈ Entry.row node base ancestors before items, m.HasShape c.item.shape c.address) →
    m.HaveShapes (Item.shapes items) ((Entry.row node base ancestors before items).map Entry.address)
  | [], _, _, _, _, _ => rfl
  | _ :: rest, _, _, _, _, h =>
    ⟨_, _, rfl, h _ List.mem_cons_self,
      Entry.haveShapes_row rest fun c hc => h c (List.mem_cons_of_mem _ hc)⟩

/-- The cell of an entry has the shape that was read. -/
theorem Entry.hasShape : ∀ e : Entry, Holding e m → m.HasShape e.item.shape e.address := by
  intro e
  induction e using Entry.induction with
  | h e ih =>
    intro hm
    have hcell := hm.cell (.refl e)
    cases hitem : e.item with
    | word w =>
      rw [Entry.cell, hitem] at hcell
      exact ⟨some w, hcell⟩
    | list bytes bracketed items =>
      rw [Entry.cell, hitem] at hcell
      have hitems := items_list hitem
      have hshapes : m.HaveShapes (Item.shapes items) (e.items.map Entry.address) := by
        rw [hitems]
        exact Entry.haveShapes_row items fun c hc => ih c (hitems ▸ hc) (hm.item (hitems ▸ hc))
      rw [Item.shape]
      exact ⟨bracketed, _, _, hcell, hshapes⟩

/-- The model of a document has the shape that was read. -/
theorem Model.hasShape_ofItem (item : Item) :
    (Model.ofItem item).HasShape item.shape (Model.ofItem item).root := by
  rw [(Model.cells_ofItem item).1]
  exact (Entry.ofItem item).hasShape (holding_ofItem item)

/-- A document in which all items are separated by commas can be loaded and
edited.  If the edited model is made of words and of lists in brackets,
items that were read are in their lists only, and no list with a separator
behind its last item is emptied, then every render succeeds, and what it
gives is read as a model with the words and lists of the edited one. -/
theorem readDocument_printed (hread : readDocument text = .ok item)
    (hcommas : item.unseparated text comma = []) (hm : m.Rereadable text item) :
    ∃ t, ofSource (language text comma) (.ofItem item) text (Model.ofItem item).root = .ok t ∧
      ∃ printed reread shape,
        (∀ u, Rendered m t u → ∃ v, printSource m u = .ok printed v) ∧
        readDocument printed = .ok reread ∧ m.HasShape shape m.root ∧
        (Model.ofItem reread).HasShape shape (Model.ofItem reread).root := by
  obtain ⟨t, hload, ht⟩ := @ofSource_standing _ comma _ hread m
  have hedition := hm.atHome.edition hread hm.edited
  have hsize := hm.edited.unfolds hm.acyclic
  obtain ⟨shapes, row, behind, hshape, htold, hrow, hbehind⟩ := toldSource_spells hread hm hcommas
  obtain ⟨reread, hreread, hsame⟩ := readDocument_spelled hrow hbehind
  refine ⟨t, hload, toldSource text comma m (.ofItem item), reread, .list shapes, fun u hu => ?_,
    by rw [htold]; exact hreread, hshape, hsame ▸ Model.hasShape_ofItem reread⟩
  obtain ⟨v, hprint, _⟩ := printSource_told hedition hsize u (ht.rendered hedition hsize hu)
  exact ⟨v, hprint⟩

/-- A document with a new word in its list, and with the list moved to the
front. -/
def extended : Model :=
  (((Model.ofItem wordAndListItem).add (.word "new".toList (some true))).2.editItems 2
    fun _ => [4, 1]).editItems 3 fun _ => [2, 0]

theorem items_extended : ∀ a b, b ∈ extended.items a →
    a = 2 ∧ (b = 4 ∨ b = 1) ∨ a = 3 ∧ (b = 2 ∨ b = 0)
  | 0, _, h | 1, _, h | 4, _, h => absurd h List.not_mem_nil
  | 2, b, h => by
    have hmem : b ∈ [4, 1] := h
    simpa using hmem
  | 3, b, h => by
    have hmem : b ∈ [2, 0] := h
    simpa using hmem
  | a + 5, b, h => by
    have hnone : extended.items (a + 5) = [] := by
      rw [Model.items, Array.getElem?_eq_none (show extended.cells.size ≤ a + 5 from by
        show 5 ≤ a + 5
        omega)]
    rw [hnone] at h
    exact absurd h List.not_mem_nil

theorem cells_extended {a : Nat} {c : Cell} (h : extended.cells[a]? = some c) :
    (∃ name loudness read, c = .word name loudness read ∧ name ≠ [] ∧
      name.all isWordChar = true) ∨
    ∃ items read, c = .list (a ≠ 3) items read ∧ items ≠ [] := by
  have hlt : a < 5 := (Array.getElem?_eq_some_iff.1 h).1
  have hcases : a = 0 ∨ a = 1 ∨ a = 2 ∨ a = 3 ∨ a = 4 := by omega
  rcases hcases with rfl | rfl | rfl | rfl | rfl
  · exact Or.inl ⟨['a'], none, _, (Option.some.inj h).symm, by decide, by decide⟩
  · exact Or.inl ⟨['b'], none, _, (Option.some.inj h).symm, by decide, by decide⟩
  · exact Or.inr ⟨[4, 1], _, (Option.some.inj h).symm, by decide⟩
  · exact Or.inr ⟨[2, 0], _, (Option.some.inj h).symm, by decide⟩
  · exact Or.inl ⟨"new".toList, some true, _, (Option.some.inj h).symm, by decide, by decide⟩

theorem edited_extended : (Model.ofItem wordAndListItem).Edited extended := by
  obtain ⟨hadd, hlt, _⟩ := (Model.Edited.refl wordAndListItem).add
    (.word "new".toList (some true)) (Nat.le_refl _) trivial
  refine (hadd.editItems 2 fun b hb => ?_).editItems 3 fun b hb => ?_
  · have hmem : b ∈ [4, 1] := hb
    show b < 5
    simp at hmem
    omega
  · have hmem : b ∈ [2, 0] := hb
    show b < 5
    simp at hmem
    omega

theorem rereadable_extended : extended.Rereadable wordAndList wordAndListItem where
  edited := edited_extended
  acyclic := .of_rank (fun a => if a = 2 then 1 else if a = 3 then 2 else 0) fun a b hb => by
    rcases items_extended a b hb with ⟨rfl, rfl | rfl⟩ | ⟨rfl, rfl | rfl⟩ <;> decide
  atHome a b _ hb hread := by
    have hlt : b < 4 := hread
    rcases items_extended a b hb with ⟨rfl, rfl | rfl⟩ | ⟨rfl, rfl | rfl⟩
    · omega
    · exact List.mem_singleton.2 rfl
    · exact List.mem_cons_of_mem _ (List.mem_singleton.2 rfl)
    · exact List.mem_cons_self
  legible := {
    names := fun {b name loudness read} _ hcell => by
      rcases cells_extended hcell with ⟨_, _, _, hword, hname, hchars⟩ | ⟨_, _, hlist, _⟩
      · cases hword
        exact ⟨hname, List.all_eq_true.1 hchars⟩
      · cases hlist
    brackets := fun {b c bracketed items read} _ hc hcell => by
      rcases cells_extended hcell with ⟨_, _, _, hword, _⟩ | ⟨_, _, hlist, _⟩
      · cases hword
      · cases hlist
        have := items_extended b c hc
        simp only [ne_eq, decide_not, Bool.not_eq_true', decide_eq_false_iff_not]
        omega }
  trails {e} he htrails := by
    cases hitem : e.item with
    | word w => exact absurd (Entry.items_word hitem) htrails.1
    | list bytes bracketed items =>
      obtain ⟨now, current, hcell⟩ := edited_extended.redone.list he hitem
      rw [Model.items_list hcell]
      rcases cells_extended hcell with ⟨_, _, _, hword, _⟩ | ⟨_, _, hlist, hitems⟩
      · cases hword
      · cases hlist
        exact hitems

/-- The edited document is read again. -/
theorem readDocument_extended :
    readDocument wordAndList = .ok wordAndListItem ∧
      wordAndListItem.unseparated wordAndList comma = [] ∧
      ∃ t, ofSource (language wordAndList comma) (.ofItem wordAndListItem) wordAndList
          (Model.ofItem wordAndListItem).root = .ok t ∧
        ∃ printed reread shape,
          (∀ u, Rendered extended t u → ∃ v, printSource extended u = .ok printed v) ∧
          readDocument printed = .ok reread ∧ extended.HasShape shape extended.root ∧
          (Model.ofItem reread).HasShape shape (Model.ofItem reread).root :=
  ⟨readDocument_wordAndList, by decide +kernel,
    readDocument_printed readDocument_wordAndList (by decide +kernel) rereadable_extended⟩

end Documents

end Reprint.WordList
