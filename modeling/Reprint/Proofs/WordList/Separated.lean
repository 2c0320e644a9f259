import Mathlib.Data.List.Infix
import Reprint.Proofs.Tree.Quiet
import Reprint.Proofs.WordList.Rendered

/-!
# Renders of an unedited document

A document that was not edited is printed as it was read, but for the
items that have no separator in front of them: there the separator is put
in, and nothing else is changed (`printSource_separated`).

* `Item.unseparated` are the offsets of those items.
* `Text.pieceWith` is a piece of a text with another one put in at some
  offsets, and `separated` is the whole document with the separators.
-/

namespace Reprint

/-- The text between two offsets with another one in front of the
characters at some offsets, which are in order. -/
def Text.pieceWith (t inserted : Text) : Nat → List Nat → Nat → Text
  | a, [], b => t.piece a b
  | a, k :: rest, b => t.piece a k ++ inserted ++ pieceWith t inserted k rest b

theorem Text.pieceWith_append {t inserted : Text} {first second : List Nat} {a b c : Nat}
    (hab : a ≤ b) (hbc : b ≤ c) (hfirst : ∀ k ∈ first, k ≤ b) (hsecond : ∀ k ∈ second, b ≤ k) :
    t.pieceWith inserted a first b ++ t.pieceWith inserted b second c =
      t.pieceWith inserted a (first ++ second) c := by
  induction first generalizing a with
  | nil =>
    -- An offset of the second piece may be where the first one ends.
    cases second with
    | nil => exact Text.piece_append hab hbc
    | cons k rest =>
      have hbk := hsecond k List.mem_cons_self
      rw [List.nil_append, pieceWith, pieceWith, pieceWith, ← Text.piece_append hab hbk]
      simp only [List.append_assoc]
  | cons k rest ih =>
    have hkb := hfirst k List.mem_cons_self
    rw [List.cons_append, pieceWith, pieceWith, List.append_assoc,
      ih hkb fun x hx => hfirst x (List.mem_cons_of_mem k hx)]

/-- More of the text on both sides. -/
theorem Text.pieceWith_around {t inserted : Text} {offsets : List Nat} {a b c d : Nat} (hab : a ≤ b)
    (hbc : b ≤ c) (hcd : c ≤ d) (hoffsets : ∀ k ∈ offsets, b ≤ k ∧ k ≤ c) :
    t.piece a b ++ t.pieceWith inserted b offsets c ++ t.piece c d =
      t.pieceWith inserted a offsets d := by
  have hbefore : t.piece a b ++ t.pieceWith inserted b offsets c =
      t.pieceWith inserted a ([] ++ offsets) c :=
    pieceWith_append hab hbc (fun k hk => absurd hk List.not_mem_nil) fun k hk => (hoffsets k hk).1
  have hbehind : t.pieceWith inserted a offsets c ++ t.piece c d =
      t.pieceWith inserted a (offsets ++ []) d :=
    pieceWith_append (Nat.le_trans hab hbc) hcd (fun k hk => (hoffsets k hk).2)
      fun k hk => absurd hk List.not_mem_nil
  rw [hbefore, List.nil_append, hbehind, List.append_nil]

namespace WordList

open Reprint.Tree

/-- The offset where an item starts, if there is no separator between it and
the end of the item before. -/
def gapOffsets (text separator : Text) (before : Option Nat) (start : Nat) : List Nat :=
  match before with
  | none => []
  | some a => if separator <:+: text.piece a start then [] else [start]

mutual

/-- The offsets of the items below an item that have no separator between
the item before and themselves. -/
def Item.unseparated (text separator : Text) : Item → List Nat
  | .word _ => []
  | .list _ _ items => Item.unseparatedFrom text separator none items
termination_by structural item => item

/-- The same for the items of a list, behind an item that stops at the given
offset, if there is one. -/
def Item.unseparatedFrom (text separator : Text) : Option Nat → List Item → List Nat
  | _, [] => []
  | before, item :: rest =>
    gapOffsets text separator before item.bytes.1 ++
      Item.unseparated text separator item ++
      Item.unseparatedFrom text separator (some item.bytes.2) rest
termination_by structural _ items => items

end

/-- A document with the separator in front of the items that have none. -/
def separated (text separator : Text) (item : Item) : Text :=
  text.pieceWith separator 0 (item.unseparated text separator) text.length

/-- A separator is found where it is contained. -/
theorem lastMatch_eq_none_iff {text separator : Text} {a b : Nat} (hab : a ≤ b)
    (hb : b ≤ text.length) :
    text.lastMatch separator a b = none ↔ ¬ separator <:+: text.piece a b := by
  rw [Text.lastMatch_eq_none]
  constructor
  · rintro hnone ⟨front, behind, hpiece⟩
    have hlength := congrArg List.length hpiece
    rw [Text.length_piece hb, List.length_append, List.length_append] at hlength
    have hsplit : text.piece a (a + front.length) ++
        (text.piece (a + front.length) (a + front.length + separator.length) ++
          text.piece (a + front.length + separator.length) b) = front ++ (separator ++ behind) := by
      rw [Text.piece_append (by omega) (by omega), Text.piece_append (by omega) (by omega), ← hpiece,
        List.append_assoc]
    have hrest := (List.append_inj hsplit (by rw [Text.length_piece (by omega)]; omega)).2
    have hmatch := (List.append_inj hrest (by rw [Text.length_piece (by omega)]; omega)).1
    exact hnone (a + front.length) (by omega) (by omega) hmatch
  · intro hinfix p hap hpb hpiece
    refine hinfix ⟨text.piece a p, text.piece (p + separator.length) b, ?_⟩
    calc text.piece a p ++ separator ++ text.piece (p + separator.length) b
      _ = text.piece a p ++ text.piece p (p + separator.length) ++
            text.piece (p + separator.length) b := by rw [hpiece]
      _ = text.piece a b := by
        rw [Text.piece_append hap (by omega), Text.piece_append (by omega) hpb]

/-! ## Items without a separator -/

section Gaps

variable {text : Text}

theorem Item.unseparated_of_mem {separator : Text} {items : List Item} {item : Item}
    (hmem : item ∈ items) : ∀ {before : Option Nat},
    Item.unseparatedFrom text separator before items = [] → item.unseparated text separator = [] := by
  induction items with
  | nil => cases hmem
  | cons first rest ih =>
    intro before h
    rw [Item.unseparatedFrom, List.append_eq_nil_iff, List.append_eq_nil_iff] at h
    rcases List.mem_cons.1 hmem with rfl | hmem
    · exact h.1.2
    · exact ih hmem h.2

/-- If no item of a document lacks a separator, no item below an entry
does. -/
theorem Entry.Holds.unseparated (separator : Text) {e d : Entry} (hd : e.Holds d)
    (h : e.item.unseparated text separator = []) : d.item.unseparated text separator = [] := by
  induction hd with
  | refl => exact h
  | @step e c d hmem _ ih =>
    refine ih ?_
    cases hitem : e.item with
    | word w =>
      rw [Entry.items_word hitem] at hmem
      cases hmem
    | list bytes bracketed items =>
      rw [Entry.items_list hitem] at hmem
      rw [hitem, Item.unseparated] at h
      exact Item.unseparated_of_mem (Entry.mem_row hmem).2.2.2.2.2 h

/-- If no item of a list lacks a separator, no gap in front of one does. -/
theorem Item.gapOffsets_of_mem {separator : Text} {c : Entry} {ancestors : List Nat} :
    ∀ {items : List Item} {node base : Nat} {before : Option Nat},
      c ∈ Entry.row node base ancestors before items →
      Item.unseparatedFrom text separator before items = [] →
      gapOffsets text separator c.before c.start = []
  | [], _, _, _, hc, _ => by
    rw [Entry.row] at hc
    cases hc
  | first :: rest, node, base, before, hc, h => by
    rw [Item.unseparatedFrom, List.append_eq_nil_iff, List.append_eq_nil_iff] at h
    rw [Entry.row, List.mem_cons] at hc
    rcases hc with rfl | hc
    · exact h.1.1
    · exact Item.gapOffsets_of_mem hc h.2

end Gaps

/-! ## Unedited entries -/

section Unedited

variable {text separator : Text} {m : Model} {e : Entry} {hang : Text → Text} {body : Nat → Text}

/-- What stands in front of an item that was not edited. -/
theorem Entry.joint_unedited {c : Entry} {a index : Nat}
    (hbefore : c.before = if index = 0 then none else some a) (ha : a ≤ c.start)
    (hstart : c.start ≤ text.length) :
    text.piece a (c.cut text separator) ++ c.joint text separator index =
      text.pieceWith separator a (gapOffsets text separator c.before c.start) c.start := by
  rcases c.lead_cases text separator with ⟨hlead, hcut, hnone⟩ | ⟨x, hlead, hcut, hx, _, hmatch⟩ |
    ⟨x, p, hlead, hcut, hx, hne, hxp, hp, hpiece⟩
  · have hjoint : c.joint text separator index = [] := by
      rw [joint]
      split
      · rfl
      · next hindex =>
        rw [hlead]
        rw [hbefore, if_neg hindex] at hnone
        exact hnone.resolve_left (by simp)
    have hoffsets : gapOffsets text separator c.before c.start = [] := by
      rcases hnone with hnone | rfl
      · rw [hnone, gapOffsets]
      · unfold gapOffsets
        split
        · rfl
        · rw [if_pos (List.nil_infix)]
    rw [hcut, hjoint, hoffsets, List.append_nil, Text.pieceWith]
  · have hindex : index ≠ 0 := by
      rintro rfl
      rw [hbefore] at hx
      cases hx
    rw [hbefore, if_neg hindex, Option.some.injEq] at hx
    subst hx
    rw [lastMatch_eq_none_iff ha hstart] at hmatch
    rw [hcut, joint, if_neg hindex, hlead, hbefore, if_neg hindex, gapOffsets, if_neg hmatch,
      Text.pieceWith, Text.pieceWith, Text.piece_self, List.append_nil]
  · have hindex : index ≠ 0 := by
      rintro rfl
      rw [hbefore] at hx
      cases hx
    rw [hbefore, if_neg hindex, Option.some.injEq] at hx
    subst hx
    have hinfix : separator <:+: text.piece a c.start := by
      refine Decidable.not_not.1 fun hinfix => ?_
      exact (Text.lastMatch_eq_none.1 ((lastMatch_eq_none_iff ha hstart).2 hinfix)) p hxp hp hpiece
    rw [hcut, joint, if_neg hindex, hlead, hbefore, if_neg hindex, gapOffsets, if_pos hinfix,
      Text.pieceWith, hcut, Text.piece_append hxp (by omega)]

/-- The offsets that lack a separator lie within an item. -/
theorem le_of_mem_gapOffsets {before : Option Nat} {start k : Nat}
    (hk : k ∈ gapOffsets text separator before start) : k = start := by
  unfold gapOffsets at hk
  split at hk
  · cases hk
  · split at hk
    · cases hk
    · exact List.mem_singleton.1 hk

/-- The first of the items left is the first of the objects to come. -/
theorem Entry.woven_cons {stop a index : Nat} {c : Entry} {more : List Entry} {rest : List Nat} :
    woven text separator hang body stop a index (c :: more) (c.address :: rest) =
      text.piece a (c.cut text separator) ++ (c.joint text separator index ++ body c.address) ++
        woven text separator hang body stop c.stop (index + 1) more rest :=
  woven_keep (show ∀ d ∈ ([] : List Entry), _ from fun _ hd => absurd hd List.not_mem_nil)

/-- The texts of the items of a list that lists what it did, with what stands
around them. -/
def Entry.rowText (text separator : Text) (body : Nat → Text) (stop : Nat) : Nat → List Entry → Text
  | a, [] => text.piece a stop
  | a, c :: more =>
    text.pieceWith separator a (gapOffsets text separator c.before c.start) c.start ++
      body c.address ++ rowText text separator body stop c.stop more

/-- The items of a list that lists what it did. -/
theorem Entry.woven_row {stop : Nat} : ∀ {row : List Entry} {index a : Nat},
    Chain text (index = 0) row a stop →
    woven text separator hang body stop a index row (row.map Entry.address) =
      rowText text separator body stop a row
  | [], _, _, _ => rfl
  | c :: more, index, a, hchain => by
    rw [Chain] at hchain
    obtain ⟨hahead, hfits, hbefore, htail⟩ := hchain
    have hle := hahead.le
    have hlt : c.start < c.stop ∧ c.stop ≤ text.length := hfits.lt
    have hbefore' : c.before = if index = 0 then none else some a := by simpa using hbefore
    have hmore : woven text separator hang body stop c.stop (index + 1) more
        (more.map Entry.address) = rowText text separator body stop c.stop more :=
      Entry.woven_row (by simpa using htail)
    rw [List.map_cons, Entry.woven_cons, hmore, rowText, ← List.append_assoc,
      Entry.joint_unedited hbefore' hle.1 (by omega)]

/-- The items of a list when none was edited. -/
theorem Entry.rowText_unedited {stop : Nat} : ∀ (items : List Item) (first : Bool)
    {a node base : Nat} {ancestors : List Nat} {row : List Entry},
    row = Entry.row node base ancestors (if first then none else some a) items →
    Chain text first row a stop →
    (∀ c ∈ row, (∀ k ∈ c.item.unseparated text separator, c.start ≤ k ∧ k ≤ c.stop) ∧
      body c.address = text.pieceWith separator c.start (c.item.unseparated text separator) c.stop) →
    (∀ k ∈ Item.unseparatedFrom text separator (if first then none else some a) items,
      a ≤ k ∧ k ≤ stop) ∧
    rowText text separator body stop a row =
      text.pieceWith separator a
        (Item.unseparatedFrom text separator (if first then none else some a) items) stop
  | [], first, a, node, base, ancestors, row, hrow, _, _ => by
    subst hrow
    rw [Item.unseparatedFrom, Text.pieceWith]
    exact ⟨fun k hk => absurd hk List.not_mem_nil, rfl⟩
  | item :: rest, first, a, node, base, ancestors, row, hrow, hchain, hbody => by
    rw [Entry.row] at hrow
    generalize hc : Entry.mk node base ancestors (if first then none else some a) item = c at hrow
    generalize hmore : Entry.row (node + item.cells) (base + item.cells) ancestors
      (some item.bytes.2) rest = more at hrow
    subst hrow
    have hitem : c.item = item := by rw [← hc]
    have hbefore : c.before = if first then none else some a := by rw [← hc]
    have hstop : item.bytes.2 = c.stop := by rw [← hitem]; rfl
    have hstart : item.bytes.1 = c.start := by rw [← hitem]; rfl
    rw [Chain] at hchain
    obtain ⟨hahead, hfits, _, htail⟩ := hchain
    have hle := hahead.le
    have hlt : c.start < c.stop ∧ c.stop ≤ text.length := hfits.lt
    have hrest := htail.le
    obtain ⟨hoffsets, hself⟩ := hbody c List.mem_cons_self
    obtain ⟨hoffsets', htold⟩ := Entry.rowText_unedited rest false (hstop ▸ hmore.symm) htail
      fun d hd => hbody d (List.mem_cons_of_mem c hd)
    rw [if_neg Bool.false_ne_true] at hoffsets' htold
    rw [hitem] at hoffsets hself
    rw [Item.unseparatedFrom, hstop, hstart, ← hbefore]
    have hgap : ∀ k ∈ gapOffsets text separator c.before c.start, k = c.start :=
      fun k hk => le_of_mem_gapOffsets hk
    refine ⟨fun k hk => ?_, ?_⟩
    · rw [List.mem_append, List.mem_append] at hk
      rcases hk with (hk | hk) | hk
      · have := hgap k hk
        omega
      · have := hoffsets k hk
        omega
      · have := hoffsets' k hk
        omega
    · rw [rowText, hself, htold,
        Text.pieceWith_append hle.1 (Nat.le_of_lt hlt.1) (fun k hk => Nat.le_of_eq (hgap k hk))
          fun k hk => (hoffsets k hk).1,
        Text.pieceWith_append (by omega) hrest.1 (fun k hk => ?_) fun k hk => (hoffsets' k hk).1]
      rcases List.mem_append.1 hk with hk | hk
      · have := hgap k hk
        omega
      · exact (hoffsets k hk).2

/-- A list that lists what it did is in its order. -/
theorem Entry.isReordered_itemCells (e : Entry) :
    (e.loadedList separator).isReordered e.itemCells = false := by
  have hlisted : (e.loadedList separator).listed.map ListedItem.object = e.itemCells := by
    simp [loadedList, itemCells, listing]
  have hdups : e.itemCells.eraseDups = e.itemCells := by
    have hnodup := e.nodup_itemCells
    generalize e.itemCells = cells at hnodup
    induction hnodup with
    | nil => rfl
    | @cons x rest hfirst _ ih =>
      have hrest : rest.filter (fun b => !b == x) = rest := by
        refine List.filter_eq_self.2 fun b hb => ?_
        simpa using (hfirst b hb).symm
      rw [List.eraseDups_cons, hrest, ih]
  have hmodel : (e.loadedList separator).inModelOrder e.itemCells = e.itemCells := by
    unfold ItemList.inModelOrder
    rw [hdups, List.filter_eq_self]
    intro x hx
    rw [item?_loadedList]
    simpa using hx
  have hsource : (e.loadedList separator).inSourceOrder e.itemCells = e.itemCells := by
    unfold ItemList.inSourceOrder
    rw [hlisted, List.filter_eq_self]
    intro x hx
    simpa using hx
  simp [ItemList.isReordered, hmodel, hsource]

/-- The text within the brackets of a list that lists what it did. -/
theorem Entry.toldItems_row (hhang : hang [] = []) (hlist : e.IsList text) :
    e.toldItems text separator hang body e.itemCells =
      rowText text separator body e.outer e.inner e.items := by
  have hwoven : woven text separator hang body e.outer e.inner 0 e.items e.itemCells =
      rowText text separator body e.outer e.inner e.items :=
    Entry.woven_row (by simpa using hlist.chain)
  rw [← hwoven]
  cases hitems : e.items with
  | nil =>
    rw [toldItems_nil hitems, itemCells, hitems]
    show hang [] ++ _ = _
    rw [hhang, List.nil_append, List.map_nil, woven, stripped]
  | cons c more =>
    have hcells : e.itemCells = c.address :: more.map Entry.address := by
      rw [itemCells, hitems, List.map_cons]
    have hlisted : e.toldItems text separator hang body e.itemCells =
        stripped text separator e.inner [] (c.cut text separator) ++
          woven text separator hang body e.outer (c.cut text separator) 0 (c :: more) e.itemCells :=
      toldItems_listed hitems e.isReordered_itemCells (fun d hd => absurd hd List.not_mem_nil)
        (hcells ▸ List.mem_cons_self)
    rw [hlisted, hcells, woven_cons, woven_cons, stripped, Text.piece_self, List.nil_append]
    simp only [List.append_assoc]

/-- The text of a word that was not edited. -/
theorem Entry.told_word_unedited (hcell : m.cells[e.address]? = some e.cell) (hlaid : e.IsLaid text)
    {w : Word} (hitem : e.item = .word w) :
    e.told text separator m = text.piece e.start e.stop := by
  have hw := hlaid.word hitem
  rw [Entry.cell, hitem] at hcell
  have horder := hw.order
  have hstop := hw.stop
  have hstart : e.start = w.nameBytes.1 := by
    rw [Entry.start, hitem]
    exact hw.start
  have hend : e.stop = w.bytes.2 := by
    rw [Entry.stop, hitem]
    rfl
  rw [told_word hitem, Model.name_word hcell, Model.loudness_word hcell, hstart, hend,
    ← Text.piece_append (Nat.le_of_lt horder) (show w.nameBytes.2 ≤ w.bytes.2 by omega), hw.name,
    hw.mark]

/-- The text of a list that lists what it did. -/
theorem Entry.told_row (hlaid : e.IsLaid text) {bytes : Nat × Nat} {bracketed : Bool}
    {items : List Item} (hitem : e.item = .list bytes bracketed items)
    (hlisted : m.items e.address = e.itemCells) :
    e.told text separator m = text.piece e.start e.inner ++
      rowText text separator (e.body text separator m) e.outer e.inner e.items ++
      text.piece e.outer e.stop := by
  rw [told_list hitem, hlisted,
    toldItems_row (show e.hung text [] = [] from Text.hang_nil _) (hlaid.list hitem)]

/-- The text of an entry that was not edited. -/
theorem Entry.told_unedited : ∀ e : Entry, Holding e m → e.IsLaid text →
    (∀ k ∈ e.item.unseparated text separator, e.start ≤ k ∧ k ≤ e.stop) ∧
    e.told text separator m =
      text.pieceWith separator e.start (e.item.unseparated text separator) e.stop := by
  intro e
  induction e using Entry.induction with
  | h e ih =>
    intro hm hlaid
    cases hitem : e.item with
    | word w =>
      rw [Item.unseparated, told_word_unedited (hm.cell (.refl e)) hlaid hitem]
      exact ⟨fun k hk => absurd hk List.not_mem_nil, rfl⟩
    | list bytes bracketed items =>
      have hlist := hlaid.list hitem
      have hbody : ∀ c ∈ e.items,
          (∀ k ∈ c.item.unseparated text separator, c.start ≤ k ∧ k ≤ c.stop) ∧
          e.body text separator m c.address =
            text.pieceWith separator c.start (c.item.unseparated text separator) c.stop := by
        intro c hc
        rw [body_item hc]
        exact ih c hc (hm.item hc) (Or.inl (hlaid.item hc).1)
      obtain ⟨hoffsets, hrow⟩ :=
        rowText_unedited items true (items_list hitem) hlist.chain hbody
      rw [if_pos rfl] at hoffsets hrow
      have hchain := hlist.chain.le
      have hstart := hlist.start_le
      have hstop := hlist.le_stop
      rw [Item.unseparated]
      refine ⟨fun k hk => ?_, ?_⟩
      · have := hoffsets k hk
        omega
      · rw [told_row hlaid hitem hm.items, hrow,
          Text.pieceWith_around hstart hchain.1 hstop hoffsets]

end Unedited

/-! ## Documents -/

section Document

variable {text separator : Text} {item : Item}

theorem Model.items_ofItem {d : Entry} (hd : (Entry.ofItem item).Holds d) :
    (Model.ofItem item).items d.address = d.itemCells :=
  Holding.items ⟨fun hc => (holding_ofItem item).cell (hd.trans hc)⟩

/-- The lists of a document come behind their items. -/
theorem Model.acyclic_ofItem (item : Item) : (Model.ofItem item).Acyclic := by
  refine .of_lt fun a b hb => ?_
  obtain ⟨c, hc, _⟩ := Model.exists_of_mem_items hb
  have ha := (Array.getElem?_eq_some_iff.1 hc).1
  rw [(Model.cells_ofItem item).2.1] at ha
  obtain ⟨d, hd, haddress⟩ := (Entry.ofItem item).exists_holds_address ha
  obtain rfl : d.address = a := haddress.trans (Nat.zero_add a)
  rw [Model.items_ofItem hd] at hb
  obtain ⟨c, hc, rfl⟩ := List.mem_map.1 hb
  have hbase := (Entry.mem_items hc).2.2.2.2
  have hpos := c.item.cells_pos
  unfold Entry.address
  omega

/-- What is in a cell of a document belongs to an entry below. -/
theorem Model.Reaches.exists_holds {a b : Nat} (h : (Model.ofItem item).Reaches a b) {d : Entry}
    (hd : (Entry.ofItem item).Holds d) (haddress : d.address = a) :
    ∃ c, d.Holds c ∧ c.address = b := by
  induction h generalizing d with
  | refl a => exact ⟨d, .refl d, haddress⟩
  | @step a c b mem _ ih =>
    subst haddress
    rw [Model.items_ofItem hd] at mem
    obtain ⟨x, hx, hxb⟩ := List.mem_map.1 mem
    obtain ⟨y, hy, hyc⟩ := ih (hd.item hx) hxb
    exact ⟨y, .step hx hy, hyc⟩

theorem Model.InPlace.reaches {m₀ m : Model} {a : Nat} (h : Model.InPlace m₀ m a) :
    m.Reaches m.root a := by
  induction h with
  | root => exact .refl _
  | item _ mem _ ih => exact ih.item mem

/-- All items of a document were read from within their lists. -/
theorem Model.confined_ofItem (hread : readDocument text = .ok item) :
    Model.Confined (.ofItem item) (.ofItem item) := by
  have hroot : (Entry.ofItem item).address = (Model.ofItem item).root := (Model.cells_ofItem item).1.symm
  have hbytes : ∀ {d : Entry}, (Entry.ofItem item).Holds d →
      (Model.ofItem item).bytes? d.address = some (d.start, d.stop) := by
    intro d hd
    rw [Model.bytes?, (holding_ofItem item).cell hd, Option.bind_some, d.bytes?_cell]
  intro a ha b hab outer inner houter hinner
  obtain ⟨d, hd, rfl⟩ := ha.reaches.exists_holds (.refl _) hroot
  obtain ⟨c, hc, rfl⟩ := hab.exists_holds hd rfl
  rw [hbytes hd, Option.some.injEq] at houter
  rw [hbytes (hd.trans hc), Option.some.injEq] at hinner
  subst houter hinner
  exact (((laid_ofItem hread).holds hd).1.holds hc).2

theorem toldSource_unedited (hread : readDocument text = .ok item) :
    toldSource text separator (.ofItem item) (.ofItem item) = separated text separator item := by
  have hlaid := laid_ofItem hread
  have hbounds := hlaid.bounds
  obtain ⟨hoffsets, htold⟩ :=
    @Entry.told_unedited _ separator _ (.ofItem item) (holding_ofItem item) hlaid
  rw [toldSource, htold, Text.pieceWith_around (Nat.zero_le _) hbounds.1 hbounds.2 hoffsets]
  rfl

/-- A located document that was not edited is printed as it was read, with
the missing separators. -/
theorem Located.prints_separated (hread : readDocument text = .ok item) {t u : Tree Model Nat}
    (ht : Located text separator (.ofItem item) t) (htied : t.Tied)
    (hu : Rendered (.ofItem item) t u) :
    ∃ v, printSource (.ofItem item) u = .ok (separated text separator item) v := by
  have hedition := (Model.Edited.refl item).edition hread (Model.confined_ofItem hread)
  have hsize := (Model.Edited.refl item).unfolds (Model.acyclic_ofItem item)
  obtain ⟨v, hrun, _⟩ :=
    printSource_told hedition hsize u ((ht.standing htied).rendered hedition hsize hu)
  rw [toldSource_unedited hread] at hrun
  exact ⟨v, hrun⟩

/-- A document can be loaded, and all renders print it as it was read, with
the separator in front of the items that have none; it makes no difference
when the tree is rendered before it is located.  Nothing changes where no
separator is missing. -/
theorem printSource_separated (hread : readDocument text = .ok item) :
    (∃ t, ofSource (language text separator) (.ofItem item) text (Model.ofItem item).root = .ok t ∧
      ∀ u, Rendered (.ofItem item) t u →
        ∃ v, printSource (.ofItem item) u = .ok (separated text separator item) v) ∧
    (∃ t, ofRoot (language text separator) (.ofItem item) text (Model.ofItem item).root = .ok t ∧
      ∀ u, Rendered (.ofItem item) t u → ∃ v, locate (.ofItem item) u = .ok () v ∧
        ∀ w, Rendered (.ofItem item) v w →
          ∃ x, printSource (.ofItem item) w = .ok (separated text separator item) x) ∧
    (item.unseparated text separator = [] → separated text separator item = text) := by
  obtain ⟨t₀, hmade, hunlocated⟩ := @ofRoot_unlocated _ separator _ hread
  -- Locating a tree that was made and rendered reaches a tree again.
  have htied : ∀ {u v : Tree Model Nat}, Rendered (.ofItem item) t₀ u →
      locate (.ofItem item) u = .ok () v → v.Tied := by
    intro u v hu hlocate
    have hreached : Reached (language text separator) text ((locate (.ofItem item)).after u) :=
      .step (.locate _) ((Reached.made hmade).rendered hu)
    rw [Job.after, hlocate] at hreached
    exact hreached.wellFormed.toTied
  obtain ⟨t, hlocate, hlocated⟩ := hunlocated.locate hread
  refine ⟨⟨t, ?_, fun u hu => hlocated.prints_separated hread (htied .refl hlocate) hu⟩,
    ⟨t₀, hmade, fun u hu => ?_⟩, fun hnone => ?_⟩
  · simp only [ofSource, bind, Except.bind, hmade, hlocate]
    rfl
  · obtain ⟨v, hlocate', hlocated'⟩ := (hunlocated.rendered hread hu).locate hread
    exact ⟨v, hlocate', fun w hw => hlocated'.prints_separated hread (htied hu hlocate') hw⟩
  · rw [separated, hnone, Text.pieceWith, Text.piece_zero_length]

/-- A document whose second item has no separator in front. -/
theorem printSource_wordAndList :
    separated wordAndList [';'] wordAndListItem = "a,;[b]".toList ∧
      ∃ t, ofSource (language wordAndList [';']) (.ofItem wordAndListItem) wordAndList
          (Model.ofItem wordAndListItem).root = .ok t ∧
        ∀ u, Rendered (.ofItem wordAndListItem) t u → ∃ v,
          printSource (.ofItem wordAndListItem) u =
            .ok (separated wordAndList [';'] wordAndListItem) v :=
  ⟨by decide +kernel, (printSource_separated readDocument_wordAndList).1⟩

end Document

end WordList

end Reprint
