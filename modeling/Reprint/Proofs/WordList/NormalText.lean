import Reprint.Proofs.Tree.Keeping
import Reprint.Proofs.WordList.Bare
import Reprint.Proofs.WordList.Separated

/-!
# The normal text of a document

`Model.rootText` is the normal text of the root as the model alone gives
it: the texts of its items with a separator between them, or the report
of a cyclic model.

The normal text of the root of a tree that was never located is always
that.  The root of a located tree is printed the same way, but an item
that was found in the source is printed by revising its source text.  So
its normal text is `Model.rootText` as long as every list among these
items has the text for which `Entry.IsNormal` asks
(`printNormal_from_model`), and otherwise the source shows through
(`printNormal_spacedList`).
-/

namespace Reprint.WordList

open Reprint.Tree

/-! ## The normal text of the root -/

/-- The normal text of a root without brackets. -/
def Model.rootText (m : Model) (separator : Text) (margin : Margin) : Except Error Text :=
  if m.Unfolds m.cells.size m.root then
    .ok (margin.apply (joinedFrom separator 0 ((m.items m.root).map (m.shown separator))))
  else .error .cyclicModel

/-- The normal text of a root with nothing but its items, when each item
prints as its cell says, or reports that the cell contains itself. -/
theorem printNormal_outcome {text separator : Text} {m : Model} {P : Tree Model Nat → Prop}
    {t : Tree Model Nat} {n : Node Model Nat} {frame : Frame} {list : ItemList Model Nat}
    (margin : Margin) (hn : t.nodes[Tree.root]? = some n) (hparts : n.parts = [.items frame list])
    (hindent : frame.indent = .keep) (hsupply : list.supply m = m.items m.root)
    (haround : ∀ index count, list.around frame index count = (leadAt separator index, []))
    (hlanguage : t.language = language text separator)
    (hitems : ∀ {a b : Nat}, b ∈ m.items a → b < m.cells.size) (hroot : m.root < m.cells.size)
    (ht : P t)
    (hgood : ∀ x ∈ m.items m.root, m.Unfolds m.cells.size x → m.Unfolds (t.depthBound m) x →
      Runs P (printBelow (printWithin m (t.depthBound m)) m Tree.root x margin.flush)
        (some (m.shown separator x)) P)
    (hbad : ∀ x ∈ m.items m.root, ¬ m.Unfolds (t.depthBound m) x →
      Fails P (printBelow (printWithin m (t.depthBound m)) m Tree.root x margin.flush)
        .cyclicModel) :
    (printNormal m Tree.root margin).outcome t = m.rootText separator margin := by
  have hdepth : m.cells.size ≤ t.depthBound m := by
    rw [depthBound, hlanguage]
    show m.cells.size ≤ _ + m.cells.size + 1
    omega
  have hgood' : ∀ x ∈ m.items m.root, m.Unfolds (t.depthBound m) x →
      Runs P (printBelow (printWithin m (t.depthBound m)) m Tree.root x margin.flush)
        (some (m.shown separator x)) P :=
    fun x hx hunfolds => hgood x hx (hunfolds.bounded hitems) hunfolds
  rw [Model.rootText]
  split
  · next hunfolds =>
    obtain ⟨u, hrun, _⟩ := normalItems_runs_of_mem (m.shown separator) (haround · _)
      (fun x hx => hgood' x hx ((hunfolds.item hx).mono hdepth)) 0 t ht
    refine Job.outcome_ok (u := u) ?_
    show normalNode _ m Tree.root margin t = _
    rw [normalNode_items hn hparts hindent, hsupply, hrun]
  · next hcyclic =>
    have hexists : ∃ x ∈ m.items m.root, ¬ m.Unfolds (t.depthBound m) x := by
      by_contra hnone
      refine Model.not_unfolds hitems hcyclic (t.depthBound m + 1) ⟨hroot, fun x hx => ?_⟩
      exact by_contra fun hx' => hnone ⟨x, hx, hx'⟩
    obtain ⟨u, hrun⟩ := normalItems_fails (m.items m.root) 0
      (fun x hx hunfolds => ⟨_, hgood' x hx hunfolds⟩) hbad hexists t ht
    refine Job.outcome_error (u := u) ?_
    show normalNode _ m Tree.root margin t = _
    rw [normalNode_items hn hparts hindent, hsupply, hrun]

/-! ## Trees that were never located -/

section Unlocated

variable {text separator : Text} {m : Model} {t : Tree Model Nat}

/-- The normal text of a root without brackets whose items are printed from
the model. -/
theorem Bare.printNormal (h : Bare text separator m 1 t) {n : Node Model Nat} (margin : Margin)
    (hn : t.nodes[Tree.root]? = some n) (hparts : n.parts = [itemsPart separator m.root])
    (hitems : ∀ {a b : Nat}, b ∈ m.items a → b < m.cells.size) (hroot : m.root < m.cells.size) :
    (Tree.printNormal m Tree.root margin).outcome t = m.rootText separator margin := by
  refine printNormal_outcome margin hn hparts rfl rfl
    (around_eq (itemsList m.root) (itemsFrame separator) rfl rfl rfl rfl) h.language hitems hroot
    (P := fun u => Bare text separator m 1 u ∧ t.Extends u) ⟨h, .refl t⟩
    (fun x hx hsize hdepth => ?_) fun x hx hdepth => ?_
  · refine Bare.printBelow hn (Nat.le_refl 1) (hitems hx) fun id u k hu hid hk hobject => ?_
    subst hobject
    rw [← Model.text_eq_shown hdepth hsize]
    exact Bare.printWithin_runs _ id margin.flush u k hu hid hk hdepth rfl
  · refine Bare.printBelow_fails hn (Nat.le_refl 1) (hitems hx) fun id u k hu hid hk hobject => ?_
    subst hobject
    exact Bare.printWithin_fails hitems _ id margin.flush u k hu hid hk hdepth

/-- A new tree is bare but for its root. -/
theorem bare_ofRoot {object : Nat} {m₁ : Model}
    (h : ofRoot (language text separator) m₁ text object = .ok t)
    (hplaced : ∀ {a : Nat}, a < m.cells.size → ∃ l place, layout text separator m a = some l ∧
      placeOf (.ofText text) l.origin = .ok place) : Bare text separator m 1 t := by
  obtain ⟨l, place, hlayout, hplace, hmade, _⟩ := node_of_ofRoot h
  have hone : t.nodes.size = 1 := by rw [hmade, size_addNode]; rfl
  have hnone : ∀ {x : Nat} {n : Node Model Nat}, 1 ≤ x → t.nodes[x]? ≠ some n := by
    intro x n hx hn
    have := lt_size_of_node hn
    omega
  refine ⟨?_, ?_, (wellFormed_ofRoot h).toTied, by omega, fun hx hn => absurd hn (hnone hx),
    fun hx hn => absurd hn (hnone hx)⟩
  · rw [hmade, language_addNode]
  · rw [hmade, source_addNode]
    exact hplaced

end Unlocated

/-! ## Located trees -/

namespace Entry

/-- An item that was read and surrounds what is in it now, has a text, and
whose source text comes to that text when it is brought up to date. -/
structure IsNormal (text separator : Text) (m : Model) (c : Entry) : Prop where
  confines : c.Confines m
  unfolds : m.Unfolds m.cells.size c.address
  told : c.told text separator m = m.shown separator c.address

end Entry

section Located

variable {text separator : Text} {r c : Entry} {m : Model} {t : Tree Model Nat}

/-- Words are normal. -/
theorem Redone.isNormal_word (h : Redone r m) (hc : r.Holds c) {w : Word}
    (hitem : c.item = .word w) : c.IsNormal text separator m := by
  obtain ⟨name, loudness, hcell⟩ := h.word hc hitem
  have hlt := (Array.getElem?_eq_some_iff.1 hcell).1
  have hnone := Model.items_word hcell
  refine ⟨fun e he b hb bytes hbytes => ?_, ?_, ?_⟩
  · -- There is nothing in a word.
    have heq : e = c := by
      cases he.holds with
      | refl => rfl
      | step mem _ =>
        rw [Entry.items_word hitem] at mem
        exact absurd mem List.not_mem_nil
    subst heq
    cases hb with
    | refl =>
      rw [h.bytes? hc, Option.some.injEq] at hbytes
      subst hbytes
      exact ⟨Nat.le_refl _, Nat.le_refl _⟩
    | step mem _ =>
      rw [hnone] at mem
      exact absurd mem List.not_mem_nil
  · have hone : m.Unfolds 1 c.address := ⟨hlt, fun b hb => by
      rw [hnone] at hb
      exact absurd hb List.not_mem_nil⟩
    exact hone.mono (by omega)
  · obtain ⟨depth, hdepth⟩ : ∃ depth, m.cells.size = depth + 1 := ⟨m.cells.size - 1, by omega⟩
    rw [Entry.told_word hitem, Model.shown, hdepth, Model.text, hcell, Model.name_word hcell,
      Model.loudness_word hcell]

/-- An entry that is reached as it was read is the root, or it is reached
from an item of the root. -/
theorem Entry.Kept.cases_root {e : Entry} (h : Entry.Kept m r e) :
    e = r ∨ ∃ c ∈ r.items, c.address ∈ m.items r.address ∧ Entry.Kept m c e := by
  induction h with
  | refl => exact Or.inl rfl
  | @item e d _ mem listed ih =>
    rcases ih with rfl | ⟨c, hc, hlisted, hkept⟩
    · exact Or.inr ⟨d, mem, listed, .refl⟩
    · exact Or.inr ⟨c, hc, hlisted, hkept.item mem listed⟩

/-- A document surrounds all that was read from it, so its entries are
confined if the items of the root are. -/
theorem Redone.confines (h : Redone r m) (hlaid : r.IsLaid text)
    (hitems : ∀ c ∈ r.items, c.address ∈ m.items r.address → c.Confines m) : r.Confines m := by
  intro e he
  rcases he.cases_root with rfl | ⟨c, hc, hlisted, hkept⟩
  · intro b _ bytes hbytes
    obtain ⟨cell, hcell, hread⟩ := Option.bind_eq_some_iff.1 hbytes
    obtain ⟨d, hd, rfl⟩ := h.known hcell hread
    rw [h.bytes? hd, Option.some.injEq] at hbytes
    subst hbytes
    exact (hlaid.holds hd).2
  · exact hitems c hc hlisted e hkept

/-- The nodes that renders made are printed from the model. -/
theorem Standing.bare (hm : Edition text r m) (h : Standing text separator r m t) :
    Bare text separator m r.item.cells t where
  language := h.language
  placed ha := by
    obtain ⟨l, place, hlayout, hplace, _⟩ := hm.redone.layout separator hm.ascii hm.laid ha
    exact ⟨l, place, hlayout, by rw [h.source]; exact hplace⟩
  tied := h.tied
  size := h.size
  unlocated hx hn := (h.fresh hx hn).unlocated
  layout hx hn := (h.fresh hx hn).layout

/-- The normal text of a located document, when the items that were found
in the source are normal. -/
theorem Standing.printNormal (hm : Edition text r m) (h : Standing text separator r m t)
    {bytes : Nat × Nat} {items : List Item} (hitem : r.item = .list bytes false items)
    (hnormal : ∀ c ∈ r.items, c.address ∈ m.items r.address → c.IsNormal text separator m)
    (margin : Margin) :
    (Tree.printNormal m Tree.root margin).outcome t = m.rootText separator margin := by
  have hroot := hm.redone.root
  obtain ⟨n, hn, hloaded, _⟩ := h.loaded (.refl r)
  have hparts := hloaded.parts
  rw [Entry.loadedParts, hitem] at hparts
  obtain ⟨cell, hcell, _⟩ := hm.redone.cell (.refl r)
  have hlt := (Array.getElem?_eq_some_iff.1 hcell).1
  rw [hm.root] at hn
  refine printNormal_outcome margin hn hparts rfl (by rw [hroot]; rfl)
    (fun index count => around_eq _ _ rfl rfl rfl rfl index count) h.language hm.redone.items
    (by rw [hroot]; exact hlt) (P := Standing text separator r m) h
    (fun x hx hsize hdepth u hu => ?_) fun x hx hdepth u hu => ?_
  · rw [hroot] at hx
    by_cases hread : ∃ c ∈ r.items, c.address = x
    · obtain ⟨c, hc, rfl⟩ := hread
      obtain ⟨v, hrun, hv⟩ := printWithin_told hm (t.depthBound m) c margin.flush
        (.item .refl hc hx) hdepth hsize u hu
      have hget := hu.getNode_item (m := m) (.refl r) hc
      rw [hm.root] at hget
      rw [(hnormal c hc hx).told] at hrun
      exact ⟨v, printBelow_of_getNode hget hrun, hv⟩
    · obtain ⟨id, v, hget, hv, hid, hsheltered, k, hk, hobject⟩ :=
        hu.getNode_other hm .refl hx fun c hc heq => hread ⟨c, hc, heq⟩
      subst hobject
      obtain ⟨w, hrun, hw, _⟩ :=
        Standing.printWithin_fresh hm _ id margin.flush v k hv hid hk hsheltered hdepth rfl
      rw [Model.text_eq_shown hdepth hsize] at hrun
      rw [hm.root] at hget
      exact ⟨w, printBelow_of_getNode hget hrun, hw⟩
  · rw [hroot] at hx
    have hother : ∀ c ∈ r.items, c.address ≠ x := by
      rintro c hc rfl
      refine hdepth ((hnormal c hc hx).unfolds.mono ?_)
      rw [depthBound, h.language]
      show m.cells.size ≤ _ + m.cells.size + 1
      omega
    obtain ⟨id, v, hget, hv, hid, _, k, hk, hobject⟩ := hu.getNode_other hm .refl hx hother
    subst hobject
    obtain ⟨w, hrun⟩ := Bare.printWithin_fails hm.redone.items _ id margin.flush v k (hv.bare hm) hid hk
      hdepth
    rw [hm.root] at hget
    exact ⟨w, printBelow_fails_of_getNode hget hrun⟩

/-- Below an entry whose cells are as they were read, only such cells can
be reached. -/
theorem Holding.exists_holds {e : Entry} (h : Holding c m) {a b : Nat} (hab : m.Reaches a b)
    (he : c.Holds e) (ha : e.address = a) : ∃ d, e.Holds d ∧ d.address = b := by
  induction hab generalizing e with
  | refl => exact ⟨e, .refl e, ha⟩
  | step mem _ ih =>
    subst ha
    rw [(Holding.mk fun hd => h.cell (he.trans hd)).items] at mem
    obtain ⟨x, hx, hxb⟩ := List.mem_map.1 mem
    obtain ⟨d, hd, hdb⟩ := ih (he.item hx) hxb
    exact ⟨d, .step hx hd, hdb⟩

theorem Holding.unfolds : ∀ {c : Entry}, Holding c m → m.Unfolds c.item.cells c.address := by
  intro c
  induction c using Entry.induction with
  | h c ih =>
    intro h
    obtain ⟨depth, hdepth⟩ : ∃ depth, c.item.cells = depth + 1 :=
      ⟨c.item.cells - 1, by have := c.item.cells_pos; omega⟩
    rw [hdepth]
    refine ⟨(Array.getElem?_eq_some_iff.1 (h.cell (.refl c))).1, fun b hb => ?_⟩
    rw [h.items] at hb
    obtain ⟨x, hx, rfl⟩ := List.mem_map.1 hb
    have := Entry.cells_lt_of_mem_items hx
    exact (ih x hx (h.item hx)).mono (by omega)

/-- A list in which nothing was edited is normal if its source text is the
text that the model gives. -/
theorem Holding.isNormal (h : Holding c m) (hlaid : c.IsLaid text)
    (htold : c.told text separator m = m.shown separator c.address) :
    c.IsNormal text separator m where
  confines e he b hb bytes hbytes := by
    obtain ⟨d, hd, rfl⟩ := h.exists_holds hb he.holds rfl
    rw [Model.bytes?, h.cell (he.holds.trans hd), Option.bind_some, d.bytes?_cell,
      Option.some.injEq] at hbytes
    subst hbytes
    exact ((hlaid.holds he.holds).1.holds hd).2
  unfolds := by
    have hlt := (Array.getElem?_eq_some_iff.1 (h.cell (.refl c))).1
    refine h.unfolds.mono ?_
    unfold Entry.address at hlt
    omega
  told := htold

end Located

/-! ## Documents -/

/-- The normal text of the root does not depend on whether the document was
located: it is the one that the model gives, for any edit of the document,
one in which a cell contains itself included, as long as every list that
the root still lists is normal. -/
theorem printNormal_from_model {text separator : Text} {item : Item} {m₀ m : Model}
    (hread : readDocument text = .ok item) (hm : (Model.ofItem item).Edited m)
    (hnormal : ∀ c ∈ (Entry.ofItem item).items, c.address ∈ m.items m.root →
      (∃ w, c.item = .word w) ∨ c.IsNormal text separator m)
    (hm₀ : (Model.ofItem item).Edited m₀)
    (hplain : ∃ items read, m₀.cells[m₀.root]? = some (.list false items read)) (margin : Margin) :
    ∃ t u, ofSource (language text separator) (.ofItem item) text (Model.ofItem item).root = .ok t ∧
      ofRoot (language text separator) m₀ text m₀.root = .ok u ∧
      (printNormal m Tree.root margin).outcome t = m.rootText separator margin ∧
      (printNormal m Tree.root margin).outcome u = m.rootText separator margin := by
  have hascii := isAscii_of_readDocument hread
  have hlaid := laid_ofItem hread
  obtain ⟨entries, hitem, _⟩ := readDocument_fits hread
  have hentry : (Entry.ofItem item).item = .list (bytesOfItems text.length entries) false entries :=
    hitem
  have hroot := hm.redone.root
  have hnormal' : ∀ c ∈ (Entry.ofItem item).items,
      c.address ∈ m.items (Entry.ofItem item).address → c.IsNormal text separator m := by
    intro c hc hlisted
    rcases hnormal c hc (by rw [hroot]; exact hlisted) with ⟨w, hw⟩ | h
    · exact hm.redone.isNormal_word (.step hc (.refl c)) hw
    · exact h
  have hedition : Edition text (.ofItem item) m :=
    ⟨hascii, hlaid, rfl, rfl, hm.redone, hm.redone.confines hlaid fun c hc hlisted =>
      (hnormal' c hc hlisted).confines⟩
  obtain ⟨t, hload, ht⟩ := @ofSource_standing _ separator _ hread m
  -- The other tree is made for a root without brackets.
  obtain ⟨items, read, hcell⟩ := hplain
  have hlt := (Array.getElem?_eq_some_iff.1 hcell).1
  obtain ⟨l, place, hlayout, hplace, _⟩ := hm₀.redone.layout separator hascii hlaid hlt
  obtain ⟨u, hmade⟩ := exists_ofRoot hlayout hplace
  obtain ⟨l', place', hlayout', _, _, hnode⟩ := node_of_ofRoot hmade
  obtain ⟨n, hn, _⟩ := (wellFormed_ofRoot hmade).root
  have hparts : n.parts = [itemsPart separator m.root] := by
    have hl : layout text separator m₀ m₀.root = some l' := hlayout'
    rw [layout_list hcell, Option.some.injEq] at hl
    rw [hnode hn, ← hl, listParts, if_neg Bool.false_ne_true, hroot, hm₀.redone.root]
  have hbare : Bare text separator m 1 u := bare_ofRoot hmade fun ha => by
    obtain ⟨l, place, hlayout, hplace, _⟩ := hm.redone.layout separator hascii hlaid ha
    exact ⟨l, place, hlayout, hplace⟩
  obtain ⟨cell, hnow, _⟩ := hm.redone.cell (.refl (.ofItem item))
  refine ⟨t, u, hload, hmade, ht.printNormal hedition hentry hnormal' margin,
    hbare.printNormal margin hn hparts hm.items ?_⟩
  rw [hroot]
  exact (Array.getElem?_eq_some_iff.1 hnow).1

/-- A document with a word and a list, in which the word was renamed. -/
def renamedWord : Model := (Model.ofItem wordAndListItem).rename 0 ['x']

/-- The list is normal: nothing in it was edited, and it has no spaces. -/
theorem printNormal_renamedWord :
    ∃ t u, ofSource (language wordAndList [',']) (.ofItem wordAndListItem) wordAndList
        (Model.ofItem wordAndListItem).root = .ok t ∧
      ofRoot (language wordAndList [',']) (.ofItem wordAndListItem) wordAndList
        (Model.ofItem wordAndListItem).root = .ok u ∧
      (printNormal renamedWord Tree.root ⟨1, "  ".toList⟩).outcome t = .ok "  x,[b]".toList ∧
      (printNormal renamedWord Tree.root ⟨1, "  ".toList⟩).outcome u = .ok "  x,[b]".toList := by
  have hedited := (Model.Edited.refl wordAndListItem).rename 0 ['x']
  have hlaid := laid_ofItem readDocument_wordAndList
  -- Nothing but the first cell was changed.
  have hcells : ∀ a : Nat, a ≠ 0 →
      renamedWord.cells[a]? = (Model.ofItem wordAndListItem).cells[a]? :=
    fun a ha => (Array.getElem?_modify ..).trans (if_neg (Ne.symm ha))
  have hnormal : ∀ c ∈ (Entry.ofItem wordAndListItem).items,
      c.address ∈ renamedWord.items renamedWord.root →
      (∃ w, c.item = .word w) ∨ c.IsNormal wordAndList [','] renamedWord := by
    intro c hc _
    have hentries : (Entry.ofItem wordAndListItem).items =
        [⟨1, 0, [0], none, .word ⟨(0, 1), ['a'], (0, 1), none⟩⟩,
          ⟨2, 1, [0], some 1, .list (2, 5) true [.word ⟨(3, 4), ['b'], (3, 4), none⟩]⟩] := rfl
    have hfits := (hlaid.item hc).1
    have hholds : ∀ {d : Entry}, c.Holds d → (Entry.ofItem wordAndListItem).Holds d :=
      fun hd => .step hc hd
    rw [hentries] at hc
    rcases List.mem_cons.1 hc with rfl | hc
    · exact Or.inl ⟨_, rfl⟩
    rw [List.mem_singleton] at hc
    subst hc
    have hholding : Holding ⟨2, 1, [0], some 1, .list (2, 5) true [.word ⟨(3, 4), ['b'], (3, 4), none⟩]⟩
        renamedWord := ⟨fun {d} hd => by
      have hbase : 1 ≤ d.address := Nat.le_trans hd.node_le.2.2.1 d.base_le_address
      rw [hcells _ (by omega)]
      exact (holding_ofItem wordAndListItem).cell (hholds hd)⟩
    refine Or.inr (hholding.isNormal (Or.inl hfits) ?_)
    rw [(Entry.told_unedited _ hholding (Or.inl hfits)).2]
    decide +kernel
  have hshown : renamedWord.rootText [','] ⟨1, "  ".toList⟩ = .ok "  x,[b]".toList := by
    decide +kernel
  rw [← hshown]
  exact printNormal_from_model readDocument_wordAndList hedited hnormal (.refl wordAndListItem)
    ⟨_, _, rfl⟩ ⟨1, "  ".toList⟩

/-- A document of a list with a space in it. -/
def spacedList : Text := "[a ]".toList

/-- What is read from it. -/
def spacedListItem : Item :=
  .list (0, 4) false [.list (0, 4) true [.word ⟨(1, 2), ['a'], (1, 2), none⟩]]

theorem readDocument_spacedList : readDocument spacedList = .ok spacedListItem := rfl

/-- The space is in the normal text of the located tree, although the model
has none. -/
theorem printNormal_spacedList :
    readDocument spacedList = .ok spacedListItem ∧
    ((ofSource (language spacedList [',']) (.ofItem spacedListItem) spacedList
        (Model.ofItem spacedListItem).root).toOption.map
      (printNormal (.ofItem spacedListItem) Tree.root (.ofUnit [])).outcome) =
        some (.ok "[a ]".toList) ∧
    ((ofRoot (language spacedList [',']) (.ofItem spacedListItem) spacedList
        (Model.ofItem spacedListItem).root).toOption.map
      (printNormal (.ofItem spacedListItem) Tree.root (.ofUnit [])).outcome) =
        some (.ok "[a]".toList) :=
  ⟨readDocument_spacedList, by decide +kernel, by decide +kernel⟩

end Reprint.WordList
