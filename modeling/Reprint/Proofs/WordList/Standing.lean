import Reprint.Proofs.Tree.WellFormed
import Reprint.Proofs.WordList.Edited
import Reprint.Proofs.WordList.Loaded

/-!
# Located trees between renders

`Standing` is what renders of an edited model keep of a located tree.  The
nodes of the entries are as they were located, but for nodes that were
made below them meanwhile.  Those are `Fresh`: they have the layout that
their object has now, and they are printed from the model alone
(`printWithin_fresh`).

A new node with a place would grow the spans of the nodes above it.  That
no span changes is due to `Entry.Confines`: what is in an entry that is
printed from its source text was read from within that text, if it was
read at all (`Standing.getNode`).
-/

namespace Reprint.WordList

open Reprint.Tree

/-- A document and an edited model in which the entries that are reached as
they were read surround what is in them. -/
structure Edition (text : Text) (r : Entry) (m : Model) : Prop where
  ascii : text.IsAscii
  laid : r.IsLaid text
  root : r.node = 0
  top : r.ancestors = []
  redone : Redone r m
  confines : r.Confines m

/-- A node that was made by a render. -/
structure Fresh (text separator : Text) (r : Entry) (m : Model) (n : Node Model Nat) : Prop where
  unlocated : n.isLocated = false
  layout : ∃ l, layout text separator m n.object = some l ∧ n.parts = l.parts
  children : ∀ c ∈ n.children, r.item.cells ≤ c

/-- A located tree after any number of renders. -/
structure Standing (text separator : Text) (r : Entry) (m : Model) (t : Tree Model Nat) : Prop where
  language : t.language = WordList.language text separator
  source : t.source = .ofText text
  settings : t.settings = {}
  tied : t.Tied
  size : r.item.cells ≤ t.nodes.size
  loaded : ∀ {e : Entry}, r.Holds e → ∃ n, t.nodes[e.node]? = some n ∧
    Loaded text separator e (e.lead text separator) n ∧
      ∀ c ∈ n.children, c ∈ e.itemNodes ∨ r.item.cells ≤ c
  fresh : ∀ {x : Nat} {n : Node Model Nat}, r.item.cells ≤ x → t.nodes[x]? = some n →
    Fresh text separator r m n

/-- All entries above a node surround an object. -/
def Sheltered (r : Entry) (m : Model) (t : Tree Model Nat) (id a : Nat) : Prop :=
  ∀ e, r.Holds e → e.node ∈ t.lineage id → e.Surrounds m a

section Standing

variable {text separator : Text} {r e : Entry} {m : Model} {t : Tree Model Nat}

/-- A located tree that was not rendered yet. -/
theorem Located.standing (h : Located text separator r t) (htied : t.Tied) :
    Standing text separator r m t where
  language := h.seated.language
  source := h.seated.source
  settings := h.settings
  tied := htied
  size := Nat.le_of_eq h.seated.size.symm
  loaded he := by
    obtain ⟨n, hn, hloaded⟩ := h.loaded he
    exact ⟨n, hn, hloaded, fun c hc => Or.inl (h.children he hn ▸ hc)⟩
  fresh hx hn := by
    have hlt := lt_size_of_node hn
    rw [h.seated.size] at hlt
    omega

/-- The nodes of entries come before all others. -/
theorem Edition.node_lt (h : Edition text r m) (he : r.Holds e) : e.node < r.item.cells := by
  have hle := he.node_le
  have hpos := e.item.cells_pos
  have hroot := h.root
  omega

/-! ## New nodes -/

variable (text separator) in
/-- The origin of a layout are the bytes that the cell was read from. -/
theorem layout_origin {a : Nat} {c : Cell} (hc : m.cells[a]? = some c) :
    ∃ parts, layout text separator m a =
      some ⟨c.bytes?.map fun bytes => spanOfBytes text bytes, parts⟩ := by
  cases c with
  | word name loudness read =>
    refine ⟨[namePart text a read, markPart a], (layout_word hc).trans ?_⟩
    cases read <;> rfl
  | list bracketed items read =>
    refine ⟨listParts separator a bracketed, (layout_list hc).trans ?_⟩
    cases read <;> rfl

variable (separator) in
/-- The layout and the place of a new node, for an object that may have
been read. -/
theorem Redone.layout (h : Redone r m) (hascii : text.IsAscii) (hlaid : r.IsLaid text) {a : Nat}
    (ha : a < m.cells.size) :
    ∃ l place, WordList.layout text separator m a = some l ∧
      placeOf (.ofText text) l.origin = .ok place ∧
      (place = none ∨ ∃ d, r.Holds d ∧ d.address = a ∧ place = some (Place.ofSpan (d.span text))) := by
  have hc := Array.getElem?_eq_getElem ha
  obtain ⟨parts, hlayout⟩ := layout_origin text separator hc
  cases hbytes : (m.cells[a]).bytes? with
  | none =>
    rw [hbytes] at hlayout
    exact ⟨_, none, hlayout, rfl, Or.inl rfl⟩
  | some bytes =>
    rw [hbytes] at hlayout
    obtain ⟨d, hd, haddress⟩ := h.known hc hbytes
    have hread := h.bytes? hd
    rw [haddress, Model.bytes?, hc, Option.bind_some, hbytes, Option.some.injEq] at hread
    have hlaid := (hlaid.holds hd).1
    have hspan : spanOfBytes text bytes = .ok (d.span text) := by
      have hbounds := hlaid.bounds
      rw [hread]
      show Error.ofSource (text.spanOfBytes d.start d.stop) = _
      rw [Text.spanOfBytes_eq hascii hbounds.1 hbounds.2]
      rfl
    rw [Option.map_some, hspan] at hlayout
    exact ⟨_, _, hlayout, Entry.placeOf_span hlaid, Or.inr ⟨d, hd, haddress, rfl⟩⟩

/-- A node of an entry stays as it was located when it gets another child,
and when it should grow by what it covers already. -/
theorem Loaded.adopt {before : Delimiter} {n : Node Model Nat} (h : Loaded text separator e before n)
    (id : Nat) : Loaded text separator e before { n with children := n.children ++ [id] } :=
  ⟨⟨h.sits.object, h.sits.ancestors, h.sits.children.trans (List.prefix_append _ _), h.sits.span⟩,
    h.parts, h.place⟩

theorem Loaded.grow {before : Delimiter} {n : Node Model Nat} {span : Span}
    (h : Loaded text separator e before n) (hspan : (e.span text).contains span = true) :
    n.mapPlace (fun p => p.grow span) = n := by
  obtain ⟨p, hp, _⟩ := h.place
  have hown := h.sits.span
  rw [Node.span?, hp, Option.map_some, Option.some.injEq] at hown
  rw [← hown] at hspan
  have hplace : n.place.map (fun p => p.grow span) = n.place := by
    rw [hp, Option.map_some, Place.grow_eq_self hspan]
  rw [Node.mapPlace, hplace]

theorem Fresh.adopt {n : Node Model Nat} (h : Fresh text separator r m n) {id : Nat}
    (hid : r.item.cells ≤ id) : Fresh text separator r m { n with children := n.children ++ [id] } where
  unlocated := h.unlocated
  layout := h.layout
  children c hc := by
    rcases List.mem_append.1 hc with hc | hc
    · exact h.children c hc
    · rw [List.mem_singleton.1 hc]
      exact hid

theorem Fresh.grow {n : Node Model Nat} (h : Fresh text separator r m n) (span : Span) :
    Fresh text separator r m (n.mapPlace fun p => p.grow span) where
  unlocated := (Node.isLocated_mapPlace n (g := fun p => p.grow span) fun _ => rfl).trans h.unlocated
  layout := h.layout
  children := h.children

/-- An entry covers what was read of an object that it surrounds. -/
theorem Edition.contains (h : Edition text r m) {d : Entry} (he : r.Holds e) (hd : r.Holds d)
    (hsurrounds : e.Surrounds m d.address) : (e.span text).contains (d.span text) = true := by
  have hcount := Source.charCount_ofText text
  have hlaid := (h.laid.holds he).1.bounds
  have hlaid' := (h.laid.holds hd).1.bounds
  have hbounds : e.start ≤ d.start ∧ d.stop ≤ e.stop :=
    hsurrounds d.address (.refl _) _ (h.redone.bytes? hd)
  exact (contains_window hlaid.1 (by omega) hlaid'.1 (by omega)).2 hbounds

/-- A new node below a node of the tree. -/
theorem Standing.addNode (hm : Edition text r m) (h : Standing text separator r m t) {parent : Nat}
    {n : Node Model Nat} (hn : t.nodes[parent]? = some n) {a : Nat} {l : Layout Model Nat}
    {place : Option Place} (hlayout : WordList.layout text separator m a = some l)
    (hplace : place = none ∨
      ∃ d, r.Holds d ∧ d.address = a ∧ place = some (Place.ofSpan (d.span text)))
    (hnone : t.below? n a = none) (hsheltered : Sheltered r m t parent a) :
    Standing text separator r m (t.addNode (some parent) a place l.parts) := by
  have hparent := lt_size_of_node hn
  have hsize := h.size
  refine ⟨by simp [h.language], by simp [h.source], by simp [h.settings],
    h.tied.addNode place l.parts hn hnone, by simp; omega, fun {e} he => ?_, fun {x k} hx hk => ?_⟩
  · have hlt := hm.node_lt he
    obtain ⟨k, hk, hloaded, hchildren⟩ := h.loaded he
    rw [getElem?_addNode_of_lt (show e.node < t.nodes.size by omega) hparent, hk, Option.map_some]
    have hadopted : ∃ k', (if parent = e.node then { k with children := k.children ++ [t.nodes.size] }
        else k) = k' ∧ Loaded text separator e (e.lead text separator) k' ∧
          ∀ c ∈ k'.children, c ∈ e.itemNodes ∨ r.item.cells ≤ c := by
      split
      · refine ⟨_, rfl, hloaded.adopt _, fun c hc => ?_⟩
        rcases List.mem_append.1 hc with hc | hc
        · exact hchildren c hc
        · rw [List.mem_singleton.1 hc]
          exact Or.inr hsize
      · exact ⟨k, rfl, hloaded, hchildren⟩
    obtain ⟨k', hk', hloaded', hchildren'⟩ := hadopted
    refine ⟨k', ?_, hloaded', hchildren'⟩
    simp only [hk']
    rcases hplace with rfl | ⟨d, hd, rfl, rfl⟩
    · rfl
    · dsimp only
      split
      · next hmem =>
        rw [show (Place.ofSpan (d.span text)).span = d.span text from rfl,
          hloaded'.grow (hm.contains he hd (hsheltered e he hmem))]
      · rfl
  · by_cases hxt : x < t.nodes.size
    · rw [getElem?_addNode_of_lt hxt hparent] at hk
      obtain ⟨k₀, hk₀, rfl⟩ := Option.map_eq_some_iff.1 hk
      have hfresh := h.fresh hx hk₀
      have hadopted : Fresh text separator r m
          (if parent = x then { k₀ with children := k₀.children ++ [t.nodes.size] } else k₀) := by
        split
        · exact hfresh.adopt hsize
        · exact hfresh
      dsimp only
      cases place with
      | none => exact hadopted
      | some p =>
        dsimp only
        split
        · exact hadopted.grow _
        · exact hadopted
    · have hlast : x = t.nodes.size := by
        have := lt_size_of_node hk
        rw [size_addNode] at this
        omega
      rw [hlast, getElem?_addNode_size _ _ _ hparent, Option.some.injEq] at hk
      subst hk
      refine ⟨?_, ⟨l, hlayout, rfl⟩, fun c hc => absurd hc List.not_mem_nil⟩
      rcases hplace with rfl | ⟨d, hd, rfl, rfl⟩ <;> rfl

/-- The node below a node for an object that no entry below it has. -/
theorem Standing.getNode (hm : Edition text r m) (h : Standing text separator r m t) {parent : Nat}
    {n : Node Model Nat} (hn : t.nodes[parent]? = some n) {a : Nat} (ha : a < m.cells.size)
    (hsheltered : Sheltered r m t parent a)
    (hfree : ∀ c ∈ n.children, c < r.item.cells → ∀ k, t.nodes[c]? = some k → k.object ≠ a) :
    ∃ id t', t.getNode m parent a = .ok (id, t') ∧ Standing text separator r m t' ∧
      r.item.cells ≤ id ∧ Sheltered r m t' id a ∧ ∃ k, t'.nodes[id]? = some k ∧ k.object = a := by
  -- An entry is above the node for the object if it is above its parent.
  have hbelow : ∀ {id t'}, t.getNode m parent a = .ok (id, t') → r.item.cells ≤ id →
      Sheltered r m t' id a := by
    intro id t' hget hid e he hmem
    have hlt := hm.node_lt he
    rw [h.tied.lineage_of_getNode hget, List.mem_cons] at hmem
    rcases hmem with heq | hmem
    · omega
    · exact hsheltered e he hmem
  cases hfound : t.below? n a with
  | some id =>
    obtain ⟨hmem, k, hk, hobject⟩ := below?_eq_some hfound
    have hget := getNode_of_below? (m := m) hn hfound
    have hid : r.item.cells ≤ id := Nat.not_lt.1 fun hlt => hfree id hmem hlt k hk hobject
    exact ⟨id, t, hget, h, hid, hbelow hget hid, k, hk, hobject⟩
  | none =>
    obtain ⟨l, place, hlayout, hplaceOf, hplace⟩ := hm.redone.layout separator hm.ascii hm.laid ha
    rw [← h.source] at hplaceOf
    have hlanguage : t.language.layout m a = some l := by
      rw [h.language]
      exact hlayout
    have hget := getNode_of_layout hn hfound hlanguage hplaceOf
    exact ⟨_, _, hget, h.addNode hm hn hlayout hplace hfound hsheltered, h.size, hbelow hget h.size,
      _, getElem?_addNode_size _ _ _ (lt_size_of_node hn), rfl⟩

/-! ## Printing new nodes -/

/-- An object below a node is printed by printing its node. -/
theorem printBelow_of_getNode {print : Nat → Margin → Job Model Nat Text} {owner a id : Nat}
    {margin : Margin} {u v : Tree Model Nat} {body : Text}
    (hget : t.getNode m owner a = .ok (id, u)) (hprint : print id margin u = .ok body v) :
    printBelow print m owner a margin t = .ok (some body) v := by
  simp only [printBelow, bind, EStateM.bind, Job.get_eq, hget, Job.set_eq, hprint, pure, EStateM.pure]

/-- An object below a node fails to print when its node does. -/
theorem printBelow_fails_of_getNode {print : Nat → Margin → Job Model Nat Text} {owner a id : Nat}
    {margin : Margin} {u v : Tree Model Nat} {e : Error}
    (hget : t.getNode m owner a = .ok (id, u)) (hprint : print id margin u = .error e v) :
    printBelow print m owner a margin t = .error e v := by
  simp only [printBelow, bind, EStateM.bind, Job.get_eq, hget, Job.set_eq, hprint]

/-- A new node is printed from the model alone. -/
theorem Standing.printWithin_fresh (hm : Edition text r m) : ∀ (depth id : Nat) (margin : Margin)
    (t : Tree Model Nat) (n : Node Model Nat), Standing text separator r m t →
      r.item.cells ≤ id → t.nodes[id]? = some n → Sheltered r m t id n.object →
      m.Unfolds depth n.object → margin.level = 0 →
      ∃ t', printWithin m depth id margin t = .ok (m.text separator depth n.object) t' ∧
        Standing text separator r m t' ∧ t.Extends t'
  | 0, _, _, _, _, _, _, _, _, hdepth, _ => hdepth.elim
  | depth + 1, id, margin, t, n, h, hid, hn, hsheltered, hdepth, hmargin => by
    have hfresh := h.fresh hid hn
    have hnone : n.located? = none := by
      simpa [Node.isLocated] using hfresh.unlocated
    obtain ⟨l, hlayout, hparts⟩ := hfresh.layout
    rw [printWithin_of_normal hn hnone]
    obtain ⟨cell, hcell⟩ : ∃ cell, m.cells[n.object]? = some cell :=
      ⟨_, Array.getElem?_eq_getElem hdepth.1⟩
    cases cell with
    | word name loudness read =>
      rw [layout_word hcell, Option.some.injEq] at hlayout
      rw [← hlayout] at hparts
      refine ⟨t, ?_, h, .refl t⟩
      rw [normalNode_word hn hmargin hparts, Model.text, hcell, Model.name_word hcell,
        Model.loudness_word hcell]
    | list bracketed items read =>
      rw [layout_list hcell, Option.some.injEq] at hlayout
      rw [← hlayout] at hparts
      have hitems := Model.items_list hcell
      -- The invariant of the loop also says that the objects to come are items.
      have hstep : ∀ x rest,
          Runs (fun u => (Standing text separator r m u ∧ t.Extends u) ∧ ∀ y ∈ x :: rest, y ∈ items)
            (printBelow (printWithin m depth) m id x margin.flush) (some (m.text separator depth x))
            (fun u => (Standing text separator r m u ∧ t.Extends u) ∧ ∀ y ∈ rest, y ∈ items) := by
        intro x rest u hu
        obtain ⟨⟨hu, hextends⟩, hmem⟩ := hu
        have hx : x ∈ m.items n.object := hitems ▸ hmem x List.mem_cons_self
        obtain ⟨k, hk, hkept⟩ := hextends.node hn
        have hkfresh := hu.fresh hid hk
        have hbelow : Sheltered r m u id x := by
          intro e he hlineage
          rw [hextends.lineage (lt_size_of_node hn)] at hlineage
          exact (hsheltered e he hlineage).item hx
        obtain ⟨child, v, hget, hv, hchild, hsheltered', c, hc, rfl⟩ := hu.getNode hm hk
          (hdepth.2 x hx).lt hbelow fun c hc hlt => absurd (hkfresh.children c hc) (by omega)
        obtain ⟨w, hprint, hw, hextends'⟩ := Standing.printWithin_fresh hm depth child margin.flush v c
          hv hchild hc hsheltered' (hdepth.2 _ hx) rfl
        exact ⟨w, printBelow_of_getNode hget hprint,
          ⟨hw, hextends.trans ((Extends.getNode hget).trans hextends')⟩,
          fun y hy => hmem y (List.mem_cons_of_mem _ hy)⟩
      obtain ⟨t', hrun, ⟨ht', hextends⟩, _⟩ := normalItems_runs
        (fun objects u => (Standing text separator r m u ∧ t.Extends u) ∧ ∀ y ∈ objects, y ∈ items)
        (m.text separator depth) (m.items n.object).length
        (around_eq (itemsList n.object) (itemsFrame separator) rfl rfl rfl rfl · _) hstep
        items 0 t ⟨⟨h, .refl t⟩, fun _ hy => hy⟩
      refine ⟨t', ?_, ht', hextends⟩
      have hitemsrun := hrun
      rw [← hitems] at hitemsrun
      rw [normalNode_list hn hmargin hparts hitemsrun, Model.text, hcell, hitems]

end Standing

end Reprint.WordList
