import Reprint.Proofs.WordList.Chain
import Reprint.Proofs.WordList.Normal

/-!
# The tree of a document

`Entry.planted` is the node of an entry in a tree that was made for the
document and not located yet.  Planting such a tree and printing it make
its nodes in the same order, so both lead from the node of an entry alone
(`Seed`) to the nodes of all entries below it (`Grown`):
`plantWithin_grown` and `printWithin_grown`.  Once they are there, both
leave the tree as it is (`plantWithin_of_planted`,
`printWithin_of_planted`).

`Progress` is the state between the items of a list, and `Progress.step`
is what looking up the node of the next item does.
-/

namespace Reprint.WordList

open Reprint.Tree

/-! ## Layouts -/

/-- What the layout of a cell is. -/
theorem layout_word {text separator : Text} {m : Model} {a : Nat} {name : Text}
    {loudness : Option Bool} {read : Option Word}
    (h : m.cells[a]? = some (.word name loudness read)) :
    layout text separator m a =
      some ⟨read.map fun w => spanOfBytes text w.bytes, [namePart text a read, markPart a]⟩ := by
  unfold layout
  rw [h]
  rfl

theorem layout_list {text separator : Text} {m : Model} {a : Nat} {bracketed : Bool}
    {items : List Nat} {read : Option Item}
    (h : m.cells[a]? = some (.list bracketed items read)) :
    layout text separator m a =
      some ⟨read.map fun item => spanOfBytes text item.bytes, listParts separator a bracketed⟩ := by
  unfold layout
  rw [h]
  rfl

theorem selected_mark (m : Model) (a : Nat) : Part.selected m (markPart a) = [] := by
  simp only [markPart, Part.either, Part.constant, Part.selected, ite_self]

/-- A node has a place that covers the text between two offsets. -/
def Covers (text : Text) (a b : Nat) (n : Node Model Nat) : Prop :=
  ∃ p c d, n.place = some p ∧ p.span = window (.ofText text) c d ∧ c ≤ a ∧ b ≤ d ∧ c ≤ d ∧
    d ≤ text.length

/-- A place that covers more than a span does not grow by it. -/
theorem Covers.contains {text : Text} {a b : Nat} {n : Node Model Nat} {p : Place}
    (h : Covers text a b n) (hab : a ≤ b) (hp : n.place = some p) :
    p.span.contains (window (.ofText text) a b) = true := by
  obtain ⟨q, c, d, hq, hspan, hca, hbd, hcd, hd⟩ := h
  rw [hp] at hq
  cases hq
  rw [← Source.charCount_ofText] at hd
  rw [hspan, contains_window hcd hd hab (by omega)]
  exact ⟨hca, hbd⟩

theorem Covers.mono {text : Text} {a b c d : Nat} {n : Node Model Nat} (h : Covers text a b n)
    (hac : a ≤ c) (hdb : d ≤ b) : Covers text c d n := by
  obtain ⟨p, c', d', hp, hspan, hca, hbd, hcd, hd⟩ := h
  exact ⟨p, c', d', hp, hspan, by omega, by omega, hcd, hd⟩

/-! ## Nodes of entries -/

namespace Entry

/-- The span of an entry. -/
def span (text : Text) (e : Entry) : Span := window (.ofText text) e.start e.stop

/-- The parts of an entry before they are searched for. -/
def parts (text separator : Text) (e : Entry) : List (Part Model Nat) :=
  match e.item with
  | .word w => [namePart text e.address (some w), markPart e.address]
  | .list _ bracketed _ => listParts separator e.address bracketed

/-- The node of an entry with the given children, before it is located. -/
def planted (text separator : Text) (e : Entry) (children : List Nat) : Node Model Nat :=
  ⟨e.address, e.ancestors, children, some (Place.ofSpan (e.span text)), e.parts text separator⟩

/-- The nodes of the items. -/
def itemNodes (e : Entry) : List Nat := e.items.map node

/-- The cells of the items. -/
def itemCells (e : Entry) : List Nat := e.items.map address

/-- The place of the node of an entry that was read. -/
theorem placeOf_span {text : Text} {e : Entry} (h : e.IsLaid text) :
    placeOf (.ofText text) (some (.ok (e.span text))) = .ok (some (Place.ofSpan (e.span text))) := by
  have hbounds := h.bounds
  have hvalid : (Source.ofText text).validateBounds (e.span text).toBounds = .ok () :=
    validateBounds_window hbounds.1 (by rw [Source.charCount_ofText]; exact hbounds.2)
  simp only [placeOf, bind, Except.bind, hvalid, Error.ofSource]
  rfl

theorem planted_covers {text separator : Text} {e : Entry} (h : e.IsLaid text) (children : List Nat) :
    Covers text e.start e.stop (e.planted text separator children) :=
  ⟨_, e.start, e.stop, rfl, rfl, Nat.le_refl _, Nat.le_refl _, h.bounds.1, h.bounds.2⟩

/-- The number that comes after the nodes of the items in front of some
items. -/
def next (e : Entry) : List Entry → Nat
  | [] => e.node + e.item.cells
  | c :: _ => c.node

theorem row_next {node base : Nat} {ancestors : List Nat} {before : Option Nat} {items : List Item}
    {done rest : List Entry} {c : Entry} (h : row node base ancestors before items = done ++ c :: rest) :
    c.node + c.item.cells = ((rest.head?).map Entry.node).getD (node + Item.cellsOf items) := by
  induction items generalizing node base before done with
  | nil => cases done <;> cases h
  | cons item others ih =>
    rw [row] at h
    cases done with
    | nil =>
      rw [List.nil_append, List.cons.injEq] at h
      obtain ⟨rfl, rfl⟩ := h
      cases others with
      | nil => simp [row, Item.cellsOf]
      | cons => rfl
    | cons d done =>
      rw [List.cons_append, List.cons.injEq] at h
      rw [ih h.2, Item.cellsOf, Nat.add_assoc]

theorem next_append {e c : Entry} {done rest : List Entry} (h : e.items = done ++ c :: rest) :
    e.next rest = c.node + c.item.cells := by
  cases hitem : e.item with
  | word w =>
    rw [items_word hitem] at h
    cases done <;> cases h
  | list bytes bracketed items =>
    rw [items_list hitem] at h
    rw [row_next h]
    cases rest with
    | nil =>
      rw [next, hitem, Item.cells]
      simp only [List.head?_nil, Option.map_none, Option.getD_none]
      omega
    | cons => rfl

theorem next_items (e : Entry) : e.next e.items = e.node + 1 := by
  cases hitem : e.item with
  | word w => rw [items_word hitem, next, hitem, Item.cells]
  | list bytes bracketed items =>
    cases items with
    | nil => rw [items_list hitem, row, next, hitem, Item.cells, Item.cellsOf]
    | cons => rw [items_list hitem, row, next]

/-- The items in front of an item have smaller numbers. -/
theorem lt_of_append {e c d : Entry} {done rest : List Entry} (h : e.items = done ++ c :: rest)
    (hd : d ∈ done) : d.node + d.item.cells ≤ c.node ∧ d.base + d.item.cells ≤ c.base := by
  have hpairs := e.pairwise_items
  rw [h, List.pairwise_append] at hpairs
  exact hpairs.2.2 d hd c List.mem_cons_self

end Entry

/-- The cells of the entries below an entry are in a model as they were
read. -/
structure Holding (r : Entry) (m : Model) : Prop where
  cell : ∀ {d : Entry}, r.Holds d → m.cells[d.address]? = some d.cell

namespace Holding

variable {r e : Entry} {m : Model} {text separator : Text}

theorem item (h : Holding r m) {c : Entry} (hc : c ∈ r.items) : Holding c m :=
  ⟨fun hd => h.cell (.step hc hd)⟩

theorem items (h : Holding e m) : m.items e.address = e.itemCells := by
  have hcell := h.cell (.refl e)
  unfold Entry.cell at hcell
  split at hcell
  · next hitem =>
    rw [Model.items_word hcell, Entry.itemCells, Entry.items_word hitem]
    rfl
  · rw [Model.items_list hcell]
    rfl

theorem layout (h : Holding e m) (hlaid : e.IsLaid text) (hascii : text.IsAscii) :
    layout text separator m e.address =
      some ⟨some (.ok (e.span text)), e.parts text separator⟩ := by
  have hcell := h.cell (.refl e)
  have hspan : spanOfBytes text e.item.bytes = .ok (e.span text) := by
    have hbounds := hlaid.bounds
    show Error.ofSource (text.spanOfBytes e.start e.stop) = _
    rw [Text.spanOfBytes_eq hascii hbounds.1 hbounds.2]
    rfl
  unfold Entry.cell at hcell
  split at hcell
  · next w hitem =>
    rw [hitem, Item.bytes] at hspan
    rw [layout_word hcell, Option.map_some, hspan, Entry.parts, hitem]
  · next bytes bracketed items hitem =>
    rw [hitem] at hspan
    rw [layout_list hcell, Option.map_some, hspan, Entry.parts, hitem]

theorem selected (h : Holding e m) :
    Part.selectedAll m (e.parts text separator) = m.items e.address := by
  have hitems := h.items
  unfold Entry.parts
  split
  · next w hitem =>
    obtain ⟨span, hname⟩ := namePart_eq text e.address (some w)
    rw [hitems, Entry.itemCells, Entry.items_word hitem, Part.selectedAll, Part.selectedAll, hname,
      selected_mark]
    rfl
  · next bracketed _ hitem =>
    cases bracketed <;>
      simp [listParts, Part.selectedAll, Part.selected, itemsPart_eq, itemsList, Part.constant]

end Holding

/-! ## Trees that grow -/

/-- The node of an entry was just made, and the nodes above it cover it. -/
structure Seed (text separator : Text) (e : Entry) (t : Tree Model Nat) : Prop where
  language : t.language = WordList.language text separator
  source : t.source = .ofText text
  size : t.nodes.size = e.node + 1
  node : t.nodes[e.node]? = some (e.planted text separator [])
  above : ∀ x ∈ e.ancestors, x < e.node ∧ ∃ n, t.nodes[x]? = some n ∧ Covers text e.start e.stop n

/-- The nodes of all entries below an entry were made. -/
structure Grown (text separator : Text) (e : Entry) (t t' : Tree Model Nat) : Prop where
  same : t' = { t with nodes := t'.nodes }
  size : t'.nodes.size = e.node + e.item.cells
  old : ∀ x < e.node, t'.nodes[x]? = t.nodes[x]?
  node : ∀ {d : Entry}, e.Holds d → t'.nodes[d.node]? = some (d.planted text separator d.itemNodes)

/-- The nodes below some items of an entry were made. -/
structure Growing (text separator : Text) (e : Entry) (done : List Entry) (t t' : Tree Model Nat) :
    Prop where
  same : t' = { t with nodes := t'.nodes }
  old : ∀ x < e.node, t'.nodes[x]? = t.nodes[x]?
  node : t'.nodes[e.node]? = some (e.planted text separator (done.map Entry.node))
  below : ∀ c ∈ done, ∀ {d : Entry}, c.Holds d →
    t'.nodes[d.node]? = some (d.planted text separator d.itemNodes)

/-- The nodes were made below all items of an entry but those of the given
cells. -/
def Progress (text separator : Text) (e : Entry) (t : Tree Model Nat) (objects : List Nat)
    (t' : Tree Model Nat) : Prop :=
  ∃ done rest, e.items = done ++ rest ∧ objects = rest.map Entry.address ∧
    t'.nodes.size = e.next rest ∧ Growing text separator e done t t'

section Grow

variable {text separator : Text} {e : Entry} {m : Model} {t : Tree Model Nat}

/-- Nothing was made yet. -/
theorem Seed.progress (h : Seed text separator e t) :
    Progress text separator e t e.itemCells t :=
  ⟨[], e.items, rfl, rfl, h.size.trans e.next_items.symm,
    ⟨rfl, fun _ _ => rfl, h.node, fun _ hc => by cases hc⟩⟩

/-- Everything was made. -/
theorem Progress.grown {t' : Tree Model Nat} (h : Progress text separator e t [] t') :
    Grown text separator e t t' := by
  obtain ⟨done, rest, hitems, hobjects, hsize, hgrowing⟩ := h
  obtain rfl : rest = [] := by
    cases rest with
    | nil => rfl
    | cons => cases hobjects
  rw [List.append_nil] at hitems
  refine ⟨hgrowing.same, hsize, hgrowing.old, fun {d} hd => ?_⟩
  cases hd with
  | refl =>
    rw [Entry.itemNodes, hitems]
    exact hgrowing.node
  | step mem tail => exact hgrowing.below _ (hitems ▸ mem) tail

/-- The node of the item that comes next is not there yet. -/
theorem Growing.below?_next {u : Tree Model Nat} {c : Entry} {done rest : List Entry}
    (h : Growing text separator e done t u) (hitems : e.items = done ++ c :: rest) :
    u.below? (e.planted text separator (done.map Entry.node)) c.address = none := by
  unfold below?
  rw [List.find?_eq_none]
  intro id hid
  obtain ⟨d, hd, rfl⟩ := List.mem_map.1 hid
  rw [h.below d hd (.refl d)]
  have hlt := (Entry.lt_of_append hitems hd).2
  have hcell := d.address_lt
  have hcell' := c.base_le_address
  have hne : d.address ≠ c.address := by omega
  simpa [Entry.planted] using hne

/-- The nodes above an item cover it. -/
theorem Growing.covers {u : Tree Model Nat} {c : Entry} {done : List Entry}
    (h : Growing text separator e done t u) (hlaid : e.IsLaid text)
    (hseed : Seed text separator e t) (hc : c ∈ e.items) :
    ∀ y ∈ c.ancestors, y < c.node ∧ ∃ n, u.nodes[y]? = some n ∧ Covers text c.start c.stop n := by
  obtain ⟨hancestors, hlt, _⟩ := Entry.mem_items hc
  obtain ⟨_, hstart, _, hstop⟩ := hlaid.item hc
  intro y hy
  rw [hancestors] at hy
  rcases List.mem_cons.1 hy with rfl | hy
  · exact ⟨hlt, _, h.node, (Entry.planted_covers hlaid _).mono hstart hstop⟩
  · obtain ⟨hye, n, hn, hcovers⟩ := hseed.above y hy
    rw [← h.old y hye] at hn
    exact ⟨by omega, n, hn, hcovers.mono hstart hstop⟩

section Attach

variable {u : Tree Model Nat} {c : Entry} {done : List Entry} {place : Option Place}
  {parts : List (Part Model Nat)}

/-- The node above a new one lists it. -/
theorem Growing.attach_self (h : Growing text separator e done t u) (hsize : u.nodes.size = c.node)
    (hlt : e.node < c.node) : (u.attach e.node c.address place parts).nodes[e.node]? =
      some (e.planted text separator ((done ++ [c]).map Entry.node)) := by
  rw [getElem?_attach_of_lt (by omega), if_pos rfl, h.node, hsize]
  simp [Entry.planted]

/-- The new node of an item is a seed. -/
theorem Growing.seed (h : Growing text separator e done t u) (hsize : u.nodes.size = c.node)
    (hlaid : e.IsLaid text) (hseed : Seed text separator e t) (hc : c ∈ e.items) :
    Seed text separator c (u.attach e.node c.address (some (Place.ofSpan (c.span text)))
      (c.parts text separator)) := by
  obtain ⟨hancestors, hlt, _⟩ := Entry.mem_items hc
  obtain ⟨_, hstart, _, hstop⟩ := hlaid.item hc
  have hlineage : u.lineage e.node = c.ancestors := by
    rw [lineage_eq h.node, hancestors]
    rfl
  refine ⟨?_, ?_, by rw [size_attach, hsize], ?_, fun y hy => ?_⟩
  · show u.language = _
    rw [h.same]
    exact hseed.language
  · show u.source = _
    rw [h.same]
    exact hseed.source
  · rw [← hsize, getElem?_attach_size (by omega), hlineage]
    rfl
  · obtain ⟨hyc, n, hn, hcovers⟩ := h.covers hlaid hseed hc y hy
    refine ⟨hyc, ?_⟩
    by_cases hye : y = e.node
    · subst hye
      exact ⟨_, h.attach_self hsize hlt, (Entry.planted_covers hlaid _).mono hstart hstop⟩
    · exact ⟨n, by rw [getElem?_attach_of_lt (by omega), if_neg (Ne.symm hye), hn], hcovers⟩

/-- The nodes below the new one were made as well. -/
theorem Growing.next {v : Tree Model Nat} {rest : List Entry} (h : Growing text separator e done t u)
    (hsize : u.nodes.size = c.node) (hitems : e.items = done ++ c :: rest)
    (hv : Grown text separator c (u.attach e.node c.address place parts) v) :
    Growing text separator e (done ++ [c]) t v := by
  obtain ⟨_, hlt, _⟩ := Entry.mem_items (show c ∈ e.items by simp [hitems])
  have hother : ∀ x < c.node, x ≠ e.node →
      (u.attach e.node c.address place parts).nodes[x]? = u.nodes[x]? := by
    intro x hx hne
    rw [getElem?_attach_of_lt (by omega), if_neg (Ne.symm hne)]
  have hrest : u.attach e.node c.address place parts =
      { u with nodes := (u.attach e.node c.address place parts).nodes } := rfl
  refine ⟨?_, fun x hx => ?_, ?_, ?_⟩
  · rw [hv.same, hrest, h.same]
  · rw [hv.old x (by omega), hother x (by omega) (by omega), h.old x hx]
  · rw [hv.old e.node hlt, h.attach_self hsize hlt]
  · intro d hd f hf
    rw [List.mem_append, List.mem_singleton] at hd
    rcases hd with hd | rfl
    · have hle := hf.node_le
      have hnodes := (Entry.lt_of_append hitems hd).1
      have hpos := f.item.cells_pos
      have hd' := (Entry.mem_items (show d ∈ e.items by simp [hitems, hd])).2.1
      rw [hv.old f.node (by omega), hother f.node (by omega) (by omega)]
      exact h.below d hd hf
    · exact hv.node hf

end Attach

/-- Looking up the node of the next item makes it. -/
theorem Progress.step {u : Tree Model Nat} {x : Nat} {objects : List Nat} (hm : Holding e m)
    (hlaid : e.IsLaid text) (hascii : text.IsAscii) (hseed : Seed text separator e t)
    (h : Progress text separator e t (x :: objects) u) :
    ∃ c ∈ e.items, c.address = x ∧ u.nodes.size = c.node ∧
      ∃ u', u.getNode m e.node x = .ok (c.node, u') ∧ Seed text separator c u' ∧
        ∀ v, Grown text separator c u' v → Progress text separator e t objects v := by
  obtain ⟨done, rest, hitems, hobjects, hsize, hgrowing⟩ := h
  cases rest with
  | nil => cases hobjects
  | cons c rest =>
  rw [List.map_cons, List.cons.injEq] at hobjects
  obtain ⟨rfl, rfl⟩ := hobjects
  have hc : c ∈ e.items := by simp [hitems]
  obtain ⟨hancestors, hlt, _⟩ := Entry.mem_items hc
  have hclaid : c.IsLaid text := Or.inl (hlaid.item hc).1
  have hlanguage : u.language = WordList.language text separator := by
    rw [hgrowing.same]
    exact hseed.language
  have hplace : placeOf u.source (some (.ok (c.span text))) =
      .ok (some (Place.ofSpan (c.span text))) := by
    rw [hgrowing.same, hseed.source]
    exact Entry.placeOf_span hclaid
  have hsize : u.nodes.size = c.node := hsize
  have hget := getNode_of_layout hgrowing.node (hgrowing.below?_next hitems)
    (by rw [hlanguage]; exact (hm.item hc).layout hclaid hascii) hplace
  -- no span grows: the nodes above cover the item already
  have hcovered : ∀ y ∈ u.lineage e.node, y < u.nodes.size ∧ ∀ (n : Node Model Nat) (p : Place),
      u.nodes[y]? = some n → n.place = some p → p.span.contains (c.span text) = true := by
    intro y hy
    rw [lineage_eq hgrowing.node] at hy
    obtain ⟨hyc, n, hn, hcovers⟩ := hgrowing.covers hlaid hseed hc y (hancestors ▸ hy)
    refine ⟨by omega, fun n' p hn' hp => ?_⟩
    rw [hn] at hn'
    cases hn'
    exact hcovers.contains hclaid.bounds.1 hp
  rw [addNode_of_covered (by omega) hcovered, hsize] at hget
  exact ⟨c, hc, rfl, hsize, _, hget, hgrowing.seed hsize hlaid hseed hc, fun v hv =>
    ⟨done ++ [c], rest, by simp [hitems], rfl,
      by rw [hv.size, Entry.next_append hitems], hgrowing.next hsize hitems hv⟩⟩

theorem located?_planted (children : List Nat) :
    (e.planted text separator children).located? = none := rfl

theorem plantObjects_progress (descend : Nat → Job Model Nat Unit) (hm : Holding e m)
    (hlaid : e.IsLaid text) (hascii : text.IsAscii) (hseed : Seed text separator e t)
    (hdescend : ∀ c ∈ e.items, ∀ u, Seed text separator c u →
      ∃ v, descend c.node u = .ok () v ∧ Grown text separator c u v) :
    ∀ (objects : List Nat) (u : Tree Model Nat), Progress text separator e t objects u →
      ∃ v, plantObjects descend m e.node objects u = .ok () v ∧ Progress text separator e t [] v
  | [], u, h => ⟨u, rfl, h⟩
  | x :: rest, u, h => by
    obtain ⟨c, hc, _, hsize, u', hget, hseed', hnext⟩ := h.step hm hlaid hascii hseed
    obtain ⟨v, hrun, hgrown⟩ := hdescend c hc u' hseed'
    obtain ⟨w, hrest, hprogress⟩ :=
      plantObjects_progress descend hm hlaid hascii hseed hdescend rest v (hnext v hgrown)
    refine ⟨w, ?_, hprogress⟩
    simp only [plantObjects, bind, EStateM.bind, Job.get_eq, hget,
      Job.set_eq, hsize, Nat.le_refl, if_true, hrun, hrest]

/-- Planting a document makes the nodes of all its entries. -/
theorem plantWithin_grown (hascii : text.IsAscii) : ∀ (depth : Nat) (e : Entry) (t : Tree Model Nat),
    Holding e m → e.IsLaid text → e.item.cells ≤ depth → Seed text separator e t →
      ∃ t', plantWithin m depth e.node t = .ok () t' ∧ Grown text separator e t t'
  | 0, e, _, _, _, hdepth, _ => by
    have := e.item.cells_pos
    omega
  | depth + 1, e, t, hm, hlaid, hdepth, hseed => by
    have hselected : Part.selectedAll m (e.planted text separator []).parts = e.itemCells :=
      hm.selected.trans hm.items
    obtain ⟨t', hrun, hprogress⟩ := plantObjects_progress (plantWithin m depth) hm hlaid hascii hseed
      (fun c hc u hu => plantWithin_grown hascii depth c u (hm.item hc) (Or.inl (hlaid.item hc).1)
        (by have := Entry.cells_lt_of_mem_items hc; omega) hu)
      e.itemCells t hseed.progress
    refine ⟨t', ?_, hprogress.grown⟩
    simp only [plantWithin, bind, EStateM.bind, Job.get_eq,
      node_eq_ok.2 hseed.node, hselected, hrun]

theorem printBelow_progress (print : Nat → Margin → Job Model Nat Text) (body : Nat → Text)
    {margin : Margin} (hm : Holding e m) (hlaid : e.IsLaid text) (hascii : text.IsAscii)
    (hseed : Seed text separator e t)
    (hprint : ∀ c ∈ e.items, ∀ u, Seed text separator c u →
      ∃ v, print c.node margin u = .ok (body c.address) v ∧ Grown text separator c u v)
    (x : Nat) (rest : List Nat) :
    Runs (Progress text separator e t (x :: rest)) (printBelow print m e.node x margin)
      (some (body x)) (Progress text separator e t rest) := by
  intro u hu
  obtain ⟨c, hc, rfl, _, u', hget, hseed', hnext⟩ := hu.step hm hlaid hascii hseed
  obtain ⟨v, hrun, hgrown⟩ := hprint c hc u' hseed'
  refine ⟨v, ?_, hnext v hgrown⟩
  simp only [printBelow, bind, EStateM.bind, Job.get_eq, hget, Job.set_eq, hrun, pure, EStateM.pure]

/-- Printing a document that was not located makes the nodes of all its
entries, too. -/
theorem printWithin_grown (hascii : text.IsAscii) : ∀ (depth : Nat) (e : Entry) (margin : Margin)
    (t : Tree Model Nat), Holding e m → e.IsLaid text → e.item.cells ≤ depth →
      margin.level = 0 → Seed text separator e t →
      ∃ t', printWithin m depth e.node margin t = .ok (m.text separator depth e.address) t' ∧
        Grown text separator e t t'
  | 0, e, _, _, _, _, hdepth, _, _ => by
    have := e.item.cells_pos
    omega
  | depth + 1, e, margin, t, hm, hlaid, hdepth, hmargin, hseed => by
    have hcell := hm.cell (.refl e)
    rw [printWithin_of_normal hseed.node (located?_planted _)]
    cases hitem : e.item with
    | word w =>
      have hparts : (e.planted text separator []).parts =
          [namePart text e.address (some w), markPart e.address] := by
        rw [Entry.planted, Entry.parts, hitem]
      rw [Entry.cell, hitem] at hcell
      refine ⟨t, ?_, ?_⟩
      · rw [normalNode_word hseed.node hmargin hparts, Model.text, hcell, Model.name_word hcell,
          Model.loudness_word hcell]
      · have hprogress := hseed.progress
        rw [Entry.itemCells, Entry.items_word hitem] at hprogress
        exact hprogress.grown
    | list bytes bracketed items =>
      have hparts : (e.planted text separator []).parts =
          listParts separator e.address bracketed := by
        rw [Entry.planted, Entry.parts, hitem]
      obtain ⟨t', hrun, hprogress⟩ := normalItems_runs
        (Progress text separator e t) (m.text separator depth) (m.items e.address).length
        (around_eq (itemsList e.address) (itemsFrame separator) rfl rfl rfl rfl · _)
        (printBelow_progress (printWithin m depth) (m.text separator depth) hm hlaid hascii hseed fun c hc u hu =>
          printWithin_grown hascii depth c margin.flush u (hm.item hc) (Or.inl (hlaid.item hc).1)
            (by have := Entry.cells_lt_of_mem_items hc; omega) rfl hu)
        e.itemCells 0 t hseed.progress
      rw [← hm.items] at hrun
      refine ⟨t', ?_, hprogress.grown⟩
      have hitems := hm.items
      rw [Entry.cell, hitem] at hcell
      rw [normalNode_list hseed.node hmargin hparts hrun, Model.text, hcell,
        Model.items_list hcell]

end Grow

/-! ## Nodes that are there -/

/-- The node of an item is found below the node of its entry, whatever
other nodes are listed behind. -/
theorem getNode_item {m : Model} {t : Tree Model Nat} {e c : Entry} {n : Node Model Nat}
    (hn : t.nodes[e.node]? = some n) (hchildren : e.itemNodes <+: n.children)
    (hobjects : ∀ c ∈ e.items, ∃ k, t.nodes[c.node]? = some k ∧ k.object = c.address)
    (hc : c ∈ e.items) : t.getNode m e.node c.address = .ok (c.node, t) := by
  refine getNode_of_below? hn ?_
  obtain ⟨more, hmore⟩ := hchildren
  have hfind : e.items.find? (fun d => (t.nodes[d.node]?).any fun k => k.object = c.address) = some c := by
    obtain ⟨k, hk, hobject⟩ := hobjects c hc
    have hsome : (e.items.find? fun d =>
        (t.nodes[d.node]?).any fun k => k.object = c.address).isSome = true :=
      List.find?_isSome.2 ⟨c, hc, by rw [hk]; simpa using hobject⟩
    obtain ⟨d, hd⟩ := Option.isSome_iff_exists.1 hsome
    have hmem := List.mem_of_find?_eq_some hd
    obtain ⟨k', hk', hobject'⟩ := hobjects d hmem
    have haddress := List.find?_some hd
    rw [hk', Option.any_some, decide_eq_true_eq, hobject'] at haddress
    rw [hd, Entry.Holds.eq_of_address (.step hmem (.refl d)) (.step hc (.refl c)) haddress]
  unfold below?
  rw [← hmore, List.find?_append, Entry.itemNodes, List.find?_map]
  have hcomp : ((fun id => (t.nodes[id]?).any fun k => decide (k.object = c.address)) ∘ Entry.node) =
      fun d : Entry => (t.nodes[d.node]?).any fun k => decide (k.object = c.address) := rfl
  rw [hcomp, hfind]
  rfl

/-- The tree of a document, with the nodes of all entries and nothing
found yet. -/
structure Planted (text separator : Text) (r : Entry) (t : Tree Model Nat) : Prop where
  language : t.language = WordList.language text separator
  source : t.source = .ofText text
  settings : t.settings = {}
  marks : t.marks = []
  incomplete : t.complete = false
  size : t.nodes.size = r.item.cells
  node : ∀ {d : Entry}, r.Holds d → t.nodes[d.node]? = some (d.planted text separator d.itemNodes)

theorem Grown.planted {text separator : Text} {r : Entry} {t t' : Tree Model Nat}
    (h : Grown text separator r t t') (hseed : Seed text separator r t) (hzero : r.node = 0)
    (hsettings : t.settings = {}) (hmarks : t.marks = []) (hincomplete : t.complete = false) :
    Planted text separator r t' := by
  rw [h.same]
  refine ⟨hseed.language, hseed.source, hsettings, hmarks, hincomplete, ?_, h.node⟩
  rw [h.size, hzero, Nat.zero_add]

section Planted

variable {text separator : Text} {r e : Entry} {m : Model} {t : Tree Model Nat}

theorem Planted.getNode (h : Planted text separator r t) (he : r.Holds e) {c : Entry}
    (hc : c ∈ e.items) : t.getNode m e.node c.address = .ok (c.node, t) :=
  getNode_item (h.node he) (List.prefix_refl _)
    (fun _ hd => ⟨_, h.node (he.item hd), rfl⟩) hc

/-- Planting again changes nothing. -/
theorem plantObjects_of_planted (h : Planted text separator r t) (he : r.Holds e)
    (descend : Nat → Job Model Nat Unit) :
    ∀ {entries : List Entry}, (∀ c ∈ entries, c ∈ e.items) →
      plantObjects descend m e.node (entries.map Entry.address) t = .ok () t
  | [], _ => rfl
  | c :: rest, hitems => by
    have hc := hitems c List.mem_cons_self
    have hlt : ¬ t.nodes.size ≤ c.node := by
      have := lt_size_of_node (h.node (he.item hc))
      omega
    have hrest := plantObjects_of_planted h he descend fun d hd =>
      hitems d (List.mem_cons_of_mem _ hd)
    simp only [List.map_cons, plantObjects, bind, EStateM.bind, Job.get_eq, h.getNode he hc, Job.set_eq, if_neg hlt, hrest]

theorem plantWithin_of_planted (hm : Holding r m) (h : Planted text separator r t) (depth : Nat) :
    plantWithin m (depth + 1) r.node t = .ok () t := by
  have hselected : Part.selectedAll m (r.planted text separator r.itemNodes).parts = r.itemCells :=
    hm.selected.trans hm.items
  simp only [plantWithin, bind, EStateM.bind, Job.get_eq,
    node_eq_ok.2 (h.node (.refl r)), hselected]
  exact plantObjects_of_planted h (.refl r) _ fun c hc => hc

/-- Printing again changes nothing. -/
theorem printWithin_of_planted (hm : Holding r m) (h : Planted text separator r t) :
    ∀ (depth : Nat) (e : Entry) (margin : Margin), r.Holds e → e.item.cells ≤ depth →
      margin.level = 0 →
      printWithin m depth e.node margin t = .ok (m.text separator depth e.address) t
  | 0, e, _, _, hdepth, _ => by
    have := e.item.cells_pos
    omega
  | depth + 1, e, margin, he, hdepth, hmargin => by
    have hcell := hm.cell he
    have hnode := h.node he
    rw [printWithin_of_normal hnode (located?_planted _)]
    cases hitem : e.item with
    | word w =>
      have hparts : (e.planted text separator e.itemNodes).parts =
          [namePart text e.address (some w), markPart e.address] := by
        rw [Entry.planted, Entry.parts, hitem]
      rw [Entry.cell, hitem] at hcell
      rw [normalNode_word hnode hmargin hparts, Model.text, hcell, Model.name_word hcell,
        Model.loudness_word hcell]
    | list bytes bracketed items =>
      have hparts : (e.planted text separator e.itemNodes).parts =
          listParts separator e.address bracketed := by
        rw [Entry.planted, Entry.parts, hitem]
      have hbelow : ∀ c ∈ e.items, printBelow (printWithin m depth) m e.node c.address margin.flush t =
          .ok (some (m.text separator depth c.address)) t := by
        intro c hc
        have hprint := printWithin_of_planted hm h depth c margin.flush (he.item hc)
          (by have := Entry.cells_lt_of_mem_items hc; omega) rfl
        simp only [printBelow, bind, EStateM.bind, Job.get_eq,
          h.getNode he hc, Job.set_eq, hprint, pure, EStateM.pure]
      have hitems : m.items e.address = e.itemCells :=
        (Holding.mk fun hd => hm.cell (he.trans hd)).items
      have hstep : ∀ x rest, Runs (fun u => u = t ∧ ∀ y ∈ x :: rest, y ∈ e.itemCells)
          (printBelow (printWithin m depth) m e.node x margin.flush)
          (some (m.text separator depth x)) (fun u => u = t ∧ ∀ y ∈ rest, y ∈ e.itemCells) := by
        intro x rest u hu
        obtain ⟨c, hc, hx⟩ := List.mem_map.1 (hu.2 x List.mem_cons_self)
        refine ⟨t, ?_, rfl, fun y hy => hu.2 y (List.mem_cons_of_mem _ hy)⟩
        rw [hu.1, ← hx, hbelow c hc]
      obtain ⟨t', hrun, ht', _⟩ := normalItems_runs
        (fun objects u => u = t ∧ ∀ y ∈ objects, y ∈ e.itemCells) (m.text separator depth)
        (m.items e.address).length
        (around_eq (itemsList e.address) (itemsFrame separator) rfl rfl rfl rfl · _) hstep
        e.itemCells 0 t ⟨rfl, fun _ hy => hy⟩
      rw [← hitems, ht'] at hrun
      rw [Entry.cell, hitem] at hcell
      rw [normalNode_list hnode hmargin hparts hrun, Model.text, hcell, Model.items_list hcell]

end Planted

/-! ## Documents -/

theorem laid_ofItem {text : Text} {item : Item} (h : readDocument text = .ok item) :
    (Entry.ofItem item).IsLaid text := Or.inr (readDocument_fits h)

theorem holding_ofItem (item : Item) : Holding (Entry.ofItem item) (Model.ofItem item) :=
  ⟨fun hd => (Model.cells_ofItem item).2.2 hd⟩

/-- The tree of a document before it is located: it has the node of the
root alone, or all nodes. -/
def Unlocated (text separator : Text) (r : Entry) (t : Tree Model Nat) : Prop :=
  Planted text separator r t ∨
    Seed text separator r t ∧ t.settings = {} ∧ t.marks = [] ∧ t.complete = false

section Document

variable {text separator : Text} {item : Item} {t : Tree Model Nat}

/-- The tree that is made for a document. -/
theorem ofRoot_unlocated (h : readDocument text = .ok item) :
    ∃ t, ofRoot (language text separator) (Model.ofItem item) text (Model.ofItem item).root = .ok t ∧
      Unlocated text separator (.ofItem item) t := by
  have hlaid := laid_ofItem h
  have hlayout := @Holding.layout _ _ _ separator (holding_ofItem item) hlaid (isAscii_of_readDocument h)
  have hroot := (Model.cells_ofItem item).1
  unfold ofRoot
  rw [hroot, newNode_of_layout hlayout (Entry.placeOf_span hlaid), addNode_none]
  refine ⟨_, rfl, Or.inr ⟨⟨rfl, rfl, rfl, rfl, fun x hx => ?_⟩, rfl, rfl, rfl⟩⟩
  cases hx

/-- Planting the tree makes all nodes. -/
theorem Unlocated.plant (h : readDocument text = .ok item)
    (ht : Unlocated text separator (.ofItem item) t) :
    ∃ t', Tree.plant (Model.ofItem item) root t = .ok () t' ∧ Planted text separator (.ofItem item) t' := by
  have hlaid := laid_ofItem h
  have hsize : (Model.ofItem item).cells.size = item.cells := (Model.cells_ofItem item).2.1
  rcases ht with hplanted | ⟨hseed, hsettings, hmarks, hincomplete⟩
  · exact ⟨t, plantWithin_of_planted (holding_ofItem item) hplanted _, hplanted⟩
  · have hdepth : item.cells ≤ t.depthBound (Model.ofItem item) := by
      rw [depthBound, hseed.language]
      show item.cells ≤ _ + (Model.ofItem item).cells.size + 1
      omega
    obtain ⟨t', hrun, hgrown⟩ := plantWithin_grown (isAscii_of_readDocument h) _ _ t
      (holding_ofItem item) hlaid hdepth hseed
    exact ⟨t', hrun, hgrown.planted hseed rfl hsettings hmarks hincomplete⟩

/-- Printing the root makes all nodes, too. -/
theorem Unlocated.printWithin (h : readDocument text = .ok item)
    (ht : Unlocated text separator (.ofItem item) t) {depth : Nat} (margin : Margin)
    (hdepth : item.cells ≤ depth) (hmargin : margin.level = 0) :
    ∃ printed t', Tree.printWithin (Model.ofItem item) depth root margin t = .ok printed t' ∧
      Planted text separator (.ofItem item) t' := by
  have hlaid := laid_ofItem h
  rcases ht with hplanted | ⟨hseed, hsettings, hmarks, hincomplete⟩
  · exact ⟨_, t, printWithin_of_planted (holding_ofItem item) hplanted _ _ _ (.refl _) hdepth hmargin,
      hplanted⟩
  · obtain ⟨t', hrun, hgrown⟩ := printWithin_grown (isAscii_of_readDocument h) _ _ margin t
      (holding_ofItem item) hlaid hdepth hmargin hseed
    exact ⟨_, t', hrun, hgrown.planted hseed rfl hsettings hmarks hincomplete⟩

theorem Unlocated.root (ht : Unlocated text separator (.ofItem item) t) :
    ∃ n, t.nodes[Tree.root]? = some n ∧ n.located? = none := by
  rcases ht with hplanted | ⟨hseed, _⟩
  · exact ⟨_, hplanted.node (.refl _), rfl⟩
  · exact ⟨_, hseed.node, rfl⟩

theorem Unlocated.language (ht : Unlocated text separator (.ofItem item) t) :
    t.language = WordList.language text separator := by
  rcases ht with hplanted | ⟨hseed, _⟩
  · exact hplanted.language
  · exact hseed.language

/-- Renders do not locate a tree. -/
theorem Unlocated.rendered (h : readDocument text = .ok item)
    (ht : Unlocated text separator (.ofItem item) t) {u : Tree Model Nat}
    (hu : Rendered (Model.ofItem item) t u) : Unlocated text separator (.ofItem item) u := by
  have hsize : (Model.ofItem item).cells.size = item.cells := (Model.cells_ofItem item).2.1
  have hdepth : ∀ {u : Tree Model Nat}, Unlocated text separator (.ofItem item) u →
      item.cells ≤ u.depthBound (Model.ofItem item) := by
    intro u hu
    rw [depthBound, hu.language]
    show item.cells ≤ _ + (Model.ofItem item).cells.size + 1
    omega
  have hroot : ∀ {u : Tree Model Nat}, Unlocated text separator (.ofItem item) u →
      Unlocated text separator (.ofItem item) ((printRoot (Model.ofItem item)).after u) := by
    intro u hu
    obtain ⟨printed, v, hrun, hv⟩ := hu.printWithin h u.settings.margin (hdepth hu) rfl
    have hprint : printRoot (Model.ofItem item) u = .ok printed v := hrun
    rw [Job.after, hprint]
    exact Or.inl hv
  induction hu with
  | refl => exact ht
  | root _ ih => exact hroot ih
  | source _ ih =>
    rw [after_printSource]
    exact hroot ih
  | @mapped u _ file ih =>
    obtain ⟨n, hn, hnone⟩ := ih.root
    obtain ⟨printed, v, hrun, hv⟩ :=
      ih.printWithin h u.settings.margin (Nat.le_succ_of_le (hdepth ih)) rfl
    have hprint : printNormal (Model.ofItem item) Tree.root u.settings.margin u = .ok printed v :=
      (printWithin_of_normal hn hnone).symm.trans hrun
    unfold Job.after printMapped
    simp only [node_eq_ok.2 hn, hnone, hprint]
    exact Or.inl hv

end Document

end Reprint.WordList
