import Reprint.Proofs.WordList.Spelling
import Reprint.WordList.Model
import Mathlib.Data.List.Pairwise

/-!
# The items of a document with their numbers

The cells of a document are numbered from the inside out, and the nodes
of its tree from the outside in.  An `Entry` is an item with both numbers
and with the end of the item before it.  `Entry.items` are the entries
right below an entry, and `Entry.Holds` relates an entry to all entries
below it and to itself.

* `Entry.induction` is the induction that most proofs about entries use.
* The numbers of the entries below an entry fill an interval
  (`Holds.node_le`, `exists_holds_node`), and siblings have disjoint
  intervals (`pairwise_row`), so a number belongs to one entry only.
* `cells_ofItem` says what the cell of an entry is in the model of the
  document.
-/

namespace Reprint.WordList

mutual

/-- The number of cells of an item. -/
def Item.cells : Item → Nat
  | .word _ => 1
  | .list _ _ items => Item.cellsOf items + 1
termination_by structural item => item

/-- The number of cells of several items. -/
def Item.cellsOf : List Item → Nat
  | [] => 0
  | item :: rest => Item.cells item + Item.cellsOf rest
termination_by structural items => items

end

theorem Item.cells_pos (item : Item) : 0 < item.cells := by
  cases item with
  | word => simp [Item.cells]
  | list => simp [Item.cells]

/-- Of two members of a list in which every one is related to those behind it,
one is related to the other, unless they are the same. -/
theorem eq_or_related {α : Type} {R : α → α → Prop} {xs : List α} (h : xs.Pairwise R) {x y : α}
    (hx : x ∈ xs) (hy : y ∈ xs) : x = y ∨ R x y ∨ R y x := by
  have hsymm : Std.Symm fun x y => R x y ∨ R y x := ⟨fun _ _ => Or.symm⟩
  by_cases hxy : x = y
  · exact Or.inl hxy
  · have hboth : xs.Pairwise fun x y => R x y ∨ R y x := h.imp fun hrelated => Or.inl hrelated
    exact Or.inr (hboth.forall hx hy hxy)

/-- An item of a document with its numbers. -/
structure Entry where
  /-- The number of its node, which comes before the nodes of its items. -/
  node : Nat
  /-- The number of cells before the ones of the item. -/
  base : Nat
  /-- The nodes above it, the closest first. -/
  ancestors : List Nat
  /-- The end of the item before it in its list. -/
  before : Option Nat
  item : Item

namespace Entry

/-- The number of the cell, which comes behind the cells of its items. -/
def address (e : Entry) : Nat := e.base + e.item.cells - 1

/-- The offset of the first character. -/
def start (e : Entry) : Nat := e.item.bytes.1

/-- The offset behind the last character. -/
def stop (e : Entry) : Nat := e.item.bytes.2

/-- The node and the nodes above it. -/
def lineage (e : Entry) : List Nat := e.node :: e.ancestors

/-- The entries of the items of one list. -/
def row (node base : Nat) (ancestors : List Nat) : Option Nat → List Item → List Entry
  | _, [] => []
  | before, item :: rest =>
    ⟨node, base, ancestors, before, item⟩ ::
      row (node + item.cells) (base + item.cells) ancestors (some item.bytes.2) rest

/-- The entries right below an entry. -/
def items (e : Entry) : List Entry :=
  match e.item with
  | .word _ => []
  | .list _ _ items => row (e.node + 1) e.base e.lineage none items

/-- The entry of a whole document. -/
def ofItem (item : Item) : Entry := ⟨0, 0, [], none, item⟩

/-- An entry is below another one, or it is the same. -/
inductive Holds : Entry → Entry → Prop
  | refl (e : Entry) : Holds e e
  | step {e c d : Entry} (mem : c ∈ e.items) (tail : Holds c d) : Holds e d

/-- The items of an entry with a list. -/
theorem items_list {e : Entry} {bytes : Nat × Nat} {bracketed : Bool} {items : List Item}
    (h : e.item = .list bytes bracketed items) :
    e.items = row (e.node + 1) e.base e.lineage none items := by
  rw [Entry.items, h]

theorem items_word {e : Entry} {w : Word} (h : e.item = .word w) : e.items = [] := by
  rw [Entry.items, h]

/-! ## Numbers -/

theorem address_lt (e : Entry) : e.address < e.base + e.item.cells := by
  have := e.item.cells_pos
  unfold address
  omega

theorem base_le_address (e : Entry) : e.base ≤ e.address := by
  have := e.item.cells_pos
  unfold address
  omega

/-- What is common to all entries of one list. -/
theorem mem_row {node base : Nat} {ancestors : List Nat} {before : Option Nat} {items : List Item}
    {c : Entry} (h : c ∈ row node base ancestors before items) :
    c.ancestors = ancestors ∧ node ≤ c.node ∧ c.node + c.item.cells ≤ node + Item.cellsOf items ∧
      base ≤ c.base ∧ c.base + c.item.cells ≤ base + Item.cellsOf items ∧ c.item ∈ items := by
  induction items generalizing node base before with
  | nil => cases h
  | cons item rest ih =>
    rw [row, List.mem_cons] at h
    rw [Item.cellsOf]
    rcases h with rfl | h
    · simp only [List.mem_cons, true_or, and_true, true_and]
      omega
    · obtain ⟨hancestors, hnode, hnode', hbase, hbase', hmem⟩ := ih h
      exact ⟨hancestors, by omega, by omega, by omega, by omega, List.mem_cons_of_mem _ hmem⟩

/-- The entries of one list are numbered one after the other. -/
theorem pairwise_row (node base : Nat) (ancestors : List Nat) (before : Option Nat)
    (items : List Item) :
    (row node base ancestors before items).Pairwise fun c d =>
      c.node + c.item.cells ≤ d.node ∧ c.base + c.item.cells ≤ d.base := by
  induction items generalizing node base before with
  | nil => exact .nil
  | cons item rest ih =>
    rw [row, List.pairwise_cons]
    refine ⟨fun d hd => ?_, ih _ _ _⟩
    have hrow := mem_row hd
    exact ⟨hrow.2.1, hrow.2.2.2.1⟩

theorem pairwise_items (e : Entry) :
    e.items.Pairwise fun c d => c.node + c.item.cells ≤ d.node ∧ c.base + c.item.cells ≤ d.base := by
  unfold Entry.items
  split
  · exact .nil
  · exact pairwise_row _ _ _ _ _

/-- What an item of an entry has to do with the entry. -/
theorem mem_items {e c : Entry} (h : c ∈ e.items) :
    c.ancestors = e.lineage ∧ e.node < c.node ∧ c.node + c.item.cells ≤ e.node + e.item.cells ∧
      e.base ≤ c.base ∧ c.base + c.item.cells < e.base + e.item.cells := by
  unfold Entry.items at h
  split at h
  · cases h
  next bytes bracketed items hitem =>
  obtain ⟨hancestors, hnode, hnode', hbase, hbase', _⟩ := mem_row h
  rw [hitem, Item.cells]
  exact ⟨hancestors, by omega, by omega, hbase, by omega⟩

theorem cells_lt_of_mem_items {e c : Entry} (h : c ∈ e.items) : c.item.cells < e.item.cells := by
  have := mem_items h
  omega

/-- Induction from the items of an entry to the entry. -/
theorem induction {P : Entry → Prop} (h : ∀ e : Entry, (∀ c ∈ e.items, P c) → P e) (e : Entry) :
    P e := by
  have hcells : ∀ n, ∀ e : Entry, e.item.cells < n → P e := by
    intro n
    induction n with
    | zero => exact fun e he => absurd he (Nat.not_lt_zero _)
    | succ n ih =>
      refine fun e he => h e fun c hc => ih c ?_
      have := cells_lt_of_mem_items hc
      omega
  exact hcells _ e (Nat.lt_succ_self _)

namespace Holds

theorem trans {e c d : Entry} (hec : e.Holds c) (hcd : c.Holds d) : e.Holds d := by
  induction hec with
  | refl => exact hcd
  | step mem _ ih => exact .step mem (ih hcd)

theorem item {e c d : Entry} (h : e.Holds c) (hd : d ∈ c.items) : e.Holds d :=
  h.trans (.step hd (.refl d))

/-- The numbers below an entry lie in its intervals. -/
theorem node_le {e d : Entry} (h : e.Holds d) :
    e.node ≤ d.node ∧ d.node + d.item.cells ≤ e.node + e.item.cells ∧ e.base ≤ d.base ∧
      d.base + d.item.cells ≤ e.base + e.item.cells := by
  induction h with
  | refl => simp
  | step mem _ ih =>
    have := mem_items mem
    omega

/-- The last step of a way down. -/
theorem cases_last {e d : Entry} (h : e.Holds d) : d = e ∨ ∃ c, e.Holds c ∧ d ∈ c.items := by
  induction h with
  | refl => exact Or.inl rfl
  | @step e c d mem tail ih =>
    rcases ih with rfl | ⟨b, hb, hd⟩
    · exact Or.inr ⟨e, .refl e, mem⟩
    · exact Or.inr ⟨b, .step mem hb, hd⟩

theorem lineage_suffix {e d : Entry} (h : e.Holds d) : e.lineage <:+ d.lineage := by
  induction h with
  | refl => exact List.suffix_refl _
  | @step e c d mem _ ih =>
    refine List.IsSuffix.trans ?_ ih
    show e.lineage <:+ c.node :: c.ancestors
    rw [(mem_items mem).1]
    exact List.suffix_cons _ _

/-- The node of an entry is above the nodes of all entries properly below. -/
theorem mem_ancestors {e c d : Entry} (hc : c ∈ e.items) (h : c.Holds d) : e.node ∈ d.ancestors := by
  have hancestors := (mem_items hc).1
  have hsuffix : c.node :: c.ancestors <:+ d.node :: d.ancestors := h.lineage_suffix
  rw [hancestors] at hsuffix
  rcases List.suffix_cons_iff.1 hsuffix with heq | hsuffix
  · rw [List.cons.injEq] at heq
    rw [← heq.2]
    exact List.mem_cons_self
  · exact hsuffix.subset (List.mem_cons_of_mem _ List.mem_cons_self)

/-- The lineage of an entry goes through the entries above it. -/
theorem exists_of_mem_lineage {e d : Entry} (h : e.Holds d) {x : Nat} (hx : x ∈ d.lineage) :
    x ∈ e.ancestors ∨ ∃ a, e.Holds a ∧ a.Holds d ∧ a.node = x := by
  induction h with
  | refl e =>
    rcases List.mem_cons.1 hx with rfl | hx
    · exact Or.inr ⟨e, .refl e, .refl e, rfl⟩
    · exact Or.inl hx
  | @step e c d mem tail ih =>
    rcases ih hx with hx | ⟨a, ha, had, rfl⟩
    · rw [(mem_items mem).1] at hx
      rcases List.mem_cons.1 hx with rfl | hx
      · exact Or.inr ⟨e, .refl e, .step mem tail, rfl⟩
      · exact Or.inl hx
    · exact Or.inr ⟨a, .step mem ha, had, rfl⟩

end Holds

/-- Two items of an entry are the same, or one of them is numbered behind
the other. -/
theorem siblings {e c d : Entry} (hc : c ∈ e.items) (hd : d ∈ e.items) :
    c = d ∨ (c.node + c.item.cells ≤ d.node ∧ c.base + c.item.cells ≤ d.base) ∨
      (d.node + d.item.cells ≤ c.node ∧ d.base + d.item.cells ≤ c.base) :=
  eq_or_related e.pairwise_items hc hd

namespace Holds

/-- Two entries below the same one that are not the same have neither their node nor
their cell in common. -/
theorem eq_or_ne {e c d : Entry} (hc : e.Holds c) (hd : e.Holds d) :
    c = d ∨ c.node ≠ d.node ∧ c.address ≠ d.address := by
  induction hc with
  | refl e =>
    cases hd with
    | refl => exact Or.inl rfl
    | step mem tail =>
      have := mem_items mem
      have := tail.node_le
      have := d.item.cells_pos
      unfold address
      omega
  | @step e a c mem tail ih =>
    have hmem := mem_items mem
    have htail := tail.node_le
    have hcells := c.item.cells_pos
    have hcells' := d.item.cells_pos
    cases hd with
    | refl =>
      unfold address
      omega
    | @step _ b _ mem' tail' =>
      have htail' := tail'.node_le
      rcases siblings mem mem' with rfl | hlt | hlt
      · exact ih tail'
      · unfold address
        omega
      · unfold address
        omega

/-- An entry is determined by its node. -/
theorem eq_of_node {e c d : Entry} (hc : e.Holds c) (hd : e.Holds d) (h : c.node = d.node) :
    c = d :=
  (hc.eq_or_ne hd).resolve_right fun hne => hne.1 h

/-- An entry is determined by its cell. -/
theorem eq_of_address {e c d : Entry} (hc : e.Holds c) (hd : e.Holds d)
    (h : c.address = d.address) : c = d :=
  (hc.eq_or_ne hd).resolve_right fun hne => hne.2 h

end Holds

/-- Every number in the interval of a list belongs to one of its items. -/
theorem exists_mem_row (node base : Nat) (ancestors : List Nat) (before : Option Nat)
    (items : List Item) {k : Nat} (hk : k < Item.cellsOf items) :
    ∃ c ∈ row node base ancestors before items, ∃ j < c.item.cells,
      node + k = c.node + j ∧ base + k = c.base + j := by
  induction items generalizing node base before k with
  | nil => exact absurd hk (Nat.not_lt_zero _)
  | cons item rest ih =>
    rw [Item.cellsOf] at hk
    rw [row]
    by_cases hitem : k < item.cells
    · exact ⟨_, List.mem_cons_self, k, hitem, rfl, rfl⟩
    · obtain ⟨c, hc, j, hj, hnode, hbase⟩ :=
        ih (node + item.cells) (base + item.cells) (some item.bytes.2)
          (show k - item.cells < Item.cellsOf rest by omega)
      exact ⟨c, List.mem_cons_of_mem _ hc, j, hj, by omega, by omega⟩

/-- Every number in the interval of an entry is the node of an entry. -/
theorem exists_holds_node (e : Entry) :
    ∀ {k : Nat}, k < e.item.cells → ∃ d, e.Holds d ∧ d.node = e.node + k := by
  induction e using Entry.induction with
  | h e ih =>
    intro k hk
    by_cases hzero : k = 0
    · exact ⟨e, .refl e, by omega⟩
    cases hitem : e.item with
    | word w =>
      rw [hitem, Item.cells] at hk
      omega
    | list bytes bracketed items =>
      rw [hitem, Item.cells] at hk
      obtain ⟨c, hc, j, hj, hnode, _⟩ := exists_mem_row (e.node + 1) e.base e.lineage none items
        (show k - 1 < Item.cellsOf items by omega)
      rw [← items_list hitem] at hc
      obtain ⟨d, hd, hdnode⟩ := ih c hc hj
      exact ⟨d, .step hc hd, by omega⟩

/-- Every number in the interval of an entry is the cell of an entry. -/
theorem exists_holds_address (e : Entry) :
    ∀ {k : Nat}, k < e.item.cells → ∃ d, e.Holds d ∧ d.address = e.base + k := by
  induction e using Entry.induction with
  | h e ih =>
    intro k hk
    by_cases hlast : k + 1 = e.item.cells
    · refine ⟨e, .refl e, ?_⟩
      unfold address
      omega
    cases hitem : e.item with
    | word w =>
      rw [hitem, Item.cells] at hk hlast
      omega
    | list bytes bracketed items =>
      rw [hitem, Item.cells] at hk hlast
      obtain ⟨c, hc, j, hj, _, hbase⟩ := exists_mem_row (e.node + 1) e.base e.lineage none items
        (show k < Item.cellsOf items by omega)
      rw [← items_list hitem] at hc
      obtain ⟨d, hd, hdaddress⟩ := ih c hc hj
      exact ⟨d, .step hc hd, by omega⟩

/-! ## The cells of a document -/

/-- The cell of an entry in the model of its document. -/
def cell (e : Entry) : Cell :=
  match e.item with
  | .word w => .word w.name w.loudness (some w)
  | .list bytes bracketed items =>
    .list bracketed (e.items.map address) (some (.list bytes bracketed items))

/-- What adding the cells of an entry does to a model. -/
structure Entered (e : Entry) (m m' : Model) : Prop where
  size : m'.cells.size = e.base + e.item.cells
  old : ∀ {a : Nat}, a < e.base → m'.cells[a]? = m.cells[a]?
  cell : ∀ {d : Entry}, e.Holds d → m'.cells[d.address]? = some d.cell

/-- The cells of the items of a list are added one after the other. -/
theorem enterAll_spec {node base : Nat} {ancestors : List Nat} {before : Option Nat}
    {items : List Item} {m : Model} (hm : m.cells.size = base)
    (h : ∀ c ∈ row node base ancestors before items, ∀ m : Model, m.cells.size = c.base →
      (m.enter c.item).1 = c.address ∧ Entered c m (m.enter c.item).2) :
    (m.enterAll items).1 = (row node base ancestors before items).map address ∧
      (m.enterAll items).2.cells.size = base + Item.cellsOf items ∧
      (∀ {a : Nat}, a < base → (m.enterAll items).2.cells[a]? = m.cells[a]?) ∧
      ∀ c ∈ row node base ancestors before items, ∀ {d : Entry}, c.Holds d →
        (m.enterAll items).2.cells[d.address]? = some d.cell := by
  induction items generalizing node base before m with
  | nil =>
    rw [Model.enterAll]
    exact ⟨rfl, hm, fun _ => rfl, fun c hc => by cases hc⟩
  | cons item rest ih =>
    rw [row] at h ⊢
    obtain ⟨hfirst, hentered⟩ := h _ List.mem_cons_self m hm
    rw [Model.enterAll]
    generalize m.enter item = entered at hfirst hentered
    obtain ⟨address, m'⟩ := entered
    have hsize' : m'.cells.size = base + item.cells := hentered.size
    obtain ⟨haddresses, hsize, hold, hcell⟩ := ih hsize' fun c hc => h c (List.mem_cons_of_mem _ hc)
    dsimp only at hfirst hsize' ⊢
    refine ⟨?_, ?_, fun ha => ?_, fun c hc d hd => ?_⟩
    · rw [List.map_cons, hfirst, haddresses]
    · rw [hsize, Item.cellsOf]
      omega
    · rw [hold (Nat.lt_of_lt_of_le ha (Nat.le_add_right _ _))]
      exact hentered.old ha
    · rcases List.mem_cons.1 hc with rfl | hc
      · have hle : d.base + d.item.cells ≤ base + item.cells := hd.node_le.2.2.2
        have hlt := d.address_lt
        rw [hold (Nat.lt_of_lt_of_le hlt hle)]
        exact hentered.cell hd
      · exact hcell c hc hd

/-- Adding the cells of an item. -/
theorem enter_spec (e : Entry) : ∀ m : Model, m.cells.size = e.base →
    (m.enter e.item).1 = e.address ∧ Entered e m (m.enter e.item).2 := by
  induction e using Entry.induction with
  | h e ih =>
    intro m hm
    have hlast : ∀ (m' : Model) {a : Nat}, a < m'.cells.size → ∀ cell : Cell,
        (m'.alloc cell).2.cells[a]? = m'.cells[a]? := by
      intro m' a ha cell
      exact Array.getElem?_push_lt ha ▸ (Array.getElem?_eq_getElem ha).symm
    cases hitem : e.item with
    | word w =>
      rw [Model.enter]
      have haddress : e.address = m.cells.size := by
        unfold address
        rw [hitem, Item.cells, hm]
        omega
      refine ⟨haddress.symm, ?_, fun ha => hlast m (hm ▸ ha) _, fun {d} hd => ?_⟩
      · simp [Model.alloc, hm, hitem, Item.cells]
      · cases hd with
        | refl =>
          rw [haddress, Entry.cell, hitem]
          exact Array.getElem?_push_size
        | step mem =>
          rw [items_word hitem] at mem
          cases mem
    | list bytes bracketed items =>
      rw [Model.enter]
      rw [items_list hitem] at ih
      obtain ⟨haddresses, hsize, hold, hcell⟩ := enterAll_spec hm ih
      generalize m.enterAll items = entered at haddresses hsize hold hcell
      obtain ⟨addresses, m'⟩ := entered
      dsimp only at haddresses hsize hold hcell ⊢
      have haddress : e.address = m'.cells.size := by
        unfold address
        rw [hitem, Item.cells, hsize]
        omega
      refine ⟨haddress.symm, ?_, fun ha => ?_, fun {d} hd => ?_⟩
      · simp only [Model.alloc, Array.size_push, hsize, hitem, Item.cells]
        omega
      · rw [hlast m' (by omega)]
        exact hold ha
      · cases hd with
        | refl =>
          rw [haddress, Entry.cell, hitem, items_list hitem, ← haddresses]
          exact Array.getElem?_push_size
        | @step _ c _ mem tail =>
          rw [items_list hitem] at mem
          have hle := tail.node_le
          have hrow := mem_row mem
          have := d.address_lt
          rw [hlast m' (by omega)]
          exact hcell c mem tail

end Entry

/-- The cells of a document. -/
theorem Model.cells_ofItem (item : Item) :
    (Model.ofItem item).root = (Entry.ofItem item).address ∧
      (Model.ofItem item).cells.size = item.cells ∧
      ∀ {d : Entry}, (Entry.ofItem item).Holds d →
        (Model.ofItem item).cells[d.address]? = some d.cell := by
  obtain ⟨hroot, hentered⟩ := (Entry.ofItem item).enter_spec {} rfl
  refine ⟨hroot, ?_, hentered.cell⟩
  exact hentered.size.trans (Nat.zero_add _)

end Reprint.WordList
