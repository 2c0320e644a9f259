import Reprint.Proofs.WordList.Planted

/-!
# Edited models

`Model.Edited` relates the model that was read from a document to what
edits make of it: a cell that was read stays a word or a list and keeps
what was read, and a cell that is new was not read.  All edits lead from
one edited model to another (`Edited.edit`, `Edited.add`).

* `Model.Acyclic` says that no cell contains itself.  Then no chain of
  cells is longer than there are cells (`Acyclic.unfolds`).
* `Model.InPlace` are the cells that are still reached the way they were
  read, and `Model.Confined` says that whatever is in such a cell now and
  was read at all was read from within its text.
* `Entry.Kept` is the same for entries.
-/

namespace Reprint.WordList

/-! ## Edits -/

namespace Cell

/-- A cell stays a word or a list and keeps what was read. -/
def Keeps : Cell → Cell → Prop
  | .word _ _ read, .word _ _ read' => read' = read
  | .list _ _ read, .list _ _ read' => read' = read
  | _, _ => False

/-- The bytes that a cell was read from. -/
def bytes? : Cell → Option (Nat × Nat)
  | .word _ _ read => read.map Word.bytes
  | .list _ _ read => read.map Item.bytes

/-- The cells that a cell refers to. -/
def items : Cell → List Nat
  | .word .. => []
  | .list _ items _ => items

theorem Keeps.refl (c : Cell) : c.Keeps c := by
  cases c <;> rfl

theorem Keeps.trans {a b c : Cell} (hab : a.Keeps b) (hbc : b.Keeps c) : a.Keeps c := by
  cases a <;> cases b <;> cases c <;>
    first
      | exact hab.elim
      | exact hbc.elim
      | exact Eq.trans hbc hab

theorem Keeps.bytes? {a b : Cell} (h : a.Keeps b) : b.bytes? = a.bytes? := by
  cases a <;> cases b <;>
    first
      | exact h.elim
      | (have hread : _ = _ := h
         simp only [Cell.bytes?, hread])

end Cell

namespace Model

/-- The bytes that a cell was read from. -/
def bytes? (m : Model) (a : Nat) : Option (Nat × Nat) := (m.cells[a]?).bind Cell.bytes?

theorem items_eq {m : Model} {a : Nat} {c : Cell} (h : m.cells[a]? = some c) :
    m.items a = c.items := by
  cases c with
  | word => exact items_word h
  | list => exact items_list h

theorem exists_of_mem_items {m : Model} {a b : Nat} (h : b ∈ m.items a) :
    ∃ c, m.cells[a]? = some c ∧ b ∈ c.items := by
  cases hcell : m.cells[a]? with
  | none =>
    rw [Model.items, hcell] at h
    cases h
  | some c => exact ⟨c, rfl, items_eq hcell ▸ h⟩

/-- What edits make of a model. -/
structure Edited (m₀ m : Model) : Prop where
  root : m.root = m₀.root
  old : ∀ {a : Nat} {c : Cell}, m₀.cells[a]? = some c → ∃ c', m.cells[a]? = some c' ∧ c.Keeps c'
  new : ∀ {a : Nat} {c : Cell}, m₀.cells.size ≤ a → m.cells[a]? = some c → c.bytes? = none
  items : ∀ {a b : Nat}, b ∈ m.items a → b < m.cells.size

namespace Edited

variable {m₀ m : Model}

/-- A change of one cell that keeps what was read. -/
theorem edit (h : m₀.Edited m) (a : Nat) {change : Cell → Cell}
    (hkeeps : ∀ c : Cell, c.Keeps (change c))
    (hitems : ∀ c, m.cells[a]? = some c → ∀ b ∈ (change c).items, b < m.cells.size) :
    m₀.Edited (m.edit a change) := by
  have hcells : ∀ x, (m.edit a change).cells[x]? =
      if a = x then (m.cells[x]?).map change else m.cells[x]? :=
    fun x => Array.getElem?_modify
  have hsize : (m.edit a change).cells.size = m.cells.size := Array.size_modify
  refine ⟨h.root, fun {x c} hc => ?_, fun {x c} hx hc => ?_, fun {x b} hb => ?_⟩
  · obtain ⟨c', hc', hold⟩ := h.old hc
    rw [hcells, hc']
    split
    · exact ⟨_, rfl, hold.trans (hkeeps c')⟩
    · exact ⟨c', rfl, hold⟩
  · rw [hcells] at hc
    split at hc
    · obtain ⟨c', hc', rfl⟩ := Option.map_eq_some_iff.1 hc
      rw [(hkeeps c').bytes?]
      exact h.new hx hc'
    · exact h.new hx hc
  · rw [hsize]
    obtain ⟨c, hc, hmem⟩ := exists_of_mem_items hb
    rw [hcells] at hc
    split at hc
    · next hax =>
      subst hax
      obtain ⟨c', hc', rfl⟩ := Option.map_eq_some_iff.1 hc
      exact hitems c' hc' b hmem
    · exact h.items (items_eq hc ▸ hmem)

theorem rename (h : m₀.Edited m) (a : Nat) (name : Text) : m₀.Edited (m.rename a name) :=
  h.edit a (fun c => by cases c <;> rfl) fun c hc b hb =>
    h.items (a := a) (by rw [items_eq hc]; cases c <;> exact hb)

theorem setBracketed (h : m₀.Edited m) (a : Nat) (bracketed : Bool) :
    m₀.Edited (m.setBracketed a bracketed) :=
  h.edit a (fun c => by cases c <;> rfl) fun c hc b hb =>
    h.items (a := a) (by rw [items_eq hc]; cases c <;> exact hb)

theorem setLoudness (h : m₀.Edited m) (a : Nat) (loudness : Option Bool) :
    m₀.Edited (m.setLoudness a loudness) :=
  h.edit a (fun c => by cases c <;> rfl) fun c hc b hb =>
    h.items (a := a) (by rw [items_eq hc]; cases c <;> exact hb)

/-- Any change of the items of a list, as long as they are cells. -/
theorem editItems (h : m₀.Edited m) (a : Nat) {change : List Nat → List Nat}
    (hitems : ∀ b ∈ change (m.items a), b < m.cells.size) : m₀.Edited (m.editItems a change) :=
  h.edit a (fun c => by cases c <;> rfl) fun c hc b hb => by
    rw [items_eq hc] at hitems
    cases c with
    | word => cases hb
    | list bracketed items read => exact hitems b hb

/-- A new cell that was not read. -/
theorem alloc (h : m₀.Edited m) {cell : Cell} (hread : cell.bytes? = none)
    (hitems : ∀ b ∈ cell.items, b < m.cells.size) :
    m₀.Edited (m.alloc cell).2 ∧ (m.alloc cell).1 < (m.alloc cell).2.cells.size ∧
      m.cells.size ≤ (m.alloc cell).2.cells.size := by
  have hsize : (m.alloc cell).2.cells.size = m.cells.size + 1 := Array.size_push _
  have hcells : ∀ {x : Nat} {c : Cell}, (m.alloc cell).2.cells[x]? = some c →
      m.cells[x]? = some c ∨ x = m.cells.size ∧ c = cell := by
    intro x c hc
    have hpush : (m.cells.push cell)[x]? = some c := hc
    rw [Array.getElem?_push] at hpush
    split at hpush
    · next hx => exact Or.inr ⟨hx, (Option.some.inj hpush).symm⟩
    · exact Or.inl hpush
  refine ⟨⟨h.root, fun {x c} hc => ?_, fun {x c} hx hc => ?_, fun {x b} hb => ?_⟩, ?_, by omega⟩
  · obtain ⟨c', hc', hkeeps⟩ := h.old hc
    have hlt := (Array.getElem?_eq_some_iff.1 hc').1
    refine ⟨c', ?_, hkeeps⟩
    show (m.cells.push cell)[x]? = some c'
    rw [Array.getElem?_push, if_neg (by omega), hc']
  · rcases hcells hc with hc | ⟨_, rfl⟩
    · exact h.new hx hc
    · exact hread
  · obtain ⟨c, hc, hmem⟩ := exists_of_mem_items hb
    rcases hcells hc with hc | ⟨_, rfl⟩
    · have := h.items (items_eq hc ▸ hmem)
      omega
    · have := hitems b hmem
      omega
  · show m.cells.size < _
    omega

end Edited

mutual

/-- The cells that a draft refers to are there. -/
def Draft.Fits (size : Nat) : Draft → Prop
  | .word .. => True
  | .list items => Draft.FitAll size items
  | .cell address => address < size
termination_by structural draft => draft

/-- The cells that several drafts refer to are there. -/
def Draft.FitAll (size : Nat) : List Draft → Prop
  | [] => True
  | draft :: rest => Draft.Fits size draft ∧ Draft.FitAll size rest
termination_by structural drafts => drafts

end

mutual

/-- Adding a draft is an edit. -/
theorem Edited.add {m₀ : Model} {size : Nat} : ∀ (draft : Draft) {m : Model}, m₀.Edited m →
    size ≤ m.cells.size → draft.Fits size →
    m₀.Edited (m.add draft).2 ∧ (m.add draft).1 < (m.add draft).2.cells.size ∧
      m.cells.size ≤ (m.add draft).2.cells.size
  | .word name loudness, m, h, _, _ => h.alloc rfl fun b hb => by cases hb
  | .list items, m, h, hsize, hfits => by
    rw [Draft.Fits] at hfits
    obtain ⟨hedited, hlt, hle⟩ := Edited.addAll items h hsize hfits
    obtain ⟨halloc, haddress, hle'⟩ :=
      hedited.alloc (show (Cell.list true (m.addAll items).1 none).bytes? = none from rfl) hlt
    exact ⟨halloc, haddress, Nat.le_trans hle hle'⟩
  | .cell address, m, h, hsize, hfits => by
    rw [Draft.Fits] at hfits
    exact ⟨h, Nat.lt_of_lt_of_le hfits hsize, Nat.le_refl _⟩
termination_by structural draft => draft

theorem Edited.addAll {m₀ : Model} {size : Nat} : ∀ (drafts : List Draft) {m : Model},
    m₀.Edited m → size ≤ m.cells.size → Draft.FitAll size drafts →
    m₀.Edited (m.addAll drafts).2 ∧
      (∀ b ∈ (m.addAll drafts).1, b < (m.addAll drafts).2.cells.size) ∧
      m.cells.size ≤ (m.addAll drafts).2.cells.size
  | [], m, h, _, _ => ⟨h, fun b hb => absurd hb List.not_mem_nil, Nat.le_refl _⟩
  | draft :: rest, m, h, hsize, hfits => by
    rw [Draft.FitAll] at hfits
    obtain ⟨hedited, hlt, hle⟩ := Edited.add draft h hsize hfits.1
    obtain ⟨hedited', hlt', hle'⟩ :=
      Edited.addAll rest hedited (Nat.le_trans hsize hle) hfits.2
    refine ⟨hedited', fun b hb => ?_, Nat.le_trans hle hle'⟩
    rcases List.mem_cons.1 hb with rfl | hb
    · exact Nat.lt_of_lt_of_le hlt hle'
    · exact hlt' b hb
termination_by structural drafts => drafts

end

/-! ## What is in a cell -/

/-- A cell is in another one, or it is the same. -/
inductive Reaches (m : Model) : Nat → Nat → Prop
  | refl (a : Nat) : Reaches m a a
  | step {a b c : Nat} (mem : b ∈ m.items a) (tail : Reaches m b c) : Reaches m a c

namespace Reaches

variable {m : Model} {a b c : Nat}

theorem trans (hab : m.Reaches a b) (hbc : m.Reaches b c) : m.Reaches a c := by
  induction hab with
  | refl => exact hbc
  | step mem _ ih => exact .step mem (ih hbc)

theorem item (h : m.Reaches a b) (hc : c ∈ m.items b) : m.Reaches a c :=
  h.trans (.step hc (.refl c))

end Reaches

/-- No cell that can be reached contains itself. -/
def Acyclic (m : Model) : Prop :=
  ∀ a b, m.Reaches m.root a → b ∈ m.items a → ¬ m.Reaches b a

/-- If every list has a higher rank than its items, no cell contains
itself. -/
theorem Acyclic.of_rank {m : Model} (rank : Nat → Nat)
    (h : ∀ a, ∀ b ∈ m.items a, rank b < rank a) : m.Acyclic := by
  have hle : ∀ {a b : Nat}, m.Reaches a b → rank b ≤ rank a := by
    intro a b hreaches
    induction hreaches with
    | refl => exact Nat.le_refl _
    | step mem _ ih => exact Nat.le_trans ih (Nat.le_of_lt (h _ _ mem))
  intro a b _ hb hreaches
  exact absurd (h a b hb) (Nat.not_lt.2 (hle hreaches))

/-- If lists come after their items, no cell contains itself. -/
theorem Acyclic.of_lt {m : Model} (h : ∀ a, ∀ b ∈ m.items a, b < a) : m.Acyclic :=
  .of_rank id h

/-- The cells on the way to a cell are all different, so together with the
way that is left there are no more than the model has. -/
theorem unfolds_of_path {m : Model} (hitems : ∀ {a b : Nat}, b ∈ m.items a → b < m.cells.size)
    (hacyclic : m.Acyclic) : ∀ (depth : Nat) (path : List Nat) (a : Nat), path.Nodup →
      (∀ p ∈ path, p < m.cells.size ∧ ∃ b ∈ m.items p, m.Reaches b a) → a < m.cells.size →
      (∀ p ∈ path, m.Reaches m.root p) → m.Reaches m.root a → m.cells.size ≤ path.length + depth →
      m.Unfolds depth a
  | depth, path, a, hnodup, hpath, ha, hroots, hroot, hdepth => by
    have hnew : a ∉ path := by
      intro hmem
      obtain ⟨_, b, hb, hreaches⟩ := hpath a hmem
      exact hacyclic a b hroot hb hreaches
    have hcons : (a :: path).Nodup := List.nodup_cons.2 ⟨hnew, hnodup⟩
    cases depth with
    | zero =>
      have hlength : (a :: path).length ≤ (List.range m.cells.size).length := by
        refine hcons.length_le_of_subset fun p hp => ?_
        rw [List.mem_range]
        rcases List.mem_cons.1 hp with rfl | hp
        · exact ha
        · exact (hpath p hp).1
      rw [List.length_cons, List.length_range] at hlength
      omega
    | succ depth =>
      refine ⟨ha, fun b hb => ?_⟩
      refine unfolds_of_path hitems hacyclic depth (a :: path) b hcons (fun p hp => ?_) (hitems hb)
        (fun p hp => ?_) (hroot.item hb) (by rw [List.length_cons]; omega)
      · rcases List.mem_cons.1 hp with rfl | hp
        · exact ⟨ha, b, hb, .refl b⟩
        · obtain ⟨hlt, c, hc, hreaches⟩ := hpath p hp
          exact ⟨hlt, c, hc, hreaches.item hb⟩
      · rcases List.mem_cons.1 hp with rfl | hp
        · exact hroot
        · exact hroots p hp

/-- No chain of cells is longer than there are cells. -/
theorem Acyclic.unfolds {m : Model} (h : m.Acyclic)
    (hitems : ∀ {a b : Nat}, b ∈ m.items a → b < m.cells.size) (hroot : m.root < m.cells.size) :
    m.Unfolds m.cells.size m.root :=
  unfolds_of_path hitems h m.cells.size [] m.root .nil (fun p hp => by cases hp) hroot
    (fun p hp => by cases hp) (.refl _) (by simp)

theorem Unfolds.item {m : Model} {depth a b : Nat} (h : m.Unfolds depth a) (hb : b ∈ m.items a) :
    m.Unfolds depth b := by
  cases depth with
  | zero => exact h.elim
  | succ depth => exact (h.2 b hb).mono (Nat.le_succ depth)

theorem Unfolds.reaches {m : Model} {depth a b : Nat} (h : m.Unfolds depth a)
    (hab : m.Reaches a b) : m.Unfolds depth b := by
  induction hab with
  | refl => exact h
  | step hmem _ ih => exact ih (h.item hmem)

/-- The cells that are reached the way they were read. -/
inductive InPlace (m₀ m : Model) : Nat → Prop
  | root : InPlace m₀ m m.root
  | item {a b : Nat} (list : InPlace m₀ m a) (mem : b ∈ m.items a) (read : b ∈ m₀.items a) :
      InPlace m₀ m b

/-- What is in a cell that is in its place, and was read at all, was read
from within the text of that cell. -/
def Confined (m₀ m : Model) : Prop :=
  ∀ a, InPlace m₀ m a → ∀ b, m.Reaches a b → ∀ outer inner, m.bytes? a = some outer →
    m.bytes? b = some inner → outer.1 ≤ inner.1 ∧ inner.2 ≤ outer.2

end Model

/-! ## Entries of an edited model -/

/-- A cell for each entry of a document, as edits leave it. -/
structure Redone (r : Entry) (m : Model) : Prop where
  root : m.root = r.address
  cell : ∀ {d : Entry}, r.Holds d → ∃ c, m.cells[d.address]? = some c ∧ d.cell.Keeps c
  known : ∀ {a : Nat} {c : Cell} {bytes : Nat × Nat}, m.cells[a]? = some c →
    c.bytes? = some bytes → ∃ d, r.Holds d ∧ d.address = a
  items : ∀ {a b : Nat}, b ∈ m.items a → b < m.cells.size

theorem Model.Edited.redone {item : Item} {m : Model} (h : (Model.ofItem item).Edited m) :
    Redone (.ofItem item) m where
  root := h.root.trans (Model.cells_ofItem item).1
  cell hd := h.old ((Model.cells_ofItem item).2.2 hd)
  known {a c bytes} hc hbytes := by
    by_cases ha : a < item.cells
    · obtain ⟨d, hd, haddress⟩ := (Entry.ofItem item).exists_holds_address ha
      exact ⟨d, hd, by rw [haddress]; exact Nat.zero_add a⟩
    · rw [h.new (by rw [(Model.cells_ofItem item).2.1]; omega) hc] at hbytes
      cases hbytes
  items := h.items

namespace Entry

/-- An entry is still reached the way it was read. -/
inductive Kept (m : Model) (r : Entry) : Entry → Prop
  | refl : Kept m r r
  | item {e c : Entry} (list : Kept m r e) (mem : c ∈ e.items)
      (listed : c.address ∈ m.items e.address) : Kept m r c

/-- What is in a cell now and was read at all was read from within the
text of an entry. -/
def Surrounds (m : Model) (e : Entry) (a : Nat) : Prop :=
  ∀ b, m.Reaches a b → ∀ bytes, m.bytes? b = some bytes → e.start ≤ bytes.1 ∧ bytes.2 ≤ e.stop

theorem Surrounds.item {m : Model} {e : Entry} {a b : Nat} (h : e.Surrounds m a)
    (hb : b ∈ m.items a) : e.Surrounds m b :=
  fun c hc => h c (.step hb hc)

namespace Kept

variable {m : Model} {r e : Entry}

theorem holds (h : Kept m r e) : r.Holds e := by
  induction h with
  | refl => exact .refl r
  | item _ mem _ ih => exact ih.item mem

/-- The nodes above an entry that is reached as it was read belong to
entries for which that is true, too. -/
theorem exists_of_mem_lineage (h : Kept m r e) (htop : r.ancestors = []) {x : Nat}
    (hx : x ∈ e.lineage) : ∃ a, Kept m r a ∧ a.node = x ∧ m.Reaches a.address e.address := by
  induction h with
  | refl =>
    rw [lineage, htop, List.mem_singleton] at hx
    exact ⟨r, .refl, hx.symm, .refl _⟩
  | @item e c list mem listed ih =>
    rw [lineage, (mem_items mem).1] at hx
    rcases List.mem_cons.1 hx with rfl | hx
    · exact ⟨c, .item list mem listed, rfl, .refl _⟩
    · obtain ⟨a, ha, hnode, hreaches⟩ := ih hx
      exact ⟨a, ha, hnode, hreaches.item listed⟩

theorem reaches (h : Kept m r e) : m.Reaches r.address e.address := by
  induction h with
  | refl => exact .refl _
  | item _ _ listed ih => exact ih.item listed

end Kept

/-- All entries that are reached as they were read surround what is in
their cells. -/
def Confines (m : Model) (r : Entry) : Prop :=
  ∀ e, Kept m r e → e.Surrounds m e.address

theorem bytes?_cell (e : Entry) : e.cell.bytes? = some (e.start, e.stop) := by
  unfold Entry.cell Entry.start Entry.stop
  split
  · next hitem => rw [hitem]; rfl
  · next hitem => rw [hitem]; rfl

end Entry

/-- The cell of a word stays the cell of a word. -/
theorem Redone.word {r d : Entry} {m : Model} {w : Word} (h : Redone r m) (hd : r.Holds d)
    (hitem : d.item = .word w) :
    ∃ name loudness, m.cells[d.address]? = some (.word name loudness (some w)) := by
  obtain ⟨c, hc, hkeeps⟩ := h.cell hd
  rw [Entry.cell, hitem] at hkeeps
  cases c with
  | word name loudness read =>
    have hread : read = some w := hkeeps
    exact ⟨name, loudness, hread ▸ hc⟩
  | list => exact hkeeps.elim

/-- The cell of a list stays the cell of a list. -/
theorem Redone.list {r d : Entry} {m : Model} {bytes : Nat × Nat} {bracketed : Bool}
    {items : List Item} (h : Redone r m) (hd : r.Holds d)
    (hitem : d.item = .list bytes bracketed items) :
    ∃ now current, m.cells[d.address]? =
      some (.list now current (some (.list bytes bracketed items))) := by
  obtain ⟨c, hc, hkeeps⟩ := h.cell hd
  rw [Entry.cell, hitem] at hkeeps
  cases c with
  | word => exact hkeeps.elim
  | list now current read =>
    have hread : read = some (.list bytes bracketed items) := hkeeps
    exact ⟨now, current, hread ▸ hc⟩

theorem Redone.bytes? {r e : Entry} {m : Model} (h : Redone r m) (he : r.Holds e) :
    m.bytes? e.address = some (e.start, e.stop) := by
  obtain ⟨c, hc, hkeeps⟩ := h.cell he
  rw [Model.bytes?, hc, Option.bind_some, hkeeps.bytes?, e.bytes?_cell]

theorem Entry.Kept.inPlace {item : Item} {m : Model} {e : Entry}
    (hroot : m.root = (Model.ofItem item).root) (h : Entry.Kept m (.ofItem item) e) :
    Model.InPlace (.ofItem item) m e.address := by
  induction h with
  | refl =>
    rw [← (Model.cells_ofItem item).1, ← hroot]
    exact .root
  | @item e c list mem listed ih =>
    have hitems : (Model.ofItem item).items e.address = e.itemCells :=
      Holding.items ⟨fun hd => (Model.cells_ofItem item).2.2 (list.holds.trans hd)⟩
    refine .item ih listed ?_
    rw [hitems]
    exact List.mem_map.2 ⟨c, mem, rfl⟩

theorem Model.Confined.confines {item : Item} {m : Model} (h : Model.Confined (.ofItem item) m)
    (hm : (Model.ofItem item).Edited m) : Entry.Confines m (.ofItem item) :=
  fun _ he b hb bytes hbytes =>
    h _ (he.inPlace hm.root) b hb _ bytes (hm.redone.bytes? he.holds) hbytes

/-- The model as it was read. -/
theorem Model.Edited.refl (item : Item) : (Model.ofItem item).Edited (.ofItem item) where
  root := rfl
  old hc := ⟨_, hc, .refl _⟩
  new ha hc := by
    have := (Array.getElem?_eq_some_iff.1 hc).1
    omega
  items {a b} hb := by
    obtain ⟨hroot, hsize, hcell⟩ := Model.cells_ofItem item
    obtain ⟨c, hc, hmem⟩ := Model.exists_of_mem_items hb
    have ha := (Array.getElem?_eq_some_iff.1 hc).1
    rw [hsize] at ha
    obtain ⟨d, hd, haddress⟩ := (Entry.ofItem item).exists_holds_address ha
    have hlist : (Model.ofItem item).items d.address = d.itemCells :=
      Holding.items ⟨fun hc => hcell (hd.trans hc)⟩
    rw [haddress, show (Entry.ofItem item).base + a = a from Nat.zero_add a] at hlist
    rw [hlist] at hb
    obtain ⟨c, hc, rfl⟩ := List.mem_map.1 hb
    exact (Array.getElem?_eq_some_iff.1 (hcell (hd.item hc))).1

end Reprint.WordList
