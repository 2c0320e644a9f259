import Reprint.Proofs.WordList.Entry

/-!
# Where the entries of a document stand

`Chain` says of the entries of one list that they stand one behind the
other between two offsets of the text, with what the reader accepts in
the gaps.  `Entry.IsLaid` says of an entry that it was read from the text,
as an item or as the whole document; then all entries below it were
(`IsLaid.holds`), and its items are a chain from `Entry.inner` to
`Entry.outer`, the offsets within its brackets.

`Entry.apart` compares two entries of a document: one of them holds the
other, or they have no character in common.
-/

namespace Reprint.WordList

/-- The entries of a list stand one behind the other between two offsets.
The flag says that they are the first of their list. -/
def Chain (t : Text) : Bool → List Entry → Nat → Nat → Prop
  | first, [], a, b => Behind t first a b
  | first, c :: rest, a, b =>
    Ahead t first a c.start ∧ c.item.Fits t ∧ c.before = (if first then none else some a) ∧
      Chain t false rest c.stop b

/-- The end of the last of several entries, or the given offset where there
is none. -/
def Entry.rowStop : Nat → List Entry → Nat
  | a, [] => a
  | _, c :: rest => Entry.rowStop c.stop rest

namespace Chain

variable {t : Text} {first : Bool} {entries : List Entry} {a b : Nat}

/-- The items of a chain stand between its offsets. -/
theorem fitAll (h : Chain t first entries a b) :
    Item.FitAll t first (entries.map Entry.item) a b := by
  induction entries generalizing first a with
  | nil => exact h
  | cons c rest ih =>
    rw [Chain] at h
    rw [List.map_cons, Item.FitAll]
    exact ⟨h.1, h.2.1, ih h.2.2.2⟩

theorem le (h : Chain t first entries a b) : a ≤ b ∧ b ≤ t.length := h.fitAll.le

/-- An entry of a chain. -/
theorem mem (h : Chain t first entries a b) {c : Entry} (hc : c ∈ entries) :
    c.item.Fits t ∧ a ≤ c.start ∧ c.start < c.stop ∧ c.stop ≤ b :=
  h.fitAll.mem c.item (List.mem_map_of_mem hc)

/-- The entries of a chain follow each other. -/
theorem pairwise (h : Chain t first entries a b) : entries.Pairwise fun c d => c.stop ≤ d.start :=
  List.pairwise_map.1 h.fitAll.pairwise

/-- What stands behind the last entry. -/
theorem behind (h : Chain t first entries a b) :
    Behind t (first && entries.isEmpty) (Entry.rowStop a entries) b := by
  induction entries generalizing first a with
  | nil =>
    rw [List.isEmpty_nil, Bool.and_true]
    exact h
  | cons c rest ih =>
    rw [Chain] at h
    rw [List.isEmpty_cons, Bool.and_false]
    exact ih h.2.2.2

theorem rowStop (h : Chain t first entries a b) :
    a ≤ Entry.rowStop a entries ∧ Entry.rowStop a entries ≤ b := by
  refine ⟨?_, h.behind.le.1⟩
  induction entries generalizing first a with
  | nil => exact Nat.le_refl a
  | cons c rest ih =>
    rw [Chain] at h
    have hahead := h.1.le
    have hlt : c.start < c.stop ∧ c.stop ≤ t.length := h.2.1.lt
    have hrest := ih h.2.2.2
    rw [Entry.rowStop]
    omega

theorem stop_le_rowStop (h : Chain t first entries a b) {c : Entry} (hc : c ∈ entries) :
    c.stop ≤ Entry.rowStop a entries := by
  induction entries generalizing first a with
  | nil => cases hc
  | cons d rest ih =>
    rw [Chain] at h
    rw [Entry.rowStop]
    rcases List.mem_cons.1 hc with rfl | hc
    · exact h.2.2.2.rowStop.1
    · exact ih h.2.2.2 hc

/-- The items of a list that fits the text. -/
theorem of_fitAll {node base : Nat} {ancestors : List Nat} {items : List Item}
    (h : Item.FitAll t first items a b) :
    Chain t first (Entry.row node base ancestors (if first then none else some a) items) a b := by
  induction items generalizing first a node base with
  | nil => exact h
  | cons item rest ih =>
    rw [Item.FitAll] at h
    rw [Entry.row, Chain]
    exact ⟨h.1, h.2.1, rfl, ih h.2.2⟩

end Chain

/-- An item that is the whole document. -/
def Item.IsDocument (t : Text) (item : Item) : Prop :=
  ∃ items, item = .list (bytesOfItems t.length items) false items ∧ Item.FitAll t true items 0 t.length

namespace Entry

/-- Whether an entry is a list with brackets. -/
def isBracketed (e : Entry) : Bool :=
  match e.item with
  | .word _ => false
  | .list _ bracketed _ => bracketed

/-- The offset behind the opening bracket. -/
def inner (e : Entry) : Nat := if e.isBracketed then e.start + 1 else e.start

/-- The offset of the closing bracket. -/
def outer (e : Entry) : Nat := if e.isBracketed then e.stop - 1 else e.stop

/-- An entry was read from the text. -/
def IsLaid (t : Text) (e : Entry) : Prop := e.item.Fits t ∨ e.item.IsDocument t

/-- A list was read from the text. -/
structure IsList (t : Text) (e : Entry) : Prop where
  chain : Chain t true e.items e.inner e.outer
  start_le : e.start ≤ e.inner
  le_stop : e.outer ≤ e.stop
  bound : e.stop ≤ t.length
  bracketed : e.isBracketed = true → e.inner = e.start + 1 ∧ e.outer + 1 = e.stop ∧
    t.piece e.start (e.start + 1) = ['['] ∧ t.piece e.outer (e.outer + 1) = [']']
  plain : e.isBracketed = false → e.inner = e.start ∧ e.outer = e.stop

theorem IsLaid.word {t : Text} {e : Entry} {w : Word} (h : e.IsLaid t) (hitem : e.item = .word w) :
    w.Fits t := by
  unfold IsLaid at h
  rw [hitem] at h
  rcases h with h | ⟨_, h, _⟩
  · rwa [Item.Fits] at h
  · cases h

/-- What stands around the items of a document. -/
theorem document_frame {t : Text} {items : List Item} {a : Nat}
    (h : Item.FitAll t true items a t.length) :
    let bytes := bytesOfItems t.length items
    Spaces t a bytes.1 ∧ Item.FitAll t true items bytes.1 bytes.2 ∧
      Behind t items.isEmpty bytes.2 t.length := by
  cases items with
  | nil =>
    have hspaces : Spaces t a t.length := by
      rcases h with h | ⟨h, _⟩
      · exact h
      · cases h
    have hempty : Spaces t t.length t.length := .refl (Nat.le_refl _)
    exact ⟨hspaces, Or.inl hempty, Or.inl hempty⟩
  | cons item rest =>
    rw [Item.FitAll] at h
    have hlast : ∀ (rest : List Item) (item : Item) {a : Nat}, item.Fits t →
        Item.FitAll t false rest item.bytes.2 t.length →
        Item.FitAll t false rest item.bytes.2 (((item :: rest).getLast (by simp)).bytes.2) ∧
          Behind t false ((item :: rest).getLast (by simp)).bytes.2 t.length := by
      intro rest
      induction rest with
      | nil =>
        intro item _ hfits htail
        exact ⟨Or.inl (.refl hfits.lt.2), htail⟩
      | cons next rest ih =>
        intro item a hfits htail
        rw [Item.FitAll] at htail
        obtain ⟨hinit, hbehind⟩ := ih next (a := a) htail.2.1 htail.2.2
        rw [List.getLast_cons (by simp)]
        rw [Item.FitAll]
        exact ⟨⟨htail.1, htail.2.1, hinit⟩, hbehind⟩
    obtain ⟨hinit, hbehind⟩ := hlast rest item (a := a) h.2.1 h.2.2
    have hbytes : bytesOfItems t.length (item :: rest) =
        (item.bytes.1, ((item :: rest).getLast (by simp)).bytes.2) := by
      unfold bytesOfItems
      rw [List.head?_cons, List.getLast?_eq_some_getLast (by simp)]
    rw [hbytes]
    refine ⟨h.1, ?_, hbehind⟩
    rw [Item.FitAll]
    exact ⟨.refl (Nat.le_trans (Nat.le_of_lt h.2.1.lt.1) h.2.1.lt.2), h.2.1, hinit⟩

theorem IsLaid.list {t : Text} {e : Entry} {bytes : Nat × Nat} {bracketed : Bool}
    {items : List Item} (h : e.IsLaid t) (hitem : e.item = .list bytes bracketed items) :
    e.IsList t := by
  have hrow := items_list hitem
  have hbracketed : e.isBracketed = bracketed := by
    unfold isBracketed
    rw [hitem]
  have hstart : e.start = bytes.1 := by
    unfold start
    rw [hitem, Item.bytes]
  have hstop : e.stop = bytes.2 := by
    unfold stop
    rw [hitem, Item.bytes]
  unfold IsLaid at h
  rw [hitem] at h
  rcases h with h | ⟨items', h, hfit⟩
  · rw [Item.Fits] at h
    obtain ⟨rfl, hle, hbound, hopen, hclose, hfit⟩ := h
    have hinner : e.inner = bytes.1 + 1 := by rw [inner, hbracketed, if_pos rfl, hstart]
    have houter : e.outer = bytes.2 - 1 := by rw [outer, hbracketed, if_pos rfl, hstop]
    have hsucc : bytes.2 - 1 + 1 = bytes.2 := by omega
    constructor
    · rw [hrow, hinner, houter]
      exact .of_fitAll hfit
    · omega
    · omega
    · omega
    · intro _
      rw [hinner, houter, hstart, hstop, hsucc]
      exact ⟨rfl, rfl, hopen, hclose⟩
    · intro hplain
      rw [hbracketed] at hplain
      cases hplain
  · cases h
    obtain ⟨hspaces, hfit, hbehind⟩ := document_frame hfit
    have hle := hbehind.le
    have hinner : e.inner = e.start := by rw [inner, hbracketed, if_neg Bool.false_ne_true]
    have houter : e.outer = e.stop := by rw [outer, hbracketed, if_neg Bool.false_ne_true]
    constructor
    · rw [hrow, hinner, houter, hstart, hstop]
      exact .of_fitAll hfit
    · omega
    · omega
    · omega
    · intro htrue
      rw [hbracketed] at htrue
      cases htrue
    · exact fun _ => ⟨hinner, houter⟩

theorem IsLaid.bounds {t : Text} {e : Entry} (h : e.IsLaid t) : e.start ≤ e.stop ∧ e.stop ≤ t.length := by
  cases hitem : e.item with
  | word w =>
    have hw := h.word hitem
    have hlt := @Item.Fits.lt t (.word w) (by rwa [Item.Fits])
    rw [start, stop, hitem]
    exact ⟨Nat.le_of_lt hlt.1, hlt.2⟩
  | list bytes bracketed items =>
    have hlist := h.list hitem
    have hchain := hlist.chain.le
    have hstart := hlist.start_le
    have hstop := hlist.le_stop
    exact ⟨by omega, hlist.bound⟩

/-- An item of an entry that was read. -/
theorem IsLaid.item {t : Text} {e c : Entry} (h : e.IsLaid t) (hc : c ∈ e.items) :
    c.item.Fits t ∧ e.start ≤ c.start ∧ c.start < c.stop ∧ c.stop ≤ e.stop := by
  cases hitem : e.item with
  | word w =>
    rw [items_word hitem] at hc
    cases hc
  | list bytes bracketed items =>
    have hlist := h.list hitem
    obtain ⟨hfits, hle, hlt, hle'⟩ := hlist.chain.mem hc
    have hstart := hlist.start_le
    have hstop := hlist.le_stop
    exact ⟨hfits, by omega, hlt, by omega⟩

/-- The entries below an entry that was read were read, from within it. -/
theorem IsLaid.holds {t : Text} {e d : Entry} (h : e.IsLaid t) (hd : e.Holds d) :
    d.IsLaid t ∧ e.start ≤ d.start ∧ d.stop ≤ e.stop := by
  induction hd with
  | refl => exact ⟨h, Nat.le_refl _, Nat.le_refl _⟩
  | step mem _ ih =>
    obtain ⟨hfits, hstart, _, hstop⟩ := h.item mem
    obtain ⟨hlaid, hstart', hstop'⟩ := ih (Or.inl hfits)
    exact ⟨hlaid, by omega, by omega⟩

/-- Two items of an entry have no character in common. -/
theorem IsLaid.siblings {t : Text} {e c d : Entry} (h : e.IsLaid t) (hc : c ∈ e.items)
    (hd : d ∈ e.items) : c = d ∨ c.stop ≤ d.start ∨ d.stop ≤ c.start := by
  cases hitem : e.item with
  | word w =>
    rw [items_word hitem] at hc
    cases hc
  | list bytes bracketed items =>
    exact eq_or_related (h.list hitem).chain.pairwise hc hd

/-- Of two entries of a document, the first holds the second, the second
is above the first, or they have no character in common. -/
theorem apart {t : Text} {r e d : Entry} (h : r.IsLaid t) (he : r.Holds e) (hd : r.Holds d) :
    e.Holds d ∨ d.node ∈ e.ancestors ∨ d.stop ≤ e.start ∨ e.stop ≤ d.start := by
  induction he with
  | refl => exact Or.inl hd
  | @step r c e mem tail ih =>
    have hc := h.item mem
    have htail := IsLaid.holds (Or.inl hc.1) tail
    cases hd with
    | refl => exact Or.inr (Or.inl (Holds.mem_ancestors mem tail))
    | @step _ c' _ mem' tail' =>
      have hc' := h.item mem'
      have htail' := IsLaid.holds (Or.inl hc'.1) tail'
      rcases h.siblings mem mem' with rfl | hle | hle
      · exact ih (Or.inl hc.1) tail'
      · omega
      · omega

end Entry

end Reprint.WordList
