import Reprint.Proofs.WordList.Separated

/-!
# Models whose items stay in their lists

`Model.AtHome` says that items that were read are only in the lists that
they were read in, where they may be listed in any order and any number of
times.  New items may be everywhere.

Then what is in an entry that is still reached the way it was read is an
entry below it, or it is new (`AtHome.reaches`).  So such models are
confined (`AtHome.confines`), and what is known of renders of confined
models holds for them (`AtHome.edition`).
-/

namespace Reprint.WordList

/-- Items that were read are only in the lists that they were read in. -/
def Model.AtHome (m₀ m : Model) : Prop :=
  ∀ a b, m.Reaches m.root a → b ∈ m.items a → b < m₀.cells.size → b ∈ m₀.items a

namespace Model.AtHome

variable {text : Text} {item : Item} {m : Model} {e : Entry} {a b : Nat}

/-- The items of a new list are new. -/
theorem new_items (h : (Model.ofItem item).AtHome m) (ha : m.Reaches m.root a)
    (hnew : item.cells ≤ a) (hb : b ∈ m.items a) : item.cells ≤ b := by
  have hsize := (Model.cells_ofItem item).2.1
  refine Nat.not_lt.1 fun hlt => ?_
  obtain ⟨c, hc, _⟩ := exists_of_mem_items (h a b ha hb (by omega))
  have hread := (Array.getElem?_eq_some_iff.1 hc).1
  omega

/-- What is in a new list is new. -/
theorem new_reaches (h : (Model.ofItem item).AtHome m) (hab : m.Reaches a b)
    (ha : m.Reaches m.root a) (hnew : item.cells ≤ a) : item.cells ≤ b := by
  induction hab with
  | refl => exact hnew
  | step hmem _ ih => exact ih (ha.item hmem) (h.new_items ha hnew hmem)

/-- An item of a list that was read is one of those that were read there,
or it is new. -/
theorem items (h : (Model.ofItem item).AtHome m) (ha : m.Reaches m.root e.address)
    (he : (Entry.ofItem item).Holds e) (hb : b ∈ m.items e.address) :
    (∃ c ∈ e.items, c.address = b) ∨ item.cells ≤ b := by
  by_cases hlt : b < item.cells
  · rw [← (Model.cells_ofItem item).2.1] at hlt
    have hread := h _ b ha hb hlt
    rw [items_ofItem he] at hread
    exact Or.inl (List.mem_map.1 hread)
  · exact Or.inr (Nat.not_lt.1 hlt)

/-- What is in an entry is an entry below it, which is reached the way it
was read, or it is new. -/
theorem reaches (h : (Model.ofItem item).AtHome m) (hroot : m.root = (Model.ofItem item).root)
    (hab : m.Reaches a b) (he : Entry.Kept m (.ofItem item) e) (ha : e.address = a) :
    (∃ d, e.Holds d ∧ Entry.Kept m (.ofItem item) d ∧ d.address = b) ∨ item.cells ≤ b := by
  have hreaches : ∀ {c : Entry}, Entry.Kept m (.ofItem item) c → m.Reaches m.root c.address := by
    intro c hc
    rw [hroot, (Model.cells_ofItem item).1]
    exact hc.reaches
  induction hab generalizing e with
  | refl => exact Or.inl ⟨e, .refl e, he, ha⟩
  | step hmem htail ih =>
    subst ha
    rcases h.items (hreaches he) he.holds hmem with ⟨c, hc, rfl⟩ | hnew
    · rcases ih (.item he hc hmem) rfl with ⟨d, hd, hkept, hb⟩ | hnew
      · exact Or.inl ⟨d, .step hc hd, hkept, hb⟩
      · exact Or.inr hnew
    · exact Or.inr (h.new_reaches htail ((hreaches he).item hmem) hnew)

/-- What is in an entry and was read was read from within the entry. -/
theorem confines (h : (Model.ofItem item).AtHome m) (hread : readDocument text = .ok item)
    (hm : (Model.ofItem item).Edited m) : Entry.Confines m (.ofItem item) := by
  intro e he b hb bytes hbytes
  rcases h.reaches hm.root hb he rfl with ⟨d, hd, hkept, rfl⟩ | hnew
  · have hlaid := ((laid_ofItem hread).holds he.holds).1
    rw [hm.redone.bytes? hkept.holds, Option.some.injEq] at hbytes
    rw [← hbytes]
    exact (hlaid.holds hd).2
  · obtain ⟨c, hc, hcell⟩ := Option.bind_eq_some_iff.1 hbytes
    rw [hm.new (by rw [(Model.cells_ofItem item).2.1]; exact hnew) hc] at hcell
    cases hcell

theorem edition (h : (Model.ofItem item).AtHome m) (hread : readDocument text = .ok item)
    (hm : (Model.ofItem item).Edited m) : Edition text (.ofItem item) m where
  ascii := isAscii_of_readDocument hread
  laid := laid_ofItem hread
  root := rfl
  top := rfl
  redone := hm.redone
  confines := h.confines hread hm

end Model.AtHome

end Reprint.WordList
