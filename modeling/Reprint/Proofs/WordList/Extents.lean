import Reprint.Proofs.WordList.Chain
import Reprint.Proofs.WordList.Grammar

/-!
# The bytes of the items of a document

`readDocument_parses` puts together what the reader is relied on for.  It comes
to an end on every text, it accepts the documents of the grammar and nothing
else, and what it makes of a document is its derivation.  The bytes of every
item are a span of the source with the text of the item, and the items of a
list stand one behind the other within the list (`Item.Framed`).
-/

namespace Reprint.WordList

/-- The items right below an item. -/
def Item.items : Item → List Item
  | word _ => []
  | list _ _ items => items

/-- An item is below another one, or it is the same. -/
inductive Item.Holds : Item → Item → Prop
  | refl (e : Item) : Holds e e
  | step {e c d : Item} (mem : c ∈ e.items) (tail : Holds c d) : Holds e d

/-- Bytes of a text are a span of the source, with this text. -/
def Quotes (t : Text) (bytes : Nat × Nat) (quoted : Text) : Prop :=
  ∃ span, t.spanOfBytes bytes.1 bytes.2 = .ok span ∧
    (Source.ofText t).extract span.toBounds = .ok quoted

/-- What the bytes of an item and of the items right below it are relied on
for. -/
structure Item.Framed (t : Text) (e : Item) : Prop where
  text : Quotes t e.bytes (t.piece e.bytes.1 e.bytes.2)
  /-- The bytes of a name have the text of the name. -/
  name : ∀ w, e = .word w → Quotes t w.nameBytes w.name
  /-- The bytes of an item have the text that it is derived from. -/
  items : ∀ c ∈ e.items, ∃ text, Grammar.IsItem c.bytes.1 text c ∧ Quotes t c.bytes text
  /-- Items have text and stand within their list. -/
  inside : ∀ c ∈ e.items,
    e.bytes.1 ≤ c.bytes.1 ∧ c.bytes.1 < c.bytes.2 ∧ c.bytes.2 ≤ e.bytes.2
  contains : ∀ c ∈ e.items, ∀ a b, t.spanOfBytes e.bytes.1 e.bytes.2 = .ok a →
    t.spanOfBytes c.bytes.1 c.bytes.2 = .ok b → a.contains b = true
  /-- Items are in the order of the text and have no character in common. -/
  order : e.items.Pairwise fun c d => c.bytes.2 ≤ d.bytes.1
  apart : e.items.Pairwise fun c d => ∀ a b, t.spanOfBytes c.bytes.1 c.bytes.2 = .ok a →
    t.spanOfBytes d.bytes.1 d.bytes.2 = .ok b → a.stop ≤ b.start ∧ a.intersects b = false

/-- The bytes between two offsets of an ASCII text. -/
theorem quotes_piece {t : Text} (h : t.IsAscii) {a b : Nat} (hab : a ≤ b) (hb : b ≤ t.length) :
    Quotes t (a, b) (t.piece a b) := by
  have hcount := Source.charCount_ofText t
  refine ⟨_, Text.spanOfBytes_eq h hab hb, ?_⟩
  rw [Tree.extract_window hab (by omega), Source.text_ofText]

theorem Word.Fits.quotes {t : Text} {w : Word} (hascii : t.IsAscii) (h : w.Fits t) :
    Quotes t w.nameBytes w.name := by
  have hstop := h.stop
  have hbound := h.bound
  have hquotes := quotes_piece hascii (Nat.le_of_lt h.order) (by omega)
  rwa [h.name] at hquotes

/-- The items of an item that was read stand between two offsets within its
bytes. -/
theorem Item.exists_fitAll {t : Text} {e : Item} (h : e.Fits t ∨ e.IsDocument t) :
    e.bytes.1 ≤ e.bytes.2 ∧ e.bytes.2 ≤ t.length ∧ (e.items = [] ∨ ∃ a b, e.bytes.1 ≤ a ∧
      Item.FitAll t true e.items a b ∧ b ≤ e.bytes.2) := by
  rcases h with h | ⟨items, rfl, h⟩
  · refine ⟨Nat.le_of_lt h.lt.1, h.lt.2, ?_⟩
    cases e with
    | word w => exact Or.inl rfl
    | list bytes bracketed items =>
      rw [Item.Fits] at h
      exact Or.inr ⟨_, _, Nat.le_succ _, h.2.2.2.2.2, Nat.sub_le _ _⟩
  · obtain ⟨_, hfit, hbehind⟩ := Entry.document_frame h
    exact ⟨hfit.le.1, hbehind.le.1, Or.inr ⟨_, _, Nat.le_refl _, hfit, Nat.le_refl _⟩⟩

/-- The items of an item that was read. -/
theorem Item.fits_of_mem {t : Text} {e c : Item} (h : e.Fits t ∨ e.IsDocument t) (hc : c ∈ e.items) :
    c.Fits t ∧ e.bytes.1 ≤ c.bytes.1 ∧ c.bytes.1 < c.bytes.2 ∧ c.bytes.2 ≤ e.bytes.2 := by
  obtain ⟨_, _, hnone | ⟨a, b, ha, hfit, hb⟩⟩ := Item.exists_fitAll h
  · rw [hnone] at hc
    cases hc
  · obtain ⟨hfits, hstart, hlt, hstop⟩ := hfit.mem c hc
    exact ⟨hfits, by omega, hlt, by omega⟩

theorem Item.framed {t : Text} (hascii : t.IsAscii) {e : Item} (h : e.Fits t ∨ e.IsDocument t) :
    e.Framed t := by
  have hcount := Source.charCount_ofText t
  obtain ⟨horder, hbound, hitems⟩ := Item.exists_fitAll h
  have hpairs : e.items.Pairwise fun c d => c.bytes.2 ≤ d.bytes.1 := by
    rcases hitems with hnone | ⟨a, b, _, hfit, _⟩
    · rw [hnone]
      exact .nil
    · exact hfit.pairwise
  constructor
  · exact quotes_piece hascii horder hbound
  · rintro w rfl
    rcases h with h | ⟨items, h, _⟩
    · rw [Item.Fits] at h
      exact h.quotes hascii
    · cases h
  · intro c hc
    have hfits := (Item.fits_of_mem h hc).1
    exact ⟨_, Item.Fits.isItem c hfits, quotes_piece hascii (Nat.le_of_lt hfits.lt.1) hfits.lt.2⟩
  · exact fun c hc => (Item.fits_of_mem h hc).2
  · intro c hc a b ha hb
    obtain ⟨hfits, hstart, hlt, hstop⟩ := Item.fits_of_mem h hc
    rw [Text.spanOfBytes_eq hascii horder hbound] at ha
    rw [Text.spanOfBytes_eq hascii (Nat.le_of_lt hlt) hfits.lt.2] at hb
    cases ha
    cases hb
    exact (Tree.contains_window horder (by omega) (Nat.le_of_lt hlt) (by omega)).2 ⟨hstart, hstop⟩
  · exact hpairs
  · refine hpairs.imp_of_mem fun {c d} hc hd hle a b ha hb => ?_
    have hc := (Item.fits_of_mem h hc).1.lt
    have hd := (Item.fits_of_mem h hd).1.lt
    rw [Text.spanOfBytes_eq hascii (Nat.le_of_lt hc.1) hc.2] at ha
    rw [Text.spanOfBytes_eq hascii (Nat.le_of_lt hd.1) hd.2] at hb
    cases ha
    cases hb
    constructor
    · rw [Tree.stop_window (Nat.le_of_lt hc.1) (by omega),
        Tree.start_window (Nat.le_of_lt hd.1) (by omega)]
      exact (Source.place_le_place (by omega) (by omega)).2 hle
    · rw [← Bool.not_eq_true, Tree.intersects_window (Nat.le_of_lt hc.1) (by omega)
        (Nat.le_of_lt hd.1) (by omega)]
      omega

/-- All items below an item that was read were read. -/
theorem Item.Holds.framed {t : Text} (hascii : t.IsAscii) {e d : Item}
    (h : e.Fits t ∨ e.IsDocument t) (hd : e.Holds d) : d.Framed t := by
  induction hd with
  | refl e => exact Item.framed hascii h
  | step mem _ ih => exact ih (Or.inl (Item.fits_of_mem h mem).1)

/-- The reader comes to an end on every text.  It accepts exactly the documents
of the grammar, each as its derivation, and the bytes of all items are those
of their texts. -/
theorem readDocument_parses (t : Text) :
    (∀ byte, readDocument t ≠ .error (.tooDeep byte)) ∧
      ∀ root, (readDocument t = .ok root ↔ Grammar.IsDocument t root) ∧
        (readDocument t = .ok root → ∀ item, root.Holds item → item.Framed t) :=
  ⟨readDocument_ne_tooDeep t, fun _ =>
    ⟨⟨isDocument_of_readDocument, readDocument_of_isDocument⟩, fun h _ hitem =>
      hitem.framed (isAscii_of_readDocument h) (Or.inr (readDocument_fits h))⟩⟩

/-- A loud word and, on the next line, a list with a separator behind its only
item. -/
theorem readDocument_overTwoLines :
    ∃ root, readDocument ['a', '!', ',', '\n', '[', 'b', ';', ']'] = .ok root ∧
      Grammar.IsDocument ['a', '!', ',', '\n', '[', 'b', ';', ']'] root ∧
      Quotes ['a', '!', ',', '\n', '[', 'b', ';', ']'] (4, 8) ['[', 'b', ';', ']'] := by
  have hread : readDocument ['a', '!', ',', '\n', '[', 'b', ';', ']'] = .ok (.list (0, 8) false
      [.word ⟨(0, 2), ['a'], (0, 1), some true⟩,
        .list (4, 8) true [.word ⟨(5, 6), ['b'], (5, 6), none⟩]]) := rfl
  obtain ⟨hdocument, hframed⟩ := (readDocument_parses _).2 _
  exact ⟨_, hread, hdocument.1 hread,
    (hframed hread _ (.step (List.mem_cons_of_mem _ List.mem_cons_self) (.refl _))).text⟩

end Reprint.WordList
