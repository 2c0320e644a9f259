import Reprint.Proofs.WordList.Grammar

/-!
# What the reader makes of a spelling

A `Shape` is a word or a list without the bytes that it was read from.
`Shape.Spells` and `Shape.SpellRow` say how shapes may be written: they are
the grammar of word lists by the shapes, where `Grammar.IsItem` is the same
by the rules.  So a spelling of a shape is a derivation of an item with this
shape (`Shape.Spells.isItem`).

`readDocument_spelled` is the completeness of the reader for shapes: a
spelling of shapes is read as items with these shapes, whatever stands
between them.
-/

namespace Reprint.WordList

/-! ## Shapes -/

/-- A word or a list apart from where it was read. -/
inductive Shape where
  | word (name : Text) (loudness : Option Bool)
  | list (items : List Shape)

mutual

/-- The shape of an item that was read. -/
def Item.shape : Item → Shape
  | .word w => .word w.name w.loudness
  | .list _ _ items => .list (Item.shapes items)
termination_by structural item => item

/-- The shapes of several items. -/
def Item.shapes : List Item → List Shape
  | [] => []
  | item :: rest => Item.shape item :: Item.shapes rest
termination_by structural items => items

end

/-! ## The grammar -/

/-- What may stand in front of an item, where the first one needs no
separator. -/
def Leading (first : Bool) (t : Text) : Prop := if first then Blank t else Parting t

mutual

/-- A text spells a shape. -/
def Shape.Spells : Shape → Text → Prop
  | .word name loudness, t =>
    name ≠ [] ∧ (∀ c ∈ name, isWordChar c = true) ∧ t = name ++ markText loudness
  | .list items, t =>
    ∃ row behind, t = '[' :: (row ++ behind) ++ [']'] ∧ Shape.SpellRow true items row ∧
      Trailing items.isEmpty behind
termination_by structural shape => shape

/-- A text spells shapes one after the other, up to the end of the last. -/
def Shape.SpellRow : Bool → List Shape → Text → Prop
  | _, [], t => t = []
  | first, shape :: rest, t =>
    ∃ ahead body tail, t = ahead ++ (body ++ tail) ∧ Leading first ahead ∧
      Shape.Spells shape body ∧ Shape.SpellRow false rest tail
termination_by structural _ shapes => shapes

end

/-! ## The derivation of a spelling -/

mutual

/-- A spelling of a shape is an item of that shape, wherever it stands. -/
theorem Shape.Spells.isItem : ∀ (shape : Shape) {t : Text} (start : Nat), shape.Spells t →
    ∃ item, Grammar.IsItem start t item ∧ item.shape = shape
  | .word name loudness, t, start, ht => by
    obtain ⟨hname, hchars, rfl⟩ := ht
    refine ⟨_, .word hname fun c hc => Grammar.isNameChar_iff.2 (hchars c hc), ?_⟩
    rw [Item.shape]
  | .list items, t, start, ht => by
    obtain ⟨row, behind, rfl, hrow, hbehind⟩ := ht
    obtain ⟨read, hbody, hshapes⟩ := Shape.SpellRow.isBody items (start + 1) hrow hbehind
    exact ⟨_, .list hbody, by rw [Item.shape, hshapes]⟩
termination_by structural shape => shape

theorem Shape.SpellRow.isBody : ∀ (shapes : List Shape) {row behind : Text} (start : Nat),
    Shape.SpellRow true shapes row → Trailing shapes.isEmpty behind →
    ∃ items, Grammar.IsBody start (row ++ behind) items ∧ Item.shapes items = shapes
  | [], row, behind, start, hrow, hbehind => by
    obtain rfl : row = [] := hrow
    have hblank : Blank behind := hbehind.resolve_right (by simp)
    exact ⟨[], Grammar.isBody_nil_iff.2 hblank, by rw [Item.shapes]⟩
  | shape :: rest, row, behind, start, hrow, hbehind => by
    obtain ⟨ahead, body, tail, rfl, hahead, hbody, htail⟩ := hrow
    obtain ⟨item, hitem, hshape⟩ := Shape.Spells.isItem shape (start + ahead.length) hbody
    obtain ⟨items, hmore, hshapes⟩ :=
      Shape.SpellRow.isMore rest (start + ahead.length + body.length) htail
    refine ⟨item :: items, Grammar.isBody_cons_iff.2
      ⟨ahead, body, tail, behind, ?_, hahead, hitem, hmore, hbehind⟩, ?_⟩
    · simp only [List.append_assoc]
    · rw [Item.shapes, hshape, hshapes]
termination_by structural shapes => shapes

theorem Shape.SpellRow.isMore : ∀ (shapes : List Shape) {row : Text} (start : Nat),
    Shape.SpellRow false shapes row →
    ∃ items, Grammar.IsMore start row items ∧ Item.shapes items = shapes
  | [], row, start, hrow => by
    obtain rfl : row = [] := hrow
    exact ⟨[], .nil, by rw [Item.shapes]⟩
  | shape :: rest, row, start, hrow => by
    obtain ⟨_, body, tail, rfl, ⟨before, c, ahead, rfl, hbefore, hc, hahead⟩, hbody, htail⟩ := hrow
    obtain ⟨item, hitem, hshape⟩ :=
      Shape.Spells.isItem shape (start + before.length + 1 + ahead.length) hbody
    obtain ⟨items, hmore, hshapes⟩ := Shape.SpellRow.isMore rest
      (start + before.length + 1 + ahead.length + body.length) htail
    refine ⟨item :: items, ?_, by rw [Item.shapes, hshape, hshapes]⟩
    rw [List.append_assoc, List.cons_append]
    exact .cons hbefore hc hahead hitem hmore
termination_by structural shapes => shapes

end

/-- A spelling of several shapes is a document of a list with these
shapes. -/
theorem readDocument_spelled {shapes : List Shape} {row behind : Text}
    (hrow : Shape.SpellRow true shapes row) (hbehind : Trailing shapes.isEmpty behind) :
    ∃ item, readDocument (row ++ behind) = .ok item ∧ item.shape = .list shapes := by
  obtain ⟨items, hbody, hshapes⟩ := Shape.SpellRow.isBody shapes 0 hrow hbehind
  exact ⟨_, readDocument_of_isDocument ⟨items, hbody, rfl⟩, by rw [Item.shape, hshapes]⟩

end Reprint.WordList
