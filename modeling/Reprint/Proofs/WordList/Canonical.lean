import Reprint.Proofs.WordList.Separated
import Reprint.Proofs.WordList.Spelled

/-!
# The canonical spelling of shapes

`Shape.text` spells a shape with the same separator between all items and
nothing else around them, and `Shape.itemAt` is the item that the reader
makes of that spelling at an offset.  The text that the model gives for a
cell is the canonical spelling of the shape of the cell
(`Model.text_eq_of_hasShape`).

A canonical spelling is a derivation of the item (`Shape.isItem_text`), so
it is read as that item (`readDocument_canonical`), and the separator is in
front of every item that needs one (`Shape.unseparated_itemAt`).
-/

namespace Reprint.WordList

/-! ## The spelling and what is read from it -/

/-- The separator in front of an item. -/
def joiner (separator : Text) (first : Bool) : Text := if first then [] else separator

mutual

/-- The canonical spelling of a shape. -/
def Shape.text (separator : Text) : Shape → Text
  | .word name loudness => name ++ markText loudness
  | .list items => '[' :: (Shape.textOf separator true items ++ [']'])
termination_by structural shape => shape

/-- The canonical spelling of several shapes. -/
def Shape.textOf (separator : Text) : Bool → List Shape → Text
  | _, [] => []
  | first, shape :: rest =>
    joiner separator first ++ (Shape.text separator shape ++ Shape.textOf separator false rest)
termination_by structural _ shapes => shapes

end

mutual

/-- What the canonical spelling of a shape from an offset on is read as. -/
def Shape.itemAt (separator : Text) (start : Nat) : Shape → Item
  | .word name loudness =>
    .word ⟨(start, start + (name ++ markText loudness).length), name, (start, start + name.length),
      loudness⟩
  | .list items =>
    .list (start, start + (Shape.textOf separator true items).length + 2) true
      (Shape.itemsAt separator (start + 1) true items)
termination_by structural shape => shape

/-- What the canonical spelling of several shapes is read as. -/
def Shape.itemsAt (separator : Text) : Nat → Bool → List Shape → List Item
  | _, _, [] => []
  | start, first, shape :: rest =>
    let front := start + (joiner separator first).length
    Shape.itemAt separator front shape ::
      Shape.itemsAt separator (front + (Shape.text separator shape).length) false rest
termination_by structural _ _ shapes => shapes

end

mutual

/-- All names in a shape are words. -/
def Shape.Legible : Shape → Prop
  | .word name _ => name ≠ [] ∧ ∀ c ∈ name, isWordChar c = true
  | .list items => Shape.AllLegible items
termination_by structural shape => shape

/-- All names in several shapes are words. -/
def Shape.AllLegible : List Shape → Prop
  | [] => True
  | shape :: rest => Shape.Legible shape ∧ Shape.AllLegible rest
termination_by structural shapes => shapes

end

section Reading

variable {separator : Text}

theorem Shape.bytes_itemAt (separator : Text) (start : Nat) (shape : Shape) :
    (shape.itemAt separator start).bytes = (start, start + (shape.text separator).length) := by
  cases shape with
  | word name loudness => rfl
  | list items =>
    rw [itemAt, text, Item.bytes, List.length_cons, List.length_append, List.length_singleton]
    exact congrArg (Prod.mk start) (by omega)

mutual

/-- The shape is read back. -/
theorem Shape.shape_itemAt (separator : Text) : ∀ (shape : Shape) (start : Nat),
    (shape.itemAt separator start).shape = shape
  | .word name loudness, start => by rw [Shape.itemAt, Item.shape]
  | .list items, start => by rw [Shape.itemAt, Item.shape, Shape.shapes_itemsAt separator items]
termination_by structural shape => shape

theorem Shape.shapes_itemsAt (separator : Text) : ∀ (shapes : List Shape) (start : Nat)
    (first : Bool), Item.shapes (Shape.itemsAt separator start first shapes) = shapes
  | [], start, first => by rw [Shape.itemsAt, Item.shapes]
  | shape :: rest, start, first => by
    rw [Shape.itemsAt, Item.shapes, Shape.shape_itemAt separator shape,
      Shape.shapes_itemsAt separator rest]
termination_by structural shapes => shapes

end

mutual

/-- The canonical spelling of a shape is an item. -/
theorem Shape.isItem_text (hseparator : Parting separator) : ∀ (shape : Shape) (start : Nat),
    shape.Legible → Grammar.IsItem start (shape.text separator) (shape.itemAt separator start)
  | .word name loudness, start, h => by
    rw [Shape.Legible] at h
    exact .word h.1 fun c hc => Grammar.isNameChar_iff.2 (h.2 c hc)
  | .list items, start, h => by
    rw [Shape.Legible] at h
    exact .list (Shape.isBody_textOf hseparator items (start + 1) h)
termination_by structural shape => shape

theorem Shape.isBody_textOf (hseparator : Parting separator) : ∀ (shapes : List Shape) (start : Nat),
    Shape.AllLegible shapes →
    Grammar.IsBody start (Shape.textOf separator true shapes)
      (Shape.itemsAt separator start true shapes)
  | [], start, _ => Grammar.isBody_nil_iff.2 .nil
  | shape :: rest, start, h => by
    rw [Shape.AllLegible] at h
    exact Grammar.isBody_cons_iff.2 ⟨[], shape.text separator, Shape.textOf separator false rest, [],
      by simp [Shape.textOf, joiner], .nil, Shape.isItem_text hseparator shape start h.1,
      Shape.isMore_textOf hseparator rest _ h.2, Or.inl .nil⟩
termination_by structural shapes => shapes

theorem Shape.isMore_textOf (hseparator : Parting separator) : ∀ (shapes : List Shape) (start : Nat),
    Shape.AllLegible shapes →
    Grammar.IsMore start (Shape.textOf separator false shapes)
      (Shape.itemsAt separator start false shapes)
  | [], start, _ => .nil
  | shape :: rest, start, h => by
    rw [Shape.AllLegible] at h
    have hparting := hseparator
    obtain ⟨before, c, behind, hsplit, hbefore, hc, hbehind⟩ := hparting
    have hfront : start + (joiner separator false).length =
        start + before.length + 1 + behind.length := by
      rw [joiner, if_neg Bool.false_ne_true, hsplit, List.length_append, List.length_cons]
      omega
    have htext : Shape.textOf separator false (shape :: rest) =
        before ++ c :: (behind ++ (shape.text separator ++ Shape.textOf separator false rest)) := by
      calc Shape.textOf separator false (shape :: rest)
        _ = separator ++ (shape.text separator ++ Shape.textOf separator false rest) := by
          rw [Shape.textOf, joiner, if_neg Bool.false_ne_true]
        _ = (before ++ c :: behind) ++
            (shape.text separator ++ Shape.textOf separator false rest) := by rw [← hsplit]
        _ = _ := by simp only [List.append_assoc, List.cons_append]
    rw [htext, Shape.itemsAt, hfront]
    exact .cons hbefore hc hbehind (Shape.isItem_text hseparator shape _ h.1)
      (Shape.isMore_textOf hseparator rest _ h.2)
termination_by structural shapes => shapes

end

/-- The end of the last item. -/
theorem Shape.getLast?_itemsAt : ∀ (shapes : List Shape) (start : Nat) (first : Bool),
    ∀ item ∈ (Shape.itemsAt separator start first shapes).getLast?,
      item.bytes.2 = start + (Shape.textOf separator first shapes).length
  | [], _, _, _, h => by cases h
  | shape :: rest, start, first, item, h => by
    rw [Shape.itemsAt] at h
    rw [Shape.textOf, List.length_append, List.length_append]
    cases rest with
    | nil =>
      rw [Shape.itemsAt, List.getLast?_singleton, Option.mem_some] at h
      subst h
      rw [Shape.bytes_itemAt, Shape.textOf, List.length_nil, Nat.add_zero, Nat.add_assoc]
    | cons other more =>
      have hne : Shape.itemsAt separator
          (start + (joiner separator first).length + (shape.text separator).length) false
          (other :: more) ≠ [] := by rw [Shape.itemsAt]; exact List.cons_ne_nil _ _
      have hlast := Shape.getLast?_itemsAt (other :: more)
        (start + (joiner separator first).length + (shape.text separator).length) false item
        (by rwa [List.getLast?_cons_of_ne_nil hne] at h)
      rw [hlast]
      omega

/-- What the canonical spelling of a document is read as. -/
def Shape.document (separator : Text) (shapes : List Shape) : Item :=
  .list (0, (Shape.textOf separator true shapes).length) false
    (Shape.itemsAt separator 0 true shapes)

/-- A canonical spelling is read as what it spells. -/
theorem readDocument_canonical (hseparator : Parting separator) {shapes : List Shape}
    (h : Shape.AllLegible shapes) :
    readDocument (Shape.textOf separator true shapes) = .ok (Shape.document separator shapes) := by
  refine readDocument_of_isDocument ⟨_, Shape.isBody_textOf hseparator shapes 0 h, ?_⟩
  have hbytes : bytesOfItems (Shape.textOf separator true shapes).length
      (Shape.itemsAt separator 0 true shapes) = (0, (Shape.textOf separator true shapes).length) := by
    cases shapes with
    | nil => rfl
    | cons shape rest =>
      obtain ⟨last, hlast⟩ : ∃ last,
          (Shape.itemsAt separator 0 true (shape :: rest)).getLast? = some last :=
        Option.isSome_iff_exists.1 (by rw [Shape.itemsAt]; simp)
      have hstop := Shape.getLast?_itemsAt (shape :: rest) 0 true last hlast
      have hhead : (Shape.itemsAt separator 0 true (shape :: rest)).head? =
          some (shape.itemAt separator 0) := by rw [Shape.itemsAt]; rfl
      rw [bytesOfItems, hhead, hlast]
      simp only [Shape.bytes_itemAt, hstop, Nat.zero_add]
  rw [hbytes, Shape.document]

end Reading

/-! ## Separators -/

section Separators

variable {separator : Text}

/-- The piece in the middle of a text. -/
theorem piece_middle (front middle back : Text) :
    (front ++ (middle ++ back)).piece front.length (front.length + middle.length) = middle := by
  rw [Text.piece, ← List.append_assoc, List.take_left' List.length_append, List.drop_left]

mutual

/-- No item of a canonical spelling lacks the separator, whatever stands
around the spelling. -/
theorem Shape.unseparated_itemAt (separator : Text) : ∀ (shape : Shape) (front back : Text),
    (shape.itemAt separator front.length).unseparated
      (front ++ (shape.text separator ++ back)) separator = []
  | .word name loudness, front, back => by rw [Shape.itemAt, Item.unseparated]
  | .list items, front, back => by
    have hitems := Shape.unseparatedFrom_itemsAt separator items (front ++ ['[']) (']' :: back) true
    have htext : front ++ (Shape.text separator (.list items) ++ back) =
        front ++ ['['] ++ (Shape.textOf separator true items ++ ']' :: back) := by
      rw [Shape.text]
      simp only [List.append_assoc, List.cons_append, List.nil_append]
    rw [Shape.itemAt, Item.unseparated, htext]
    rw [List.length_append, List.length_singleton] at hitems
    exact hitems
termination_by structural shape => shape

theorem Shape.unseparatedFrom_itemsAt (separator : Text) : ∀ (shapes : List Shape)
    (front back : Text) (first : Bool),
    Item.unseparatedFrom (front ++ (Shape.textOf separator first shapes ++ back)) separator
      (if first then none else some front.length)
      (Shape.itemsAt separator front.length first shapes) = []
  | [], front, back, first => by rw [Shape.itemsAt, Item.unseparatedFrom]
  | shape :: rest, front, back, first => by
    -- The gap in front of the item, the item, and the items behind it.
    have htext : front ++ (Shape.textOf separator first (shape :: rest) ++ back) =
        front ++ joiner separator first ++
          (shape.text separator ++ (Shape.textOf separator false rest ++ back)) := by
      rw [Shape.textOf]
      simp only [List.append_assoc]
    have hgap : gapOffsets (front ++ (Shape.textOf separator first (shape :: rest) ++ back)) separator
        (if first then none else some front.length)
        (front.length + (joiner separator first).length) = [] := by
      cases first with
      | true => rfl
      | false =>
        rw [if_neg Bool.false_ne_true, gapOffsets, htext, List.append_assoc, piece_middle, joiner,
          if_neg Bool.false_ne_true, if_pos (List.infix_refl _)]
    have hitem := Shape.unseparated_itemAt separator shape (front ++ joiner separator first)
      (Shape.textOf separator false rest ++ back)
    have hrest := Shape.unseparatedFrom_itemsAt separator rest
      (front ++ joiner separator first ++ shape.text separator) back false
    rw [List.append_assoc, ← htext] at hrest
    rw [← htext] at hitem
    rw [Shape.itemsAt, Item.unseparatedFrom, Shape.bytes_itemAt, hgap]
    rw [List.length_append] at hitem
    rw [List.length_append, List.length_append, if_neg Bool.false_ne_true] at hrest
    rw [hitem, hrest]
    rfl
termination_by structural shapes => shapes

end

/-- A canonical document is printed as it is. -/
theorem separated_document (separator : Text) (shapes : List Shape) :
    (Shape.document separator shapes).unseparated (Shape.textOf separator true shapes) separator = [] := by
  have h := Shape.unseparatedFrom_itemsAt separator shapes [] [] true
  rw [List.append_nil, List.nil_append] at h
  rw [Shape.document, Item.unseparated]
  exact h

end Separators

/-! ## The text of a model -/

section Models

variable {m : Model} {separator : Text}

/-- Texts that are joined as they stand in a list. -/
theorem joinedFrom_eq_textOf {body : Nat → Text} : ∀ {shapes : List Shape} {items : List Nat}
    (index : Nat), m.HaveShapes shapes items →
    (∀ x ∈ items, ∀ shape, m.HasShape shape x → body x = shape.text separator ∧ shape.Legible) →
    joinedFrom separator index (items.map body) =
        Shape.textOf separator (decide (index = 0)) shapes ∧ Shape.AllLegible shapes
  | [], items, index, h, _ => by
    obtain rfl : items = [] := h
    exact ⟨rfl, trivial⟩
  | shape :: rest, items, index, h, hbody => by
    obtain ⟨a, others, rfl, hshape, hshapes⟩ := h
    obtain ⟨htext, hlegible⟩ := hbody a List.mem_cons_self shape hshape
    obtain ⟨hrest, hrest'⟩ := joinedFrom_eq_textOf (index + 1) hshapes fun x hx =>
      hbody x (List.mem_cons_of_mem a hx)
    rw [decide_eq_false (Nat.succ_ne_zero index)] at hrest
    refine ⟨?_, hlegible, hrest'⟩
    rw [List.map_cons, joinedFrom, hrest, htext, Shape.textOf, joiner, List.append_assoc]
    by_cases hindex : index = 0 <;> simp [hindex]

/-- The text that the model gives for a cell is the canonical spelling of
its shape. -/
theorem Model.text_eq_of_hasShape : ∀ {depth a : Nat}, m.Unfolds depth a → m.Legible a →
    (∀ {bracketed items read}, m.cells[a]? = some (.list bracketed items read) → bracketed = true) →
    ∀ shape, m.HasShape shape a → m.text separator depth a = shape.text separator ∧ shape.Legible
  | 0, _, h, _, _, _, _ => h.elim
  | depth + 1, a, h, hlegible, hbracketed, .word name loudness, hshape => by
    obtain ⟨read, hcell⟩ := hshape
    rw [Model.text, hcell, Shape.text, Shape.Legible]
    exact ⟨rfl, hlegible.names (.refl a) hcell⟩
  | depth + 1, a, h, hlegible, hbracketed, .list shapes, hshape => by
    obtain ⟨bracketed, items, read, hcell, hshapes⟩ := hshape
    obtain rfl := hbracketed hcell
    have hitems : ∀ x ∈ items, ∀ shape, m.HasShape shape x →
        m.text separator depth x = shape.text separator ∧ shape.Legible := by
      intro x hx
      rw [← Model.items_list hcell] at hx
      exact Model.text_eq_of_hasShape (h.2 x hx) (hlegible.item hx)
        fun hx' => hlegible.brackets (.refl a) hx hx'
    obtain ⟨htext, hlegible'⟩ := joinedFrom_eq_textOf 0 hshapes hitems
    rw [Model.text, hcell, Shape.text, Shape.Legible]
    refine ⟨?_, hlegible'⟩
    simp only [htext]
    rfl

end Models

end Reprint.WordList
