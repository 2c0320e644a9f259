import Reprint.Proofs.WordList.Hung
import Reprint.Proofs.WordList.Told

/-!
# What the text of an edited list spells

`Model.HasShape` says which shape a cell has in a model.  The text of a cell
made from the model alone spells that shape (`Model.text_spells`).

The text of the items of an edited list spells the shapes of what the list
lists now, with spaces in front and what stood behind the last item of the
source at its end (`Entry.toldItems_spells`), if the items of the source
have separators between them.  Then what is left of them when some items
are gone are spaces (`Entry.stripped_spaced`).
-/

namespace Reprint.WordList

/-! ## The shape of a cell -/

mutual

/-- A cell has a shape. -/
def Model.HasShape (m : Model) : Shape → Nat → Prop
  | .word name loudness, a => ∃ read, m.cells[a]? = some (.word name loudness read)
  | .list shapes, a => ∃ bracketed items read, m.cells[a]? = some (.list bracketed items read) ∧
      Model.HaveShapes m shapes items
termination_by structural shape => shape

/-- Several cells have the given shapes. -/
def Model.HaveShapes (m : Model) : List Shape → List Nat → Prop
  | [], items => items = []
  | shape :: rest, items => ∃ a others, items = a :: others ∧ Model.HasShape m shape a ∧
      Model.HaveShapes m rest others
termination_by structural shapes => shapes

end

theorem Model.exists_haveShapes {m : Model} (items : List Nat)
    (h : ∀ x ∈ items, ∃ shape, m.HasShape shape x) : ∃ shapes, m.HaveShapes shapes items := by
  induction items with
  | nil => exact ⟨[], rfl⟩
  | cons x rest ih =>
    obtain ⟨shape, hshape⟩ := h x List.mem_cons_self
    obtain ⟨shapes, hshapes⟩ := ih fun y hy => h y (List.mem_cons_of_mem x hy)
    exact ⟨shape :: shapes, x, rest, rfl, hshape, hshapes⟩

/-- Every cell without an endless chain of cells in it has a shape. -/
theorem Model.Unfolds.exists_hasShape {m : Model} : ∀ {depth a : Nat}, m.Unfolds depth a →
    ∃ shape, m.HasShape shape a
  | 0, _, h => h.elim
  | depth + 1, a, h => by
    obtain ⟨cell, hcell⟩ : ∃ cell, m.cells[a]? = some cell :=
      ⟨_, Array.getElem?_eq_getElem h.1⟩
    cases cell with
    | word name loudness read => exact ⟨.word name loudness, read, hcell⟩
    | list bracketed items read =>
      obtain ⟨shapes, hshapes⟩ := Model.exists_haveShapes items fun x hx =>
        Unfolds.exists_hasShape (h.2 x (Model.items_list hcell ▸ hx))
      exact ⟨.list shapes, bracketed, items, read, hcell, hshapes⟩

theorem Model.HaveShapes.isEmpty {m : Model} {shapes : List Shape} {items : List Nat}
    (h : m.HaveShapes shapes items) : shapes.isEmpty = items.isEmpty := by
  cases shapes with
  | nil =>
    obtain rfl : items = [] := h
    rfl
  | cons shape rest =>
    obtain ⟨a, others, rfl, _⟩ := h
    rfl

/-- Names that the reader reads as they are, and brackets around all lists
within lists. -/
structure Model.Legible (m : Model) (a : Nat) : Prop where
  names : ∀ {b : Nat} {name : Text} {loudness : Option Bool} {read : Option Word}, m.Reaches a b →
    m.cells[b]? = some (.word name loudness read) → name ≠ [] ∧ ∀ c ∈ name, isWordChar c = true
  brackets : ∀ {b c : Nat} {bracketed : Bool} {items : List Nat} {read : Option Item},
    m.Reaches a b → c ∈ m.items b → m.cells[c]? = some (.list bracketed items read) →
    bracketed = true

theorem Model.Legible.item {m : Model} {a b : Nat} (h : m.Legible a) (hb : b ∈ m.items a) :
    m.Legible b where
  names hreaches := h.names (.step hb hreaches)
  brackets hreaches := h.brackets (.step hb hreaches)

/-! ## Text made from the model -/

/-- The default separator. -/
def comma : Text := [',']

theorem leading_leadAt (index : Nat) : Leading (index = 0) (leadAt comma index) := by
  by_cases hindex : index = 0
  · rw [leadAt, if_pos hindex, decide_eq_true hindex]
    exact Blank.nil
  · rw [leadAt, if_neg hindex, decide_eq_false hindex]
    exact ⟨[], ',', [], rfl, .nil, by decide, .nil⟩

/-- Separators do not change when they are indented. -/
theorem hung_leadAt {index : Nat} {t u : Text} (h : Hung (leadAt comma index ++ t) u) :
    ∃ v, u = leadAt comma index ++ v ∧ Hung t v := by
  obtain ⟨first, second, rfl, hfirst, hsecond⟩ := h.split
  have hline : '\n' ∉ leadAt comma index := by
    unfold leadAt
    split <;> decide
  rw [hfirst.eq_self hline]
  exact ⟨second, rfl, hsecond⟩

section Rows

variable {m : Model} {body : Nat → Text}

/-- Texts that spell shapes, joined by separators. -/
theorem spellRow_joined : ∀ {shapes : List Shape} {items : List Nat} (index : Nat),
    m.HaveShapes shapes items →
    (∀ x ∈ items, ∀ shape, m.HasShape shape x → shape.Spells (body x)) →
    Shape.SpellRow (index = 0) shapes (joinedFrom comma index (items.map body))
  | [], items, index, h, _ => by
    obtain rfl : items = [] := h
    rfl
  | shape :: rest, items, index, h, hbody => by
    obtain ⟨a, others, rfl, hshape, hshapes⟩ := h
    have htail := spellRow_joined (index + 1) hshapes fun x hx => hbody x (List.mem_cons_of_mem a hx)
    rw [decide_eq_false (Nat.succ_ne_zero index)] at htail
    refine ⟨leadAt comma index, body a, _, ?_, leading_leadAt index,
      hbody a List.mem_cons_self shape hshape, htail⟩
    rw [List.map_cons, joinedFrom, List.append_assoc]
    rfl

/-- The text of a cell made from the model alone. -/
theorem Model.text_spells : ∀ {depth a : Nat}, m.Unfolds depth a → m.Legible a →
    (∀ {bracketed items read}, m.cells[a]? = some (.list bracketed items read) → bracketed = true) →
    ∀ shape, m.HasShape shape a → shape.Spells (m.text comma depth a)
  | 0, _, h, _, _, _, _ => h.elim
  | depth + 1, a, h, hlegible, hbracketed, .word name loudness, hshape => by
    obtain ⟨read, hcell⟩ := hshape
    obtain ⟨hname, hchars⟩ := hlegible.names (.refl a) hcell
    rw [Model.text, hcell]
    exact ⟨hname, hchars, rfl⟩
  | depth + 1, a, h, hlegible, hbracketed, .list shapes, hshape => by
    obtain ⟨bracketed, items, read, hcell, hshapes⟩ := hshape
    obtain rfl := hbracketed hcell
    have hitems := Model.items_list hcell
    have hrow : Shape.SpellRow true shapes (joinedFrom comma 0 (items.map (m.text comma depth))) :=
      spellRow_joined 0 hshapes fun x hx => by
        rw [← hitems] at hx
        exact Model.text_spells (h.2 x hx) (hlegible.item hx)
          fun hx' => hlegible.brackets (.refl a) hx hx'
    rw [Model.text, hcell]
    refine ⟨_, [], ?_, hrow, Or.inl .nil⟩
    rw [List.append_nil]
    rfl

end Rows

/-! ## Text made from the source -/

namespace Entry

variable {text : Text} {m : Model} {hang : Text → Text} {body : Nat → Text}

/-- Texts that spell shapes, with separators between them and indented. -/
theorem rewritten_spells (hhang : ∀ t, Hung t (hang t)) : ∀ {shapes : List Shape}
    {current : List Nat} (index : Nat), m.HaveShapes shapes current →
    (∀ x ∈ current, ∀ shape, m.HasShape shape x → shape.Spells (body x)) →
    Shape.SpellRow (index = 0) shapes (rewritten comma hang body index current)
  | [], current, index, h, _ => by
    obtain rfl : current = [] := h
    rfl
  | shape :: rest, current, index, h, hbody => by
    obtain ⟨a, others, rfl, hshape, hshapes⟩ := h
    have htail := rewritten_spells hhang (index + 1) hshapes
      fun x hx => hbody x (List.mem_cons_of_mem a hx)
    rw [decide_eq_false (Nat.succ_ne_zero index)] at htail
    obtain ⟨item, hitem, hhung⟩ := hung_leadAt (hhang (leadAt comma index ++ body a))
    refine ⟨leadAt comma index, item, _, ?_, leading_leadAt index,
      (hbody a List.mem_cons_self shape hshape).hung hhung, htail⟩
    rw [rewritten, hitem, List.append_assoc]

/-- Before each item that is left there are spaces and its delimiter. -/
def Spaced (text : Text) : Nat → List Entry → Prop
  | _, [] => True
  | a, c :: rest => Blank (text.piece a (c.cut text comma)) ∧ Parting (c.joint text comma 1) ∧
    Spaced text c.stop rest

/-- Of items that are gone, spaces are left, and what stood behind the last
one. -/
theorem stripped_spaced (stop : Nat) : ∀ {entries : List Entry} {a : Nat}, Spaced text a entries →
    ∃ gap, stripped text comma a entries stop = gap ++ text.piece (rowStop a entries) stop ∧ Blank gap
  | [], a, _ => ⟨[], rfl, .nil⟩
  | c :: rest, a, h => by
    obtain ⟨gap, hrest, hgap⟩ := stripped_spaced stop h.2.2
    refine ⟨text.piece a (c.cut text comma) ++ gap, ?_, h.1.append hgap⟩
    rw [stripped, hrest, rowStop, List.append_assoc]

/-- The items in front of an item that is kept. -/
theorem Spaced.split {c : Entry} {more : List Entry} : ∀ {gone : List Entry} {a : Nat},
    Spaced text a (gone ++ c :: more) →
    Blank (stripped text comma a gone (c.cut text comma)) ∧ Parting (c.joint text comma 1) ∧
      Spaced text c.stop more ∧ rowStop a (gone ++ c :: more) = rowStop c.stop more
  | [], a, h => ⟨h.1, h.2.1, h.2.2, rfl⟩
  | d :: gone, a, h => by
    obtain ⟨hblank, hjoint, hmore, hstop⟩ := Spaced.split h.2.2
    exact ⟨h.1.append hblank, hjoint, hmore, hstop⟩

/-- The delimiter of an item that is kept. -/
theorem joint_leading {c : Entry} {before : Text} (hbefore : Blank before)
    (hjoint : Parting (c.joint text comma 1)) (index : Nat) :
    Leading (index = 0) (before ++ c.joint text comma index) := by
  by_cases hindex : index = 0
  · rw [joint, if_pos hindex, List.append_nil, decide_eq_true hindex]
    exact hbefore
  · have hsame : c.joint text comma index = c.joint text comma 1 := by
      rw [joint, if_neg hindex, joint, if_neg Nat.one_ne_zero]
    rw [hsame, decide_eq_false hindex]
    exact .append hbefore hjoint

/-- The items that are left, with the objects that are to come. -/
theorem woven_spells (stop : Nat) (hhang : ∀ t, Hung t (hang t)) {entries : List Entry}
    {current : List Nat} (h : Aligned address entries current) : ∀ {shapes : List Shape} {a : Nat} (index : Nat),
    Spaced text a entries → m.HaveShapes shapes current →
    (∀ x ∈ current, ∀ shape, m.HasShape shape x → shape.Spells (body x)) →
    ∃ row gap, woven text comma hang body stop a index entries current =
        row ++ (gap ++ text.piece (rowStop a entries) stop) ∧
      Shape.SpellRow (index = 0) shapes row ∧ Blank gap := by
  induction h with
  | nil entries =>
    intro shapes a index hspaced hshapes _
    obtain ⟨gap, hgap, hblank⟩ := stripped_spaced stop hspaced
    cases shapes with
    | nil => exact ⟨[], gap, by rw [woven, hgap, List.nil_append], rfl, hblank⟩
    | cons shape rest =>
      obtain ⟨a, others, hnil, _⟩ := hshapes
      cases hnil
  | @fresh entries x rest new tail ih =>
    intro shapes a index hspaced hshapes hbody
    cases shapes with
    | nil => cases hshapes
    | cons shape more =>
      obtain ⟨_, _, hcons, hshape, hmore⟩ := hshapes
      cases hcons
      obtain ⟨row, gap, hwoven, hrow, hgap⟩ := ih (index + 1) hspaced hmore
        fun y hy => hbody y (List.mem_cons_of_mem x hy)
      rw [decide_eq_false (Nat.succ_ne_zero index)] at hrow
      obtain ⟨item, hitem, hhung⟩ := hung_leadAt (hhang (leadAt comma index ++ body x))
      refine ⟨leadAt comma index ++ (item ++ row), gap, ?_, ⟨leadAt comma index, item, row, rfl,
        leading_leadAt index, (hbody x List.mem_cons_self shape hshape).hung hhung, hrow⟩, hgap⟩
      rw [woven_fresh new, hwoven, hitem]
      simp only [List.append_assoc]
  | @keep gone more c rest absent new tail ih =>
    intro shapes a index hspaced hshapes hbody
    cases shapes with
    | nil => cases hshapes
    | cons shape others =>
      obtain ⟨_, _, hcons, hshape, hothers⟩ := hshapes
      cases hcons
      obtain ⟨hblank, hjoint, hspaced', hstop⟩ := hspaced.split
      obtain ⟨row, gap, hwoven, hrow, hgap⟩ := ih (index + 1) hspaced' hothers
        fun y hy => hbody y (List.mem_cons_of_mem _ hy)
      rw [decide_eq_false (Nat.succ_ne_zero index)] at hrow
      refine ⟨stripped text comma a gone (c.cut text comma) ++ c.joint text comma index ++
        (body c.address ++ row), gap, ?_, ⟨_, body c.address, row, rfl, joint_leading hblank hjoint index,
        hbody _ List.mem_cons_self shape hshape, hrow⟩, hgap⟩
      rw [woven_keep fun d hd heq => absent d hd (heq ▸ List.mem_cons_self), hwoven, hstop]
      simp only [List.append_assoc]

/-- The text of the items of an edited list. -/
theorem toldItems_spells (hhang : ∀ t, Hung t (hang t)) {e : Entry} (hlist : e.IsList text)
    (hspaced : Spaced text e.inner e.items) {shapes : List Shape} {current : List Nat}
    (hshapes : m.HaveShapes shapes current)
    (hbody : ∀ x ∈ current, ∀ shape, m.HasShape shape x → shape.Spells (body x)) :
    ∃ lead row gap, e.toldItems text comma hang body current =
        lead ++ (row ++ (gap ++ text.piece (rowStop e.inner e.items) e.outer)) ∧
      Blank lead ∧ Shape.SpellRow true shapes row ∧ Blank gap := by
  cases hitems : e.items with
  | nil =>
    have hrow : Shape.SpellRow true shapes (joinedFrom comma 0 (current.map body)) :=
      spellRow_joined 0 hshapes hbody
    exact ⟨[], _, [], toldItems_nil hitems, .nil, hrow.hung (hhang _), .nil⟩
  | cons first others =>
    have hne : e.items ≠ [] := hitems ▸ List.cons_ne_nil first others
    cases horder : (e.loadedList comma).isReordered current with
    | true =>
      have hahead : Blank (text.piece e.inner first.start) := by
        have hchain := hlist.chain
        rw [hitems, Chain] at hchain
        exact Spaces.chars hchain.1
      refine ⟨_, _, [], ?_, hahead, rewritten_spells hhang 0 hshapes hbody, .nil⟩
      rw [toldItems_rewritten hitems horder, hitems, List.append_assoc, List.nil_append]
    | false =>
      rcases e.exists_first_listed current with habsent | ⟨gone, c, more, hsplit, habsent, hlisted⟩
      · have haligned : Aligned address e.items current :=
          aligned_of_not_reordered horder (show e.items = [] ++ e.items from rfl)
            fun d hd => absurd hd List.not_mem_nil
        obtain ⟨row, gap, hwoven, hrow, hgap⟩ :=
          woven_spells e.outer hhang haligned 0 hspaced hshapes hbody
        refine ⟨[], row, gap, ?_, .nil, hrow, hgap⟩
        rw [toldItems_absent hne horder habsent, hwoven, List.nil_append, hitems]
      · have haligned : Aligned address (c :: more) current :=
          aligned_of_not_reordered horder hsplit habsent
        rw [hsplit] at hspaced
        obtain ⟨hblank, hjoint, hmore, hstop⟩ := hspaced.split
        have hspaced' : Spaced text (c.cut text comma) (c :: more) := by
          refine ⟨?_, hjoint, hmore⟩
          rw [Text.piece_self]
          exact .nil
        obtain ⟨row, gap, hwoven, hrow, hgap⟩ :=
          woven_spells e.outer hhang haligned 0 hspaced' hshapes hbody
        refine ⟨_, row, gap, ?_, hblank, hrow, hgap⟩
        rw [toldItems_listed hsplit horder habsent hlisted, hwoven, ← hitems, hsplit, hstop, rowStop]

end Entry

end Reprint.WordList
