import Reprint.Proofs.WordList.Canonical
import Reprint.Proofs.WordList.NormalText

/-!
# The text of a model, read again

A tree that was never located prints its root as the text that the model
gives (`Bare.prints`), whether the model was made without a text or is an
edited document.  For a legible model with a separator that the reader
accepts, this text is the canonical spelling of the shapes of the model.
So it is read as these shapes, and when it is loaded with the same
separator, nothing is missing in it, and it is printed as it is
(`readDocument_shown`).
-/

namespace Reprint.WordList

open Reprint.Tree

/-- All renders of a tree print the root, with the source around it and
without, as the same text. -/
def PrintsAs (m : Model) (t : Tree Model Nat) (printed : Text) : Prop :=
  ∀ u, Rendered m t u →
    (∃ v, printRoot m u = .ok printed v) ∧ ∃ v, printSource m u = .ok printed v

/-- The root is a list without brackets. -/
def Model.IsPlain (m : Model) : Prop :=
  ∃ items read, m.cells[m.root]? = some (.list false items read)

/-! ## Trees that are not located -/

section Bare

variable {text separator : Text} {m : Model} {t : Tree Model Nat}

/-- A new tree for a model with a plain root.  The root may have been
another list when the tree was made. -/
theorem bare_of_plain {source : Text} {m₀ : Model}
    (h : ofRoot (language text separator) m₀ source m₀.root = .ok t) (hroot : m.root = m₀.root)
    (hplain₀ : m₀.IsPlain) (hplain : m.IsPlain)
    (hplaced : ∀ {a : Nat}, a < m.cells.size → ∃ l place, layout text separator m a = some l ∧
      placeOf (.ofText source) l.origin = .ok place) :
    Bare text separator m 0 t ∧ ∃ n, t.nodes[Tree.root]? = some n ∧ n.object = m.root := by
  obtain ⟨l₀, place, hlayout₀, hplace, hmade, hnode⟩ := node_of_ofRoot h
  have hl₀ : layout text separator m₀ m₀.root = some l₀ := hlayout₀
  obtain ⟨items₀, read₀, hcell₀⟩ := hplain₀
  obtain ⟨items, read, hcell⟩ := hplain
  rw [layout_list hcell₀, Option.some.injEq] at hl₀
  obtain ⟨n, hn, _⟩ := (wellFormed_ofRoot h).root
  refine ⟨⟨?_, ?_, (wellFormed_ofRoot h).toTied, Nat.zero_le _, fun _ hk => ?_, fun _ hk => ?_⟩,
    n, hn, by rw [hnode hn, hroot]⟩
  · rw [hmade, language_addNode]
  · rw [hmade, source_addNode]
    exact hplaced
  · rw [hnode hk]
    cases place with
    | none => rfl
    | some p =>
      rw [(placeOf_eq_ok hplace).2]
      rfl
  · rw [hnode hk, ← hroot]
    exact ⟨_, layout_list hcell, by rw [← hl₀, hroot]⟩

/-- A tree that is not located prints the text of the model, whatever was
rendered before. -/
theorem Bare.prints (h : Bare text separator m 0 t)
    (hroot : ∃ n, t.nodes[Tree.root]? = some n ∧ n.object = m.root)
    (hunfolds : m.Unfolds m.cells.size m.root) : PrintsAs m t (m.shown separator m.root) := by
  let P (u : Tree Model Nat) : Prop :=
    Bare text separator m 0 u ∧ ∃ n, u.nodes[Tree.root]? = some n ∧ n.object = m.root
  -- Printing the root to a depth that is large enough.
  have hprint : ∀ {u : Tree Model Nat} {depth : Nat}, P u → m.cells.size ≤ depth →
      ∃ v, printWithin m depth Tree.root u.settings.margin u = .ok (m.shown separator m.root) v ∧
        P v := by
    rintro u depth ⟨hu, n, hn, hobject⟩ hdepth
    obtain ⟨v, hrun, hv, hextends⟩ := Bare.printWithin_runs depth Tree.root u.settings.margin u n hu
      (Nat.zero_le _) hn (by rw [hobject]; exact hunfolds.mono hdepth) rfl
    rw [hobject, Model.text_eq_shown (hunfolds.mono hdepth) hunfolds] at hrun
    obtain ⟨k, hk, hextends⟩ := hextends.node hn
    exact ⟨v, hrun, hv, k, hk, hextends.object.trans hobject⟩
  have hdepth : ∀ {u : Tree Model Nat}, P u → m.cells.size ≤ u.depthBound m := by
    intro u hu
    rw [depthBound, hu.1.language]
    show m.cells.size ≤ _ + m.cells.size + 1
    omega
  have hroot' : ∀ {u : Tree Model Nat}, P u →
      ∃ v, printRoot m u = .ok (m.shown separator m.root) v ∧ P v :=
    fun hu => hprint hu (hdepth hu)
  have hunlocated : ∀ {u : Tree Model Nat}, P u →
      ∃ n, u.nodes[Tree.root]? = some n ∧ n.located? = none := by
    rintro u ⟨hu, n, hn, _⟩
    exact ⟨n, hn, by simpa [Node.isLocated] using hu.unlocated (Nat.zero_le _) hn⟩
  have hkeeps : ∀ {u : Tree Model Nat}, Rendered m t u → P u := by
    intro u hu
    induction hu with
    | refl => exact ⟨h, hroot⟩
    | root _ ih =>
      obtain ⟨v, hrun, hv⟩ := hroot' ih
      rw [Job.after, hrun]
      exact hv
    | source _ ih =>
      obtain ⟨v, hrun, hv⟩ := hroot' ih
      rw [after_printSource, Job.after, hrun]
      exact hv
    | @mapped u _ file ih =>
      obtain ⟨n, hn, hnone⟩ := hunlocated ih
      obtain ⟨v, hrun, hv⟩ := hprint ih (Nat.le_succ_of_le (hdepth ih))
      have hnormal : Tree.printNormal m Tree.root u.settings.margin u =
          .ok (m.shown separator m.root) v := (printWithin_of_normal hn hnone).symm.trans hrun
      unfold Job.after printMapped
      simp only [node_eq_ok.2 hn, hnone, hnormal]
      exact hv
  intro u hu
  obtain ⟨v, hrun, hv⟩ := hroot' (hkeeps hu)
  obtain ⟨n, hn, hnone⟩ := hunlocated hv
  refine ⟨⟨v, hrun⟩, v, ?_⟩
  simp only [printSource, bind, EStateM.bind, hrun, Job.get_eq, node_eq_ok.2 hn, hnone, pure,
    EStateM.pure]

end Bare

/-! ## Canonical documents -/

/-- A canonical document that is loaded with its separator is printed as
it is. -/
theorem ofSource_canonical {separator : Text} {shapes : List Shape} {reread : Item}
    (hread : readDocument (Shape.textOf separator true shapes) = .ok reread)
    (hdocument : reread = Shape.document separator shapes) :
    ∃ t, ofSource (language (Shape.textOf separator true shapes) separator) (.ofItem reread)
        (Shape.textOf separator true shapes) (Model.ofItem reread).root = .ok t ∧
      PrintsAs (.ofItem reread) t (Shape.textOf separator true shapes) := by
  have hgaps : reread.unseparated (Shape.textOf separator true shapes) separator = [] := by
    rw [hdocument, separated_document]
  have hedition := (Model.Edited.refl reread).edition hread (Model.confined_ofItem hread)
  have hsize := (Model.Edited.refl reread).unfolds (Model.acyclic_ofItem reread)
  have hlaid := laid_ofItem hread
  have htold : (Entry.ofItem reread).told (Shape.textOf separator true shapes) separator
      (.ofItem reread) = Shape.textOf separator true shapes := by
    have hunedited := (@Entry.told_unedited _ separator _ (.ofItem reread) (holding_ofItem reread)
      hlaid).2
    have hgaps' : (Entry.ofItem reread).item.unseparated (Shape.textOf separator true shapes)
      separator = [] := hgaps
    rw [hunedited, hgaps', Text.pieceWith]
    have hstart : (Entry.ofItem reread).start = 0 := by rw [hdocument]; rfl
    have hstop : (Entry.ofItem reread).stop = (Shape.textOf separator true shapes).length := by
      rw [hdocument]; rfl
    rw [hstart, hstop, Text.piece_zero_length]
  have hsource : toldSource (Shape.textOf separator true shapes) separator (.ofItem reread)
      (.ofItem reread) = Shape.textOf separator true shapes := by
    rw [toldSource_unedited hread, separated, hgaps, Text.pieceWith, Text.piece_zero_length]
  obtain ⟨t, hload, ht⟩ := @ofSource_standing _ separator _ hread (.ofItem reread)
  refine ⟨t, hload, fun u hu => ?_⟩
  have hstanding := ht.rendered hedition hsize hu
  obtain ⟨v, hrun, _⟩ := printRoot_told hedition hsize u hstanding
  obtain ⟨w, hrun', _⟩ := printSource_told hedition hsize u hstanding
  rw [htold] at hrun
  rw [hsource] at hrun'
  exact ⟨⟨v, hrun⟩, w, hrun'⟩

/-! ## Models -/

/-- The shapes of the items of a plain root, and the text of the root. -/
theorem Model.shown_root {m : Model} {separator : Text} (hunfolds : m.Unfolds m.cells.size m.root)
    (hlegible : m.Legible m.root) (hplain : m.IsPlain) :
    ∃ shapes, m.HasShape (.list shapes) m.root ∧ Shape.AllLegible shapes ∧
      m.shown separator m.root = Shape.textOf separator true shapes := by
  obtain ⟨items, read, hcell⟩ := hplain
  have hitems := Model.items_list hcell
  obtain ⟨depth, hdepth⟩ : ∃ depth, m.cells.size = depth + 1 :=
    ⟨m.cells.size - 1, by have := hunfolds.lt; omega⟩
  rw [hdepth] at hunfolds
  obtain ⟨shapes, hshapes⟩ := Model.exists_haveShapes items fun x hx =>
    (hunfolds.2 x (by rwa [hitems])).exists_hasShape
  have hbody : ∀ x ∈ items, ∀ shape, m.HasShape shape x →
      m.text separator depth x = shape.text separator ∧ shape.Legible := by
    intro x hx
    rw [← hitems] at hx
    exact Model.text_eq_of_hasShape (hunfolds.2 x hx) (hlegible.item hx)
      fun hx' => hlegible.brackets (.refl _) hx hx'
  obtain ⟨htext, hlegible'⟩ := joinedFrom_eq_textOf 0 hshapes hbody
  refine ⟨shapes, ⟨false, items, read, hcell, hshapes⟩, hlegible', ?_⟩
  rw [Model.shown, hdepth, Model.text, hcell]
  simp only [htext, opening, closing, Bool.false_eq_true, if_false, List.nil_append, List.append_nil,
    decide_true]

/-- A model with a plain root, in which no cell contains itself, names are
words and nested lists have brackets, is printed as text that is read as a
document with the shape of the model.  That document, loaded with the same
separator, is printed as the same text.  The tree may be one of a model that
was not read, or one of an edited document that was not located, and it may
be older than the last edits of the model. -/
theorem readDocument_shown {separator : Text} {m : Model} (hseparator : Parting separator)
    (hacyclic : m.Acyclic) (hitems : ∀ {a b : Nat}, b ∈ m.items a → b < m.cells.size)
    (hlegible : m.Legible m.root) (hplain : m.IsPlain) :
    (∀ text m₀, (∀ a, m.bytes? a = none) → m.root = m₀.root →
      (∃ items, m₀.cells[m₀.root]? = some (.list false items none)) →
      ∃ t, ofModel (language text separator) m₀ m₀.root = .ok t ∧
        PrintsAs m t (m.shown separator m.root)) ∧
    (∀ text item m₀, readDocument text = .ok item → (Model.ofItem item).Edited m →
      (Model.ofItem item).Edited m₀ → m₀.IsPlain →
      ∃ t, ofRoot (language text separator) m₀ text m₀.root = .ok t ∧
        PrintsAs m t (m.shown separator m.root)) ∧
    ∃ shapes reread, readDocument (m.shown separator m.root) = .ok reread ∧
      reread.shape = .list shapes ∧ m.HasShape (.list shapes) m.root ∧
      ∃ t, ofSource (language (m.shown separator m.root) separator) (.ofItem reread)
          (m.shown separator m.root) (Model.ofItem reread).root = .ok t ∧
        PrintsAs (.ofItem reread) t (m.shown separator m.root) := by
  obtain ⟨items, read, hcell⟩ := hplain
  have hlt := (Array.getElem?_eq_some_iff.1 hcell).1
  have hunfolds := hacyclic.unfolds hitems hlt
  refine ⟨fun text m₀ hunread hroot hplain₀ => ?_, fun text item m₀ hread hm hm₀ hplain₀ => ?_, ?_⟩
  · -- Cells that were not read have no place.
    have hplaced : ∀ {a : Nat}, a < m.cells.size → ∃ l place,
        layout text separator m a = some l ∧ placeOf (.ofText []) l.origin = .ok place := by
      intro a ha
      have hc := Array.getElem?_eq_getElem ha
      obtain ⟨parts, hlayout⟩ := layout_origin text separator hc
      have hnone : (m.cells[a]).bytes? = none := by
        have hbytes := hunread a
        rwa [Model.bytes?, hc, Option.bind_some] at hbytes
      rw [hnone] at hlayout
      exact ⟨_, none, hlayout, rfl⟩
    obtain ⟨items₀, hcell₀⟩ := hplain₀
    obtain ⟨t, hmade⟩ := exists_ofRoot (layout_list hcell₀)
      (show placeOf (.ofText []) none = .ok none from rfl)
    obtain ⟨hbare, hobject⟩ :=
      bare_of_plain hmade hroot ⟨items₀, none, hcell₀⟩ ⟨items, read, hcell⟩ hplaced
    exact ⟨t, hmade, hbare.prints hobject hunfolds⟩
  · have hascii := isAscii_of_readDocument hread
    have hlaid := laid_ofItem hread
    obtain ⟨items₀, read₀, hcell₀⟩ := hplain₀
    obtain ⟨l, place, hlayout, hplace, _⟩ := hm₀.redone.layout separator hascii hlaid
      (Array.getElem?_eq_some_iff.1 hcell₀).1
    obtain ⟨t, hmade⟩ := exists_ofRoot hlayout hplace
    obtain ⟨hbare, hobject⟩ := bare_of_plain hmade (hm.root.trans hm₀.root.symm)
      ⟨items₀, read₀, hcell₀⟩ ⟨items, read, hcell⟩ fun ha => by
        obtain ⟨l, place, hlayout, hplace, _⟩ := hm.redone.layout separator hascii hlaid ha
        exact ⟨l, place, hlayout, hplace⟩
    exact ⟨t, hmade, hbare.prints hobject hunfolds⟩
  · obtain ⟨shapes, hshape, hwords, hshown⟩ :=
      Model.shown_root hunfolds hlegible ⟨items, read, hcell⟩
    have hread := readDocument_canonical hseparator hwords
    rw [hshown]
    exact ⟨shapes, Shape.document separator shapes, hread,
      by rw [Shape.document, Item.shape, Shape.shapes_itemsAt], hshape, ofSource_canonical hread rfl⟩

/-- A model of a loud word, a list with a word and an empty list. -/
def loudModel : Model where
  cells := #[.word ['a'] (some true) none, .word ['b'] none none, .list true [1] none,
    .list true [] none, .list false [0, 2, 3] none]
  root := 4

/-- With a separator that takes two lines. -/
theorem readDocument_loudModel :
    loudModel.shown " ,\n".toList 4 = "a! ,\n[b] ,\n[]".toList ∧
    (∃ t, ofModel (language [] " ,\n".toList) loudModel 4 = .ok t ∧
      PrintsAs loudModel t "a! ,\n[b] ,\n[]".toList) ∧
    ∃ shapes reread, readDocument "a! ,\n[b] ,\n[]".toList = .ok reread ∧
      reread.shape = .list shapes ∧ loudModel.HasShape (.list shapes) 4 ∧
      ∃ t, ofSource (language "a! ,\n[b] ,\n[]".toList " ,\n".toList) (.ofItem reread)
          "a! ,\n[b] ,\n[]".toList (Model.ofItem reread).root = .ok t ∧
        PrintsAs (.ofItem reread) t "a! ,\n[b] ,\n[]".toList := by
  have hshown : loudModel.shown " ,\n".toList 4 = "a! ,\n[b] ,\n[]".toList := by decide +kernel
  have hitems : ∀ a, ∀ b ∈ loudModel.items a, b < a
    | 0, _, h | 1, _, h | 3, _, h => absurd h List.not_mem_nil
    | 2, b, h => by
      have hmem : b ∈ [1] := h
      simp at hmem
      omega
    | 4, b, h => by
      have hmem : b ∈ [0, 2, 3] := h
      simp at hmem
      omega
    | a + 5, b, h => by
      have hnone : loudModel.items (a + 5) = [] := by
        rw [Model.items, Array.getElem?_eq_none (show loudModel.cells.size ≤ a + 5 from by
          show 5 ≤ a + 5
          omega)]
      rw [hnone] at h
      exact absurd h List.not_mem_nil
  have hlt : ∀ {a b : Nat}, b ∈ loudModel.items a → b < loudModel.cells.size := by
    intro a b hb
    obtain ⟨c, hc, _⟩ := Model.exists_of_mem_items hb
    exact Nat.lt_trans (hitems a b hb) (Array.getElem?_eq_some_iff.1 hc).1
  have hcells : ∀ b (c : Cell), loudModel.cells[b]? = some c →
      c = .word ['a'] (some true) none ∨ c = .word ['b'] none none ∨ c = .list true [1] none ∨
        c = .list true [] none ∨ b = 4 ∧ c = .list false [0, 2, 3] none := by
    intro b c hc
    have hmem : b < 5 := (Array.getElem?_eq_some_iff.1 hc).1
    have hcases : b = 0 ∨ b = 1 ∨ b = 2 ∨ b = 3 ∨ b = 4 := by omega
    rcases hcases with rfl | rfl | rfl | rfl | rfl <;> obtain rfl := Option.some.inj hc
    · exact Or.inl rfl
    · exact Or.inr (Or.inl rfl)
    · exact Or.inr (Or.inr (Or.inl rfl))
    · exact Or.inr (Or.inr (Or.inr (Or.inl rfl)))
    · exact Or.inr (Or.inr (Or.inr (Or.inr ⟨rfl, rfl⟩)))
  have hlegible : loudModel.Legible 4 := by
    refine ⟨fun {b name loudness read} _ hb => ?_, fun {b c bracketed items read} _ hc hcell => ?_⟩
    · rcases hcells b _ hb with h | h | h | h | ⟨_, h⟩ <;> cases h <;>
        exact ⟨List.cons_ne_nil _ _, List.forall_mem_singleton.2 (by decide)⟩
    · have hb : b < 5 := by
        obtain ⟨k, hk, _⟩ := Model.exists_of_mem_items hc
        exact (Array.getElem?_eq_some_iff.1 hk).1
      have hless := hitems b c hc
      rcases hcells c _ hcell with h | h | h | h | ⟨hfour, h⟩ <;> cases h <;>
        first
          | rfl
          | omega
  have hunread : ∀ a, loudModel.bytes? a = none := by
    intro a
    unfold Model.bytes?
    cases hcell : loudModel.cells[a]? with
    | none => rfl
    | some c =>
      rcases hcells a c hcell with rfl | rfl | rfl | rfl | ⟨_, rfl⟩ <;> rfl
  have hparting : Parting " ,\n".toList :=
    ⟨[' '], ',', ['\n'], rfl, List.forall_mem_singleton.2 (by decide), rfl,
      List.forall_mem_singleton.2 (by decide)⟩
  obtain ⟨hmodel, _, hread⟩ :=
    readDocument_shown hparting (.of_lt hitems) hlt hlegible ⟨_, _, rfl⟩
  rw [show loudModel.root = 4 from rfl, hshown] at hread hmodel
  exact ⟨hshown, hmodel [] loudModel hunread rfl ⟨_, rfl⟩, hread⟩

end Reprint.WordList
