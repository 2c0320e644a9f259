import Reprint.Proofs.Patch.Mapped
import Reprint.Proofs.Tree.Reached
import Reprint.Proofs.WordList.Revised

/-!
# Renders of an edited document

The text of a located document for an edited model is the source with the
text of the root put in (`printSource_told`).  It does not depend on the
tree, and a render leaves a tree for which that is still true, so all
renders between two edits give the same text (`printSource_stable`).

That takes a model that is confined: an item that was read may be moved,
but not out of the text of a list that is still in its place.  Elsewhere
a render makes a node that grows the spans of the nodes above, and the
next one works with other spans.
-/

namespace Reprint.WordList

open Reprint.Tree

section Render

variable {text separator : Text} {r : Entry} {m : Model}

/-- A model in which no cell that can be reached contains itself, so the
depth of the tree bounds it. -/
theorem Standing.unfolds_depthBound {t : Tree Model Nat} (h : Standing text separator r m t)
    {a : Nat} (ha : m.Unfolds m.cells.size a) : m.Unfolds (t.depthBound m) a := by
  refine ha.mono ?_
  rw [depthBound, h.language]
  show m.cells.size ≤ _ + m.cells.size + 1
  omega

/-- Rendering the root. -/
theorem printRoot_told (hm : Edition text r m) (hsize : m.Unfolds m.cells.size r.address) :
    Runs (Standing text separator r m) (Tree.printRoot m) (r.told text separator m)
      (Standing text separator r m) := by
  intro t ht
  obtain ⟨t', hrun, ht'⟩ := printWithin_told hm (t.depthBound m) r t.settings.margin .refl
    (ht.unfolds_depthBound hsize) hsize t ht
  rw [hm.root] at hrun
  exact ⟨t', hrun, ht'⟩

/-- The text of a document for an edited model. -/
def toldSource (text separator : Text) (m : Model) (r : Entry) : Text :=
  text.piece 0 r.start ++ r.told text separator m ++ text.piece r.stop text.length

/-- Rendering the root with the source around it. -/
theorem printSource_told (hm : Edition text r m) (hsize : m.Unfolds m.cells.size r.address) :
    Runs (Standing text separator r m) (Tree.printSource m) (toldSource text separator m r)
      (Standing text separator r m) := by
  intro t ht
  have hcount := Source.charCount_ofText text
  obtain ⟨u, hrun, hu⟩ := printRoot_told hm hsize t ht
  obtain ⟨n, hn, hloaded, _⟩ := hu.loaded (.refl r)
  obtain ⟨p, hp, hlocated, _, _⟩ := hloaded.place
  have hspan := hloaded.sits.span
  rw [Node.span?, hp, Option.map_some, Option.some.injEq] at hspan
  rw [hm.root] at hn
  have hbounds := hm.laid.bounds
  have hstart : p.span.start = (Source.ofText text).place r.start := by
    rw [hspan, Entry.span, start_window hbounds.1 (by omega)]
  have hstop : p.span.stop = (Source.ofText text).place r.stop := by
    rw [hspan, Entry.span, stop_window hbounds.1 (by omega)]
  have hbefore : u.source.extract ⟨u.source.start, p.span.start⟩ = .ok (text.piece 0 r.start) := by
    rw [hu.source, hstart, ← Source.place_zero,
      Source.extract_place (Nat.zero_le _) (by omega), Source.text_ofText]
  have hbehind : u.source.extract ⟨p.span.stop, u.source.stop⟩ =
      .ok (text.piece r.stop text.length) := by
    rw [hu.source, hstop, ← Source.place_charCount,
      Source.extract_place (by omega) (Nat.le_refl _), Source.text_ofText, hcount]
  refine ⟨u, ?_, hu⟩
  simp only [Tree.printSource, bind, EStateM.bind, hrun, Job.get_eq,
    node_eq_ok.2 (show u.nodes[Tree.root]? = some n from hn),
    Node.located?_eq_some.2 ⟨hp, hlocated⟩, hbefore, hbehind]
  rfl

/-- Rendering the root together with a source map. -/
theorem printMapped_told (hm : Edition text r m) (hsize : m.Unfolds m.cells.size r.address)
    (file : Text) {t : Tree Model Nat} (ht : Standing text separator r m t) :
    ∃ map u, Tree.printMapped m file t = .ok (r.told text separator m, map) u ∧
      Standing text separator r m u := by
  have hbelow := printWithin_below separator hm .refl (t.depthBound m)
    (fun x hx => ht.unfolds_depthBound (hsize.item hx)) hsize
    fun c hc hlisted margin => printWithin_told hm _ c margin (.item .refl hc hlisted)
      (ht.unfolds_depthBound (hsize.item hlisted)) (hsize.item hlisted)
  obtain ⟨n, p, hn, hlocated, _, patch, u, hrun, htext, hu⟩ :=
    patchOf_told hm (.refl r) (fun unit hunit => (hbelow unit hunit).1)
      (fun unit hunit => (hbelow unit hunit).2) ht
  obtain ⟨map, hmap⟩ := Patch.exists_toSourceMap htext file
  rw [hm.root] at hn hrun
  have hpatch : patchOf (printWithin m (t.depthBound m)) m Tree.root n.parts p t = .ok patch u := hrun
  refine ⟨map, u, ?_, hu⟩
  unfold Tree.printMapped
  simp only [node_eq_ok.2 (show t.nodes[Tree.root]? = some n from hn), hlocated, hpatch, htext, hmap]

/-- Renders of any kind keep the tree. -/
theorem Standing.rendered {t u : Tree Model Nat} (hm : Edition text r m)
    (hsize : m.Unfolds m.cells.size r.address) (h : Standing text separator r m t)
    (hu : Rendered m t u) : Standing text separator r m u := by
  have hroot : ∀ {v : Tree Model Nat}, Standing text separator r m v →
      Standing text separator r m ((Tree.printRoot m).after v) := by
    intro v hv
    obtain ⟨w, hrun, hw⟩ := printRoot_told hm hsize v hv
    rw [Job.after, hrun]
    exact hw
  induction hu with
  | refl => exact h
  | root _ ih => exact hroot ih
  | source _ ih =>
    rw [after_printSource]
    exact hroot ih
  | mapped _ file ih =>
    obtain ⟨map, w, hrun, hw⟩ := printMapped_told hm hsize file ih
    rw [Job.after, hrun]
    exact hw

end Render

/-! ## Documents -/

/-- A document and an edited model of it. -/
theorem Model.Edited.edition {text : Text} {item : Item} {m : Model}
    (hread : readDocument text = .ok item) (hm : (Model.ofItem item).Edited m)
    (hconfined : Model.Confined (.ofItem item) m) : Edition text (.ofItem item) m where
  ascii := isAscii_of_readDocument hread
  laid := laid_ofItem hread
  root := rfl
  top := rfl
  redone := hm.redone
  confines := hconfined.confines hm

/-- The chains of cells of an edited model are bounded. -/
theorem Model.Edited.unfolds {item : Item} {m : Model} (hm : (Model.ofItem item).Edited m)
    (hacyclic : m.Acyclic) : m.Unfolds m.cells.size (Entry.ofItem item).address := by
  have hroot := hm.redone.root
  obtain ⟨c, hc, _⟩ := hm.redone.cell (.refl (.ofItem item))
  have hlt := (Array.getElem?_eq_some_iff.1 hc).1
  rw [← hroot] at hlt ⊢
  exact hacyclic.unfolds hm.items hlt

/-- A document is loaded, and its tree stands for any model that is an
edit of the one that was read. -/
theorem ofSource_standing {text separator : Text} {item : Item}
    (hread : readDocument text = .ok item) (m : Model) :
    ∃ t, ofSource (language text separator) (.ofItem item) text (Model.ofItem item).root = .ok t ∧
      Standing text separator (.ofItem item) m t := by
  obtain ⟨t₀, hmade, hunlocated⟩ := @ofRoot_unlocated _ separator _ hread
  obtain ⟨t, hlocate, hlocated⟩ := hunlocated.locate hread
  have hload : ofSource (language text separator) (.ofItem item) text (Model.ofItem item).root =
      .ok t := by
    simp only [ofSource, bind, Except.bind, hmade, hlocate]
    rfl
  exact ⟨t, hload, hlocated.standing (Reached.loaded hload).wellFormed.toTied⟩

/-- All renders of a loaded document between two edits succeed and give
the same text, if the model does not contain itself and what is in a list
that is in its place was read from within that list, if at all. -/
theorem printSource_stable {text separator : Text} {item : Item} {m : Model}
    (hread : readDocument text = .ok item) (hm : (Model.ofItem item).Edited m)
    (hacyclic : m.Acyclic) (hconfined : Model.Confined (.ofItem item) m) :
    ∃ t, ofSource (language text separator) (.ofItem item) text (Model.ofItem item).root = .ok t ∧
      ∃ printed, ∀ u, Rendered m t u →
        ∃ v w, printSource m u = .ok printed v ∧ printSource m v = .ok printed w := by
  obtain ⟨t, hload, ht⟩ := @ofSource_standing _ separator _ hread m
  have hedition := hm.edition hread hconfined
  have hsize := hm.unfolds hacyclic
  refine ⟨t, hload, toldSource text separator m (.ofItem item), fun u hu => ?_⟩
  obtain ⟨v, hrun, hv⟩ := printSource_told hedition hsize u (ht.rendered hedition hsize hu)
  obtain ⟨w, hrun', _⟩ := printSource_told hedition hsize v hv
  exact ⟨v, w, hrun, hrun'⟩

/-- A document with a word and a list. -/
def wordAndList : Text := "a,[b]".toList

/-- What is read from it. -/
def wordAndListItem : Item :=
  .list (0, 5) false
    [.word ⟨(0, 1), ['a'], (0, 1), none⟩, .list (2, 5) true [.word ⟨(3, 4), ['b'], (3, 4), none⟩]]

/-- The model with the word in the list moved behind the other one. -/
def lifted : Model :=
  ((Model.ofItem wordAndListItem).editItems 2 fun _ => []).editItems 3 fun _ => [0, 2, 1]

theorem readDocument_wordAndList : readDocument wordAndList = .ok wordAndListItem := rfl

/-- Its lists. -/
theorem items_lifted : ∀ a b, b ∈ lifted.items a → a = 3 ∧ (b = 0 ∨ b = 1 ∨ b = 2)
  | 0, _, h | 1, _, h | 2, _, h => absurd h List.not_mem_nil
  | 3, b, h => by
    have hmem : b ∈ [0, 2, 1] := h
    simp at hmem
    omega
  | a + 4, b, h => by
    have hnone : lifted.items (a + 4) = [] := by
      rw [Model.items, Array.getElem?_eq_none (show lifted.cells.size ≤ a + 4 from by
        show 4 ≤ a + 4
        omega)]
    rw [hnone] at h
    exact absurd h List.not_mem_nil


theorem edited_lifted : (Model.ofItem wordAndListItem).Edited lifted :=
  ((Model.Edited.refl wordAndListItem).editItems 2 fun b hb => absurd hb List.not_mem_nil).editItems
    3 fun b hb => by
      show b < 4
      have hmem : b ∈ [0, 2, 1] := hb
      simp at hmem
      omega

theorem confined_lifted : Model.Confined (.ofItem wordAndListItem) lifted := by
  intro a _ b hreaches outer inner houter hinner
  cases hreaches with
  | refl =>
    rw [houter, Option.some.injEq] at hinner
    subst hinner
    exact ⟨Nat.le_refl _, Nat.le_refl _⟩
  | step mem tail =>
    obtain ⟨rfl, hb⟩ := items_lifted _ _ mem
    -- The items of the root are no lists with items.
    have hself : ∀ {c d : Nat}, c ≠ 3 → lifted.Reaches c d → d = c := by
      intro c d hc hreaches
      cases hreaches with
      | refl => rfl
      | step mem _ => exact absurd (items_lifted _ _ mem).1 hc
    have houter' : outer = (0, 5) := (Option.some.inj houter).symm
    rw [hself (by omega) tail] at hinner
    rcases hb with rfl | rfl | rfl
    · have hinner' : inner = (0, 1) := (Option.some.inj hinner).symm
      subst houter' hinner'
      decide
    · have hinner' : inner = (3, 4) := (Option.some.inj hinner).symm
      subst houter' hinner'
      decide
    · have hinner' : inner = (2, 5) := (Option.some.inj hinner).symm
      subst houter' hinner'
      decide

/-- A word that was moved out of its list. -/
theorem printSource_lifted :
    ∃ t, ofSource (language wordAndList [',']) (.ofItem wordAndListItem) wordAndList
        (Model.ofItem wordAndListItem).root = .ok t ∧
      ∃ printed, ∀ u, Rendered lifted t u →
        ∃ v w, printSource lifted u = .ok printed v ∧ printSource lifted v = .ok printed w :=
  printSource_stable readDocument_wordAndList edited_lifted
    (.of_lt fun a b hb => by
      have := items_lifted a b hb
      omega)
    confined_lifted

/-- The model with the word in front moved into the list. -/
def strayed : Model :=
  ((Model.ofItem wordAndListItem).editItems 2 fun _ => [1, 0]).editItems 3 fun _ => [2]

/-- What two renders of a document give. -/
def renderTwice (m : Model) (t : Tree Model Nat) : Except Error Text × Except Error Text :=
  match printSource m t with
  | .ok text t => (.ok text, match printSource m t with
    | .ok text _ => .ok text
    | .error e _ => .error e)
  | .error e t => (.error e, match printSource m t with
    | .ok text _ => .ok text
    | .error e _ => .error e)

/-- That is an edit of the document in which no cell contains itself, but
the list grows over the word, and the second render edits the word twice. -/
theorem renderTwice_strayed :
    (Model.ofItem wordAndListItem).Edited strayed ∧ strayed.Acyclic ∧
      (ofSource (language wordAndList [',']) (.ofItem wordAndListItem) wordAndList
          (Model.ofItem wordAndListItem).root).toOption.map (renderTwice strayed) =
        some (.ok "[b,a]".toList,
          .error (.source (.conflict (.between ⟨1, 1⟩ ⟨1, 2⟩) (.between ⟨1, 0⟩ ⟨1, 5⟩)))) := by
  have hitems : ∀ a, ∀ b ∈ strayed.items a, b < a
    | 0, _, h | 1, _, h => absurd h List.not_mem_nil
    | 2, b, h => by
      have hmem : b ∈ [1, 0] := h
      simp at hmem
      omega
    | 3, b, h => by
      have hmem : b ∈ [2] := h
      simp at hmem
      omega
    | a + 4, b, h => by
      have hnone : strayed.items (a + 4) = [] := by
        rw [Model.items, Array.getElem?_eq_none (show strayed.cells.size ≤ a + 4 from by
          show 4 ≤ a + 4
          omega)]
      rw [hnone] at h
      exact absurd h List.not_mem_nil
  have hsize : (Model.ofItem wordAndListItem).cells.size = 4 := rfl
  have hedited : (Model.ofItem wordAndListItem).Edited strayed := by
    refine ((Model.Edited.refl wordAndListItem).editItems 2 fun b hb => ?_).editItems 3
      fun b hb => ?_
    · have := hitems 2 b hb
      omega
    · have := hitems 3 b hb
      show b < 4
      omega
  exact ⟨hedited, .of_lt hitems, by decide +kernel⟩

end Reprint.WordList
