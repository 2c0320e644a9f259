import Reprint.Proofs.WordList.AtHome

/-!
# Renders leave no trace

A loaded document is edited and rendered in any order (`Action`).  Renders
make nodes and move the positions where new text goes, so the tree depends
on all that was done.  The text does not: a render gives what the first
render of a freshly loaded tree gives for the same model
(`render_performed`).

The nodes that renders have made were laid out for a model of that time.
They fit a later one, because an edit does not change what the layout of an
object depends on (`Model.Alike`, `Standing.alike`).
-/

namespace Reprint.WordList

open Reprint.Tree

/-! ## Edits -/

/-- A cell stays as far as its layout depends on it. -/
def Cell.Alike : Cell → Cell → Prop
  | .word _ _ read, .word _ _ read' => read' = read
  | .list bracketed _ read, .list bracketed' _ read' => bracketed' = bracketed ∧ read' = read
  | _, _ => False

theorem Cell.Alike.refl (c : Cell) : c.Alike c := by
  cases c with
  | word => rfl
  | list => exact ⟨rfl, rfl⟩

theorem Cell.Alike.trans {a b c : Cell} (hab : a.Alike b) (hbc : b.Alike c) : a.Alike c := by
  cases a <;> cases b <;> cases c <;>
    first
      | exact hab.elim
      | exact hbc.elim
      | exact Eq.trans hbc hab
      | exact ⟨hbc.1.trans hab.1, hbc.2.trans hab.2⟩

/-- All cells of a model stay as far as their layouts depend on them. -/
def Model.Alike (m m' : Model) : Prop :=
  ∀ (a : Nat) (c : Cell), m.cells[a]? = some c → ∃ c', m'.cells[a]? = some c' ∧ c.Alike c'

namespace Model.Alike

variable {m m' m'' : Model}

theorem refl (m : Model) : m.Alike m := fun _ c hc => ⟨c, hc, .refl c⟩

theorem trans (h : m.Alike m') (h' : m'.Alike m'') : m.Alike m'' := by
  intro a c hc
  obtain ⟨c', hc', halike⟩ := h a c hc
  obtain ⟨c'', hc'', halike'⟩ := h' a c' hc'
  exact ⟨c'', hc'', halike.trans halike'⟩

theorem edit (m : Model) (a : Nat) {change : Cell → Cell} (h : ∀ c : Cell, c.Alike (change c)) :
    m.Alike (m.edit a change) := by
  intro x c hc
  have hcells : (m.edit a change).cells[x]? =
      if a = x then (m.cells[x]?).map change else m.cells[x]? := Array.getElem?_modify
  rw [hcells, hc]
  split
  · exact ⟨_, rfl, h c⟩
  · exact ⟨c, rfl, .refl c⟩

theorem alloc (m : Model) (cell : Cell) : m.Alike (m.alloc cell).2 := by
  intro x c hc
  have hlt := (Array.getElem?_eq_some_iff.1 hc).1
  refine ⟨c, ?_, .refl c⟩
  show (m.cells.push cell)[x]? = some c
  rw [Array.getElem?_push, if_neg (by omega), hc]

mutual

theorem add : ∀ (draft : Draft) (m : Model), m.Alike (m.add draft).2
  | .word .., m => .alloc m _
  | .list items, m => (addAll items m).trans (.alloc _ _)
  | .cell _, m => .refl m
termination_by structural draft => draft

theorem addAll : ∀ (drafts : List Draft) (m : Model), m.Alike (m.addAll drafts).2
  | [], m => .refl m
  | draft :: rest, m => (add draft m).trans (addAll rest _)
termination_by structural drafts => drafts

end

end Model.Alike

/-- An edit of a model.  The items of a list are assigned all at once. -/
inductive Change where
  | rename (address : Nat) (name : Text)
  | setLoudness (address : Nat) (loudness : Option Bool)
  | assign (address : Nat) (items : List Model.Draft)

namespace Change

/-- The model after an edit. -/
def apply (m : Model) : Change → Model
  | .rename address name => m.rename address name
  | .setLoudness address loudness => m.setLoudness address loudness
  | .assign address items => (m.addAll items).2.editItems address fun _ => (m.addAll items).1

/-- The cells that an edit refers to are there. -/
def Fits (m : Model) : Change → Prop
  | .assign _ items => Model.Draft.FitAll m.cells.size items
  | _ => True

theorem alike (m : Model) (change : Change) : m.Alike (change.apply m) := by
  cases change with
  | rename address name =>
    apply Model.Alike.edit
    intro c
    cases c with
    | word => rfl
    | list => exact ⟨rfl, rfl⟩
  | setLoudness address loudness =>
    apply Model.Alike.edit
    intro c
    cases c with
    | word => rfl
    | list => exact ⟨rfl, rfl⟩
  | assign address items =>
    apply (Model.Alike.addAll items m).trans
    apply Model.Alike.edit
    intro c
    cases c with
    | word => rfl
    | list => exact ⟨rfl, rfl⟩

theorem edited {m₀ m : Model} (h : m₀.Edited m) {change : Change} (hfits : change.Fits m) :
    m₀.Edited (change.apply m) := by
  cases change with
  | rename address name => exact h.rename address name
  | setLoudness address loudness => exact h.setLoudness address loudness
  | assign address items =>
    obtain ⟨hadded, hlt, _⟩ := Model.Edited.addAll items h (Nat.le_refl _) hfits
    exact hadded.editItems address hlt

end Change

/-! ## Renders -/

/-- The ways to render a document. -/
inductive Rendering where
  | root
  | source
  | mapped (file : Text)

/-- Renders a document. -/
def Rendering.run (m : Model) : Rendering → Job Model Nat Text
  | .root => printRoot m
  | .source => printSource m
  | .mapped file => do return (← printMapped m file).1

/-- The text that a render of an entry gives. -/
def Rendering.told (text separator : Text) (m : Model) (r : Entry) : Rendering → Text
  | .source => toldSource text separator m r
  | _ => r.told text separator m

section Render

variable {text separator : Text} {r : Entry} {m m' : Model}

theorem Rendering.run_told (hm : Edition text r m) (hsize : m.Unfolds m.cells.size r.address)
    (rendering : Rendering) :
    Runs (Standing text separator r m) (rendering.run m) (rendering.told text separator m r)
      (Standing text separator r m) := by
  cases rendering with
  | root => exact printRoot_told hm hsize
  | source => exact printSource_told hm hsize
  | mapped file =>
    intro t ht
    obtain ⟨map, u, hrun, hu⟩ := printMapped_told hm hsize file ht
    refine ⟨u, ?_, hu⟩
    simp only [Rendering.run, bind, EStateM.bind, hrun]
    rfl

/-- The layout of an object stays. -/
theorem Model.Alike.layout (h : m.Alike m') {a : Nat} {l : Layout Model Nat}
    (hl : WordList.layout text separator m a = some l) :
    ∃ l', WordList.layout text separator m' a = some l' ∧ l'.parts = l.parts := by
  cases hc : m.cells[a]? with
  | none => simp [WordList.layout, hc] at hl
  | some c =>
    obtain ⟨c', hc', halike⟩ := h a c hc
    cases c with
    | word name loudness read =>
      cases c' with
      | list => exact halike.elim
      | word name' loudness' read' =>
        obtain rfl : read' = read := halike
        rw [layout_word hc, Option.some.injEq] at hl
        subst hl
        exact ⟨_, layout_word hc', rfl⟩
    | list bracketed items read =>
      cases c' with
      | word => exact halike.elim
      | list bracketed' items' read' =>
        obtain ⟨rfl, rfl⟩ : bracketed' = bracketed ∧ read' = read := halike
        rw [layout_list hc, Option.some.injEq] at hl
        subst hl
        exact ⟨_, layout_list hc', rfl⟩

/-- A tree that stands for a model stands for an edited one. -/
theorem Standing.alike {t : Tree Model Nat} (h : Standing text separator r m t)
    (halike : m.Alike m') : Standing text separator r m' t where
  language := h.language
  source := h.source
  settings := h.settings
  tied := h.tied
  size := h.size
  loaded := h.loaded
  fresh hx hn := by
    have hfresh := h.fresh hx hn
    obtain ⟨l, hl, hparts⟩ := hfresh.layout
    obtain ⟨l', hl', hparts'⟩ := halike.layout hl
    exact ⟨hfresh.unlocated, ⟨l', hl', hparts.trans hparts'.symm⟩, hfresh.children⟩

end Render

/-! ## Histories -/

/-- Something that is done with a loaded document. -/
inductive Action where
  | change (change : Change)
  | render (rendering : Rendering)

/-- The model after some actions.  Renders do not change it. -/
def changed : Model → List Action → Model
  | m, [] => m
  | m, .change change :: rest => changed (change.apply m) rest
  | m, .render _ :: rest => changed m rest

/-- The tree after some actions.  Edits do not change it, and a render that
fails leaves what it has done. -/
def performed : Model → Tree Model Nat → List Action → Tree Model Nat
  | _, t, [] => t
  | m, t, .change change :: rest => performed (change.apply m) t rest
  | m, t, .render rendering :: rest => performed m ((rendering.run m).after t) rest

theorem alike_changed : ∀ (actions : List Action) (m : Model), m.Alike (changed m actions)
  | [], m => .refl m
  | .change change :: rest, m => (change.alike m).trans (alike_changed rest _)
  | .render _ :: rest, m => alike_changed rest m

/-- A model that may be rendered: it does not contain itself, and items that
were read are in their lists only. -/
structure Renderable (m₀ m : Model) : Prop where
  acyclic : m.Acyclic
  atHome : m₀.AtHome m

/-- Both can be read off the lists of a model, if there is a rank by which
lists are higher than their items. -/
theorem Renderable.of_rank {m₀ m : Model} (rank : Nat → Nat)
    (h : ∀ a < m.cells.size, ∀ b ∈ m.items a,
      rank b < rank a ∧ (b < m₀.cells.size → b ∈ m₀.items a)) : Renderable m₀ m := by
  have hitems : ∀ a b, b ∈ m.items a → rank b < rank a ∧ (b < m₀.cells.size → b ∈ m₀.items a) := by
    intro a b hb
    obtain ⟨c, hc, _⟩ := Model.exists_of_mem_items hb
    exact h a (Array.getElem?_eq_some_iff.1 hc).1 b hb
  exact ⟨.of_rank rank fun a b hb => (hitems a b hb).1, fun a b _ hb => (hitems a b hb).2⟩

/-- Edits refer to cells that are there, and renders are done of models
that may be rendered. -/
def Allowed (m₀ : Model) : Model → List Action → Prop
  | _, [] => True
  | m, .change change :: rest => change.Fits m ∧ Allowed m₀ (change.apply m) rest
  | m, .render _ :: rest => Renderable m₀ m ∧ Allowed m₀ m rest

section History

variable {text separator : Text} {item : Item}

/-- What actions keep of a tree and its model, by induction on the
actions. -/
theorem standing_performed (hread : readDocument text = .ok item) :
    ∀ (actions : List Action) {m : Model} {t : Tree Model Nat}, (Model.ofItem item).Edited m →
      Standing text separator (.ofItem item) m t → Allowed (.ofItem item) m actions →
      (Model.ofItem item).Edited (changed m actions) ∧
        Standing text separator (.ofItem item) (changed m actions) (performed m t actions)
  | [], m, t, hm, ht, _ => ⟨hm, ht⟩
  | .change change :: rest, m, t, hm, ht, hallowed => by
    obtain ⟨hfits, hrest⟩ := hallowed
    exact standing_performed hread rest (change.edited hm hfits) (ht.alike (change.alike m)) hrest
  | .render rendering :: rest, m, t, hm, ht, hallowed => by
    obtain ⟨hrenderable, hrest⟩ := hallowed
    obtain ⟨u, hrun, hu⟩ := rendering.run_told (hrenderable.atHome.edition hread hm)
      (hm.unfolds hrenderable.acyclic) t ht
    have hafter : (rendering.run m).after t = u := by rw [Job.after, hrun]
    rw [performed, changed, hafter]
    exact standing_performed hread rest hm hu hrest

/-- A model whose cells that were read are as they were read is rendered
like the one that was read. -/
theorem Rendering.told_asRead (hread : readDocument text = .ok item) {m : Model}
    (hm : ∀ a < (Model.ofItem item).cells.size, m.cells[a]? = (Model.ofItem item).cells[a]?)
    (rendering : Rendering) :
    rendering.told text separator m (.ofItem item) =
      rendering.told text separator (.ofItem item) (.ofItem item) := by
  have hlaid := laid_ofItem hread
  have hholding : Holding (.ofItem item) m := by
    constructor
    intro d hd
    have hcell := (holding_ofItem item).cell hd
    rw [hm d.address (Array.getElem?_eq_some_iff.1 hcell).1, hcell]
  have htold : (Entry.ofItem item).told text separator m =
      (Entry.ofItem item).told text separator (.ofItem item) := by
    rw [(Entry.told_unedited _ hholding hlaid).2,
      (Entry.told_unedited _ (holding_ofItem item) hlaid).2]
  cases rendering with
  | source => rw [Rendering.told, Rendering.told, toldSource, toldSource, htold]
  | root => exact htold
  | mapped file => exact htold

/-- A document is loaded, and then edited and rendered in any order.  If the
model may be rendered in the end, every way to render it succeeds, and the
text is that of the first render of the tree as it was loaded, for the same
model.  If the cells that were read are as they were read again, it is the
text of the document that was not edited. -/
theorem render_performed (hread : readDocument text = .ok item) {actions : List Action}
    (hallowed : Allowed (.ofItem item) (.ofItem item) actions)
    (hfinal : Renderable (.ofItem item) (changed (.ofItem item) actions)) (rendering : Rendering) :
    ∃ t, ofSource (language text separator) (.ofItem item) text (Model.ofItem item).root = .ok t ∧
      ∃ printed v w,
        rendering.run (changed (.ofItem item) actions) (performed (.ofItem item) t actions) =
          .ok printed v ∧
        rendering.run (changed (.ofItem item) actions) t = .ok printed w ∧
        ((∀ a < (Model.ofItem item).cells.size,
          (changed (.ofItem item) actions).cells[a]? = (Model.ofItem item).cells[a]?) →
          ∃ x, rendering.run (.ofItem item) t = .ok printed x) := by
  obtain ⟨t, hload, ht⟩ := @ofSource_standing _ separator _ hread (.ofItem item)
  obtain ⟨hedited, hstanding⟩ := standing_performed hread actions (.refl item) ht hallowed
  have hrun := @Rendering.run_told text separator _ _ (hfinal.atHome.edition hread hedited)
    (hedited.unfolds hfinal.acyclic) rendering
  obtain ⟨v, hprint, _⟩ := hrun _ hstanding
  obtain ⟨w, hfresh, _⟩ := hrun _ (ht.alike (alike_changed actions (.ofItem item)))
  refine ⟨t, hload, _, v, w, hprint, hfresh, fun hasRead => ?_⟩
  have hedition := (Model.Edited.refl item).edition hread (Model.confined_ofItem hread)
  obtain ⟨x, hunedited, _⟩ := @Rendering.run_told text separator _ _ hedition
    ((Model.Edited.refl item).unfolds (Model.acyclic_ofItem item)) rendering t ht
  exact ⟨x, by rw [rendering.told_asRead hread hasRead]; exact hunedited⟩

/-- The word in front gets another name and the list another word, and both
edits are undone. -/
def undone : List Action :=
  [.change (.rename 0 ['x']), .render .source,
    .change (.assign 2 [.word ['n'] none, .cell 1]), .render (.mapped ['f']),
    .change (.assign 2 [.cell 1]), .render .root, .change (.rename 0 ['a'])]

/-- The list in the document is below the root and above all words. -/
def undoneRank (a : Nat) : Nat := if a = 3 then 2 else if a = 2 then 1 else 0

theorem allowed_undone : Allowed (.ofItem wordAndListItem) (.ofItem wordAndListItem) undone :=
  have old : 1 < 4 := by decide
  ⟨trivial, .of_rank undoneRank (by decide), ⟨trivial, old, trivial⟩,
    .of_rank undoneRank (by decide), ⟨Nat.lt_succ_of_lt old, trivial⟩,
    .of_rank undoneRank (by decide), trivial, trivial⟩

/-- The document is rendered as it was read. -/
theorem render_undone :
    ∃ t, ofSource (language wordAndList [',']) (.ofItem wordAndListItem) wordAndList
        (Model.ofItem wordAndListItem).root = .ok t ∧
      ∃ printed v w x,
        printSource (changed (.ofItem wordAndListItem) undone)
          (performed (.ofItem wordAndListItem) t undone) = .ok printed v ∧
        printSource (changed (.ofItem wordAndListItem) undone) t = .ok printed w ∧
        printSource (.ofItem wordAndListItem) t = .ok printed x := by
  have hfinal : Renderable (.ofItem wordAndListItem) (changed (.ofItem wordAndListItem) undone) :=
    .of_rank undoneRank (by decide)
  obtain ⟨t, hload, printed, v, w, hprint, hfresh, hasRead⟩ :=
    @render_performed _ [','] _ readDocument_wordAndList _ allowed_undone hfinal .source
  obtain ⟨x, hunedited⟩ := hasRead fun a ha => by
    have hlt : a < 4 := ha
    have hcases : a = 0 ∨ a = 1 ∨ a = 2 ∨ a = 3 := by omega
    rcases hcases with rfl | rfl | rfl | rfl <;> rfl
  exact ⟨t, hload, printed, v, w, x, hprint, hfresh, hunedited⟩

end History

end Reprint.WordList
