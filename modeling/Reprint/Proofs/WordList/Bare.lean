import Reprint.Proofs.WordList.Standing

/-!
# Nodes that are printed from the model alone

A tree is `Bare` from a number on when all nodes from there on are printed
from the model: none of them is located, and each has the layout that its
object has now.  All nodes of a tree that was never located are like that,
and in a located tree those that were made by renders.

Such a node prints as the text of its cell (`Bare.printWithin_runs`), with
one exception: a cell that contains itself has no text, and printing it
reports a cyclic model (`Bare.printWithin_fails`).  How deep a tree may
be does not matter for that, because a chain of cells that ends is no
longer than there are cells (`Model.Unfolds.bounded`).
-/

namespace Reprint.WordList

open Reprint.Tree

/-! ## Chains of cells -/

namespace Model

variable {m : Model}

instance decidableUnfolds (m : Model) : ∀ depth a, Decidable (m.Unfolds depth a)
  | 0, _ => .isFalse id
  | depth + 1, a =>
    have (b : Nat) : Decidable (m.Unfolds depth b) := decidableUnfolds m depth b
    inferInstanceAs (Decidable (a < m.cells.size ∧ ∀ b ∈ m.items a, m.Unfolds depth b))

/-- A cell from which all chains end is in none of its items. -/
theorem Unfolds.not_reaches : ∀ {depth a b : Nat}, m.Unfolds depth a → b ∈ m.items a →
    ¬ m.Reaches b a
  | 0, _, _, h, _, _ => h.elim
  | _ + 1, _, _, h, hb, hreaches => Unfolds.not_reaches ((h.2 _ hb).reaches hreaches) hb hreaches

/-- A chain of cells that ends is no longer than there are cells. -/
theorem Unfolds.bounded {depth a : Nat} (h : m.Unfolds depth a)
    (hitems : ∀ {a b : Nat}, b ∈ m.items a → b < m.cells.size) : m.Unfolds m.cells.size a := by
  let rooted : Model := { m with root := a }
  have hreaches : ∀ {b c : Nat}, rooted.Reaches b c → m.Reaches b c := by
    intro b c hbc
    induction hbc with
    | refl => exact .refl _
    | step hmem _ ih => exact .step hmem ih
  have hacyclic : rooted.Acyclic := fun b c hb hc hback =>
    (h.reaches (hreaches hb)).not_reaches hc (hreaches hback)
  have hunfolds : ∀ {depth b : Nat}, rooted.Unfolds depth b → m.Unfolds depth b := by
    intro depth
    induction depth with
    | zero => exact fun hb => hb.elim
    | succ depth ih => exact fun hb => ⟨hb.1, fun c hc => ih (hb.2 c hc)⟩
  exact hunfolds (hacyclic.unfolds hitems h.lt)

/-- A cell that contains itself has no bound, however large. -/
theorem not_unfolds (hitems : ∀ {a b : Nat}, b ∈ m.items a → b < m.cells.size) {a : Nat}
    (h : ¬ m.Unfolds m.cells.size a) (depth : Nat) : ¬ m.Unfolds depth a :=
  fun hdepth => h (hdepth.bounded hitems)

end Model

/-! ## New trees -/

/-- A tree can be made for a cell that has a place, or needs none. -/
theorem exists_ofRoot {text separator source : Text} {m : Model} {a : Nat} {l : Layout Model Nat}
    {place : Option Place} (hlayout : layout text separator m a = some l)
    (hplace : placeOf (.ofText source) l.origin = .ok place) :
    ∃ t, ofRoot (language text separator) m source a = .ok t := by
  let empty : Tree Model Nat := { language := language text separator, source := .ofText source }
  have hnew : empty.newNode m none a = .ok _ := newNode_of_layout hlayout hplace
  exact ⟨_, hnew⟩

/-! ## Bare trees -/

/-- The nodes of a tree from a number on are printed from the model. -/
structure Bare (text separator : Text) (m : Model) (old : Nat) (t : Tree Model Nat) : Prop where
  language : t.language = WordList.language text separator
  placed : ∀ {a : Nat}, a < m.cells.size → ∃ l place, layout text separator m a = some l ∧
    placeOf t.source l.origin = .ok place
  tied : t.Tied
  size : old ≤ t.nodes.size
  unlocated : ∀ {x : Nat} {n : Node Model Nat}, old ≤ x → t.nodes[x]? = some n →
    n.isLocated = false
  layout : ∀ {x : Nat} {n : Node Model Nat}, old ≤ x → t.nodes[x]? = some n →
    ∃ l, WordList.layout text separator m n.object = some l ∧ n.parts = l.parts

namespace Bare

variable {text separator : Text} {m : Model} {old : Nat} {t : Tree Model Nat}

/-- A new node, below any node of the tree. -/
theorem addNode (h : Bare text separator m old t) {parent a : Nat} {n : Node Model Nat}
    {l : Layout Model Nat} {place : Option Place} (hn : t.nodes[parent]? = some n)
    (hlayout : WordList.layout text separator m a = some l)
    (hplace : placeOf t.source l.origin = .ok place) (hnone : t.below? n a = none) :
    Bare text separator m old (t.addNode (some parent) a place l.parts) := by
  have hparent := lt_size_of_node hn
  -- What makes a node bare is not touched by a new node.
  have hnode : ∀ {x : Nat} {k : Node Model Nat},
      (t.addNode (some parent) a place l.parts).nodes[x]? = some k →
      (∃ k₀ : Node Model Nat, t.nodes[x]? = some k₀ ∧ k.object = k₀.object ∧ k.parts = k₀.parts ∧
        k.isLocated = k₀.isLocated) ∨
      k.object = a ∧ k.parts = l.parts ∧ k.isLocated = false := by
    intro x k hk
    by_cases hxt : x < t.nodes.size
    · rw [getElem?_addNode_of_lt hxt hparent] at hk
      obtain ⟨k₀, hk₀, rfl⟩ := Option.map_eq_some_iff.1 hk
      refine Or.inl ⟨k₀, hk₀, ?_⟩
      have hadopted : ∀ k₁ : Node Model Nat,
          k₁ = (if parent = x then { k₀ with children := k₀.children ++ [t.nodes.size] } else k₀) →
          k₁.object = k₀.object ∧ k₁.parts = k₀.parts ∧ k₁.isLocated = k₀.isLocated := by
        rintro k₁ rfl
        split <;> exact ⟨rfl, rfl, rfl⟩
      obtain ⟨hobject, hparts, hlocated⟩ := hadopted _ rfl
      cases place with
      | none => exact ⟨hobject, hparts, hlocated⟩
      | some p =>
        dsimp only
        split
        · exact ⟨hobject, hparts, (Node.isLocated_mapPlace _ (g := fun q => q.grow p.span) fun _ => rfl).trans
            hlocated⟩
        · exact ⟨hobject, hparts, hlocated⟩
    · have hlast : x = t.nodes.size := by
        have := lt_size_of_node hk
        rw [size_addNode] at this
        omega
      rw [hlast, getElem?_addNode_size _ _ _ hparent, Option.some.injEq] at hk
      subst hk
      refine Or.inr ⟨rfl, rfl, ?_⟩
      cases place with
      | none => rfl
      | some p =>
        rw [(placeOf_eq_ok hplace).2]
        rfl
  refine ⟨by simp [h.language], fun ha => by rw [source_addNode]; exact h.placed ha, h.tied.addNode place l.parts hn hnone,
    Nat.le_trans h.size (by simp), fun {x k} hx hk => ?_, fun {x k} hx hk => ?_⟩
  · rcases hnode hk with ⟨k₀, hk₀, _, _, hlocated⟩ | ⟨_, _, hlocated⟩
    · exact hlocated.trans (h.unlocated hx hk₀)
    · exact hlocated
  · rcases hnode hk with ⟨k₀, hk₀, hobject, hparts, _⟩ | ⟨hobject, hparts, _⟩
    · rw [hobject, hparts]
      exact h.layout hx hk₀
    · exact ⟨l, by rw [hobject]; exact hlayout, hparts⟩

/-- The node below a node whose children are printed from the model. -/
theorem getNode (h : Bare text separator m old t) {parent a : Nat} {n : Node Model Nat}
    (hn : t.nodes[parent]? = some n) (hold : old ≤ parent + 1) (ha : a < m.cells.size) :
    ∃ id t', t.getNode m parent a = .ok (id, t') ∧ Bare text separator m old t' ∧ old ≤ id ∧
      ∃ k, t'.nodes[id]? = some k ∧ k.object = a := by
  cases hfound : t.below? n a with
  | some id =>
    obtain ⟨hmem, k, hk, hobject⟩ := below?_eq_some hfound
    have hlt := h.tied.lt_of_mem_children hn hmem
    exact ⟨id, t, getNode_of_below? hn hfound, h, by omega, k, hk, hobject⟩
  | none =>
    obtain ⟨l, place, hlayout, hplace⟩ := h.placed ha
    have hlanguage : t.language.layout m a = some l := by
      rw [h.language]
      exact hlayout
    exact ⟨_, _, getNode_of_layout hn hfound hlanguage hplace, h.addNode hn hlayout hplace hfound,
      h.size, _, getElem?_addNode_size _ _ _ (lt_size_of_node hn), rfl⟩

/-- An object below such a node is printed as its node is. -/
theorem printBelow {owner x : Nat} {n : Node Model Nat}
    {print : Nat → Margin → Job Model Nat Text} {unit : Margin} {body : Text}
    (hn : t.nodes[owner]? = some n) (hold : old ≤ owner + 1) (hx : x < m.cells.size)
    (hprint : ∀ id u k, Bare text separator m old u → old ≤ id → u.nodes[id]? = some k →
      k.object = x → ∃ u', print id unit u = .ok body u' ∧ Bare text separator m old u' ∧ u.Extends u') :
    Runs (fun u => Bare text separator m old u ∧ t.Extends u) (Tree.printBelow print m owner x unit)
      (some body) fun u => Bare text separator m old u ∧ t.Extends u := by
  intro u hu
  obtain ⟨k, hk, _⟩ := hu.2.node hn
  obtain ⟨id, v, hget, hv, hid, c, hc, hobject⟩ := hu.1.getNode hk hold hx
  obtain ⟨w, hrun, hw, hextends⟩ := hprint id v c hv hid hc hobject
  exact ⟨w, printBelow_of_getNode hget hrun, hw,
    hu.2.trans ((Extends.getNode hget).trans hextends)⟩

/-- An object below such a node fails to print when its node does. -/
theorem printBelow_fails {owner x : Nat} {n : Node Model Nat}
    {print : Nat → Margin → Job Model Nat Text} {unit : Margin} {e : Error}
    (hn : t.nodes[owner]? = some n) (hold : old ≤ owner + 1) (hx : x < m.cells.size)
    (hprint : ∀ id u k, Bare text separator m old u → old ≤ id → u.nodes[id]? = some k →
      k.object = x → ∃ u', print id unit u = .error e u') :
    Fails (fun u => Bare text separator m old u ∧ t.Extends u)
      (Tree.printBelow print m owner x unit) e := by
  intro u hu
  obtain ⟨k, hk, _⟩ := hu.2.node hn
  obtain ⟨id, v, hget, hv, hid, c, hc, hobject⟩ := hu.1.getNode hk hold hx
  obtain ⟨w, hrun⟩ := hprint id v c hv hid hc hobject
  exact ⟨w, printBelow_fails_of_getNode hget hrun⟩

/-- The parts of a node that is printed from the model. -/
theorem cases (h : Bare text separator m old t) {id : Nat} {n : Node Model Nat} (hid : old ≤ id)
    (hn : t.nodes[id]? = some n) :
    (∃ name loudness read, m.cells[n.object]? = some (.word name loudness read) ∧
      n.parts = [namePart text n.object read, markPart n.object]) ∨
    ∃ bracketed items read, m.cells[n.object]? = some (.list bracketed items read) ∧
      n.parts = listParts separator n.object bracketed := by
  obtain ⟨l, hlayout, hparts⟩ := h.layout hid hn
  cases hcell : m.cells[n.object]? with
  | none =>
    rw [WordList.layout, hcell] at hlayout
    cases hlayout
  | some cell =>
    cases cell with
    | word name loudness read =>
      rw [layout_word hcell, Option.some.injEq] at hlayout
      exact Or.inl ⟨name, loudness, read, rfl, by rw [hparts, ← hlayout]⟩
    | list bracketed items read =>
      rw [layout_list hcell, Option.some.injEq] at hlayout
      exact Or.inr ⟨bracketed, items, read, rfl, by rw [hparts, ← hlayout]⟩

theorem printWithin_eq (h : Bare text separator m old t) {id : Nat} {n : Node Model Nat}
    (hid : old ≤ id) (hn : t.nodes[id]? = some n) (depth : Nat) (margin : Margin) :
    printWithin m (depth + 1) id margin t = normalNode (printWithin m depth) m id margin t :=
  printWithin_of_normal hn (by simpa [Node.isLocated] using h.unlocated hid hn)

/-- A node prints as the text of its cell, and what it printed before
stays printed that way. -/
theorem printWithin_runs : ∀ (depth id : Nat) (margin : Margin) (t : Tree Model Nat)
    (n : Node Model Nat), Bare text separator m old t → old ≤ id → t.nodes[id]? = some n →
      m.Unfolds depth n.object → margin.level = 0 →
      ∃ t', printWithin m depth id margin t = .ok (m.text separator depth n.object) t' ∧
        Bare text separator m old t' ∧ t.Extends t'
  | 0, _, _, _, _, _, _, _, hdepth, _ => hdepth.elim
  | depth + 1, id, margin, t, n, h, hid, hn, hdepth, hmargin => by
    rw [h.printWithin_eq hid hn]
    rcases h.cases hid hn with ⟨name, loudness, read, hcell, hparts⟩ |
      ⟨bracketed, items, read, hcell, hparts⟩
    · refine ⟨t, ?_, h, .refl t⟩
      rw [normalNode_word hn hmargin hparts, Model.text, hcell, Model.name_word hcell,
        Model.loudness_word hcell]
    · have hloop : Runs (fun u => Bare text separator m old u ∧ t.Extends u)
          (normalItems (printWithin m depth) m id margin.flush (itemsFrame separator)
            (itemsList n.object) (m.items n.object).length 0 (m.items n.object))
          (joinedFrom separator 0 ((m.items n.object).map (m.text separator depth)))
          fun u => Bare text separator m old u ∧ t.Extends u := by
        refine normalItems_runs_of_mem _ (around_eq _ _ rfl rfl rfl rfl · _) (fun x hx => ?_) 0
        refine printBelow hn (by omega) (hdepth.2 x hx).lt fun child u k hu hchild hk hobject => ?_
        subst hobject
        exact printWithin_runs depth child margin.flush u k hu hchild hk (hdepth.2 _ hx) rfl
      obtain ⟨t', hrun, ht', hextends⟩ := hloop t ⟨h, .refl t⟩
      refine ⟨t', ?_, ht', hextends⟩
      rw [normalNode_list hn hmargin hparts hrun, Model.text, hcell, Model.items_list hcell]

/-- A node of a cell that contains itself, or that is too deep for the
bound, reports a cyclic model. -/
theorem printWithin_fails (hitems : ∀ {a b : Nat}, b ∈ m.items a → b < m.cells.size) :
    ∀ (depth id : Nat) (margin : Margin) (t : Tree Model Nat) (n : Node Model Nat),
      Bare text separator m old t → old ≤ id → t.nodes[id]? = some n →
      ¬ m.Unfolds depth n.object → ∃ t', printWithin m depth id margin t = .error .cyclicModel t'
  | 0, _, _, t, _, _, _, _, _ => ⟨t, rfl⟩
  | depth + 1, id, margin, t, n, h, hid, hn, hdepth => by
    rw [h.printWithin_eq hid hn]
    have hlt : n.object < m.cells.size := by
      rcases h.cases hid hn with ⟨_, _, _, hcell, _⟩ | ⟨_, _, _, hcell, _⟩ <;>
        exact (Array.getElem?_eq_some_iff.1 hcell).1
    have hbad : ∃ x ∈ m.items n.object, ¬ m.Unfolds depth x := by
      by_contra hnone
      exact hdepth ⟨hlt, fun x hx => by_contra fun hx' => hnone ⟨x, hx, hx'⟩⟩
    rcases h.cases hid hn with ⟨name, loudness, read, hcell, hparts⟩ |
      ⟨bracketed, items, read, hcell, hparts⟩
    · rw [Model.items_word hcell] at hbad
      obtain ⟨x, hx, _⟩ := hbad
      exact absurd hx List.not_mem_nil
    · have hloop : Fails (fun u => Bare text separator m old u ∧ t.Extends u)
          (normalItems (printWithin m depth) m id margin.flush (itemsFrame separator)
            (itemsList n.object) (m.items n.object).length 0 (m.items n.object)) .cyclicModel := by
        refine normalItems_fails _ 0
          (fun x hx hgood => ⟨some (m.text separator depth x), printBelow hn (by omega) (hitems hx)
            fun child u k hu hchild hk hobject => ?_⟩)
          (fun x hx hbad => printBelow_fails hn (by omega) (hitems hx)
            fun child u k hu hchild hk hobject => ?_) hbad
        · subst hobject
          exact printWithin_runs depth child margin.flush u k hu hchild hk hgood rfl
        · subst hobject
          exact printWithin_fails hitems depth child margin.flush u k hu hchild hk hbad
      obtain ⟨t', hrun⟩ := hloop t ⟨h, .refl t⟩
      exact ⟨t', normalNode_list_fails hn hparts hrun⟩

end Bare

end Reprint.WordList
