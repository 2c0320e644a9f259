import Reprint.Proofs.Margin
import Reprint.Proofs.Tree.Unsearched

/-!
# Quiet revisions

Printing a tree whose model is unchanged moves the position where a node
takes new text, and nothing else.  `Tree.Alike` relates two trees that
differ in such positions only.

A revision is quiet when it leaves the patch as it is and the tree alike
(`Revision.Quiet`).  `Quiet.bind` chains quiet revisions, and `Quiet.onTree`
makes one of a job on the tree.
-/

namespace Reprint

variable {M O : Type}

/-- The node with another position for new text. -/
def Node.moved (n : Node M O) (p : Position) : Node M O :=
  n.mapPlace fun place => { place with insertion := p }

namespace Tree

/-- Trees that differ only in the positions where nodes take new text. -/
structure Alike (t t' : Tree M O) : Prop where
  source : t'.source = t.source
  settings : t'.settings = t.settings
  language : t'.language = t.language
  size : t'.nodes.size = t.nodes.size
  node : ∀ {id : Nat} {n : Node M O}, t.nodes[id]? = some n → ∃ p, t'.nodes[id]? = some (n.moved p)

namespace Alike

variable {t u v : Tree M O}

theorem refl (t : Tree M O) : Alike t t where
  source := rfl
  settings := rfl
  language := rfl
  size := rfl
  node {id n} hn := by
    refine ⟨(n.place.map Place.insertion).getD default, hn.trans ?_⟩
    obtain ⟨object, ancestors, children, place, parts⟩ := n
    cases place <;> rfl

theorem trans (htu : Alike t u) (huv : Alike u v) : Alike t v where
  source := huv.source.trans htu.source
  settings := huv.settings.trans htu.settings
  language := huv.language.trans htu.language
  size := huv.size.trans htu.size
  node {id n} hn := by
    obtain ⟨p, hp⟩ := htu.node hn
    obtain ⟨q, hq⟩ := huv.node hp
    refine ⟨q, hq.trans ?_⟩
    simp [Node.moved, Node.mapPlace, Function.comp_def]

/-- Moving the position of one node. -/
theorem modify (t : Tree M O) (id : Nat) (p : Position) :
    Alike t (t.modify id fun n => n.mapPlace fun place => { place with insertion := p }) where
  source := rfl
  settings := rfl
  language := rfl
  size := size_modify t id _
  node {x n} hn := by
    by_cases hx : id = x
    · subst hx
      exact ⟨p, getElem?_modify_self _ hn⟩
    · rw [getElem?_modify_of_ne _ _ hx]
      exact (refl t).node hn

/-- A node of a tree is that of an alike one with another position. -/
theorem node' {id : Nat} {n' : Node M O} (h : Alike t u) (hn' : u.nodes[id]? = some n') :
    ∃ n p, t.nodes[id]? = some n ∧ n' = n.moved p := by
  obtain ⟨n, hn⟩ := exists_node_of_lt (h.size ▸ lt_size_of_node hn')
  obtain ⟨p, hp⟩ := h.node hn
  rw [hn'] at hp
  exact ⟨n, p, hn, Option.some.inj hp⟩

end Alike

namespace Revision

/-- A revision succeeds on all trees alike `t`, leaves the patch as it is
and the tree alike, and answers with a value that has a property. -/
def Quiet {α : Type} (t : Tree M O) (r : Revision M O α) (P : α → Prop) : Prop :=
  ∀ d : Draft M O, Alike t d.tree → ∃ a d', r d = .ok a d' ∧ P a ∧ Alike t d'.tree ∧
    d'.patch = d.patch

namespace Quiet

variable {α β : Type} {t : Tree M O} {P : α → Prop} {Q : β → Prop}

theorem pure {a : α} (h : P a) : Quiet t (Pure.pure a : Revision M O α) P :=
  fun d hd => ⟨a, d, rfl, h, hd, rfl⟩

theorem bind {r : Revision M O α} {next : α → Revision M O β} (hr : Quiet t r P)
    (hnext : ∀ a, P a → Quiet t (next a) Q) : Quiet t (r >>= next) Q := by
  intro d hd
  obtain ⟨a, d', hrun, hpost, hd', hpatch⟩ := hr d hd
  obtain ⟨b, d'', hrun', hQ, hd'', hpatch'⟩ := hnext a hpost d' hd'
  refine ⟨b, d'', ?_, hQ, hd'', hpatch'.trans hpatch⟩
  show EStateM.bind r next d = _
  unfold EStateM.bind
  rw [hrun]
  exact hrun'

theorem onTree {job : Job M O α}
    (h : ∀ t', Alike t t' → ∃ a t'', job t' = .ok a t'' ∧ P a ∧ Alike t t'') :
    Quiet t (Revision.onTree job) P := by
  intro d hd
  obtain ⟨a, t'', hrun, hpost, ht''⟩ := h d.tree hd
  refine ⟨a, { d with tree := t'' }, ?_, hpost, ht'', rfl⟩
  unfold Revision.onTree
  rw [hrun]

/-- An operation that first reads the draft. -/
theorem get_bind {next : Draft M O → Revision M O β}
    (h : ∀ d : Draft M O, Alike t d.tree → Quiet t (next d) Q) :
    Quiet t (get >>= next) Q :=
  fun d hd => h d hd d hd

end Quiet

end Revision

end Tree

/-! ## Text that needs nothing -/

theorem Text.hang_nil (indentation : Text) : Text.hang indentation [] = [] := by
  simp [Text.hang, Text.lines, Text.unlines, List.intercalate]

theorem Tree.aligned_nil (t : Tree M O) (owner : Nat) (indent : Indent) :
    t.aligned owner indent [] = [] := by
  unfold Tree.aligned
  split
  · rfl
  · split
    · exact Text.hang_nil _
    · rfl

end Reprint
