import Reprint.Proofs.Tree.Outward
import Reprint.Proofs.Tree.Spliced

/-!
# Items that stand at their places

Printing the objects of a list leaves a tree in which every node stays and spans
only grow (`Tree.Grown`).  `Tree.Stands` says that the items of a list stand at
places that are known, so what a revision reads of them is known too.  It holds in
between as soon as it holds before and after (`Stands.between`).

`itemTexts` is the printing alone, without a patch: the texts of all objects that
a list lists now.  `Turns.listed`, `Turns.freshText` and `Revises.removal` are the
edits that go with it for an item that stays, a new object and an item that is
gone.
-/

namespace Reprint

open Reprint.Tree

variable {M O : Type}

namespace Tree

/-! ## Trees that grow -/

/-- A later tree: nodes stay and keep what was found of them, and spans only
grow. -/
def Grown (t u : Tree M O) : Prop := t.Restored u ∧ t.Extends u

namespace Grown

variable {t u v : Tree M O}

theorem refl (t : Tree M O) : Grown t t := ⟨.refl t, .refl t⟩

theorem trans (htu : Grown t u) (huv : Grown u v) : Grown t v :=
  ⟨htu.1.trans huv.1, htu.2.trans huv.2⟩

theorem prints [DecidableEq O] (m : M) (t : Tree M O) : Prints m (Grown t) where
  getNode hu hget := hu.trans ⟨.getNode hget, .getNode hget⟩
  insertion id q hu := hu.trans ⟨.moved _ id q, .modify _ id fun n =>
    .mapPlace n (fun _ => rfl) fun _ => rfl⟩

end Grown

/-- The nodes of some items stand at their places. -/
structure Stands (s : Source) (place : Nat → Place) (items : List (ListedItem O)) (t : Tree M O) :
    Prop where
  source : t.source = s
  node : ∀ item ∈ items, ∃ n p, t.nodes[item.node]? = some n ∧ n.place = some p ∧
    p.span = (place item.node).span ∧ p.before = (place item.node).before ∧
    p.behind = (place item.node).behind

namespace Stands

variable {s : Source} {place : Nat → Place} {items : List (ListedItem O)} {item : ListedItem O}
  {t u v : Tree M O}

/-- Delimiters that were found stay as they are. -/
theorem around_eq {n k : Node M O} {p q : Place} (h : n.Restored k) (hp : n.place = some p)
    (hq : k.place = some q) : q.before = p.before ∧ q.behind = p.behind := by
  have hbefore := h.before
  have hbehind := h.behind
  rw [Node.before, Node.before, hp, hq] at hbefore
  rw [Node.behind, Node.behind, hp, hq] at hbehind
  exact ⟨hbefore, hbehind⟩

/-- Between two trees with the same spans nothing has grown. -/
theorem between (ht : Stands s place items t) (hv : Stands s place items v) (htu : Grown t u)
    (huv : Grown u v) : Stands s place items u where
  source := htu.1.source.trans ht.source
  node item hitem := by
    obtain ⟨n, p, hn, hp, hspan, hbefore, hbehind⟩ := ht.node item hitem
    obtain ⟨n', p', hn', hp', hspan', _⟩ := hv.node item hitem
    obtain ⟨k, hk, hrestored⟩ := htu.1.node hn
    obtain ⟨k', hk', hextends⟩ := htu.2.node hn
    rw [hk, Option.some.injEq] at hk'
    rw [← hk'] at hextends
    have hold : n.span? = some (place item.node).span := by rw [Node.span?, hp, ← hspan]; rfl
    obtain ⟨own, hown, hgrown⟩ := hextends.span hold
    obtain ⟨l, hl, hextends'⟩ := huv.2.node hk
    obtain ⟨own', hown', hgrown'⟩ := hextends'.span hown
    rw [hn', Option.some.injEq] at hl
    rw [← hl, Node.span?, hp', Option.map_some, hspan', Option.some.injEq] at hown'
    rw [← hown'] at hgrown'
    have hsame : own = (place item.node).span := by
      rw [Span.contains_iff] at hgrown hgrown'
      exact Span.ext (Position.le_antisymm hgrown.1 hgrown'.1)
        (Position.le_antisymm hgrown'.2 hgrown.2)
    obtain ⟨q, hq, hqspan⟩ := Option.map_eq_some_iff.1 hown
    obtain ⟨hbefore', hbehind'⟩ := around_eq hrestored hp hq
    exact ⟨k, q, hk, hq, hqspan.trans hsame, hbefore'.trans hbefore, hbehind'.trans hbehind⟩

/-- The piece that such an item covers. -/
theorem extent (h : Stands s place items t) (hitem : item ∈ items)
    (hseated : (place item.node).Seated s) :
    ∃ n, t.node item.node = .ok n ∧ n.before = (place item.node).before ∧
      n.extent = some (Span.between (place item.node).leadStart (place item.node).trailStop) := by
  obtain ⟨n, p, hn, hp, hspan, hbefore, hbehind⟩ := h.node item hitem
  refine ⟨n, node_eq_ok.2 hn, ?_, ?_⟩
  · rw [Node.before, hp, ← hbefore]
    rfl
  · rw [← hseated.extent, Node.extent, hp, Option.bind_some, Place.extent, Place.extent, hspan, hbefore,
      hbehind]

theorem placeOfNode (h : Stands s place items t) (hitem : item ∈ items) :
    ∃ p, t.placeOfNode item.node = .ok p ∧ p.span = (place item.node).span ∧
      p.before = (place item.node).before ∧ p.behind = (place item.node).behind := by
  obtain ⟨n, p, hn, hp, hsame⟩ := h.node item hitem
  exact ⟨p, placeOfNode_eq_ok.2 ⟨n, hn, hp⟩, hsame⟩

/-- Nodes with a place stand there. -/
theorem of_places (h : ∀ item ∈ items, t.placeOfNode item.node = .ok (place item.node)) :
    Stands t.source place items t where
  source := rfl
  node item hitem := by
    obtain ⟨n, hn, hp⟩ := placeOfNode_eq_ok.1 (h item hitem)
    exact ⟨n, _, hn, hp, rfl, rfl, rfl⟩

/-- They stay there as long as their spans do not grow. -/
theorem of_steady (h : Stands s place items t) (hgrown : Grown t v)
    (hsteady : ∀ item ∈ items, v.spanOf item.node = t.spanOf item.node) : Stands s place items v where
  source := hgrown.1.source.trans h.source
  node item hitem := by
    obtain ⟨n, p, hn, hp, hspan, hbefore, hbehind⟩ := h.node item hitem
    obtain ⟨k, hk, hrestored⟩ := hgrown.1.node hn
    have hsame := hsteady item hitem
    rw [spanOf_eq hk, spanOf_eq hn, Node.span?, Node.span?, hp] at hsame
    obtain ⟨q, hq, hqspan⟩ := Option.map_eq_some_iff.1 hsame
    obtain ⟨hbefore', hbehind'⟩ := around_eq hrestored hp hq
    exact ⟨k, q, hk, hq, hqspan.trans hspan, hbefore'.trans hbefore, hbehind'.trans hbehind⟩

end Stands

end Tree

/-! ## The texts of the objects of a list -/

section Texts

variable [DecidableEq O] (print : Nat → Margin → Job M O Text) (m : M) (owner : Nat) (unit : Margin)

/-- The text of an object that has none in the source, with literals around it. -/
def freshItem (indent : Indent) (around : Text × Text) (object : O) : Job M O Text := do
  match ← printBelow print m owner object unit with
  | none => return []
  | some body =>
    return (← get).aligned owner indent
      ((unit.within indent).apply (around.1 ++ body ++ around.2))

/-- The text of an object that a list lists: as it is printed if it was found in
the source, and else with the literals around it. -/
def itemText (frame : Frame) (list : ItemList M O) (count index : Nat) (object : O) : Job M O Text :=
  match list.item? object with
  | some item => print item.node unit
  | none => freshItem print m owner unit frame.indent (list.around frame index count) object

/-- The texts of the objects that a list lists, from an index on. -/
def itemTexts (frame : Frame) (list : ItemList M O) (count : Nat) :
    Nat → List O → Job M O (List Text)
  | _, [] => return []
  | index, object :: rest => do
    let text ← itemText print m owner unit frame list count index object
    return text :: (← itemTexts frame list count (index + 1) rest)

variable {print m owner unit} {frame : Frame} {list : ItemList M O} {count index : Nat} {object : O}
  {rest : List O} {t u v : Tree M O} {texts : List Text}

theorem itemText_found {item : ListedItem O} (h : list.item? object = some item) :
    itemText print m owner unit frame list count index object = print item.node unit := by
  rw [itemText, h]

theorem itemText_fresh (h : list.item? object = none) :
    itemText print m owner unit frame list count index object =
      freshItem print m owner unit frame.indent (list.around frame index count) object := by
  rw [itemText, h]

theorem itemTexts_cons_eq_ok
    (h : itemTexts print m owner unit frame list count index (object :: rest) t = .ok texts v) :
    ∃ text later u, texts = text :: later ∧
      itemText print m owner unit frame list count index object t = .ok text u ∧
      itemTexts print m owner unit frame list count (index + 1) rest u = .ok later v := by
  rw [itemTexts] at h
  obtain ⟨text, u, htext, hrest⟩ := bind_eq_ok h
  obtain ⟨later, v', hlater, hpure⟩ := bind_eq_ok hrest
  cases hpure
  exact ⟨text, later, u, rfl, htext, hlater⟩

theorem length_itemTexts : ∀ {objects : List O} {index : Nat} {t v : Tree M O} {texts : List Text},
    itemTexts print m owner unit frame list count index objects t = .ok texts v →
    texts.length = objects.length
  | [], _, _, _, _, h => by
    cases h
    rfl
  | _ :: _, _, _, _, _, h => by
    obtain ⟨_, _, _, rfl, _, hrest⟩ := itemTexts_cons_eq_ok h
    exact congrArg Nat.succ (length_itemTexts hrest)

/-- A later tree is left behind, if that is so for every node. -/
theorem grown_itemText (hprint : ∀ id margin t, Job.Keeping (Grown t) (print id margin)) {text : Text}
    (h : itemText print m owner unit frame list count index object t = .ok text u) : Grown t u := by
  cases hitem : list.item? object with
  | some item =>
    rw [itemText_found hitem] at h
    exact (hprint item.node unit t).of_ok (.refl t) h
  | none =>
    rw [itemText_fresh hitem, freshItem] at h
    obtain ⟨body, u', hbody, hrest⟩ := bind_eq_ok h
    have hbelow := ((Grown.prints m t).toGrows.printBelow (fun id margin => hprint id margin t) owner
      object unit).of_ok (.refl t) hbody
    cases body with
    | none =>
      cases hrest
      exact hbelow
    | some body =>
      cases hrest
      exact hbelow

theorem grown_itemTexts (hprint : ∀ id margin t, Job.Keeping (Grown t) (print id margin)) :
    ∀ {objects : List O} {index : Nat} {t v : Tree M O} {texts : List Text},
      itemTexts print m owner unit frame list count index objects t = .ok texts v → Grown t v
  | [], _, t, v, _, h => by
    cases h
    exact .refl t
  | object :: rest, index, t, v, texts, h => by
    obtain ⟨_, _, u, _, htext, hrest⟩ := itemTexts_cons_eq_ok h
    exact (grown_itemText hprint htext).trans (grown_itemTexts hprint hrest)

end Texts

/-! ## The edits of the items -/

namespace Tree

variable {s : Source} {place : Nat → Place} {items : List (ListedItem O)} {item : ListedItem O}
  {t u v : Tree M O} {print : Nat → Margin → Job M O Text} {unit : Margin} {text : Text}

/-- An item that is still listed is brought up to date. -/
theorem Turns.listed (ht : Stands s place items t) (hu : Stands s place items u)
    (hitem : item ∈ items) (hseated : (place item.node).Seated s) (around : Text × Text)
    (hprint : print item.node unit t = .ok text u) (a : Position) :
    Turns t u (reviseItem print unit item.node (some around)) a ()
      (itemEdits s (place item.node) around text) (place item.node).trailStop := by
  obtain ⟨p, hp, hspan, hbefore, hbehind⟩ := ht.placeOfNode hitem
  have hpresent : u.sourceText p.span = .ok (s.slice p.span.toBounds) := by
    unfold sourceText
    rw [hu.source, hspan, Source.extract_span hseated.valid]
    rfl
  have hrevised : Turns t u (reviseItem print unit item.node (some around)) a ()
      (itemEdits s p around text) p.trailStop := by
    unfold reviseItem
    refine .read hp ?_
    rw [Option.getD_some]
    refine .bind (.of_revises (.delimiter a p.before around.1 p.span.start)) ?_
    refine .bind_nil (.onTree hprint a) (.read hpresent ?_)
    let next (_ : Unit) : Revision M O Unit := do
      reviseDelimiter p.behind around.2 p.span.stop
      Revision.moveTo p.trailStop
    have hnext : Revises (· = u) (next ()) a () (delimiterEdits p.behind around.2 p.span.stop ++ [])
        p.trailStop := .bind (.delimiter a p.behind around.2 p.span.stop) (.moveTo a _)
    rw [List.append_nil] at hnext
    exact .of_revises (.replaceIf p.span _ text hnext)
  rw [itemEdits, Place.trailStop, hspan, hbefore, hbehind] at hrevised
  exact hrevised

section Listed

variable [DecidableEq O] {m : M} {owner : Nat} {frame : Frame} {list : ItemList M O}
  {count index : Nat} {object : O} {rest done spare : List O}

omit [DecidableEq O] in
/-- The removal of a piece that may be empty. -/
theorem Revises.removal {P : Tree M O → Prop} (a : Position) (span : Span) :
    Revises P (Revision.edit (fun patch => patch.remove span) : Revision M O Unit) a ()
      (ItemList.removal span) a := by
  refine .add a fun patch hcompatible => ?_
  unfold Patch.remove
  unfold ItemList.removal at hcompatible ⊢
  split
  · rw [Patch.extend_nil]
  · next hempty =>
    rw [if_neg hempty] at hcompatible
    exact Patch.add_of_compatible hcompatible

/-- A new object has the text that is made for it alone. -/
theorem Turns.freshText {indent : Indent} {around : Text × Text}
    (h : freshItem print m owner unit indent around object t = .ok text u) (a : Position) :
    Turns t u (Tree.freshText print m owner unit indent around.1 around.2 object) a text [] a := by
  obtain ⟨body, u', hbody, hrest⟩ := bind_eq_ok h
  unfold Tree.freshText
  refine .bind_nil (.onTree hbody a) ?_
  intro patch _
  rw [Patch.extend_nil]
  cases body with
  | none =>
    cases hrest
    rfl
  | some body =>
    cases hrest
    rfl

end Listed

end Tree

end Reprint
