import Reprint.Proofs.Tree.Order
import Reprint.Proofs.Tree.Pieces
import Reprint.Proofs.Tree.Quiet
import Reprint.Proofs.Tree.Revises

/-!
# The edits of parts of which some choices flip

`Writes` says what printing makes of a piece of a node.  `reviseParts_pieces` is the
result: revising settled parts adds the edits of their pieces and no others.  A
literal, a foreign object and a delimiter that was found add none, a node that is kept
adds the replacement of its text, and a flipped choice the replacement of what it
covers.  If no choice flips, the text of a node is the one that it has in the source
(`runs_print_of_reaches`).

Printing moves the positions where nodes take new text, and may make nodes.  So all
statements are about trees with a property that the located tree is a pattern for
(`LooksLike`).
-/

namespace Reprint

open Reprint.Tree

variable {M O : Type}

namespace Tree

/-! ## Trees that look alike -/

/-- All trees with a property are to a revision what a tree is: located nodes are
there with their parts and stand where they did, though they may have more nodes below
them and take new text elsewhere, and objects without a layout have no text. -/
structure LooksLike [DecidableEq O] (t : Tree M O) (P : Tree M O → Prop) : Prop where
  source : ∀ {u : Tree M O}, P u → u.source = t.source
  settings : ∀ {u : Tree M O}, P u → u.settings = t.settings
  node : ∀ {u : Tree M O} {id : Nat} {n : Node M O}, P u → t.nodes[id]? = some n →
    ∃ q more, u.nodes[id]? = some { n.moved q with children := n.children ++ more }
  foreign : ∀ {u : Tree M O} {owner : Nat} {n : Node M O} {object : O}, P u →
    t.nodes[owner]? = some n → t.language.IsForeign object →
    ∀ (print : Nat → Margin → Job M O Text) (m : M) (margin : Margin),
      printBelow print m owner object margin u = .ok none u
  insertion : ∀ {u : Tree M O}, P u → ∀ (id : Nat) (q : Position),
    P (u.modify id fun n => n.mapPlace fun p => { p with insertion := q })

namespace LooksLike

variable [DecidableEq O] {t u : Tree M O} {P : Tree M O → Prop} {id : Nat} {n : Node M O} {p : Place}

theorem size_le (looks : LooksLike t P) (hu : P u) : t.nodes.size ≤ u.nodes.size := by
  by_contra hlt
  obtain ⟨n, hn⟩ := exists_node_of_lt (Nat.lt_of_not_le hlt)
  obtain ⟨_, _, hk⟩ := looks.node hu hn
  exact absurd (lt_size_of_node hk) (Nat.lt_irrefl _)

theorem sourceText (looks : LooksLike t P) (hu : P u) {span : Span}
    (hvalid : t.source.validateBounds span.toBounds = .ok ()) :
    u.sourceText span = .ok (t.source.slice span.toBounds) := by
  unfold Tree.sourceText
  rw [looks.source hu, Source.extract_span hvalid]
  rfl

/-- A node that was found is there, with its object and what was found around it. -/
theorem placeOfNode (looks : LooksLike t P) (hu : P u) (hn : t.nodes[id]? = some n)
    (hp : n.place = some p) :
    ∃ q, u.placeOfNode id = .ok q ∧ q.span = p.span ∧ q.before = p.before ∧
      q.behind = p.behind := by
  obtain ⟨i, more, hk⟩ := looks.node hu hn
  refine ⟨{ p with insertion := i }, placeOfNode_eq_ok.2 ⟨_, hk, ?_⟩, rfl, rfl, rfl⟩
  simp [Node.moved, Node.mapPlace, hp]

/-- A located node is there, with its parts and where it was. -/
theorem located (looks : LooksLike t P) (hu : P u) (hn : t.nodes[id]? = some n)
    (hp : n.place = some p) (hlocated : t.isLocated id = true) :
    ∃ k q, u.nodes[id]? = some k ∧ k.parts = n.parts ∧
      k.located? = some { p with insertion := q } := by
  rw [isLocated_eq hn] at hlocated
  obtain ⟨q, more, hk⟩ := looks.node hu hn
  obtain ⟨p', hp', hloc⟩ := (n.isLocated_iff).1 hlocated
  rw [hp] at hp'
  cases hp'
  refine ⟨_, q, hk, rfl, Node.located?_eq_some.2 ⟨?_, hloc⟩⟩
  simp [Node.moved, Node.mapPlace, hp]

/-- Text is aligned below a node as before. -/
theorem aligned (looks : LooksLike t P) (hu : P u) (hn : t.nodes[id]? = some n) (indent : Indent)
    (text : Text) : u.aligned id indent text = t.aligned id indent text := by
  obtain ⟨q, more, hk⟩ := looks.node hu hn
  have hspan : ({ n.moved q with children := n.children ++ more } : Node M O).span? = n.span? := by
    simp [Node.span?, Node.moved, Node.mapPlace, Function.comp_def]
  unfold Tree.aligned
  rw [hk, hn, Option.bind_some, Option.bind_some, hspan, looks.settings hu, looks.source hu]

end LooksLike

/-! ## Revisions without edits -/

namespace Revises

variable {P : Tree M O → Prop}

/-- A delimiter that was found, or was not looked for, stays. -/
theorem resolved {d : Delimiter} (h : d.IsResolved) (a anchor : Position) :
    Revises P (reviseDelimiter d d.literal anchor : Revision M O Unit) a () [] a := by
  have hedits : delimiterEdits d d.literal anchor = [] := by
    cases d with
    | empty => rfl
    | missing => exact h.elim
    | present found span => exact if_pos rfl
  exact hedits ▸ Revises.delimiter a d d.literal anchor

/-- An object with the literals around it that were looked for. -/
theorem listed {print : Nat → Margin → Job M O Text} {unit : Margin} {id : Nat} {p : Place}
    {present text : Text} {literals : Option (Text × Text)}
    (hplace : ∀ u, P u → ∃ q, u.placeOfNode id = .ok q ∧ q.span = p.span ∧ q.before = p.before ∧
      q.behind = p.behind)
    (hpresent : ∀ u, P u → u.sourceText p.span = .ok present)
    (hprint : Runs P (print id unit) text P) (hbefore : p.before.IsResolved)
    (hbehind : p.behind.IsResolved)
    (hliterals : literals = none ∨ literals = some (p.before.literal, p.behind.literal))
    (a : Position) :
    Revises P (reviseItem print unit id literals) a () (replacement p.span present text)
      (p.behind.stopBehind p.span) := by
  unfold reviseItem
  refine .read fun u hu => ?_
  obtain ⟨q, hq, hspan, hlead, htrail⟩ := hplace u hu
  refine ⟨q, hq, ?_⟩
  have hget : literals.getD (q.before.literal, q.behind.literal) =
      (p.before.literal, p.behind.literal) := by
    rcases hliterals with rfl | rfl
    · rw [hlead, htrail]
      rfl
    · rfl
  rw [hget, hspan, hlead, htrail]
  refine .bind_nil (.resolved hbefore a _) ?_
  refine .bind_nil (.onTree hprint a) (.read fun u hu => ⟨present, hpresent u hu, ?_⟩)
  let next (_ : Unit) : Revision M O Unit := do
    reviseDelimiter p.behind p.behind.literal p.span.stop
    Revision.moveTo (p.behind.stopBehind p.span)
  have hnext : Revises P (next ()) a () [] (p.behind.stopBehind p.span) :=
    .bind_nil (.resolved hbehind a _) (.moveTo a _)
  have h := Revises.replaceIf p.span present text hnext
  rwa [List.append_nil] at h

variable [DecidableEq O] {print : Nat → Margin → Job M O Text} {m : M} {owner : Nat} {unit : Margin}

/-- A part without source text that has no text. -/
theorem nothing {part : Part M O} (a : Position)
    (hprint : Runs P (normalPart print m owner unit part) [] P) :
    Revises P (insertPart print m owner unit part) a () [] a :=
  .part a hprint fun u _ => aligned_nil u owner _

/-- The part of a choice that is selected now, where the choice covers a piece. -/
theorem switchTo {frame : Frame} {span : Span} (hspan : frame.extent = some span)
    {other : Option (Part M O)} {inserted : Text}
    (hother : match other with
      | none => inserted = []
      | some part => ∃ text, Runs P (normalPart print m owner unit part) text P ∧
          ∀ u, P u → u.aligned owner part.frame.indent text = inserted) (a : Position) :
    Revises P (Tree.switchTo print m owner unit frame other) a ()
      [⟨.replace, span, inserted⟩] span.stop := by
  cases other with
  | none =>
    dsimp only at hother
    subst hother
    unfold Tree.switchTo
    rw [hspan]
    exact .bind_nil (.pure a []) (.overwrite a span [])
  | some part =>
    obtain ⟨text, hprint, haligned⟩ := hother
    have h : Revises P (Tree.switchTo print m owner unit frame (some part)) a () _ _ :=
      .switch a hprint haligned
    rwa [hspan] at h

/-- An object without text adds nothing. -/
theorem freshNothing {indent : Indent} {lead trail : Text} {object : O} (a : Position)
    (hprint : Runs P (printBelow print m owner object unit) none P) :
    Revises P (freshText print m owner unit indent lead trail object) a [] [] a := by
  unfold freshText
  exact .bind_nil (.onTree hprint a) (.pure a [])

/-- Nothing is removed from a list of which the model names all items. -/
theorem removeGone_of_listed {current : List O} (a : Position) :
    ∀ {items : List (ListedItem O)} {previous : Option Nat},
      (∀ item ∈ items, item.object ∈ current) →
      Revises P (removeGone current previous items) a () [] a
  | [], _, _ => .pure a ()
  | item :: rest, previous, h => by
    rw [removeGone]
    rw [if_neg (by simpa using h item List.mem_cons_self)]
    exact removeGone_of_listed a fun other hother => h other (List.mem_cons_of_mem _ hother)

end Revises

/-! ## Pieces -/

section Parts

/- A tree that was surveyed for the model `m` is printed for the model `m'`. -/
variable [DecidableEq O] {m₀ m m' : M} {t : Tree M O} {P : Tree M O → Prop}
  {print : Nat → Margin → Job M O Text} {owner : Nat} {unit : Margin}

/-- What printing makes of a piece: the part that is selected now takes the place of
what the choice covers, and a node that is kept is replaced by its text. -/
def Writes (P : Tree M O → Prop) (print : Nat → Margin → Job M O Text) (t : Tree M O) (m' : M)
    (owner : Nat) (unit : Margin) : Piece M O → List Edit → Prop
  | .flipped covered other, edits =>
    ∃ span inserted, covered = some span ∧ edits = [⟨.replace, span, inserted⟩] ∧
      match other with
      | none => inserted = []
      | some part => ∃ text, Runs P (normalPart print m' owner unit part) text P ∧
          t.aligned owner part.frame.indent text = inserted
  | .kept id, edits =>
    ∃ n p text, t.nodes[id]? = some n ∧ n.place = some p ∧ Runs P (print id unit) text P ∧
      edits = replacement p.span (t.source.slice p.span.toBounds) text

variable {edits : Piece M O → List Edit}

/-- A node that is kept, with the literals around it that were looked for. -/
theorem reviseItem_kept (ready : Ready m₀ t) (looks : LooksLike t P) {id : Nat} {c : Node M O}
    {literals : Option (Text × Text)} (hc : t.nodes[id]? = some c)
    (hwrites : Writes (P) print t m' owner unit (.kept id) (edits (.kept id)))
    (hbefore : c.before.IsResolved) (hbehind : c.behind.IsResolved)
    (hliterals : literals = none ∨ literals = some (c.before.literal, c.behind.literal))
    (a : Position) :
    ∃ b, Revises (P) (reviseItem print unit id literals) a () (edits (.kept id)) b := by
  obtain ⟨n, p, text, hn, hp, hprint, hedits⟩ := hwrites
  rw [hc] at hn
  cases hn
  have hbefore' : c.before = p.before := by simp [Node.before, hp]
  have hbehind' : c.behind = p.behind := by simp [Node.behind, hp]
  rw [hbefore', hbehind'] at hliterals
  rw [hedits]
  exact ⟨_, .listed (fun u hu => looks.placeOfNode hu hc hp)
    (fun u hu => looks.sourceText hu (ready.sound.valid hc hp)) hprint (hbefore' ▸ hbefore)
    (hbehind' ▸ hbehind) hliterals a⟩

/-! ## Lists -/

section Walk

variable {list : ItemList M O} {done later : List (ListedItem O)}

/-- An object that a list has among none of its items. -/
theorem item?_of_skipped {object : O} (hlist : list.listed = done ++ later)
    (hfresh : ∀ item ∈ done, item.object ≠ object)
    (hnever : ∀ item ∈ later, item.object ≠ object) : list.item? object = none := by
  rw [ItemList.item?, List.find?_eq_none]
  intro item hitem
  rw [hlist, List.mem_append] at hitem
  rcases hitem with hitem | hitem
  · simpa using hfresh item hitem
  · simpa using hnever item hitem

/-- An object that none of the items in front is for. -/
theorem item?_of_taken {item : ListedItem O} (hlist : list.listed = done ++ item :: later)
    (hfresh : ∀ other ∈ done, other.object ≠ item.object) :
    list.item? item.object = some item := by
  rw [ItemList.item?, hlist, List.find?_append, List.find?_eq_none.2, Option.none_or,
    List.find?_cons_of_pos (by simp)]
  intro other hother
  simpa using hfresh other hother

omit [DecidableEq O] in
/-- The objects that were found, with one more item. -/
theorem found_concat {found : List O} (item : ListedItem O)
    (hdone : ∀ object, object ∈ found ↔ ∃ item ∈ done, item.object = object) (object : O) :
    object ∈ item.object :: found ↔ ∃ other ∈ done ++ [item], other.object = object := by
  rw [List.mem_cons, hdone]
  constructor
  · rintro (rfl | ⟨other, hother, heq⟩)
    · exact ⟨item, by simp, rfl⟩
    · exact ⟨other, by simp [hother], heq⟩
  · rintro ⟨other, hother, heq⟩
    rcases List.mem_append.1 hother with hother | hother
    · exact Or.inr ⟨other, hother, heq⟩
    · rw [List.mem_singleton.1 hother] at heq
      exact Or.inl heq.symm

end Walk

/-- The items of a settled list, in the order in which the model lists them.  The
repetitions still to come are those that the walk has left. -/
theorem reviseListed_kept (ready : Ready m₀ t) (looks : LooksLike t P) {n : Node M O} (hn : t.nodes[owner]? = some n)
    {frame : Frame} {list : ItemList M O} {count : Nat}
    (hwrites : ∀ item ∈ list.listed, Writes (P) print t m' owner unit
      (.kept item.node) (edits (.kept item.node)))
    (hsettled : ∀ object ∈ list.supply m, t.language.IsForeign object ∨
      ∃ item, list.item? object = some item ∧ t.IsFound item.node object) :
    ∀ {index : Nat} {objects again found : List O} {done later : List (ListedItem O)},
      ItemList.Walk t owner (list.around frame · count) index objects done later again →
      list.listed = done ++ later → (∀ object ∈ objects, object ∈ list.supply m) →
      (∀ object, object ∈ found ↔ ∃ item ∈ done, item.object = object) →
      ∀ a, ∃ b, Revises (P)
        (reviseListed print m' owner unit frame list count index objects found again) a ()
        (later.flatMap fun item => edits (.kept item.node)) b
  | _, _, _, _, _, _, .nil, _, _, _ => fun a => ⟨a, .pure a ()⟩
  | index, _, _, found, done, later, @ItemList.Walk.again _ _ _ _ _ _ object rest again _ _ hfound
      tail, hlist, hobjects, hdone => by
    intro a
    obtain ⟨item, hitem, hobject⟩ := hfound
    obtain ⟨first, hfirst⟩ : ∃ first, list.item? object = some first := by
      refine Option.isSome_iff_exists.1 ?_
      rw [ItemList.item?, List.find?_isSome]
      exact ⟨item, by simp [hlist, hitem], by simpa using hobject⟩
    have hmem : object ∈ found := (hdone object).2 ⟨item, hitem, hobject⟩
    have hrest := reviseListed_kept ready looks hn hwrites hsettled tail hlist
      (fun o ho => hobjects o (List.mem_cons_of_mem _ ho)) hdone a
    rw [reviseListed]
    simp only [hfirst]
    rw [if_neg (by simpa using hmem), if_pos (by simp), List.erase_cons_head]
    exact hrest
  | index, _, _, found, done, later, @ItemList.Walk.skip _ _ _ _ _ _ object rest again _ _ hfresh
      hnever tail, hlist, hobjects, hdone => by
    intro a
    have hnone : list.item? object = none := item?_of_skipped hlist hfresh hnever
    have hforeign : t.language.IsForeign object := by
      rcases hsettled object (hobjects object List.mem_cons_self) with hforeign | ⟨item, hitem, _⟩
      · exact hforeign
      · rw [hnone] at hitem
        cases hitem
    obtain ⟨b, hrest⟩ := reviseListed_kept ready looks hn hwrites hsettled tail hlist
      (fun o ho => hobjects o (List.mem_cons_of_mem _ ho)) hdone a
    have hprint : Runs (P) (printBelow print m' owner object unit) none (P) :=
      .unchanged fun u hu => looks.foreign hu hn hforeign _ _ _
    rw [reviseListed, hnone]
    exact ⟨b, .bind_nil (.freshNothing a hprint) (.bind_nil (.insertHere a []) hrest)⟩
  | index, _, again, found, done, _, @ItemList.Walk.take _ _ _ _ _ _ rest _ _ later item c hfresh
      hlt hc hobject hlocated hbefore hbehind tail, hlist, hobjects, hdone => by
    intro a
    have hitem : list.item? item.object = some item := item?_of_taken hlist hfresh
    have hnot : item.object ∉ found := by
      rw [hdone]
      rintro ⟨other, hother, heq⟩
      exact hfresh other hother heq
    obtain ⟨hresolved, hresolved'⟩ : c.before.IsResolved ∧ c.behind.IsResolved := by
      rcases hsettled item.object (hobjects _ List.mem_cons_self) with hforeign |
        ⟨other, hother, c', hc', _, hresolved⟩
      · exact absurd (hobject ▸ hforeign) (ready.not_isForeign hc)
      · rw [hitem] at hother
        cases hother
        rw [hc] at hc'
        cases hc'
        exact hresolved
    obtain ⟨b, hhead⟩ := reviseItem_kept ready looks hc (hwrites item (by simp [hlist])) hresolved
      hresolved' (Or.inr (by rw [hbefore, hbehind])) a
    obtain ⟨b', hrest⟩ := reviseListed_kept ready looks hn hwrites hsettled tail
      (by rw [hlist, List.append_assoc]; rfl)
      (fun o ho => hobjects o (List.mem_cons_of_mem _ ho)) (found_concat item hdone) b
    rw [reviseListed_found hitem hnot, List.flatMap_cons]
    exact ⟨b', .bind hhead hrest⟩

theorem moveToFirst_kept (looks : LooksLike t P) {list : ItemList M O} {current : List O}
    (hnodes : ∀ item ∈ list.listed, ∃ c, t.nodes[item.node]? = some c) (a : Position) :
    ∃ b, Revises (P) (moveToFirst list current) a () [] b := by
  unfold moveToFirst
  cases hfind : list.listed.find? fun item => current.contains item.object with
  | none => exact ⟨a, .pure a ()⟩
  | some item =>
    obtain ⟨c, hc⟩ := hnodes item (List.mem_of_find?_eq_some hfind)
    refine ⟨(((c.before.span?.map fun s => s.start).or (c.span?.map fun s => s.start)).getD a),
      .read fun u hu => ?_⟩
    obtain ⟨q, more, hk⟩ := looks.node hu hc
    refine ⟨_, node_eq_ok.2 hk, ?_⟩
    have hbefore : ({ c.moved q with children := c.children ++ more } : Node M O).before =
        c.before := by
      simp [Node.before, Node.moved, Node.mapPlace, Function.comp_def]
    have hspan : ({ c.moved q with children := c.children ++ more } : Node M O).span? =
        c.span? := by
      simp [Node.span?, Node.moved, Node.mapPlace, Function.comp_def]
    rw [hbefore, hspan]
    split
    · next start hstart =>
      rw [hstart]
      exact .moveTo a start
    · next hstart =>
      rw [hstart]
      exact .pure a ()

/-- A list of objects without layouts has no normal text. -/
theorem normalItems_nothing (looks : LooksLike t P) {n : Node M O} (hn : t.nodes[owner]? = some n)
    {frame : Frame} {list : ItemList M O} {count : Nat} :
    ∀ {objects : List O} {index : Nat}, (∀ object ∈ objects, t.language.IsForeign object) →
      Runs (P) (normalItems print m' owner unit frame list count index objects) []
        (P)
  | [], _, _ => .pure (fun _ => id) []
  | object :: rest, index, hforeign => by
    have hprint : Runs (P) (printBelow print m' owner object unit) none (P) :=
      .unchanged fun u hu =>
        looks.foreign hu hn (hforeign object List.mem_cons_self) _ _ _
    rw [normalItems]
    refine .bind hprint (.bind (.pure (fun _ => id) []) ?_)
    exact .bind (normalItems_nothing looks hn fun o ho => hforeign o (List.mem_cons_of_mem _ ho))
      (.pure (fun _ => id) _)

/-- A settled list of which the model still lists the same items. -/
theorem reviseItems_kept (ready : Ready m₀ t) (looks : LooksLike t P) {n : Node M O} (hn : t.nodes[owner]? = some n)
    {frame : Frame} {list : ItemList M O} (hsupply : list.supply m' = list.supply m)
    (hsurveyed : (Part.items frame list).Surveyed m t owner)
    (hsettled : (Part.items frame list).Settled m t)
    (hwrites : ∀ item ∈ list.listed, Writes (P) print t m' owner unit
      (.kept item.node) (edits (.kept item.node))) (a : Position) :
    ∃ b, Revises (P) (revisePart print m' owner unit (.items frame list)) a ()
      (list.listed.flatMap fun item => edits (.kept item.node)) b := by
  simp only [Part.Surveyed] at hsurveyed
  simp only [Part.Settled] at hsettled
  rw [revisePart]
  split
  · next hempty =>
    have hnil : list.listed = [] := List.isEmpty_iff.1 hempty
    rw [hnil]
    have hforeign : ∀ object ∈ list.supply m, t.language.IsForeign object := by
      intro object hobject
      rcases hsettled object hobject with hforeign | ⟨item, hitem, _⟩
      · exact hforeign
      · simp [ItemList.item?, hnil] at hitem
    refine ⟨a, .nothing a ?_⟩
    rw [normalPart]
    refine .bind (normalItems_nothing looks hn (hsupply ▸ hforeign)) ?_
    exact .congr (.pure (fun _ => id) _) (Margin.apply_nil _)
  · have hnodes : ∀ item ∈ list.listed, ∃ c, t.nodes[item.node]? = some c := by
      intro item hitem
      obtain ⟨_, c, hc, _⟩ := hsurveyed.mem_later item hitem
      exact ⟨c, hc⟩
    obtain ⟨b, hfirst⟩ : ∃ b, Revises (P) (moveToFirst list (list.supply m)) a () [] b :=
      moveToFirst_kept looks hnodes a
    obtain ⟨c, hlisted⟩ : ∃ c, Revises (P) (reviseListed print m' owner unit frame list
        (list.supply m).length 0 (list.supply m) [] list.repeats) b ()
        (list.listed.flatMap fun item => edits (.kept item.node)) c :=
      reviseListed_kept ready looks hn hwrites hsettled hsurveyed rfl (fun _ h => h) (by simp) b
    unfold reviseItems
    dsimp only
    rw [hsupply, if_neg (by rw [hsurveyed.not_isReordered]; simp)]
    rw [← List.append_nil (list.listed.flatMap _)]
    exact ⟨c, .bind_nil hfirst (.bind hlisted (.removeGone_of_listed c hsurveyed.mem_objects))⟩

/-- A settled slot in which the model still has the same object. -/
theorem reviseSlot_kept (ready : Ready m₀ t) (looks : LooksLike t P) {n : Node M O} (hn : t.nodes[owner]? = some n)
    {frame : Frame} {supply : M → Option O} {listed : Option Nat} (hsupply : supply m' = supply m)
    (hsurveyed : (Part.slot frame supply listed).Surveyed m t owner)
    (hsettled : (Part.slot frame supply listed).Settled m t)
    (hwrites : ∀ id, listed = some id → Writes (P) print t m' owner unit
      (.kept id) (edits (.kept id))) (a : Position) :
    ∃ b, Revises (P) (revisePart print m' owner unit (.slot frame supply listed)) a ()
      ((listed.toList.map .kept).flatMap edits) b := by
  simp only [Part.Surveyed] at hsurveyed
  simp only [Part.Settled] at hsettled
  cases listed with
  | some id =>
    obtain ⟨_, c, hc, _, hobject⟩ := hsurveyed id rfl
    obtain ⟨hbefore, hbehind⟩ : c.before.IsResolved ∧ c.behind.IsResolved := by
      rcases hsettled c.object hobject with hforeign | ⟨id', hid', c', hc', _, hresolved⟩
      · exact absurd hforeign (ready.not_isForeign hc)
      · cases hid'
        rw [hc] at hc'
        cases hc'
        exact hresolved
    obtain ⟨b, hitem⟩ := reviseItem_kept ready looks hc (hwrites id rfl) hbefore hbehind (Or.inl rfl) a
    have hedits : ((some id).toList.map Piece.kept).flatMap edits = edits (.kept id) := by simp
    rw [hedits, revisePart]
    unfold reviseSlot
    refine ⟨b, .read fun u hu => ?_⟩
    obtain ⟨q, more, hk⟩ := looks.node hu hc
    refine ⟨_, node_eq_ok.2 hk, ?_⟩
    rw [hsupply]
    exact (if_pos hobject).symm ▸ hitem
  | none =>
    rw [revisePart]
    refine ⟨a, .nothing a ?_⟩
    rw [normalPart, hsupply]
    cases hobject : supply m with
    | none => exact .pure (fun _ => id) []
    | some object =>
      have hforeign : t.language.IsForeign object := by
        rcases hsettled object hobject with hforeign | ⟨id, hid, _⟩
        · exact hforeign
        · cases hid
      have hprint : Runs (P) (printBelow print m' owner object unit) none
          (P) := .unchanged fun u hu => looks.foreign hu hn hforeign _ _ _
      exact .bind hprint (.pure (fun _ => id) [])

/-! ## Parts -/

/-- A settled literal. -/
theorem reviseLiteral_kept (looks : LooksLike t P) {frame : Frame} {wording : Wording M} {place : LiteralPlace}
    (hwording : wording.text m' = wording.text m)
    (hsettled : (Part.literal frame wording place).Settled m t) (a : Position) :
    ∃ b, Revises (P)
      (revisePart print m' owner t.settings.margin (.literal frame wording place)) a () [] b := by
  simp only [Part.Settled] at hsettled
  rw [revisePart]
  cases hspan : place.span? with
  | some span =>
    rw [hspan] at hsettled
    obtain ⟨htext, hbefore, hbehind⟩ := hsettled
    have hpresent : ∀ u, P u → u.sourceText span = .ok (wording.text m) := by
      intro u hu
      unfold sourceText
      rw [looks.source hu, htext]
      rfl
    have hedits : insertion span.start place.before.toInsert ++
        (replacement span (wording.text m) (wording.text m') ++
          insertion span.stop place.behind.toInsert) = [] := by
      rw [hwording, hbefore.toInsert_eq_nil, hbehind.toInsert_eq_nil]
      simp [insertion, replacement]
    have h := Revises.literalPlace a hpresent place (wording.text m')
    rw [hedits] at h
    exact ⟨_, h⟩
  | none =>
    rw [hspan] at hsettled
    refine ⟨a, .nothing a ?_⟩
    rw [normalPart, hwording]
    exact .congr (.pure (fun _ => id) _) hsettled

/-- A choice of which another part is selected now than the one that is in the source. -/
theorem revisePart_switched {frame : Frame} {test : M → Bool} {yes : Part M O}
    {no : Option (Part M O)} {taken : Option Bool} (htaken : taken = some (test m))
    (hflip : test m' ≠ test m) :
    revisePart print m' owner unit (.choice frame test yes no taken) =
      switchTo print m' owner unit frame (if test m' then some yes else no) := by
  rw [htaken]
  cases h : test m <;> cases h' : test m'
  · exact absurd (h'.trans h.symm) hflip
  · simp only [revisePart, h', if_true]
  · simp only [revisePart, h', if_neg Bool.false_ne_true]
  · exact absurd (h'.trans h.symm) hflip

/-- What a flipped choice covers is replaced by the part that is selected now. -/
theorem reviseChoice_flipped (looks : LooksLike t P) {n : Node M O} (hn : t.nodes[owner]? = some n) {frame : Frame}
    {test : M → Bool} {yes : Part M O} {no : Option (Part M O)} {taken : Option Bool}
    (hsurveyed : (Part.choice frame test yes no taken).Surveyed m t owner)
    (hflip : test m' ≠ test m) {changes : List Edit}
    (hwrites : Writes (P) print t m' owner unit
      (.flipped (taken.bind fun _ => frame.extent) (if test m' then some yes else no)) changes)
    (a : Position) :
    ∃ b, Revises (P) (revisePart print m' owner unit (.choice frame test yes no taken))
      a () changes b := by
  obtain ⟨span, inserted, hcovered, rfl, hother⟩ := hwrites
  obtain ⟨found, hfound, hextent⟩ := Option.bind_eq_some_iff.1 hcovered
  have htaken : taken = some (test m) := by
    cases no with
    | none =>
      simp only [Part.Surveyed] at hsurveyed
      by_cases htest : test m = true
      · rw [if_pos htest] at hsurveyed
        rw [hsurveyed.1, htest]
      · rw [if_neg htest] at hsurveyed
        rw [hsurveyed] at hfound
        cases hfound
    | some other =>
      simp only [Part.Surveyed] at hsurveyed
      by_cases htest : test m = true
      · rw [if_pos htest] at hsurveyed
        rw [hsurveyed.1, htest]
      · rw [if_neg htest] at hsurveyed
        rw [hsurveyed.1, Bool.eq_false_iff.2 htest]
  rw [revisePart_switched htaken hflip]
  refine ⟨span.stop, .switchTo hextent ?_ a⟩
  split at hother
  · exact hother
  · obtain ⟨text, hprint, haligned⟩ := hother
    exact ⟨text, hprint, fun u hu => (looks.aligned hu hn _ text).trans haligned⟩

mutual

/-- The edits of a settled part are those of its pieces. -/
theorem revisePart_pieces (ready : Ready m₀ t) (looks : LooksLike t P) {n : Node M O} (hn : t.nodes[owner]? = some n) :
    ∀ p : Part M O, p.Surveyed m t owner → p.Settled m t → p.OnlyFlips m m' →
      (∀ x ∈ p.pieces m m', Writes (P) print t m' owner t.settings.margin x (edits x)) →
      ∀ a, ∃ b, Revises (P) (revisePart print m' owner t.settings.margin p) a ()
        ((p.pieces m m').flatMap edits) b
  | .literal frame wording place, _, hsettled, hflips, _ => by
    simp only [Part.OnlyFlips] at hflips
    exact fun a => reviseLiteral_kept looks hflips hsettled a
  | .slot frame supply listed, hsurveyed, hsettled, hflips, hwrites => by
    simp only [Part.OnlyFlips] at hflips
    simp only [Part.pieces] at hwrites ⊢
    exact reviseSlot_kept ready looks hn hflips hsurveyed hsettled fun id hid =>
      hwrites _ (by simp [hid])
  | .items frame list, hsurveyed, hsettled, hflips, hwrites => by
    simp only [Part.OnlyFlips] at hflips
    simp only [Part.pieces] at hwrites ⊢
    rw [List.flatMap_map]
    exact reviseItems_kept ready looks hn hflips hsurveyed hsettled fun item hitem =>
      hwrites _ (List.mem_map_of_mem hitem)
  | .choice frame test yes none taken, hsurveyed, hsettled, hflips, hwrites => by
    by_cases hsame : test m' = test m
    · simp only [Part.Surveyed] at hsurveyed
      simp only [Part.Settled] at hsettled
      simp only [Part.OnlyFlips, if_pos hsame] at hflips
      simp only [Part.pieces, if_pos hsame] at hwrites ⊢
      by_cases htest : test m = true
      · simp only [if_pos htest] at hsurveyed hsettled hflips hwrites ⊢
        simp only [hsurveyed.1, revisePart, hsame, htest]
        exact revisePart_pieces ready looks hn yes hsurveyed.2 hsettled hflips hwrites
      · simp only [if_neg htest] at hsurveyed ⊢
        intro a
        rw [hsurveyed, revisePart]
        refine ⟨a, .nothing a ?_⟩
        rw [normalPart, hsame, if_neg htest]
        exact .pure (fun _ => id) []
    · simp only [Part.pieces, if_neg hsame] at hwrites ⊢
      rw [List.flatMap_singleton]
      exact reviseChoice_flipped looks hn hsurveyed hsame (hwrites _ List.mem_cons_self)
  | .choice frame test yes (some other) taken, hsurveyed, hsettled, hflips, hwrites => by
    by_cases hsame : test m' = test m
    · simp only [Part.Surveyed] at hsurveyed
      simp only [Part.Settled] at hsettled
      simp only [Part.OnlyFlips, if_pos hsame] at hflips
      simp only [Part.pieces, if_pos hsame] at hwrites ⊢
      by_cases htest : test m = true
      · simp only [if_pos htest] at hsurveyed hsettled hflips hwrites ⊢
        simp only [hsurveyed.1, revisePart, hsame, htest]
        exact revisePart_pieces ready looks hn yes hsurveyed.2 hsettled hflips hwrites
      · simp only [if_neg htest] at hsurveyed hsettled hflips hwrites ⊢
        have hfalse : test m = false := by simpa using htest
        simp only [hsurveyed.1, revisePart, hsame, hfalse]
        exact revisePart_pieces ready looks hn other hsurveyed.2 hsettled hflips hwrites
    · simp only [Part.pieces, if_neg hsame] at hwrites ⊢
      rw [List.flatMap_singleton]
      exact reviseChoice_flipped looks hn hsurveyed hsame (hwrites _ List.mem_cons_self)
  | .group _ members _, hsurveyed, hsettled, hflips, hwrites => by
    simp only [Part.Surveyed] at hsurveyed
    simp only [Part.Settled] at hsettled
    simp only [Part.OnlyFlips] at hflips
    simp only [Part.pieces] at hwrites ⊢
    rw [revisePart]
    exact reviseParts_pieces ready looks hn members hsurveyed hsettled hflips hwrites
termination_by structural p => p

/-- The edits of settled parts are those of their pieces. -/
theorem reviseParts_pieces (ready : Ready m₀ t) (looks : LooksLike t P) {n : Node M O} (hn : t.nodes[owner]? = some n) :
    ∀ parts : List (Part M O), Part.SurveyedAll m t owner parts → Part.SettledAll m t parts →
      Part.AllOnlyFlip m m' parts →
      (∀ x ∈ Part.allPieces m m' parts,
        Writes (P) print t m' owner t.settings.margin x (edits x)) →
      ∀ a, ∃ b, Revises (P) (reviseParts print m' owner t.settings.margin parts) a ()
        ((Part.allPieces m m' parts).flatMap edits) b
  | [], _, _, _, _ => fun a => ⟨a, .pure a ()⟩
  | p :: rest, hsurveyed, hsettled, hflips, hwrites => by
    simp only [Part.SurveyedAll] at hsurveyed
    simp only [Part.SettledAll] at hsettled
    simp only [Part.AllOnlyFlip] at hflips
    simp only [Part.allPieces, List.mem_append] at hwrites
    intro a
    obtain ⟨b, hhead⟩ := revisePart_pieces ready looks hn p hsurveyed.1 hsettled.1 hflips.1
      (fun x hx => hwrites x (Or.inl hx)) a
    obtain ⟨c, htail⟩ := reviseParts_pieces ready looks hn rest hsurveyed.2 hsettled.2 hflips.2
      (fun x hx => hwrites x (Or.inr hx)) b
    rw [reviseParts, Part.allPieces, List.flatMap_append]
    exact ⟨c, hhead.bind htail⟩
termination_by structural parts => parts

end

/-! ## Nodes -/

variable {n : Node M O} {p : Place} {id depth : Nat}

/-- The patch of a node has the edits of its pieces. -/
theorem patchOf_pieces (ready : Ready m₀ t) (looks : LooksLike t P) (hn : t.nodes[id]? = some n)
    (hp : n.place = some p) (hsurveyed : Part.SurveyedAll m t id n.parts)
    (hsettled : Part.SettledAll m t n.parts) (honly : Part.AllOnlyFlip m m' n.parts)
    (hwrites : ∀ x ∈ Part.allPieces m m' n.parts,
      Writes P print t m' id t.settings.margin x (edits x))
    (hcompatible : (⟨t.source, p.span, []⟩ : Patch).Compatible
      ((Part.allPieces m m' n.parts).flatMap edits))
    {q : Place} (hq : q.span = p.span) {u : Tree M O} (hu : P u) :
    ∃ v, patchOf print m' id n.parts q u =
      .ok ⟨t.source, p.span, (Part.allPieces m m' n.parts).flatMap edits⟩ v ∧ P v := by
  have hbase : Patch.ofBase u.source q.span = .ok ⟨t.source, p.span, []⟩ := by
    rw [looks.source hu, hq]
    exact Patch.ofBase_eq_ok_iff.2 ⟨ready.sound.valid hn hp, rfl⟩
  obtain ⟨c, hrevises⟩ :=
    reviseParts_pieces ready looks hn n.parts hsurveyed hsettled honly hwrites q.span.start
  obtain ⟨v, hrun, hv⟩ := hrevises u _ hu hcompatible
  refine ⟨_, ?_, looks.insertion hv id c⟩
  unfold patchOf
  simp only [hbase, looks.settings hu, hrun]
  rfl

/-- The text of a node is what the edits of its pieces make of its source text. -/
theorem runs_printWithin (ready : Ready m₀ t) (looks : LooksLike t P) (hn : t.nodes[id]? = some n)
    (hp : n.place = some p) (hlocated : t.isLocated id = true)
    (hsurveyed : Part.SurveyedAll m t id n.parts) (hsettled : Part.SettledAll m t n.parts)
    (honly : Part.AllOnlyFlip m m' n.parts)
    (hwrites : ∀ x ∈ Part.allPieces m m' n.parts,
      Writes P (printWithin m' depth) t m' id t.settings.margin x (edits x))
    {a b : Nat} {text : Text} (hspan : p.span = window t.source a b)
    (hsplices : Patch.Splices t.source a b ((Part.allPieces m m' n.parts).flatMap edits) text)
    (margin : Margin) : Runs P (printWithin m' (depth + 1) id margin) text P := by
  intro u hu
  obtain ⟨k, q, hk, hparts, hplace⟩ := looks.located hu hn hp hlocated
  have hcompatible : (⟨t.source, p.span, []⟩ : Patch).Compatible
      ((Part.allPieces m m' n.parts).flatMap edits) := hspan ▸ hsplices.compatible
  obtain ⟨v, hpatch, hv⟩ := patchOf_pieces ready looks hn hp hsurveyed hsettled honly hwrites
    hcompatible (show ({ p with insertion := q } : Place).span = p.span from rfl) hu
  refine ⟨v, ?_, hv⟩
  rw [printWithin_of_located hk hplace, hparts, hpatch, hspan]
  simp only [hsplices.patch_text]

/-- A node has the text of its span if the parts of all nodes are settled that printing
it visits.  The induction is on the depth. -/
theorem runs_print_of_reaches (ready : Ready m₀ t) (looks : LooksLike t P) {start : Nat}
    (hsurveyed : ∀ {id : Nat} {n : Node M O}, Reaches m t start id → t.nodes[id]? = some n →
      n.isLocated = true → Part.SurveyedAll m t id n.parts)
    (hsettled : ∀ {id : Nat} {n : Node M O}, Reaches m t start id → t.nodes[id]? = some n →
      Part.SettledAll m t n.parts) :
    ∀ {depth id : Nat} {n : Node M O} {p : Place}, t.nodes.size ≤ id + depth →
      Reaches m t start id → t.isLocated id = true → t.nodes[id]? = some n → n.place = some p →
      ∀ margin, Runs P (printWithin m depth id margin) (t.source.slice p.span.toBounds) P
  | 0, id, n, p, hsize, _, _, hn, _, _ => by
    have := lt_size_of_node hn
    omega
  | depth + 1, id, n, p, hsize, hreaches, hlocated, hn, hp, margin => by
    have hparts := hsurveyed hreaches hn (isLocated_eq hn ▸ hlocated)
    have hwrites : ∀ x ∈ Part.allPieces m m n.parts,
        Writes P (printWithin m depth) t m id t.settings.margin x [] := by
      intro x hx
      cases x with
      | flipped covered other => exact absurd hx (Part.flipped_not_mem_allPieces _)
      | kept child =>
        have hfinds := Part.findsAny_of_kept _ hx
        obtain ⟨hlt, hchild⟩ := hparts.of_finds _ hfinds
        obtain ⟨c, hc⟩ := exists_node_of_isLocated hchild
        obtain ⟨q, hq, _⟩ := (c.isLocated_iff).1 (isLocated_eq hc ▸ hchild)
        exact ⟨c, q, _, hc, hq, runs_print_of_reaches ready looks hsurveyed hsettled (by omega)
          (.step hreaches hn hfinds) hchild hc hq _, (if_pos rfl).symm⟩
    obtain ⟨a, b, hab, hb, hwindow⟩ := Patch.exists_window (ready.sound.valid hn hp)
    have hsplices : Patch.Splices t.source a b
        ((Part.allPieces m m n.parts).flatMap fun _ => ([] : List Edit))
        (t.source.slice p.span.toBounds) := by
      rw [List.flatMap_eq_nil_iff.2 fun _ _ => rfl, hwindow, slice_window hab hb]
      exact .nil hab hb
    exact runs_printWithin ready looks hn hp hlocated hparts (hsettled hreaches hn)
      (Part.AllOnlyFlip.refl n.parts) hwrites hwindow hsplices margin

/-! ## Renders -/

/-- The text of the root stands between the source in front of it and behind it. -/
theorem runs_printSource (looks : LooksLike t P) (hn : t.nodes[root]? = some n)
    (hp : n.place = some p) (hlocated : t.isLocated root = true) {a b : Nat} {text : Text}
    (hspan : p.span = window t.source a b) (hab : a ≤ b) (hb : b ≤ t.source.charCount)
    (hprint : Runs P (printRoot m') text P) :
    Runs P (printSource m')
      (t.source.text.piece 0 a ++ text ++ t.source.text.piece b t.source.charCount) P := by
  intro u hu
  obtain ⟨v, hrun, hv⟩ := hprint u hu
  obtain ⟨k, q, hk, _, hplace⟩ := looks.located hv hn hp hlocated
  have hbefore : t.source.extract ⟨t.source.start, p.span.start⟩ =
      .ok (t.source.text.piece 0 a) := by
    rw [hspan, start_window hab hb, ← Source.place_zero,
      Source.extract_place (Nat.zero_le a) (by omega)]
  have hbehind : t.source.extract ⟨p.span.stop, t.source.stop⟩ =
      .ok (t.source.text.piece b t.source.charCount) := by
    rw [hspan, stop_window hab hb, ← Source.place_charCount,
      Source.extract_place hb (Nat.le_refl _)]
  refine ⟨v, ?_, hv⟩
  unfold printSource
  simp only [bind, EStateM.bind, hrun, Job.get_eq, node_eq_ok.2 hk, hplace, looks.source hv,
    hbefore, hbehind]
  rfl

section Settled

variable (ready : Ready m t) (looks : LooksLike t P) (hsettled : AllSettled m t)
  (hn : t.nodes[root]? = some n) (hp : n.place = some p) (hlocated : t.isLocated root = true)

include ready looks hsettled hn hp hlocated

/-- The root has the text of its span if all parts are settled. -/
theorem runs_printRoot_settled :
    Runs P (printRoot m) (t.source.slice p.span.toBounds) P := by
  intro u hu
  have hdepth : t.nodes.size ≤ root + u.depthBound m := by
    have := looks.size_le hu
    unfold depthBound
    omega
  exact runs_print_of_reaches ready looks (fun _ => ready.surveyed)
    (fun hreaches => hsettled hreaches.visited) hdepth .refl hlocated hn hp u.settings.margin u hu

/-- Printing gives the source back if all parts are settled. -/
theorem runs_printSource_settled : Runs P (printSource m) t.source.text P := by
  obtain ⟨a, b, hab, hb, hspan⟩ := Patch.exists_window (ready.sound.valid hn hp)
  have hroot := runs_printRoot_settled ready looks hsettled hn hp hlocated
  have hall : t.source.text.piece 0 t.source.charCount = t.source.text := Text.piece_zero_length _
  rw [hspan, slice_window hab hb] at hroot
  have h := runs_printSource looks hn hp hlocated hspan hab hb hroot
  rwa [Text.piece_append (Nat.zero_le a) hab, Text.piece_append (Nat.zero_le b) hb, hall] at h

end Settled

end Parts

end Tree

end Reprint
