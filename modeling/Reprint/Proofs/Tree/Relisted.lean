import Reprint.Proofs.Tree.Abreast
import Reprint.Proofs.Tree.Retried

/-!
# Trees with other lists

`Tree.mapLists g` is a tree with other lists in the parts of its nodes, and in
the layouts of its language.  Nothing that ties the nodes to each other and to
the source depends on the lists.  So a node is looked up or made in the same
way (`getNode_mapLists`, `plantObjects_mapLists`), and literals and delimiters are
found in the same way (`locateAround_mapLists`, `locateLiteral_mapLists`).

Visiting a part does depend on its lists.  `Visiting.locatePart_mapLists` is the
induction over parts: if the lists of a part are located in the same way, then so
is the part.
-/

namespace Reprint

variable {M O : Type}

/-! ## Other lists -/

namespace Part

variable {g : ItemList M O → ItemList M O}

theorem mapLists_choice (frame : Frame) (test : M → Bool) (yes : Part M O)
    (no : Option (Part M O)) (taken : Option Bool) :
    (choice frame test yes no taken).mapLists g =
      choice frame test (yes.mapLists g) (no.map (mapLists g)) taken := by
  cases no <;> rw [mapLists] <;> rfl

/-- A choice has the lists of the part that is selected. -/
theorem lists_yes {m : M} {test : M → Bool} (htest : test m = true) (frame : Frame)
    (yes : Part M O) (no : Option (Part M O)) (taken : Option Bool) :
    (choice frame test yes no taken).lists m = yes.lists m := by
  cases no <;> rw [lists, if_pos htest]

theorem lists_no {m : M} {test : M → Bool} (htest : test m = false) (frame : Frame)
    (yes other : Part M O) (taken : Option Bool) :
    (choice frame test yes (some other) taken).lists m = other.lists m := by
  rw [lists, htest, if_neg Bool.false_ne_true]

theorem mapAllLists_eq_map (parts : List (Part M O)) :
    mapAllLists g parts = parts.map (mapLists g) := by
  induction parts with
  | nil => rw [mapAllLists, List.map_nil]
  | cons p rest ih => rw [mapAllLists, ih, List.map_cons]

theorem extentOf_mapAllLists (parts : List (Part M O)) :
    extentOf (mapAllLists g parts) = extentOf parts := by
  unfold extentOf
  rw [mapAllLists_eq_map, List.foldl_map]
  simp only [frame_mapLists]

mutual

theorem mapLists_settle : ∀ p : Part M O, p.settle.mapLists g = (p.mapLists g).settle
  | .literal .. | .slot .. | .items .. => by simp only [settle, mapLists]
  | .choice _ _ _ none _ | .choice _ _ _ (some _) _ => by simp only [settle, mapLists]
  | .group frame members true => by
    rw [settle, mapLists, mapLists, settle, ← mapAllLists_settleAll members, extentOf_mapAllLists]
  | .group frame members false => by rw [settle, mapLists, settle]
termination_by structural p => p

theorem mapAllLists_settleAll : ∀ parts : List (Part M O),
    mapAllLists g (settleAll parts) = settleAll (mapAllLists g parts)
  | [] => by rw [settleAll, mapAllLists, settleAll]
  | p :: rest => by
    rw [settleAll, mapAllLists, mapAllLists, settleAll, mapLists_settle p, mapAllLists_settleAll rest]
termination_by structural parts => parts

end

end Part

/-- A language with other lists in its layouts. -/
def Language.mapLists (g : ItemList M O → ItemList M O) (l : Language M O) : Language M O :=
  { l with layout := fun m object => (l.layout m object).map fun layout =>
      { layout with parts := Part.mapAllLists g layout.parts } }

theorem Language.layout_mapLists (g : ItemList M O → ItemList M O) (l : Language M O) (m : M)
    (object : O) : (l.mapLists g).layout m object = (l.layout m object).map fun layout =>
      { layout with parts := Part.mapAllLists g layout.parts } := rfl

/-- A node with other lists in its parts. -/
def Node.mapLists (g : ItemList M O → ItemList M O) (n : Node M O) : Node M O :=
  { n with parts := Part.mapAllLists g n.parts }

namespace Tree

/-- A tree with other lists. -/
def mapLists (g : ItemList M O → ItemList M O) (t : Tree M O) : Tree M O :=
  { t with language := t.language.mapLists g, nodes := t.nodes.map (Node.mapLists g) }

/-- A survey of a tree with other lists. -/
def Survey.mapLists (g : ItemList M O → ItemList M O) (s : Survey M O) : Survey M O :=
  { s with tree := s.tree.mapLists g }

theorem Survey.isRunning_mapLists (g : ItemList M O → ItemList M O) (s : Survey M O) :
    (s.mapLists g).isRunning = s.isRunning := rfl

variable {g : ItemList M O → ItemList M O} {t : Tree M O}

/-! ## Nodes -/

theorem getElem?_mapLists (t : Tree M O) (x : Nat) :
    (t.mapLists g).nodes[x]? = (t.nodes[x]?).map (Node.mapLists g) := Array.getElem?_map ..

@[simp] theorem size_mapLists (t : Tree M O) : (t.mapLists g).nodes.size = t.nodes.size :=
  Array.size_map ..

theorem depthBound_mapLists (m : M) (t : Tree M O) :
    (t.mapLists g).depthBound m = t.depthBound m := by
  unfold depthBound
  rw [size_mapLists]
  rfl

theorem node_mapLists (t : Tree M O) (id : Nat) :
    (t.mapLists g).node id = (t.node id).map (Node.mapLists g) := by
  unfold Tree.node
  rw [getElem?_mapLists]
  cases t.nodes[id]? <;> rfl

theorem sameTies_mapLists (t : Tree M O) : t.SameTies (t.mapLists g) := by
  intro x
  rw [getElem?_mapLists, Option.map_map]
  rfl

theorem isLocated_mapLists (t : Tree M O) (id : Nat) :
    (t.mapLists g).isLocated id = t.isLocated id := by
  unfold Tree.isLocated
  rw [getElem?_mapLists]
  cases t.nodes[id]? <;> rfl

/-- What is read off a node does not depend on its lists. -/
theorem bind_mapLists {α : Type} {r : Node M O → Option α}
    (hr : ∀ n : Node M O, r (n.mapLists g) = r n) (t : Tree M O) (id : Nat) :
    ((t.mapLists g).nodes[id]?).bind r = (t.nodes[id]?).bind r := by
  rw [getElem?_mapLists, Option.bind_map]
  exact congrArg ((t.nodes[id]?).bind ·) (funext hr)

theorem extentOfNode_mapLists (t : Tree M O) (id : Nat) :
    (t.mapLists g).extentOfNode id = t.extentOfNode id := bind_mapLists (fun _ => rfl) t id

/-- A change of a node that does not depend on its lists. -/
theorem modify_mapLists {k k' : Node M O → Node M O}
    (h : ∀ n : Node M O, k' (n.mapLists g) = (k n).mapLists g) (t : Tree M O) (id : Nat) :
    (t.mapLists g).modify id k' = (t.modify id k).mapLists g := by
  refine eq_of_nodes rfl rfl rfl rfl rfl fun x => ?_
  rw [getElem?_modify, getElem?_mapLists, getElem?_mapLists, getElem?_modify]
  split
  · rw [Option.map_map, Option.map_map]
    exact congrArg ((t.nodes[x]?).map ·) (funext h)
  · rfl

/-- Something noted in the place of a node. -/
theorem mapPlace_mapLists (t : Tree M O) (id : Nat) (k : Place → Place) :
    (t.mapLists g).modify id (fun n => n.mapPlace k) =
      (t.modify id fun n => n.mapPlace k).mapLists g :=
  modify_mapLists (k := fun n => n.mapPlace k) (fun _ => rfl) t id

theorem grow_mapLists (t : Tree M O) (id : Nat) (span : Span) :
    (t.mapLists g).grow id span = (t.grow id span).mapLists g := by
  have hall : ∀ (ids : List Nat) (t : Tree M O),
      ids.foldl (fun t a => t.modify a fun n => n.mapPlace fun p => p.grow span) (t.mapLists g) =
        (ids.foldl (fun t a => t.modify a fun n => n.mapPlace fun p => p.grow span) t).mapLists g := by
    intro ids
    induction ids with
    | nil => exact fun _ => rfl
    | cons a rest ih =>
      intro t
      rw [List.foldl_cons, List.foldl_cons, mapPlace_mapLists, ih]
  unfold Tree.grow
  rw [(sameTies_mapLists t).lineage]
  exact hall _ t

theorem mark_mapLists (t : Tree M O) (owner : Nat) (role : Role) (span : Span) :
    (t.mapLists g).mark owner role span = (t.mark owner role span).map (mapLists g) := by
  unfold Tree.mark
  rw [show (t.mapLists g).source = t.source from rfl]
  cases Error.ofSource (t.source.validateBounds span.toBounds) with
  | error e => rfl
  | ok _ =>
    exact congrArg Except.ok
      (grow_mapLists { t with marks := t.marks ++ [⟨owner, role, span⟩] } owner span)

theorem addNode_mapLists (t : Tree M O) (parent : Option Nat) (object : O) (place : Option Place)
    (parts : List (Part M O)) :
    (t.mapLists g).addNode parent object place (Part.mapAllLists g parts) =
      (t.addNode parent object place parts).mapLists g := by
  -- the tree with the new node behind all others, before it hangs below its parent
  have hpush : ∀ ancestors : List Nat, { t.mapLists g with
        nodes := (t.mapLists g).nodes.push
          (⟨object, ancestors, [], place, Part.mapAllLists g parts⟩ : Node M O) } =
      Tree.mapLists g { t with nodes := t.nodes.push ⟨object, ancestors, [], place, parts⟩ } := by
    intro ancestors
    unfold mapLists
    rw [Array.map_push]
    rfl
  unfold Tree.addNode
  rw [size_mapLists]
  cases parent with
  | none => exact hpush _
  | some parent =>
    simp only [Option.map_some, (sameTies_mapLists t).lineage, hpush]
    rw [modify_mapLists (k := fun n => { n with children := n.children ++ [t.nodes.size] })
      fun _ => rfl]
    cases place with
    | none => rfl
    | some place => exact grow_mapLists _ parent place.span

theorem newNode_mapLists (m : M) (t : Tree M O) (parent : Option Nat) (object : O) :
    newNode m (t.mapLists g) parent object = (newNode m t parent object).map (mapLists g) := by
  unfold newNode
  rw [show (t.mapLists g).language = t.language.mapLists g from rfl, Language.layout_mapLists]
  cases t.language.layout m object with
  | none => rfl
  | some layout =>
    simp only [Option.map_some, show (t.mapLists g).source = t.source from rfl]
    cases placeOf t.source layout.origin with
    | error e => rfl
    | ok place => exact congrArg Except.ok (addNode_mapLists t parent object place layout.parts)

/-- A node is looked up or made in the same way. -/
theorem getNode_mapLists [DecidableEq O] (m : M) (t : Tree M O) (parent : Nat) (object : O) :
    (t.mapLists g).getNode m parent object =
      (t.getNode m parent object).map fun found => (found.1, found.2.mapLists g) := by
  unfold getNode
  rw [node_mapLists]
  cases t.node parent with
  | error e => rfl
  | ok n =>
    have hbelow : (t.mapLists g).below? (n.mapLists g) object = t.below? n object := by
      have hchildren : (n.mapLists g).children = n.children := rfl
      exact (sameTies_mapLists t).below? hchildren object
    simp only [Except.map, bind, Except.bind, hbelow]
    cases t.below? n object with
    | some id => rfl
    | none =>
      dsimp only
      rw [newNode_mapLists, size_mapLists]
      cases newNode m t (some parent) object <;> rfl

/-! ## Searching -/

theorem blocks_mapLists (t : Tree M O) (enclosing : List Nat) (window : Span) :
    (t.mapLists g).blocks enclosing window = t.blocks enclosing window := by
  have hspan : ∀ n : Option (Node M O), (n.map (Node.mapLists g)).any
      (fun n => n.span?.any fun span => span.intersects window) =
        n.any fun n => n.span?.any fun span => span.intersects window := by
    intro n
    cases n <;> rfl
  unfold blocks
  simp only [size_mapLists, getElem?_mapLists, hspan]
  rfl

theorem search_mapLists (t : Tree M O) (searcher : Nat) (literal : Text) (windowAt : Nat → Span)
    (count : Nat) : (t.mapLists g).search searcher literal windowAt count =
      t.search searcher literal windowAt count := by
  have hfirst : ∀ (enclosing : List Nat) (count d : Nat),
      (t.mapLists g).firstWindow enclosing literal windowAt count d =
        t.firstWindow enclosing literal windowAt count d := by
    intro enclosing count
    induction count with
    | zero => exact fun _ => rfl
    | succ count ih =>
      intro d
      rw [firstWindow, firstWindow, blocks_mapLists, ih]
      rfl
  unfold search
  rw [node_mapLists, (sameTies_mapLists t).lineage, hfirst]
  cases t.node searcher <;> rfl

theorem findForward_mapLists (t : Tree M O) (searcher : Nat) (boundary : Position)
    (literal : Text) : (t.mapLists g).findForward searcher boundary literal =
      t.findForward searcher boundary literal := by
  unfold findForward
  simp only [search_mapLists, show (t.mapLists g).source = t.source from rfl]

theorem findOutward_mapLists (t : Tree M O) (owner : Nat) (boundary : Position) (literal : Text)
    (role : Role) : (t.mapLists g).findOutward owner boundary literal role =
      t.findOutward owner boundary literal role := by
  cases role with
  | literal | trail => exact findForward_mapLists t owner boundary literal
  | lead =>
    unfold findOutward findBackward
    simp only [search_mapLists, show (t.mapLists g).source = t.source from rfl]

theorem locateDelimiter_mapLists (t : Tree M O) (owner : Nat) (boundary : Position)
    (literal : Text) (role : Role) :
    (t.mapLists g).locateDelimiter owner boundary literal role =
      (t.locateDelimiter owner boundary literal role).map fun found =>
        (found.1, found.2.mapLists g) := by
  rw [locateDelimiter_eq, locateDelimiter_eq, findOutward_mapLists]
  simp only [mark_mapLists]
  split
  · rfl
  · cases t.findOutward owner boundary literal role with
    | error e => rfl
    | ok found =>
      cases found with
      | none => rfl
      | some window =>
        dsimp only
        cases t.mark owner role (outwardSpan boundary window role) <;> rfl

/-- The delimiters around a span are found in the same way. -/
theorem locateAround_mapLists (t : Tree M O) (owner : Nat) (span : Span) (lead trail : Text) :
    (t.mapLists g).locateAround owner span lead trail =
      (t.locateAround owner span lead trail).map fun found =>
        (found.1, found.2.1, found.2.2.mapLists g) := by
  unfold locateAround
  rw [locateDelimiter_mapLists]
  cases t.locateDelimiter owner span.start lead .lead with
  | error e => rfl
  | ok found =>
    obtain ⟨before, u⟩ := found
    simp only [Except.map, bind, Except.bind, locateDelimiter_mapLists]
    cases u.locateDelimiter owner span.stop trail .trail <;> rfl

/-- A literal is found in the same way. -/
theorem locateLiteral_mapLists (s : Survey M O) (owner : Nat) (frame : Frame) (text : Text)
    (place : LiteralPlace) : locateLiteral (s.mapLists g) owner frame text place =
      (locateLiteral s owner frame text place).map fun found =>
        (found.1, found.2.mapLists g) := by
  have hspan : literalSpan? (s.mapLists g) owner text place = literalSpan? s owner text place := by
    unfold literalSpan?
    rw [show (s.mapLists g).tree = s.tree.mapLists g from rfl, findForward_mapLists]
    rfl
  have hmarked : ∀ span, (s.tree.mapLists g).markLiteral owner span =
      (s.tree.markLiteral owner span).map (mapLists g) := by
    intro span
    unfold markLiteral
    rw [mark_mapLists]
    split <;> rfl
  rw [locateLiteral_eq, locateLiteral_eq, hspan]
  cases literalSpan? s owner text place with
  | error e => rfl
  | ok found =>
    cases found with
    | none => rfl
    | some span =>
      dsimp only
      rw [show (s.mapLists g).tree = s.tree.mapLists g from rfl, hmarked]
      cases s.tree.markLiteral owner span with
      | error e => rfl
      | ok t =>
        simp only [Except.map, locateAround_mapLists]
        cases t.locateAround owner span frame.leadText frame.trailText <;> rfl

variable [DecidableEq O]

/-! ## Planting -/

/-- The nodes of the same objects are made in the same way. -/
theorem plantObjects_mapLists {m : M} {P : Tree M O → Prop} (hP : Grows m P)
    {descend descend' : Nat → Job M O Unit} (parent : Nat)
    (hdescend : ∀ id, Mirrors (fun _ => False) P (mapLists g) (descend id) (descend' id)) :
    ∀ objects : List O, Mirrors (fun _ => False) P (mapLists g)
      (plantObjects descend m parent objects) (plantObjects descend' m parent objects)
  | [] => .pure ()
  | object :: rest => by
    intro t ht
    have hrest := plantObjects_mapLists hP parent hdescend rest
    unfold MirrorsAt
    rw [plantObjects_cons, plantObjects_cons, getNode_mapLists, size_mapLists]
    cases hget : t.getNode m parent object with
    | error e =>
      dsimp only [Except.map]
      by_cases hlocal : e.isLocal = true
      · rw [if_pos hlocal, if_pos hlocal]
        exact hrest t ht
      · rw [if_neg hlocal, if_neg hlocal]
        exact Or.inr ⟨ht, rfl⟩
    | ok found =>
      obtain ⟨c, u⟩ := found
      have hu := hP.getNode ht hget
      dsimp only [Except.map]
      by_cases hnew : t.nodes.size ≤ c
      · rw [if_pos hnew, if_pos hnew]
        have hrun := hdescend c u hu
        unfold MirrorsAt at hrun
        cases hplanted : descend c u with
        | error e v =>
          rw [hplanted] at hrun
          obtain ⟨hv, hrun⟩ := hrun.resolve_left not_false
          rw [hrun]
          exact Or.inr ⟨hv, rfl⟩
        | ok _ v =>
          rw [hplanted] at hrun
          rw [hrun.2]
          exact hrest v hrun.1
      · rw [if_neg hnew, if_neg hnew]
        exact hrest u hu

/-! ## Visiting -/

/-- Finding the node of an object does not end the visit. -/
theorem failure_of_locateItem {m : M} {descend : Nat → Job M O Unit} {owner id : Nat} {object : O}
    {lead trail : Text} {s s' : Survey M O}
    (h : locateItem descend m owner object lead trail s = (some id, s')) :
    s'.failure = s.failure := by
  cases locateItem_visit h
  rfl

/-- Below a node, the nodes of a tree and of the tree with other lists are located
in the same way, and that keeps a property of the first tree. -/
structure Visiting (m : M) (g : ItemList M O → ItemList M O) (P : Tree M O → Prop) (owner : Nat)
    (descend descend' : Nat → Job M O Unit) : Prop where
  surveys : Surveys m P
  owner : ∀ u, P u → owner < u.nodes.size
  descend : ∀ id, Mirrors (fun _ => False) P (mapLists g) (descend id) (descend' id)

namespace Visiting

variable {m : M} {P : Tree M O → Prop} {owner : Nat} {descend descend' : Nat → Job M O Unit}

theorem keeping (h : Visiting m g P owner descend descend') (id : Nat) :
    Job.Keeping P (descend id) := .of_mirrors (h.descend id)

/-- An object is located in the same way. -/
theorem locateItem_mapLists (h : Visiting m g P owner descend descend') (object : O)
    (lead trail : Text) {s : Survey M O} (hs : P s.tree) :
    locateItem descend' m owner object lead trail (s.mapLists g) =
      ((locateItem descend m owner object lead trail s).1,
        (locateItem descend m owner object lead trail s).2.mapLists g) := by
  unfold locateItem
  rw [show (s.mapLists g).tree = s.tree.mapLists g from rfl, getNode_mapLists]
  cases hget : s.tree.getNode m owner object with
  | error e =>
    dsimp only [Except.map]
    split <;> rfl
  | ok found =>
    obtain ⟨id, t⟩ := found
    simp only [Except.map, isLocated_mapLists]
    split
    · rfl
    · have hrun := h.descend id t (h.surveys.getNode hs hget)
      unfold MirrorsAt at hrun
      cases hdescend : descend id t with
      | error e u =>
        rw [hdescend] at hrun
        rw [(hrun.resolve_left not_false).2]
        rfl
      | ok _ u =>
        rw [hdescend] at hrun
        rw [hrun.2]
        simp only [bind_mapLists (r := Node.span?) fun _ => rfl]
        cases (u.nodes[id]?).bind Node.span? with
        | none => rfl
        | some span =>
          simp only [locateAround_mapLists]
          cases u.locateAround owner span lead trail with
          | error e => rfl
          | ok found =>
            simp only [Except.map, mapPlace_mapLists]
            rfl

mutual

/-- If the lists of a part are located in the same way, then so is the part. -/
theorem locatePart_mapLists (h : Visiting m g P owner descend descend') : ∀ (p : Part M O),
    (∀ frame list, (frame, list) ∈ p.lists m → ∀ s : Survey M O, P s.tree → s.isRunning = true →
      locatePart descend' m owner (.items frame (g list)) (s.mapLists g) =
        ((locatePart descend m owner (.items frame list) s).1.mapLists g,
          (locatePart descend m owner (.items frame list) s).2.mapLists g)) →
    ∀ {s : Survey M O}, P s.tree → s.isRunning = true →
      locatePart descend' m owner (p.mapLists g) (s.mapLists g) =
        ((locatePart descend m owner p s).1.mapLists g,
          (locatePart descend m owner p s).2.mapLists g)
  | .literal frame wording place, _, s, _, _ => by
    rw [Part.mapLists, locatePart, locatePart, locateLiteral_mapLists]
    cases locateLiteral s owner frame (wording.text m) place with
    | error e =>
      dsimp only [Except.map]
      rw [Part.mapLists]
      rfl
    | ok found =>
      dsimp only [Except.map]
      rw [Part.mapLists]
  | .slot frame supply listed, _, s, hs, _ => by
    rw [Part.mapLists, locatePart, locatePart]
    cases supply m with
    | none =>
      dsimp only
      rw [Part.mapLists]
    | some object =>
      dsimp only
      rw [h.locateItem_mapLists object frame.leadText frame.trailText hs]
      rcases locateItem descend m owner object frame.leadText frame.trailText s with ⟨found, s'⟩
      cases found with
      | none =>
        dsimp only
        rw [Part.mapLists]
      | some id =>
        dsimp only
        rw [Part.mapLists, show (s'.mapLists g).tree = s'.tree.mapLists g from rfl,
          extentOfNode_mapLists]
  | .items frame list, hitems, s, hs, hrun => by
    rw [Part.mapLists]
    exact hitems frame list (by rw [Part.lists]; exact List.mem_singleton_self _) s hs hrun
  | .choice frame test yes no taken, hitems, s, hs, hrun => by
    rw [Part.mapLists_choice]
    cases htest : test m with
    | true =>
      rw [Part.lists_yes htest] at hitems
      rw [locatePart_yes htest, locatePart_yes htest, locatePart_mapLists h yes hitems hs hrun]
      dsimp only
      rw [Survey.isRunning_mapLists]
      split <;> rw [Part.mapLists_choice]
      rw [← Part.mapLists_settle, Part.frame_mapLists]
    | false =>
      cases no with
      | none =>
        rw [Option.map_none, locatePart_neither htest, locatePart_neither htest,
          Part.mapLists_choice]
        rfl
      | some other =>
        rw [Part.lists_no htest] at hitems
        rw [Option.map_some, locatePart_no htest, locatePart_no htest,
          locatePart_mapLists h other hitems hs hrun]
        dsimp only
        rw [Survey.isRunning_mapLists]
        split <;> rw [Part.mapLists_choice, Option.map_some]
        rw [← Part.mapLists_settle, Part.frame_mapLists]
  | .group frame members stale, hitems, s, hs, hrun => by
    rw [Part.lists] at hitems
    rw [Part.mapLists, locatePart_group, locatePart_group,
      locateParts_mapLists h members hitems hs hrun]
    dsimp only
    rw [Survey.isRunning_mapLists]
    split
    · rw [Part.mapLists_settle, Part.mapLists]
    · rw [Part.mapLists]
termination_by structural p => p

/-- The same for several parts. -/
theorem locateParts_mapLists (h : Visiting m g P owner descend descend') : ∀ (parts : List (Part M O)),
    (∀ frame list, (frame, list) ∈ Part.listsOfAll m parts → ∀ s : Survey M O, P s.tree →
      s.isRunning = true → locatePart descend' m owner (.items frame (g list)) (s.mapLists g) =
        ((locatePart descend m owner (.items frame list) s).1.mapLists g,
          (locatePart descend m owner (.items frame list) s).2.mapLists g)) →
    ∀ {s : Survey M O}, P s.tree → s.isRunning = true →
      locateParts descend' m owner (Part.mapAllLists g parts) (s.mapLists g) =
        (Part.mapAllLists g (locateParts descend m owner parts s).1,
          (locateParts descend m owner parts s).2.mapLists g)
  | [], _, s, _, _ => by
    rw [Part.mapAllLists, locateParts, locateParts, Part.mapAllLists]
  | p :: rest, hitems, s, hs, hrun => by
    rw [Part.listsOfAll] at hitems
    rw [Part.mapAllLists, locateParts_cons, locateParts_cons, locatePart_mapLists h p
      (fun frame list hmem => hitems frame list (List.mem_append_left _ hmem)) hs hrun]
    dsimp only
    rw [Survey.isRunning_mapLists]
    split
    · next hrunning =>
      rw [locateParts_mapLists h rest
        (fun frame list hmem => hitems frame list (List.mem_append_right _ hmem))
        (h.surveys.locatePart h.keeping h.owner p hs) hrunning]
      rw [Part.mapAllLists]
    · rw [Part.mapAllLists]
termination_by structural parts => parts

end

end Visiting

/-! ## Printing -/

section Printing

variable {m : M} {P : Tree M O → Prop} {print print' : Nat → Margin → Job M O Text}

/-- The text of an object is made in the same way. -/
theorem printBelow_mapLists (hP : Grows m P)
    (hprint : ∀ id margin, Mirrors (fun _ => False) P (mapLists g) (print id margin) (print' id margin))
    (owner : Nat) (object : O) (margin : Margin) :
    Mirrors (fun _ => False) P (mapLists g) (printBelow print m owner object margin)
      (printBelow print' m owner object margin) := by
  refine .get_bind fun t ht => ?_
  rw [getNode_mapLists]
  cases hget : t.getNode m owner object with
  | ok found =>
    obtain ⟨id, u⟩ := found
    exact .bind (.set (hP.getNode ht hget)) fun _ => .bind (hprint id margin) fun _ => .pure _
  | error e => exact .ite (.pure _) (.throw _)

/-- Apart from its lists, a node is revised in the same way. -/
theorem outlook_mapLists (hP : Grows m P)
    (hprint : ∀ id margin, Mirrors (fun _ => False) P (mapLists g) (print id margin) (print' id margin))
    (owner : Nat) : Outlook (fun _ => False) (Imaged P (mapLists g)) m owner owner print print'
      fun _ => True where
  source := by
    rintro t _ ⟨_, rfl⟩
    rfl
  aligned := by
    rintro t _ ⟨_, rfl⟩ indent text
    unfold Tree.aligned
    rw [bind_mapLists fun _ => rfl]
    rfl
  face := by
    rintro t _ id ⟨_, rfl⟩ _
    unfold Tree.face
    rw [getElem?_mapLists, Option.map_map]
    rfl
  listed _ margin := mirrors_iff_abreast.1 (hprint _ margin)
  below object margin := mirrors_iff_abreast.1 (printBelow_mapLists hP hprint owner object margin)

end Printing

end Tree

end Reprint
