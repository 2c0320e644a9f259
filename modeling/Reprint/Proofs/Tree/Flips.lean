import Reprint.Proofs.Patch.Refine
import Reprint.Proofs.Tree.Adopted
import Reprint.Proofs.Tree.Outward

/-!
# Printing flipped choices

A tree was located for one model in a source that the model matches, and is printed
for another model for which choices flip and nothing else changes.

* `Tree.flippedText` is what takes the place of a flipped choice, and `Tree.flips`
  collects the edits of all of them: a reader of the result needs these and
  `Patch.Run` alone.
* `print_flipped` is the induction over the nodes.  The text of a node comes from the
  edits of its pieces (`runs_printWithin`), and the text of a piece that is a node is
  itself what edits make of the source: `Patch.exists_refined` turns the edits of the
  pieces into those of the flipped choices.
* For the first model the nodes have the texts of their spans
  (`runs_printSource_settled`), whatever was made for the second one.

`printSource_toggled` is the result.  The pieces of a node must not intersect, those in
one list included, and a choice must not cover anything outside its node:
`printSource_unflippable` has an example for each.
-/

namespace Reprint

open Reprint.Tree

variable {M O : Type}

namespace Tree

section Flips

variable [DecidableEq O]

/-- The text that takes the place of what a choice of a node covers: the normal text
of the part that is selected now, aligned to the line of the node.  The depth is what
printing the node has left. -/
def flippedText (t : Tree M O) (m : M) (owner : Nat) : Option (Part M O) → Option Text
  | none => some []
  | some part =>
    (part.spell (t.spell m (t.nodes.size - owner + t.language.size m) owner) m
      t.settings.margin).map (t.aligned owner part.frame.indent)

/-- The edits of a piece of a node, if those of the nodes below are known. -/
def flipsOf (t : Tree M O) (m : M) (owner : Nat) (below : Nat → List Edit) :
    Piece M O → List Edit
  | .flipped covered other =>
    match covered, t.flippedText m owner other with
    | some span, some text => [⟨.replace, span, text⟩]
    | _, _ => []
  | .kept id => below id

/-- The edits that put the parts which are selected for the second model in the
places of those that were found for the first one, in a node and in the nodes that
are kept in it.  The number bounds the depth. -/
def flips (t : Tree M O) (m m' : M) : Nat → Nat → List Edit
  | 0, _ => []
  | depth + 1, id =>
    match t.nodes[id]? with
    | none => []
    | some n => (Part.allPieces m m' n.parts).flatMap (t.flipsOf m' id (t.flips m m' depth))

end Flips

/-- Where a piece is in the source. -/
def spanOfPiece (t : Tree M O) : Piece M O → Option Span
  | .flipped covered _ => covered
  | .kept id => t.spanOf id

/-- The nodes that are still printed from their source text for the second model. -/
inductive Kept (m m' : M) (t : Tree M O) : Nat → Prop
  | root : Kept m m' t Tree.root
  | step {parent id : Nat} {n : Node M O} (kept : Kept m m' t parent)
      (node : t.nodes[parent]? = some n) (piece : .kept id ∈ Part.allPieces m m' n.parts) :
      Kept m m' t id

theorem Kept.visited {m m' : M} {t : Tree M O} {id : Nat} (h : Kept m m' t id) :
    Visited m t id := by
  induction h with
  | root => exact .root
  | step _ node piece ih => exact .step ih node (Part.findsAny_of_kept _ piece)

variable [DecidableEq O]

/-- Some choices of a node flip, and nothing else changes.  They cover pieces of its
source text, the parts that are selected now have no source text, and nothing that may
be written anew intersects. -/
structure Flippable (m m' : M) (t : Tree M O) (id : Nat) (n : Node M O) : Prop where
  only : Part.AllOnlyFlip m m' n.parts
  flipped : ∀ {covered : Option Span} {other : Option (Part M O)},
    .flipped covered other ∈ Part.allPieces m m' n.parts → ∃ span own text,
      covered = some span ∧ t.source.validateBounds span.toBounds = .ok () ∧
      n.span? = some own ∧ own.contains span = true ∧ t.flippedText m' id other = some text
  apart : (Part.allPieces m m' n.parts).Pairwise fun x y => ∀ a b,
    t.spanOfPiece x = some a → t.spanOfPiece y = some b → a.intersects b = false

section Print

variable {m m' : M} {t : Tree M O} {owner id depth : Nat} {n : Node M O} {p : Place}

/-! ## Pieces -/

/-- A flipped choice, if the text of the part that is selected now is known. -/
theorem writes_flipped (ready : Ready m t) (hn : t.nodes[owner]? = some n)
    (hdepth : t.nodes.size - owner + t.language.size m' ≤ depth) {span : Span}
    {other : Option (Part M O)} {text : Text} (h : t.flippedText m' owner other = some text) :
    Writes (Budded m' t) (printWithin m' depth) t m' owner t.settings.margin
      (.flipped (some span) other) [⟨.replace, span, text⟩] := by
  refine ⟨span, text, rfl, rfl, ?_⟩
  cases other with
  | none =>
    cases h
    rfl
  | some part =>
    obtain ⟨inner, hinner, haligned⟩ := Option.map_eq_some_iff.1 h
    refine ⟨inner, Runs.normalPart (fun object margin body hbody => ?_) part hinner, haligned⟩
    exact (Budded.printBelow ready.sound hdepth (lt_size_of_node hn) hbody).weaken
      (fun u hu => ⟨hu, hu.size_le⟩) fun u hu => hu.1

/-! ## Nodes -/

/-- The replacement of a piece comes to the same as the edits that make its new text. -/
theorem refines_replacement {s : Source} {span : Span} {a b : Nat} {text : Text}
    {ordered within : List Edit} (hspan : span = window s a b) (hrun : Patch.Run s a b ordered text)
    (hperm : ordered.Perm within) :
    Patch.Refines s span (replacement span (s.slice span.toBounds) text) within := by
  have hle := hrun.le
  refine ⟨a, b, text, ordered, hle.1, hle.2, hspan, hrun, hperm, ?_⟩
  unfold replacement
  rw [hspan, slice_window hle.1 hle.2]
  split
  · next htext => exact Or.inl ⟨rfl, htext⟩
  · exact Or.inr ⟨_, rfl, rfl, rfl⟩

/-- A node that is found in the parts of another one lies in it. -/
theorem contains_of_finds (hwell : t.WellFormed) (hadopted : Adopted m t)
    (hn : t.nodes[id]? = some n) {own : Span} (hown : n.span? = some own) {child : Nat}
    (hfinds : Part.FindsAny m child n.parts) {c : Node M O} (hc : t.nodes[child]? = some c)
    {span : Span} (hspan : c.span? = some span) : own.contains span = true := by
  have hmem : id ∈ c.ancestors := by
    have hlineage := hwell.lineage_child hn (hadopted.found hn hfinds)
    rw [lineage_eq hc, lineage_eq hn, List.cons.injEq] at hlineage
    rw [hlineage.2]
    exact List.mem_cons_self
  exact hwell.nested hc hspan hmem hn hown

/-- A node whose choices flip, and so do choices of the nodes that are kept in it.
The induction is on the nodes that come later. -/
theorem print_flipped (ready : Ready m t) (hwell : t.WellFormed) (hadopted : Adopted m t)
    (hsettled : AllSettled m t)
    (hflippable : ∀ {id : Nat} {n : Node M O}, Kept m m' t id → t.nodes[id]? = some n →
      Flippable m m' t id n) :
    ∀ {k id : Nat} {n : Node M O} {p : Place}, t.nodes.size ≤ id + k → Kept m m' t id →
      t.isLocated id = true → t.nodes[id]? = some n → n.place = some p →
      ∃ a b text ordered, p.span = window t.source a b ∧
        (∀ depth margin, k + t.language.size m' < depth →
          Runs (Budded m' t) (printWithin m' depth id margin) text (Budded m' t)) ∧
        Patch.Run t.source a b ordered text ∧ ordered.Perm (t.flips m m' k id)
  | 0, id, n, p, hsize, _, _, hn, _ => by
    have := lt_size_of_node hn
    omega
  | k + 1, id, n, p, hsize, hkept, hlocated, hn, hp => by
    have hflip := hflippable hkept hn
    have hsurveyed := ready.surveyed hn (isLocated_eq hn ▸ hlocated)
    have hown : n.span? = some p.span := by simp [Node.span?, hp]
    have hpieces : ∀ x ∈ Part.allPieces m m' n.parts, ∃ span whole, t.spanOfPiece x = some span ∧
        p.span.contains span = true ∧ (∀ depth, k + t.language.size m' < depth →
          Writes (Budded m' t) (printWithin m' depth) t m' id t.settings.margin x whole) ∧
        Patch.Refines t.source span whole (t.flipsOf m' id (t.flips m m' k) x) := by
      intro x hx
      cases x with
      | flipped covered other =>
        obtain ⟨span, own, text, rfl, hvalid, hspan, hcontains, htext⟩ := hflip.flipped hx
        rw [hown, Option.some.injEq] at hspan
        refine ⟨span, _, rfl, hspan ▸ hcontains,
          fun depth hdepth => writes_flipped ready hn (by omega) htext, ?_⟩
        simp only [flipsOf, htext]
        exact Patch.Refines.of_edit (e := ⟨.replace, span, text⟩) hvalid
      | kept child =>
        have hfinds := Part.findsAny_of_kept _ hx
        obtain ⟨hlt, hchild⟩ := hsurveyed.of_finds _ hfinds
        obtain ⟨c, hc⟩ := exists_node_of_isLocated hchild
        obtain ⟨q, hq, _⟩ := (c.isLocated_iff).1 (isLocated_eq hc ▸ hchild)
        have hqspan : c.span? = some q.span := by simp [Node.span?, hq]
        obtain ⟨a, b, text, ordered, hspan, hprint, hrun, hperm⟩ :=
          print_flipped ready hwell hadopted hsettled hflippable
            (show t.nodes.size ≤ child + k by omega) (.step hkept hn hx) hchild hc hq
        exact ⟨q.span, _, spanOf_eq_some.2 ⟨c, hc, hqspan⟩,
          contains_of_finds hwell hadopted hn hown hfinds hc hqspan,
          fun depth hdepth => ⟨c, q, text, hc, hq, hprint depth _ hdepth, rfl⟩,
          refines_replacement hspan hrun hperm⟩
    choose! span whole hspans hcontains hwrites hrefines using hpieces
    obtain ⟨a, b, text, refined, hwindow, hsplices, hrun, hperm⟩ :=
      Patch.exists_refined (ready.sound.valid hn hp) hrefines hcontains
        (hflip.apart.imp_of_mem fun hx hy h => h _ _ (hspans _ hx) (hspans _ hy))
    refine ⟨a, b, text, refined, hwindow, fun depth margin hdepth => ?_, hrun, ?_⟩
    · obtain ⟨depth, rfl⟩ : ∃ d, depth = d + 1 := ⟨depth - 1, by omega⟩
      exact runs_printWithin ready (Budded.looksLike ready) hn hp hlocated hsurveyed
        (hsettled hkept.visited hn) hflip.only (fun x hx => hwrites x hx depth (by omega)) hwindow
        hsplices margin
    · rw [flips, hn]
      exact hperm

/-! ## Renders -/

/-- The trees that renders for two models lead to, in any order. -/
inductive Toggled (m m' : M) (t : Tree M O) : Tree M O → Prop
  | refl : Toggled m m' t t
  | there {u : Tree M O} (tree : Toggled m m' t u) : Toggled m m' t ((printSource m').after u)
  | back {u : Tree M O} (tree : Toggled m m' t u) : Toggled m m' t ((printSource m).after u)

end Print

/-- Choices of the nodes of a tree flip that was located in a source which it matches.
Then printing it puts the parts that are selected now in the places of those that
were, and nothing else changes.  Flipping the choices back gives the source again,
and both may be repeated in any order. -/
theorem printSource_toggled {language : Language M O} {source : Text} {m m' : M} {t₀ t : Tree M O}
    (layouts : ∀ {m object layout}, language.layout m object = some layout →
      Part.AllNew layout.parts)
    (prepared : Prepared language source t₀) (located : locate m t₀ = .ok () t)
    (parsed : ∀ {n : Node M O}, t.nodes[root]? = some n → n.place.isSome = true)
    (settled : AllSettled m t)
    (flippable : ∀ {id : Nat} {n : Node M O}, Kept m m' t id → t.nodes[id]? = some n →
      Flippable m m' t id n) :
    ∃ text ordered, Patch.Run (.ofText source) 0 (Source.ofText source).charCount ordered text ∧
      ordered.Perm (t.flips m m' t.nodes.size root) ∧
      ∀ {u : Tree M O}, Toggled m m' t u →
        (∃ v, printSource m' u = .ok text v) ∧ ∃ v, printSource m u = .ok source v := by
  obtain ⟨ready, _, hsource, n, hn, hroot⟩ := (prepared.unsearched layouts).locate located
  obtain ⟨p, hp⟩ := Option.isSome_iff_exists.1 (parsed hn)
  have hlocated : t.isLocated root = true := isLocated_eq hn ▸ hroot (parsed hn)
  obtain ⟨hwell, hadopted⟩ := locate_adopted layouts prepared located
  obtain ⟨a, b, text, ordered, hspan, hprint, hrun, hperm⟩ := print_flipped ready hwell hadopted
    settled flippable (Nat.le_add_left _ root) .root hlocated hn hp
  have hle := hrun.le
  have looks : LooksLike t (Budded m' t) := Budded.looksLike ready
  have hthere : Runs (Budded m' t) (printSource m')
      (t.source.text.piece 0 a ++ text ++ t.source.text.piece b t.source.charCount)
      (Budded m' t) := by
    refine runs_printSource looks hn hp hlocated hspan hle.1 hle.2 fun u hu => hprint _ _ ?_ u hu
    have := hu.size_le
    unfold depthBound
    rw [hu.language]
    omega
  have hback : Runs (Budded m' t) (printSource m) t.source.text (Budded m' t) :=
    runs_printSource_settled ready looks settled hn hp hlocated
  have htoggled : ∀ {u : Tree M O}, Toggled m m' t u → Budded m' t u := by
    intro u hu
    induction hu with
    | refl => exact .refl m' t
    | there _ ih =>
      obtain ⟨v, hrun, hv⟩ := hthere _ ih
      rw [Job.after, hrun]
      exact hv
    | back _ ih =>
      obtain ⟨v, hrun, hv⟩ := hback _ ih
      rw [Job.after, hrun]
      exact hv
  refine ⟨_, ordered, hsource ▸ (hrun.extend (Nat.zero_le a)).widen hle.2 (Nat.le_refl _), hperm,
    fun hu => ⟨?_, ?_⟩⟩
  · obtain ⟨v, hprinted, _⟩ := hthere _ (htoggled hu)
    exact ⟨v, hsource ▸ hprinted⟩
  · obtain ⟨v, hprinted, _⟩ := hback _ (htoggled hu)
    rw [hsource, Source.text_ofText] at hprinted
    exact ⟨v, hprinted⟩

/-! ## Words that flip -/

/-- A language of objects with one part each, which may have been read from the source. -/
def tabled (table : List (Option Span × Part Bool Nat)) : Language Bool Nat where
  layout _ object := (table[object]?).map fun entry =>
    { origin := entry.1.map .ok, parts := [entry.2] }
  describe _ _ := ""
  size _ := table.length

/-- A text that is pinned to a piece of the source, or another part in its place. -/
def switch (text : Text) (span : Span) (other : Option (Part Bool Nat)) : Part Bool Nat :=
  .either id ((Part.constant text).pinned span) other

/-- Such a text after it was located. -/
def switched (text : Text) (span : Span) (other : Option (Part Bool Nat)) : Part Bool Nat :=
  .choice { extent := some span } id
    (.literal { extent := some span } (.constant text) { span? := some span }) other (some true)

theorem allNew_tabled {table : List (Option Span × Part Bool Nat)}
    (h : ∀ entry ∈ table, entry.2.IsNew) {m : Bool} {object : Nat} {layout : Layout Bool Nat}
    (hlayout : (tabled table).layout m object = some layout) : Part.AllNew layout.parts := by
  obtain ⟨entry, hentry, rfl⟩ := Option.map_eq_some_iff.1 hlayout
  exact ⟨h entry (List.mem_of_getElem? hentry), trivial⟩

section Switched

variable {t : Tree Bool Nat} {text : Text} {span : Span} {other : Option (Part Bool Nat)}

theorem isNew_switch (h : ∀ part ∈ other, part.IsNew) : (switch text span other).IsNew := by
  cases other with
  | none => simp [switch, Part.either, Part.constant, Part.pinned, Part.IsNew]
  | some part =>
    simpa [switch, Part.either, Part.constant, Part.pinned, Part.IsNew] using h part rfl

theorem settled_switched (h : t.source.extract span.toBounds = .ok text) :
    (switched text span other).Settled true t := by
  cases other <;> exact ⟨h, trivial, trivial⟩

theorem not_finds_switched {id : Nat} : ¬ (switched text span other).Finds true id := by
  cases other <;> exact not_false

theorem onlyFlips_switched : (switched text span other).OnlyFlips true false := by
  cases other <;> simp [switched, Part.OnlyFlips]

theorem pieces_switched :
    (switched text span other).pieces true false = [.flipped (some span) other] := by
  cases other <;> simp [switched, Part.pieces]

/-- An object of one such text may flip. -/
theorem flippable_switched {id : Nat} {n : Node Bool Nat} (hn : t.nodes[id]? = some n)
    (hparts : n.parts = [switched text span other]) {own : Span} (hown : t.spanOf id = some own)
    {inserted : Text} (h : t.source.validateBounds span.toBounds = .ok () ∧
      own.contains span = true ∧ t.flippedText false id other = some inserted) :
    Flippable true false t id n := by
  obtain ⟨k, hk, hspan⟩ := spanOf_eq_some.1 hown
  rw [hn] at hk
  cases hk
  have hpieces : Part.allPieces true false n.parts = [.flipped (some span) other] := by
    rw [hparts, Part.allPieces, pieces_switched]
    rfl
  refine ⟨?_, fun hflipped => ?_, hpieces ▸ List.pairwise_singleton _ _⟩
  · rw [hparts]
    exact ⟨onlyFlips_switched, trivial⟩
  · rw [hpieces] at hflipped
    cases List.mem_singleton.1 hflipped
    exact ⟨span, own, inserted, rfl, h.1, hspan, h.2.1, h.2.2⟩

/-- A tree of one node with such a text that the source has. -/
theorem allSettled_switched {n : Node Bool Nat} (hn : t.nodes[root]? = some n)
    (hparts : n.parts = [switched text span other])
    (h : t.source.extract span.toBounds = .ok text) : AllSettled true t := by
  have hvisited : ∀ {id : Nat}, Visited true t id → id = root := by
    intro id hid
    induction hid with
    | root => rfl
    | step _ hk hfinds ih =>
      rw [ih, hn] at hk
      cases hk
      rw [hparts] at hfinds
      exact absurd hfinds (not_or.2 ⟨not_finds_switched, not_false⟩)
  intro id k hid hk
  rw [hvisited hid, hn] at hk
  cases hk
  rw [hparts]
  exact ⟨settled_switched h, trivial⟩

end Switched

/-- A located list of two objects with one part each. -/
structure Pair (t : Tree Bool Nat) (list : ItemList Bool Nat) (a b : Part Bool Nat) : Prop where
  node : ∃ n frame, t.nodes[root]? = some n ∧ n.parts = [.items frame list]
  supply : ∀ m, list.supply m = [1, 2]
  listed : list.listed = [⟨1, 1, [], []⟩, ⟨2, 2, [], []⟩]
  first : ∃ n, t.nodes[1]? = some n ∧ n.parts = [a] ∧ n.object = 1 ∧ n.before = .empty ∧
    n.behind = .empty
  second : ∃ n, t.nodes[2]? = some n ∧ n.parts = [b] ∧ n.object = 2 ∧ n.before = .empty ∧
    n.behind = .empty

namespace Pair

variable {t : Tree Bool Nat} {list : ItemList Bool Nat} {text text' : Text} {span span' : Span}
  {other other' : Option (Part Bool Nat)}

theorem visited (h : Pair t list (switched text span other) (switched text' span' other'))
    {id : Nat} (hid : Visited true t id) : id = 0 ∨ id = 1 ∨ id = 2 := by
  induction hid with
  | root => exact Or.inl rfl
  | @step parent id n _ hn hfinds ih =>
    rcases ih with rfl | rfl | rfl
    · obtain ⟨k, frame, hk, hparts⟩ := h.node
      rw [show t.nodes[0]? = some k from hk] at hn
      cases hn
      rw [hparts] at hfinds
      obtain ⟨item, hitem, rfl⟩ | hfinds := hfinds
      · rw [h.listed] at hitem
        rcases List.mem_cons.1 hitem with rfl | hitem
        · exact Or.inr (Or.inl rfl)
        · rw [List.mem_singleton.1 hitem]
          exact Or.inr (Or.inr rfl)
      · exact hfinds.elim
    · obtain ⟨k, hk, hparts, _⟩ := h.first
      rw [hk] at hn
      cases hn
      rw [hparts] at hfinds
      exact absurd hfinds (not_or.2 ⟨not_finds_switched, not_false⟩)
    · obtain ⟨k, hk, hparts, _⟩ := h.second
      rw [hk] at hn
      cases hn
      rw [hparts] at hfinds
      exact absurd hfinds (not_or.2 ⟨not_finds_switched, not_false⟩)

theorem found {a b : Part Bool Nat} (h : Pair t list a b) : t.IsFound 1 1 ∧ t.IsFound 2 2 := by
  obtain ⟨n, hn, _, hobject, hbefore, hbehind⟩ := h.first
  obtain ⟨k, hk, _, hobject', hbefore', hbehind'⟩ := h.second
  exact ⟨⟨n, hn, hobject, hbefore ▸ trivial, hbehind ▸ trivial⟩, k, hk, hobject',
    hbefore' ▸ trivial, hbehind' ▸ trivial⟩

theorem allSettled (h : Pair t list (switched text span other) (switched text' span' other'))
    (hfirst : t.source.extract span.toBounds = .ok text)
    (hsecond : t.source.extract span'.toBounds = .ok text') : AllSettled true t := by
  intro id n hid hn
  rcases h.visited hid with rfl | rfl | rfl
  · obtain ⟨k, frame, hk, hparts⟩ := h.node
    rw [show t.nodes[0]? = some k from hk] at hn
    cases hn
    rw [hparts]
    refine ⟨fun object hobject => Or.inr ?_, trivial⟩
    rw [h.supply] at hobject
    rcases List.mem_cons.1 hobject with rfl | hobject
    · exact ⟨⟨1, 1, [], []⟩, by rw [ItemList.item?, h.listed]; rfl, h.found.1⟩
    · rw [List.mem_singleton.1 hobject]
      exact ⟨⟨2, 2, [], []⟩, by rw [ItemList.item?, h.listed]; rfl, h.found.2⟩
  · obtain ⟨k, hk, hparts, _⟩ := h.first
    rw [hk] at hn
    cases hn
    rw [hparts]
    exact ⟨settled_switched hfirst, trivial⟩
  · obtain ⟨k, hk, hparts, _⟩ := h.second
    rw [hk] at hn
    cases hn
    rw [hparts]
    exact ⟨settled_switched hsecond, trivial⟩

theorem flippable (h : Pair t list (switched text span other) (switched text' span' other'))
    {s s' : Span} (hs : t.spanOf 1 = some s) (hs' : t.spanOf 2 = some s')
    (hapart : s.intersects s' = false) {inserted inserted' : Text}
    (hfirst : t.source.validateBounds span.toBounds = .ok () ∧ s.contains span = true ∧
      t.flippedText false 1 other = some inserted)
    (hsecond : t.source.validateBounds span'.toBounds = .ok () ∧ s'.contains span' = true ∧
      t.flippedText false 2 other' = some inserted')
    {id : Nat} {n : Node Bool Nat} (hid : Kept true false t id) (hn : t.nodes[id]? = some n) :
    Flippable true false t id n := by
  rcases h.visited hid.visited with rfl | rfl | rfl
  · obtain ⟨k, frame, hk, hparts⟩ := h.node
    rw [show t.nodes[0]? = some k from hk] at hn
    cases hn
    have hpieces : Part.allPieces true false n.parts = [.kept 1, .kept 2] := by
      rw [hparts]
      simp [Part.allPieces, Part.pieces, h.listed]
    refine ⟨?_, fun hflipped => ?_, ?_⟩
    · rw [hparts]
      exact ⟨(h.supply false).trans (h.supply true).symm, trivial⟩
    · rw [hpieces] at hflipped
      simp at hflipped
    · rw [hpieces, List.pairwise_pair]
      intro a b ha hb
      cases ha.symm.trans hs
      cases hb.symm.trans hs'
      exact hapart
  · obtain ⟨k, hk, hparts, _⟩ := h.first
    rw [hk] at hn
    cases hn
    exact flippable_switched hk hparts hs hfirst
  · obtain ⟨k, hk, hparts, _⟩ := h.second
    rw [hk] at hn
    cases hn
    exact flippable_switched hk hparts hs' hsecond

end Pair

/-- Two words.  A new object takes the place of the first one, and nothing that of the
second one. -/
def looseWords : List (Option Span × Part Bool Nat) :=
  [(some (.between ⟨1, 0⟩ ⟨1, 3⟩), .objects fun _ => [1, 2]),
    (some (.between ⟨1, 0⟩ ⟨1, 1⟩), switch ['a'] (.between ⟨1, 0⟩ ⟨1, 1⟩)
      (some (.object fun _ => some 3))),
    (some (.between ⟨1, 2⟩ ⟨1, 3⟩), switch ['c'] (.between ⟨1, 2⟩ ⟨1, 3⟩) none),
    (none, .constant ['x', 'y'])]

/-- A new object takes the place of one word, and the other one is left out.  After that
the words are put back. -/
theorem printSource_looseWords :
    ∃ t₀ t ordered, Prepared (tabled looseWords) ['a', 'b', 'c'] t₀ ∧
      locate true t₀ = .ok () t ∧ AllSettled true t ∧
      Patch.Run (.ofText ['a', 'b', 'c']) 0 (Source.ofText ['a', 'b', 'c']).charCount ordered
        ['x', 'y', 'b'] ∧
      ordered.Perm [⟨.replace, .between ⟨1, 0⟩ ⟨1, 1⟩, ['x', 'y']⟩,
        ⟨.replace, .between ⟨1, 2⟩ ⟨1, 3⟩, []⟩] ∧
      ∀ {u : Tree Bool Nat}, Toggled true false t u →
        (∃ v, printSource false u = .ok ['x', 'y', 'b'] v) ∧
          ∃ v, printSource true u = .ok ['a', 'b', 'c'] v := by
  have made : ∃ t₀, ofRoot (tabled looseWords) true ['a', 'b', 'c'] 0 = .ok t₀ := ⟨_, rfl⟩
  obtain ⟨t₀, made⟩ := made
  obtain ⟨t, list, located, parsed, pair, source, hs, hs', inserted, inserted', flips, printed⟩ :
      ∃ t list, locate true t₀ = .ok () t ∧
        (∀ {n}, t.nodes[root]? = some n → n.place.isSome = true) ∧
        Pair t list
          (switched ['a'] (.between ⟨1, 0⟩ ⟨1, 1⟩) (some (.object fun _ => some 3)))
          (switched ['c'] (.between ⟨1, 2⟩ ⟨1, 3⟩) none) ∧ t.source = .ofText ['a', 'b', 'c'] ∧
        t.spanOf 1 = some (.between ⟨1, 0⟩ ⟨1, 1⟩) ∧ t.spanOf 2 = some (.between ⟨1, 2⟩ ⟨1, 3⟩) ∧
        t.flippedText false 1 (some (.object fun _ => some 3)) = some ['x', 'y'] ∧
        t.flippedText false 2 none = some [] ∧
        t.flips true false t.nodes.size root = [⟨.replace, .between ⟨1, 0⟩ ⟨1, 1⟩, ['x', 'y']⟩,
          ⟨.replace, .between ⟨1, 2⟩ ⟨1, 3⟩, []⟩] ∧
        (printSource false).result? t = some ['x', 'y', 'b'] := by
    cases made
    exact ⟨_, _, rfl, fun hn => by cases hn; rfl, ⟨⟨_, _, rfl, rfl⟩, fun _ => rfl, rfl,
      ⟨_, rfl, rfl, rfl, rfl, rfl⟩, _, rfl, rfl, rfl, rfl, rfl⟩, rfl, rfl, rfl, by decide +kernel,
      rfl, by decide +kernel, by decide +kernel⟩
  have settled : AllSettled true t :=
    pair.allSettled (by rw [source]; rfl) (by rw [source]; rfl)
  have layouts : ∀ {m : Bool} {object : Nat} {layout : Layout Bool Nat},
      (tabled looseWords).layout m object = some layout → Part.AllNew layout.parts := by
    refine allNew_tabled fun entry hentry => ?_
    simp only [looseWords, List.mem_cons, List.not_mem_nil, or_false] at hentry
    rcases hentry with rfl | rfl | rfl | rfl
    · exact ⟨rfl, rfl⟩
    · exact isNew_switch fun part hpart => by cases hpart; rfl
    · exact isNew_switch fun part hpart => by cases hpart
    · exact ⟨rfl, rfl⟩
  obtain ⟨text, ordered, run, perm, toggled⟩ := printSource_toggled layouts (.root made) located
    parsed settled (pair.flippable hs hs' rfl ⟨by rw [source]; rfl, rfl, inserted⟩
      ⟨by rw [source]; rfl, rfl, inserted'⟩)
  obtain ⟨v, hprinted⟩ := (toggled .refl).1
  obtain ⟨w, printed⟩ := Job.result?_eq_some printed
  rw [printed] at hprinted
  cases hprinted
  exact ⟨t₀, t, ordered, .root made, located, settled, run, flips ▸ perm, toggled⟩

/-- Two words that share a character. -/
def sharedLetter : List (Option Span × Part Bool Nat) :=
  [(some (.between ⟨1, 0⟩ ⟨1, 3⟩), .objects fun _ => [1, 2]),
    (some (.between ⟨1, 0⟩ ⟨1, 2⟩), switch ['a'] (.between ⟨1, 0⟩ ⟨1, 1⟩) (some (.constant ['x']))),
    (some (.between ⟨1, 1⟩ ⟨1, 3⟩), switch ['c'] (.between ⟨1, 2⟩ ⟨1, 3⟩) (some (.constant ['y'])))]

/-- An empty text that is pinned behind its object. -/
def strayText : List (Option Span × Part Bool Nat) :=
  [(some (.between ⟨1, 0⟩ ⟨1, 2⟩), switch [] (.between ⟨1, 3⟩ ⟨1, 3⟩) (some (.constant ['x'])))]

/-- Words that share a letter cannot both be written anew, although what their choices
cover is apart.  What a choice covers outside its object cannot be written anew either. -/
theorem printSource_unflippable :
    (∃ t₀ t list, Prepared (tabled sharedLetter) ['a', 'b', 'c'] t₀ ∧ locate true t₀ = .ok () t ∧
      Pair t list (switched ['a'] (.between ⟨1, 0⟩ ⟨1, 1⟩) (some (.constant ['x'])))
        (switched ['c'] (.between ⟨1, 2⟩ ⟨1, 3⟩) (some (.constant ['y']))) ∧
      AllSettled true t ∧ t.flips true false t.nodes.size root =
        [⟨.replace, .between ⟨1, 0⟩ ⟨1, 1⟩, ['x']⟩, ⟨.replace, .between ⟨1, 2⟩ ⟨1, 3⟩, ['y']⟩] ∧
      (printSource false).result? t = none) ∧
    ∃ t₀ t n, Prepared (tabled strayText) ['a', 'b', 'c'] t₀ ∧ locate true t₀ = .ok () t ∧
      t.nodes[root]? = some n ∧
      n.parts = [switched [] (.between ⟨1, 3⟩ ⟨1, 3⟩) (some (.constant ['x']))] ∧
      AllSettled true t ∧
      t.flips true false t.nodes.size root = [⟨.replace, .between ⟨1, 3⟩ ⟨1, 3⟩, ['x']⟩] ∧
      (printSource false).result? t = none := by
  have made : ∃ t₀, ofRoot (tabled sharedLetter) true ['a', 'b', 'c'] 0 = .ok t₀ := ⟨_, rfl⟩
  have made' : ∃ t₀, ofRoot (tabled strayText) true ['a', 'b', 'c'] 0 = .ok t₀ := ⟨_, rfl⟩
  obtain ⟨t₀, made⟩ := made
  obtain ⟨t₀', made'⟩ := made'
  constructor
  · obtain ⟨t, list, located, pair, source, flips, fails⟩ : ∃ t list, locate true t₀ = .ok () t ∧
        Pair t list (switched ['a'] (.between ⟨1, 0⟩ ⟨1, 1⟩) (some (.constant ['x'])))
          (switched ['c'] (.between ⟨1, 2⟩ ⟨1, 3⟩) (some (.constant ['y']))) ∧
        t.source = .ofText ['a', 'b', 'c'] ∧ t.flips true false t.nodes.size root =
          [⟨.replace, .between ⟨1, 0⟩ ⟨1, 1⟩, ['x']⟩, ⟨.replace, .between ⟨1, 2⟩ ⟨1, 3⟩, ['y']⟩] ∧
        (printSource false).result? t = none := by
      cases made
      exact ⟨_, _, rfl, ⟨⟨_, _, rfl, rfl⟩, fun _ => rfl, rfl, ⟨_, rfl, rfl, rfl, rfl, rfl⟩,
        _, rfl, rfl, rfl, rfl, rfl⟩, rfl, by decide +kernel, by decide +kernel⟩
    exact ⟨t₀, t, list, .root made, located, pair,
      pair.allSettled (by rw [source]; rfl) (by rw [source]; rfl), flips, fails⟩
  · obtain ⟨t, n, located, node, parts, source, flips, fails⟩ : ∃ t n,
        locate true t₀' = .ok () t ∧ t.nodes[root]? = some n ∧
        n.parts = [switched [] (.between ⟨1, 3⟩ ⟨1, 3⟩) (some (.constant ['x']))] ∧
        t.source = .ofText ['a', 'b', 'c'] ∧
        t.flips true false t.nodes.size root = [⟨.replace, .between ⟨1, 3⟩ ⟨1, 3⟩, ['x']⟩] ∧
        (printSource false).result? t = none := by
      cases made'
      exact ⟨_, _, rfl, rfl, rfl, rfl, by decide +kernel, by decide +kernel⟩
    exact ⟨t₀', t, n, .root made', located, node, parts,
      allSettled_switched node parts (by rw [source]; rfl), flips, fails⟩

end Tree

end Reprint
