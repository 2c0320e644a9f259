import Reprint.Proofs.Tree.Keeping
import Reprint.Proofs.Tree.Ready
import Reprint.Proofs.Tree.WellFormed

/-!
# Properties that all operations keep

Locating a tree looks nodes up, records pieces of the source and notes in the
place of a node what was found around it.  A property that survives that, and
printing, is kept by locating the parts of a node (`Surveys.locateParts`).

In the end the node gets its parts and is located, a change that does not touch
what ties it to the others and to the source (`Node.Retouched`).  A property is
`Carried` if it survives that as well.  Then every operation keeps it
(`Carried.locate`, and the lemmas of `Prints`).  To be well-formed, and to have
grown out of a tree that was there before, is carried (`WellFormed.carried`).
-/

namespace Reprint

variable {M O : Type}

namespace Tree

variable [DecidableEq O]

/-- A property that is also kept when a piece of the source is recorded for a
node, and when something is noted in the place of a node that leaves its
spans as they are, and whether it is located. -/
structure Surveys (m : M) (P : Tree M O → Prop) : Prop extends Prints m P where
  place : ∀ {t : Tree M O} (id : Nat) {g : Place → Place}, P t →
    (∀ p, (g p).parsed = p.parsed) → (∀ p, (g p).span = p.span) →
    (∀ p, (g p).located = p.located) → P (t.modify id fun n => n.mapPlace g)
  mark : ∀ {t t' : Tree M O} {owner : Nat} {role : Role} {span : Span}, P t →
    owner < t.nodes.size → t.mark owner role span = .ok t' → P t'
  insertion id _ ht := place id ht (fun _ => rfl) (fun _ => rfl) fun _ => rfl

/-- A property that is also kept when a node is retouched in any way, and when
the tree is complete. -/
structure Carried (m : M) (P : Tree M O → Prop) : Prop extends Surveys m P where
  modify : ∀ {t : Tree M O} (id : Nat) {g : Node M O → Node M O}, P t →
    (∀ n : Node M O, n.Retouched (g n)) → P (t.modify id g)
  complete : ∀ {t : Tree M O}, P t → P { t with complete := true }
  place id _ ht hparsed hspan _ := modify id ht fun n => .mapPlace n hparsed hspan

theorem size_le_getNode {m : M} {t t' : Tree M O} {parent id : Nat} {object : O}
    (h : t.getNode m parent object = .ok (id, t')) : t.nodes.size ≤ t'.nodes.size := by
  obtain ⟨_, _, ⟨_, rfl⟩ | ⟨_, _, _, _, _, _, rfl⟩⟩ := getNode_cases h
  · exact Nat.le_refl _
  · rw [size_addNode]
    exact Nat.le_succ _

omit [DecidableEq O] in
theorem size_mark {t t' : Tree M O} {owner : Nat} {role : Role} {span : Span}
    (h : t.mark owner role span = .ok t') : t'.nodes.size = t.nodes.size := by
  rw [(mark_eq_ok h).2, size_grow]

namespace Surveys

variable {m : M} {P : Tree M O → Prop}

/-- No node is ever dropped. -/
theorem and_lt (h : Surveys m P) (id : Nat) : Surveys m fun t => P t ∧ id < t.nodes.size where
  getNode ht hget := ⟨h.getNode ht.1 hget, Nat.lt_of_lt_of_le ht.2 (size_le_getNode hget)⟩
  place x _ ht hparsed hspan hlocated :=
    ⟨h.place x ht.1 hparsed hspan hlocated, by rw [size_modify]; exact ht.2⟩
  mark ht howner hmark := ⟨h.mark ht.1 howner hmark, by rw [size_mark hmark]; exact ht.2⟩

/-! ## Literals and delimiters -/

section Parts

variable {owner : Nat} {descend : Nat → Job M O Unit}

theorem locateDelimiter (h : Surveys m P) {t t' : Tree M O} {boundary : Position} {literal : Text}
    {role : Role} {delimiter : Delimiter} (howner : ∀ u, P u → owner < u.nodes.size) (ht : P t)
    (hrun : t.locateDelimiter owner boundary literal role = .ok (delimiter, t')) : P t' := by
  rcases locateDelimiter_cases hrun with ⟨rfl, _⟩ | ⟨window, _, _, _, hmark⟩
  · exact ht
  · exact h.mark ht (howner t ht) hmark

theorem locateAround (h : Surveys m P) {t t' : Tree M O} {span : Span} {lead trail : Text}
    {before behind : Delimiter} (howner : ∀ u, P u → owner < u.nodes.size) (ht : P t)
    (hrun : t.locateAround owner span lead trail = .ok (before, behind, t')) : P t' := by
  obtain ⟨u, hbefore, hbehind⟩ := locateAround_cases hrun
  exact h.locateDelimiter howner (h.locateDelimiter howner ht hbefore) hbehind

theorem locateLiteral (h : Surveys m P) {s s' : Survey M O} {frame : Frame} {text : Text}
    {place place' : LiteralPlace} (howner : ∀ u, P u → owner < u.nodes.size) (hs : P s.tree)
    (hrun : Tree.locateLiteral s owner frame text place = .ok (place', s')) : P s'.tree := by
  rcases locateLiteral_cases hrun with ⟨_, _, rfl⟩ | ⟨span, t, u, _, _, _, hmarked, haround, _, rfl⟩
  · exact hs
  · have ht : P t := by
      rcases markLiteral_cases hmarked with rfl | hmark
      · exact hs
      · exact h.mark hs (howner _ hs) hmark
    exact h.locateAround howner ht haround

/-! ## Parts -/

theorem locateItem (h : Surveys m P) (hdescend : ∀ id, Job.Keeping P (descend id))
    (howner : ∀ u, P u → owner < u.nodes.size) (object : O) (lead trail : Text) {s : Survey M O}
    (hs : P s.tree) : P (Tree.locateItem descend m owner object lead trail s).2.tree := by
  cases hvisit : Tree.locateItem descend m owner object lead trail s with
  | mk found s' =>
    cases locateItem_visit hvisit with
    | skipped | refused => exact hs
    | again node => exact h.getNode hs node
    | failed node _ below => exact (hdescend _).of_error (h.getNode hs node) below
    | unread node _ below => exact (hdescend _).of_ok (h.getNode hs node) below
    | blocked node _ below => exact (hdescend _).of_ok (h.getNode hs node) below
    | @found id _ _ _ _ _ _ node _ below _ around =>
      have hbelow := (hdescend id).of_ok (h.getNode hs node) below
      exact h.place id (h.locateAround howner hbelow around) (fun _ => rfl) (fun _ => rfl)
        fun _ => rfl

theorem locateItems (h : Surveys m P) (hdescend : ∀ id, Job.Keeping P (descend id))
    (howner : ∀ u, P u → owner < u.nodes.size) (frame : Frame) (count : Nat) :
    ∀ (objects : List O) (index : Nat) (list : ItemList M O) (extent : Option Span) {s : Survey M O},
      P s.tree →
      P (Tree.locateItems descend m owner frame count index objects list extent s).2.2.tree
  | [], _, _, _, _, hs => hs
  | object :: rest, index, list, extent, s, hs => by
    rw [Tree.locateItems]
    split
    · exact locateItems h hdescend howner frame count rest _ _ _ hs
    · split
      next lead trail _ =>
      have hitem := h.locateItem hdescend howner object lead trail hs
      split
      · next s' hrun =>
        rw [hrun] at hitem
        split
        · exact locateItems h hdescend howner frame count rest _ _ _ hitem
        · exact hitem
      · next id s' hrun =>
        rw [hrun] at hitem
        exact locateItems h hdescend howner frame count rest _ _ _ hitem

mutual

/-- Locating a part. -/
theorem locatePart (h : Surveys m P) (hdescend : ∀ id, Job.Keeping P (descend id))
    (howner : ∀ u, P u → owner < u.nodes.size) : ∀ (p : Part M O) {s : Survey M O},
      P s.tree → P (Tree.locatePart descend m owner p s).2.tree
  | .literal frame wording place, s, hs => by
    rw [Tree.locatePart]
    split
    · exact hs
    · next hrun => exact h.locateLiteral howner hs hrun
  | .slot frame supply listed, s, hs => by
    rw [Tree.locatePart]
    split
    · exact hs
    · next object _ =>
      have hitem := h.locateItem hdescend howner object frame.leadText frame.trailText hs
      split
      · next hrun =>
        rw [hrun] at hitem
        exact hitem
      · next hrun =>
        rw [hrun] at hitem
        exact hitem
  | .items frame list, s, hs => by
    rw [locatePart_items]
    exact h.locateItems hdescend howner frame (list.supply m).length (list.supply m) 0 list none hs
  | .choice frame test yes no taken, s, hs => by
    cases htest : test m with
    | true =>
      rw [locatePart_yes htest]
      exact locatePart h hdescend howner yes hs
    | false =>
      cases no with
      | none =>
        rw [locatePart_neither htest]
        exact hs
      | some other =>
        rw [locatePart_no htest]
        exact locatePart h hdescend howner other hs
  | .group frame members stale, s, hs => by
    rw [locatePart_group]
    exact locateParts h hdescend howner members hs
termination_by structural p => p

/-- Locating several parts. -/
theorem locateParts (h : Surveys m P) (hdescend : ∀ id, Job.Keeping P (descend id))
    (howner : ∀ u, P u → owner < u.nodes.size) : ∀ (parts : List (Part M O)) {s : Survey M O},
      P s.tree → P (Tree.locateParts descend m owner parts s).2.tree
  | [], s, hs => hs
  | p :: rest, s, hs => by
    have hpart := locatePart h hdescend howner p hs
    rw [locateParts_cons]
    dsimp only
    split
    · exact locateParts h hdescend howner rest hpart
    · exact hpart
termination_by structural parts => parts

end

end Parts

/-- Locating a node and those below it, by induction on the depth.  In the end
every node that was visited gets its parts. -/
theorem locateWithin : ∀ {P : Tree M O → Prop}, Surveys m P →
    (∀ {t : Tree M O} (id : Nat) (parts : List (Part M O)) (q : Position), P t →
      P (t.modify id fun n => n.finish parts q)) →
    ∀ depth id, Job.Keeping P (Tree.locateWithin m depth id : Job M O Unit)
  | _, _, _, 0, _ => .throw _
  | P, h, hmodify, depth + 1, id => by
    intro t ht
    rcases after_locateWithin m depth id t with
      hafter | ⟨n, place, parts, s, hn, _, _, hparts, hafter⟩ <;> rw [hafter]
    · exact ht
    · have hat := h.and_lt id
      have hbelow := locateWithin hat (fun x parts q ht =>
        ⟨hmodify x parts q ht.1, by rw [size_modify]; exact ht.2⟩) depth
      have htree := hat.locateParts hbelow (fun _ hu => hu.2) n.parts
        (s := ⟨t, place.span.start, none⟩) ⟨ht, lt_size_of_node hn⟩
      rw [hparts] at htree
      exact hmodify id parts s.cursor htree.1

end Surveys

namespace Carried

variable {m : M} {P : Tree M O → Prop}

/-! ## Locating -/

/-- Locating a node and those below it. -/
theorem locateWithin (h : Carried m P) (depth id : Nat) :
    Job.Keeping P (Tree.locateWithin m depth id : Job M O Unit) :=
  h.toSurveys.locateWithin (fun id parts q ht => h.modify id ht fun n => .finish n parts q) depth id

/-- Locating the whole tree. -/
theorem locate (h : Carried m P) : Job.Keeping P (Tree.locate m : Job M O Unit) := by
  refine .get_bind fun t ht => ?_
  split
  · exact ht
  · refine Job.Keeping.bind (h.plant root) (fun _ => ?_) t ht
    refine .bind (fun t ht => h.locateWithin _ root t ht) fun _ => ?_
    exact .get_bind fun t ht => h.complete ht

end Carried

/-- Well-formed trees stay so and grow out of each other. -/
theorem WellFormed.carried (m : M) (t : Tree M O) :
    Carried m fun u => t.Extends u ∧ u.WellFormed where
  getNode hu hget := ⟨hu.1.trans (.getNode hget), hu.2.getNode hget⟩
  modify id _ hu hg := ⟨hu.1.trans (.modify _ id hg), hu.2.modify id hg⟩
  mark hu howner hmark := ⟨hu.1.trans (.mark hmark), hu.2.mark howner hmark⟩
  complete hu := ⟨hu.1.trans ⟨rfl, rfl, List.prefix_refl _, fun hn => ⟨_, hn, .refl _⟩⟩,
    ⟨hu.2.toTied.of_sameTies fun _ => rfl,
      ⟨hu.2.parsed, hu.2.spanned, hu.2.nested, hu.2.owned, hu.2.marked⟩⟩⟩

end Tree

end Reprint
