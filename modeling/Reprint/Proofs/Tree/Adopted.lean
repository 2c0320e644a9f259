import Reprint.Proofs.Tree.Settled
import Reprint.Proofs.Tree.Unchanged

/-!
# What is found is right below

Locating the parts of a node finds nodes that are right below it
(`locateParts_adopts`), so in a located tree a part only finds nodes right below
the node that it belongs to (`locate_adopted`).  With a tree that is tied
together that means that looking up the object of an item gives the node of the
item again (`Adopted.below?_eq`).
-/

namespace Reprint

open Reprint.Tree

variable {M O : Type}

namespace Part

mutual

/-- A part of which nothing has been found finds no node. -/
theorem IsNew.not_finds {m : M} {id : Nat} : ∀ p : Part M O, p.IsNew → ¬ p.Finds m id
  | .literal .., _ => not_false
  | .slot _ _ listed, h => by
    simp only [IsNew] at h
    simp [Finds, h]
  | .items _ list, h => by
    simp only [IsNew] at h
    simp [Finds, h.1]
  | .choice _ test yes none _, h => by
    simp only [IsNew] at h
    rw [Finds]
    split
    · exact IsNew.not_finds yes h.2.1
    · exact not_false
  | .choice _ test yes (some other) _, h => by
    simp only [IsNew] at h
    rw [Finds]
    split
    · exact IsNew.not_finds yes h.2.1
    · exact IsNew.not_finds other h.2.2
  | .group _ members _, h => by
    simp only [IsNew] at h
    rw [Finds]
    exact AllNew.not_findsAny members h
termination_by structural p => p

theorem AllNew.not_findsAny {m : M} {id : Nat} :
    ∀ parts : List (Part M O), AllNew parts → ¬ FindsAny m id parts
  | [], _ => not_false
  | p :: rest, h => by
    simp only [AllNew] at h
    rw [FindsAny]
    exact not_or.2 ⟨IsNew.not_finds p h.1, AllNew.not_findsAny rest h.2⟩
termination_by structural parts => parts

end

mutual

/-- Settling changes extents only. -/
theorem finds_settle {m : M} {id : Nat} : ∀ p : Part M O, p.settle.Finds m id ↔ p.Finds m id
  | .literal .. => by rw [settle]
  | .slot .. => by rw [settle]
  | .items .. => by rw [settle]
  | .choice .. => by rw [settle]
  | .group _ members false => by rw [settle]
  | .group _ members true => by
    rw [settle, Finds, Finds]
    exact findsAny_settleAll members
termination_by structural p => p

theorem findsAny_settleAll {m : M} {id : Nat} :
    ∀ parts : List (Part M O), FindsAny m id (settleAll parts) ↔ FindsAny m id parts
  | [] => Iff.rfl
  | p :: rest => by
    rw [settleAll, FindsAny, FindsAny, finds_settle p, findsAny_settleAll rest]
termination_by structural parts => parts

end

end Part

namespace Tree

/-! ## Nodes right below a node -/

/-- One node is right below another. -/
def IsChild (t : Tree M O) (owner id : Nat) : Prop :=
  ∃ n, t.nodes[owner]? = some n ∧ id ∈ n.children

theorem IsChild.extend {t u : Tree M O} {owner id : Nat} (h : t.IsChild owner id)
    (hextends : t.Extends u) : u.IsChild owner id := by
  obtain ⟨n, hn, hid⟩ := h
  obtain ⟨n', hn', hkept⟩ := hextends.node hn
  exact ⟨n', hn', hkept.children.subset hid⟩

theorem IsChild.lt_size {t : Tree M O} {owner id : Nat} (h : t.IsChild owner id) :
    owner < t.nodes.size := by
  obtain ⟨n, hn, _⟩ := h
  exact lt_size_of_node hn

variable [DecidableEq O]

/-- A node right below another stays there. -/
theorem IsChild.carried (m : M) (owner id : Nat) :
    Carried m fun t : Tree M O => t.IsChild owner id where
  getNode ht hget := ht.extend (.getNode hget)
  modify x _ ht hg := ht.extend (.modify _ x hg)
  mark ht _ hmark := ht.extend (.mark hmark)
  complete ht := ht

/-- The node that was looked up or made is right below its parent. -/
theorem isChild_of_getNode {m : M} {t u : Tree M O} {owner id : Nat} {object : O}
    (h : t.getNode m owner object = .ok (id, u)) : u.IsChild owner id := by
  obtain ⟨n, hn, ⟨hbelow, rfl⟩ | ⟨_, rfl, layout, place, _, _, rfl⟩⟩ := getNode_cases h
  · exact ⟨n, hn, (below?_eq_some hbelow).1⟩
  · have hattached : (t.attach owner object place layout.parts).IsChild owner t.nodes.size :=
      ⟨_, attach_node hn, by simp⟩
    rw [addNode_some]
    cases place with
    | none => exact hattached
    | some p => exact hattached.extend (.grow _ owner p.span)

/-- No node is ever dropped. -/
theorem lt_size_carried (m : M) (id : Nat) :
    Carried m fun t : Tree M O => id < t.nodes.size where
  getNode ht hget := Nat.lt_of_lt_of_le ht (size_le_getNode hget)
  modify x _ ht _ := by
    rw [size_modify]
    exact ht
  mark ht _ hmark := by
    rw [size_mark hmark]
    exact ht
  complete ht := ht

/-! ## Locating finds nodes right below -/

section Parts

variable {m : M} {owner : Nat} {descend : Nat → Job M O Unit}

/-- The node of an item is right below the owner. -/
theorem locateItem_isChild
    (hdescend : ∀ c id, Job.Keeping (fun t : Tree M O => t.IsChild owner c) (descend id))
    {object : O} {lead trail : Text} {s s' : Survey M O} {id : Nat}
    (h : locateItem descend m owner object lead trail s = (some id, s')) :
    s'.tree.IsChild owner id := by
  cases locateItem_visit h with
  | found node _ below _ around =>
    have hcarried := (IsChild.carried m owner id : Carried m fun t : Tree M O => t.IsChild owner id)
    have hbelow := (hdescend id id).of_ok (isChild_of_getNode node) below
    exact hcarried.place id (hcarried.locateAround (fun _ hu => hu.lt_size) hbelow around)
      (fun _ => rfl) (fun _ => rfl) fun _ => rfl

/-- The nodes of the items of a list are right below the owner. -/
theorem locateItems_adopts
    (hdescend : ∀ c id, Job.Keeping (fun t : Tree M O => t.IsChild owner c) (descend id))
    {frame : Frame} {count : Nat} : ∀ (objects : List O) (index : Nat) (list : ItemList M O)
      (extent : Option Span) (s : Survey M O),
      (∀ item ∈ list.listed, s.tree.IsChild owner item.node) →
      let located := locateItems descend m owner frame count index objects list extent s
      ∀ item ∈ located.1.listed, located.2.2.tree.IsChild owner item.node
  | [], _, _, _, _, hlist => hlist
  | object :: rest, index, list, extent, s, hlist => by
    dsimp only
    rw [locateItems]
    split
    · exact locateItems_adopts hdescend rest _ { list with repeats := _ } _ _ hlist
    · split
      next lead trail _ =>
      have hstay : ∀ item ∈ list.listed,
          (locateItem descend m owner object lead trail s).2.tree.IsChild owner item.node :=
        fun item hitem => (IsChild.carried m owner item.node).locateItem (hdescend item.node)
          (fun _ hu => hu.lt_size) object lead trail (hlist item hitem)
      split
      · next s' hone =>
        rw [hone] at hstay
        split
        · exact locateItems_adopts hdescend rest _ _ _ _ hstay
        · exact hstay
      · next id s' hone =>
        have hid := locateItem_isChild hdescend hone
        rw [hone] at hstay
        refine locateItems_adopts hdescend rest _ _ _ _ fun item hitem => ?_
        rcases List.mem_append.1 hitem with hitem | hitem
        · exact hstay item hitem
        · obtain rfl := List.mem_singleton.1 hitem
          exact hid

mutual

/-- What a located part finds is right below the owner. -/
theorem locatePart_adopts
    (hdescend : ∀ c id, Job.Keeping (fun t : Tree M O => t.IsChild owner c) (descend id)) {c : Nat} :
    ∀ (p : Part M O) (s : Survey M O), (∀ c, p.Finds m c → s.tree.IsChild owner c) →
      (locatePart descend m owner p s).1.Finds m c →
        (locatePart descend m owner p s).2.tree.IsChild owner c
  | .literal frame wording place, s, _, hfinds => by
    rw [locatePart] at hfinds
    split at hfinds <;> exact hfinds.elim
  | .slot frame supply listed, s, hfound, hfinds => by
    rw [locatePart] at hfinds ⊢
    cases hsupply : supply m with
    | none =>
      rw [hsupply] at hfinds
      exact hfound c hfinds
    | some object =>
      have hitem := ((IsChild.carried m owner c : Carried m fun t : Tree M O =>
        t.IsChild owner c)).locateItem (hdescend c) (fun _ hu => hu.lt_size) object
          frame.leadText frame.trailText (s := s)
      rw [hsupply] at hfinds
      dsimp only at hfinds ⊢
      cases hone : locateItem descend m owner object frame.leadText frame.trailText s with
      | mk found s' =>
        rw [hone] at hfinds hitem
        cases found with
        | none => exact hitem (hfound c hfinds)
        | some id =>
          rw [Part.Finds, Option.some.injEq] at hfinds
          exact hfinds ▸ locateItem_isChild hdescend hone
  | .items frame list, s, hfound, hfinds => by
    rw [locatePart_items] at hfinds ⊢
    rw [Part.Finds] at hfinds
    obtain ⟨item, hitem, rfl⟩ := hfinds
    refine locateItems_adopts hdescend _ _ _ _ _ (fun item hitem => hfound item.node ?_) item hitem
    rw [Part.Finds]
    exact ⟨item, hitem, rfl⟩
  | .choice frame test yes no taken, s, hfound, hfinds => by
    cases htest : test m with
    | true =>
      have hsame : ∀ (frame : Frame) (yes : Part M O) (taken : Option Bool),
          (Part.choice frame test yes no taken).Finds m c = yes.Finds m c := by
        intro frame yes taken
        cases no <;> rw [Part.Finds, if_pos htest]
      rw [locatePart_yes htest] at hfinds ⊢
      refine locatePart_adopts hdescend yes s (fun c hc => hfound c ?_) ?_
      · cases no <;> rwa [Part.Finds, if_pos htest]
      · dsimp only at hfinds
        split at hfinds
        · rwa [hsame, Part.finds_settle] at hfinds
        · rwa [hsame] at hfinds
    | false =>
      cases no with
      | none =>
        rw [locatePart_neither htest] at hfinds ⊢
        exact hfound c hfinds
      | some other =>
        have hsame : ∀ (frame : Frame) (other : Part M O) (taken : Option Bool),
            (Part.choice frame test yes (some other) taken).Finds m c = other.Finds m c := by
          intro frame other taken
          rw [Part.Finds, htest, if_neg Bool.false_ne_true]
        rw [locatePart_no htest] at hfinds ⊢
        refine locatePart_adopts hdescend other s (fun c hc => hfound c ?_) ?_
        · rwa [Part.Finds, htest, if_neg Bool.false_ne_true]
        · dsimp only at hfinds
          split at hfinds
          · rwa [hsame, Part.finds_settle] at hfinds
          · rwa [hsame] at hfinds
  | .group frame members stale, s, hfound, hfinds => by
    rw [locatePart_group] at hfinds ⊢
    refine locateParts_adopts hdescend members s (fun c hc => hfound c (by rwa [Part.Finds])) ?_
    dsimp only at hfinds
    split at hfinds
    · rwa [Part.finds_settle, Part.Finds] at hfinds
    · rwa [Part.Finds] at hfinds
termination_by structural p => p

/-- What located parts find is right below the owner. -/
theorem locateParts_adopts
    (hdescend : ∀ c id, Job.Keeping (fun t : Tree M O => t.IsChild owner c) (descend id)) {c : Nat} :
    ∀ (parts : List (Part M O)) (s : Survey M O),
      (∀ c, Part.FindsAny m c parts → s.tree.IsChild owner c) →
      Part.FindsAny m c (locateParts descend m owner parts s).1 →
        (locateParts descend m owner parts s).2.tree.IsChild owner c
  | [], _, hfound, hfinds => hfound c hfinds
  | p :: rest, s, hfound, hfinds => by
    have hstay : ∀ c, s.tree.IsChild owner c →
        (locatePart descend m owner p s).2.tree.IsChild owner c :=
      fun c hc => (IsChild.carried m owner c).locatePart (hdescend c) (fun _ hu => hu.lt_size) p hc
    have hfirst := locatePart_adopts hdescend (c := c) p s fun c hc => hfound c (Or.inl hc)
    rw [locateParts_cons] at hfinds ⊢
    dsimp only at hfinds ⊢
    split at hfinds
    · next hrun =>
      rw [if_pos hrun]
      have hrest := locateParts_adopts hdescend (c := c) rest (locatePart descend m owner p s).2
        fun c hc => hstay c (hfound c (Or.inr hc))
      rcases hfinds with hfinds | hfinds
      · exact (IsChild.carried m owner c).locateParts (hdescend c) (fun _ hu => hu.lt_size) rest
          (hfirst hfinds)
      · exact hrest hfinds
    · next hrun =>
      rw [if_neg hrun]
      rcases hfinds with hfinds | hfinds
      · exact hfirst hfinds
      · exact hstay c (hfound c (Or.inr hfinds))
termination_by structural parts => parts

end

end Parts

/-! ## Whole trees -/

/-- What the parts of a node find is right below it. -/
structure Adopted (m : M) (t : Tree M O) : Prop where
  layouts : ∀ {m object layout}, t.language.layout m object = some layout →
    Part.AllNew layout.parts
  found : ∀ {id c : Nat} {n : Node M O}, t.nodes[id]? = some n → Part.FindsAny m c n.parts →
    c ∈ n.children

namespace Adopted

variable {m : M} {t u : Tree M O}

omit [DecidableEq O] in
/-- The invariant passes to a later tree in which old nodes have their parts
still, and of new ones nothing was found. -/
theorem extend (h : Adopted m t) (hextends : t.Extends u)
    (hparts : ∀ {id : Nat} {n' : Node M O}, u.nodes[id]? = some n' →
      (∃ n, t.nodes[id]? = some n ∧ n'.parts = n.parts) ∨ Part.AllNew n'.parts) : Adopted m u where
  layouts hl := h.layouts (hextends.language ▸ hl)
  found {id c n'} hn' hc := by
    rcases hparts hn' with ⟨n, hn, hsame⟩ | hnew
    · obtain ⟨k, hk, hkept⟩ := hextends.node hn
      rw [hn'] at hk
      cases hk
      exact hkept.children.subset (h.found hn (hsame ▸ hc))
    · exact absurd hc (Part.AllNew.not_findsAny _ hnew)

theorem surveys (m : M) : Surveys m (Adopted m : Tree M O → Prop) where
  getNode {t u parent id object} ht hget := by
    refine ht.extend (.getNode hget) fun {x n'} hn' => ?_
    rcases node_of_getNode hget hn' with ⟨n, hn, hkept, _⟩ | ⟨_, hmade⟩
    · exact Or.inl ⟨n, hn, hkept.parts⟩
    · obtain ⟨_, _, hlayout, _, hparts⟩ := hmade.layout
      exact Or.inr (hparts ▸ ht.layouts hlayout)
  place id _ ht hparsed hspan _ := by
    refine ht.extend (.modify _ id fun n => .mapPlace n hparsed hspan) fun hn' => ?_
    rcases modify_cases hn' with ⟨n, _, hn, rfl⟩ | ⟨_, hn⟩
    · exact Or.inl ⟨n, hn, rfl⟩
    · exact Or.inl ⟨_, hn, rfl⟩
  mark {t u owner role span} ht _ hmark := by
    refine ht.extend (.mark hmark) fun {x n'} hn' => ?_
    obtain ⟨n, hn, hkept, _⟩ := node_of_mark hmark hn'
    exact Or.inl ⟨n, hn, hkept.parts⟩

/-- Locating a node keeps the invariant, by induction on the depth. -/
theorem locateWithin (m : M) : ∀ depth id,
    Job.Keeping (Adopted m) (Tree.locateWithin m depth id : Job M O Unit)
  | 0, _ => .throw _
  | depth + 1, id => by
    intro t ht
    rcases after_locateWithin m depth id t with
      hafter | ⟨n, place, parts, s, hid, _, _, hparts, hafter⟩ <;> rw [hafter]
    · exact ht
    · have htree := ((surveys m : Surveys m (Adopted m : Tree M O → Prop)).and_lt id).locateParts
        (fun x => (locateWithin m depth x).and ((lt_size_carried m id).locateWithin depth x))
        (fun _ hu => hu.2) n.parts (s := ⟨t, place.span.start, none⟩) ⟨ht, lt_size_of_node hid⟩
      have hchildren := fun c => locateParts_adopts (c := c)
        (fun c x => (IsChild.carried m id c).locateWithin depth x) n.parts
        ⟨t, place.span.start, none⟩ fun c hc => ⟨n, hid, ht.found hid hc⟩
      rw [hparts] at htree hchildren
      refine ⟨htree.1.layouts, fun {x c k} hk hc => ?_⟩
      rcases modify_cases hk with ⟨j, rfl, hj, rfl⟩ | ⟨_, hk⟩
      · obtain ⟨j', hj', hmem⟩ := hchildren c hc
        obtain rfl := Option.some.inj (hj.symm.trans hj')
        exact hmem
      · exact htree.1.found hk hc

/-- In a tree that is tied together, looking up the object of a node that a
part finds gives that node. -/
theorem below?_eq (h : Adopted m t) (htied : t.Tied) {id c : Nat} {n k : Node M O}
    (hn : t.nodes[id]? = some n) (hc : Part.FindsAny m c n.parts) (hk : t.nodes[c]? = some k) :
    t.below? n k.object = some c := by
  obtain ⟨k', hk', _, hbelow⟩ := htied.child hn (h.found hn hc)
  rw [hk] at hk'
  cases hk'
  exact hbelow

end Adopted

omit [DecidableEq O] in
/-- A tree that was not located yet finds nothing. -/
theorem Unsearched.adopted {l : Language M O} {s : Source} {m : M} {t : Tree M O}
    (h : Unsearched l s t) : Adopted m t where
  layouts := h.layouts
  found hn hc := absurd hc (Part.AllNew.not_findsAny _ (h.node hn).2)

/-- Printing and editing keep a tree well-formed. -/
theorem Prepared.wellFormed {language : Language M O} {source : Text} {t : Tree M O}
    (h : Prepared language source t) : t.WellFormed := by
  have hprints : ∀ (m : M) (u : Tree M O), Prints m fun v => u.Extends v ∧ v.WellFormed :=
    fun m u => (WellFormed.carried m u).toPrints
  induction h with
  | root made => exact wellFormed_ofRoot made
  | @settings u _ settings ih =>
    exact ⟨ih.toTied.of_sameTies fun _ => rfl,
      ⟨ih.parsed, ih.spanned, ih.nested, ih.owned, ih.marked⟩⟩
  | edit _ _ edited ih =>
    obtain ⟨n, parts, _, _, rfl⟩ := editParts_eq_ok edited
    exact ih.modify _ fun n => .parts n parts
  | @plant u _ m id ih => exact ((hprints m u).plant id u ⟨.refl u, ih⟩).2
  | @print u _ m id margin ih => exact ((hprints m u).print id margin u ⟨.refl u, ih⟩).2
  | @printSource u _ m ih => exact ((hprints m u).printSource u ⟨.refl u, ih⟩).2
  | @printMapped u _ m file ih => exact ((hprints m u).printMapped file u ⟨.refl u, ih⟩).2

/-- A tree that was located for the first time is tied together, and its parts
find nodes right below the nodes that they belong to. -/
theorem locate_adopted {language : Language M O} {source : Text} {m : M} {t t' : Tree M O}
    (layouts : ∀ {m object layout}, language.layout m object = some layout →
      Part.AllNew layout.parts)
    (prepared : Prepared language source t) (located : locate m t = .ok () t') :
    t'.WellFormed ∧ Adopted m t' := by
  have hunsearched := prepared.unsearched layouts
  constructor
  · exact ((WellFormed.carried m t).locate.of_ok ⟨.refl t, prepared.wellFormed⟩ located).2
  · obtain ⟨t₁, t₂, hplant, hfrom, rfl⟩ := locate_eq_ok hunsearched.incomplete located
    have hplanted := ((Adopted.surveys m).plant root).of_ok hunsearched.adopted hplant
    have hadopted := (Adopted.locateWithin m (t₁.depthBound m) root).of_ok hplanted hfrom
    exact ⟨hadopted.layouts, hadopted.found⟩

end Tree

end Reprint
