import Reprint.Proofs.Tree.Reached
import Reprint.Proofs.Tree.Restored

/-!
# Parts list nodes behind their own

The parts of a node remember the nodes that were found for their objects
(`Part.listed`).  Those are nodes below it, so they were made later and have
larger numbers.  `Tree.Forward` says so of a well-formed tree: from a node to
the nodes that are printed for it numbers only go up.

Locating lists nodes that were just looked up (`locateItem_lt`), part by part
(`Forward.locatePart_listed`), and nothing else that is done with a tree lists
any.  A change of parts from outside could.  `Tree.Tended` are the trees that
come out when it only lists nodes that the parts list already or that come
later, as adding a member to a group does (`Operation.listsLater_addMember`).
All of them are forward (`Tended.forward`).
-/

namespace Reprint

open Reprint.Tree

variable {M O : Type}

namespace Part

mutual

/-- Settling changes extents only. -/
theorem listed_settle : ∀ p : Part M O, p.settle.listed = p.listed
  | .literal .. => rfl
  | .slot .. => rfl
  | .items .. => rfl
  | .choice .. => by rw [settle]
  | .group _ members false => by rw [settle]
  | .group _ members true => by
    rw [settle, listed, listed]
    exact listedAll_settleAll members
termination_by structural p => p

theorem listedAll_settleAll : ∀ parts : List (Part M O),
    listedAll (settleAll parts) = listedAll parts
  | [] => rfl
  | p :: rest => by rw [settleAll, listedAll, listedAll, listed_settle p, listedAll_settleAll rest]
termination_by structural parts => parts

end

/-- What several parts list, one of them lists. -/
theorem mem_listedAll {x : Nat} : ∀ {parts : List (Part M O)},
    x ∈ listedAll parts ↔ ∃ p ∈ parts, x ∈ p.listed
  | [] => by simp [listedAll]
  | p :: rest => by
    rw [listedAll, List.mem_append, mem_listedAll]
    simp

/-- What a choice lists. -/
theorem listed_choice {frame : Frame} {test : M → Bool} {yes : Part M O} {no : Option (Part M O)}
    {taken : Option Bool} {P : Nat → Prop} : (∀ x ∈ (choice frame test yes no taken).listed, P x) ↔
      (∀ x ∈ yes.listed, P x) ∧ ∀ other, no = some other → ∀ x ∈ other.listed, P x := by
  cases no with
  | none => simp [listed]
  | some other => simp [listed, or_imp, forall_and]

/-- A group with one more member. -/
theorem mem_listed_addMember {p member q : Part M O} (h : p.addMember member = .ok q) {x : Nat}
    (hx : x ∈ q.listed) : x ∈ p.listed ∨ x ∈ member.listed := by
  cases p with
  | group frame members stale =>
    cases h
    rw [listed, mem_listedAll] at hx
    obtain ⟨r, hr, hx⟩ := hx
    rw [listed, mem_listedAll]
    rcases List.mem_append.1 hr with hr | hr
    · exact Or.inl ⟨r, hr, hx⟩
    · obtain rfl := List.mem_singleton.1 hr
      exact Or.inr hx
  | _ => cases h

end Part

namespace Tree

variable [DecidableEq O]

/-- A well-formed tree in which parts list only nodes that come later than
their own. -/
structure Forward (t : Tree M O) : Prop extends t.WellFormed where
  layouts : ∀ {m : M} {object : O} {layout : Layout M O}, t.language.layout m object = some layout →
    Part.listedAll layout.parts = []
  later : ∀ {id : Nat} {n : Node M O}, t.nodes[id]? = some n → ∀ x ∈ Part.listedAll n.parts, id < x

/-- Such a tree that has a certain node. -/
abbrev ForwardAt (owner : Nat) (t : Tree M O) : Prop := t.Forward ∧ owner < t.nodes.size

namespace Forward

variable {t u : Tree M O}

/-- A step that changes no parts, and makes nodes only whose parts list
nothing. -/
theorem of_parts (h : t.Forward) (hwell : u.WellFormed) (hlanguage : u.language = t.language)
    (hparts : ∀ {id : Nat} {n' : Node M O}, u.nodes[id]? = some n' →
      (∃ n, t.nodes[id]? = some n ∧ n'.parts = n.parts) ∨ Part.listedAll n'.parts = []) :
    u.Forward where
  toWellFormed := hwell
  layouts := by
    intro m object layout hlayout
    rw [hlanguage] at hlayout
    exact h.layouts hlayout
  later := by
    intro id n' hn' x hx
    rcases hparts hn' with ⟨n, hn, hsame⟩ | hnone
    · rw [hsame] at hx
      exact h.later hn x hx
    · rw [hnone] at hx
      cases hx

/-- A node is retouched, and its parts list later nodes. -/
theorem modify (h : t.Forward) (id : Nat) {g : Node M O → Node M O}
    (hg : ∀ n : Node M O, n.Retouched (g n))
    (hlater : ∀ n : Node M O, t.nodes[id]? = some n → ∀ x ∈ Part.listedAll (g n).parts, id < x) :
    (t.modify id g).Forward where
  toWellFormed := h.toWellFormed.modify id hg
  layouts := h.layouts
  later := by
    intro y n' hn'
    rcases modify_cases hn' with ⟨n, rfl, hn, rfl⟩ | ⟨_, hn⟩
    · exact hlater n hn
    · exact h.later hn

theorem getNode {m : M} {parent id : Nat} {object : O} (h : t.Forward)
    (hget : t.getNode m parent object = .ok (id, u)) : u.Forward := by
  apply h.of_parts (h.toWellFormed.getNode hget) (Extends.getNode hget).language
  intro x n' hn'
  rcases node_of_getNode hget hn' with ⟨n, hn, hkept, _⟩ | ⟨_, hmade⟩
  · exact Or.inl ⟨n, hn, hkept.parts⟩
  · obtain ⟨_, _, hlayout, _, hparts⟩ := hmade.layout
    exact Or.inr (hparts ▸ h.layouts hlayout)

/-- Looking nodes up, noting something in the place of a node and recording
pieces of the source lists no nodes. -/
theorem surveys (m : M) : Surveys m (Forward (M := M) (O := O)) where
  getNode ht hget := ht.getNode hget
  place {t} id g ht hparsed hspan _ := by
    apply ht.of_parts (ht.toWellFormed.modify id fun n => .mapPlace n hparsed hspan) rfl
    intro x n' hn'
    rcases modify_cases hn' with ⟨n, _, hn, rfl⟩ | ⟨_, hn⟩
    · exact Or.inl ⟨n, hn, rfl⟩
    · exact Or.inl ⟨n', hn, rfl⟩
  mark {t t' owner role span} ht howner hmark := by
    apply ht.of_parts (ht.toWellFormed.mark howner hmark) (Extends.mark hmark).language
    intro x n' hn'
    obtain ⟨n, hn, hkept, _⟩ := node_of_mark hmark hn'
    exact Or.inl ⟨n, hn, hkept.parts⟩

end Forward

/-! ## Locating lists nodes that are below -/

section Locate

variable {owner : Nat} {descend : Nat → Job M O Unit}

/-- The node of an object that is located comes later than its parent. -/
theorem locateItem_lt {m : M} {object : O} {lead trail : Text} {s s' : Survey M O} {id : Nat}
    (hs : s.tree.Forward)
    (hrun : locateItem descend m owner object lead trail s = (some id, s')) : owner < id := by
  -- there is an answer in the last of the cases only
  cases locateItem_visit hrun with
  | found node => exact hs.isSound.lt_of_getNode node

namespace Forward

/-- The items of a list. -/
theorem locateItems_listed (m : M)
    (hdescend : ∀ id, Job.Keeping (ForwardAt owner) (descend id)) (frame : Frame) (count : Nat) :
    ∀ (objects : List O) (index : Nat) (list : ItemList M O) (extent : Option Span)
      {s : Survey M O}, s.tree.ForwardAt owner →
      (∀ x ∈ list.listed.map ListedItem.node, owner < x) →
      ∀ x ∈ (locateItems descend m owner frame count index objects list extent s).1.listed.map
        ListedItem.node, owner < x
  | [], _, _, _, _, _, hlist => hlist
  | object :: rest, index, list, extent, s, hs, hlist => by
    have hrest := locateItems_listed m hdescend frame count rest (index + 1)
    rw [locateItems]
    split
    · exact hrest { list with repeats := list.repeats ++ [object] } extent hs hlist
    · split
      next lead trail _ =>
      have hitem := ((surveys m).and_lt owner).locateItem hdescend (fun _ hu => hu.2) object
        lead trail hs
      split
      · next s' hrun =>
        rw [hrun] at hitem
        split
        · exact hrest list extent hitem hlist
        · exact hlist
      · next id s' hrun =>
        rw [hrun] at hitem
        apply hrest _ _ hitem
        intro x hx
        rw [List.map_append, List.mem_append] at hx
        rcases hx with hx | hx
        · exact hlist x hx
        · obtain rfl := List.mem_singleton.1 hx
          exact locateItem_lt hs.1 hrun

mutual

/-- A part that was located. -/
theorem locatePart_listed (m : M)
    (hdescend : ∀ id, Job.Keeping (ForwardAt owner) (descend id)) :
    ∀ (p : Part M O) {s : Survey M O}, s.tree.ForwardAt owner → (∀ x ∈ p.listed, owner < x) →
      ∀ x ∈ (locatePart descend m owner p s).1.listed, owner < x
  | .literal frame wording place, s, _, hp => by
    rw [locatePart]
    split <;> exact hp
  | .slot frame supply listed, s, hs, hp => by
    rw [locatePart]
    split
    · exact hp
    · split
      · exact hp
      · next id s' hrun =>
        intro x hx
        rw [Part.listed, Option.toList_some, List.mem_singleton] at hx
        subst hx
        exact locateItem_lt hs.1 hrun
  | .items frame list, s, hs, hp => by
    rw [locatePart_items]
    exact locateItems_listed m hdescend frame (list.supply m).length (list.supply m) 0 list none hs hp
  | .choice frame test yes no taken, s, hs, hp => by
    rw [Part.listed_choice] at hp
    obtain ⟨hyes, hno⟩ := hp
    cases htest : test m with
    | true =>
      have hlocated := locatePart_listed m hdescend yes hs hyes
      rw [locatePart_yes htest]
      dsimp only
      split <;> rw [Part.listed_choice]
      · exact ⟨by rwa [Part.listed_settle], hno⟩
      · exact ⟨hlocated, hno⟩
    | false =>
      cases no with
      | none =>
        rw [locatePart_neither htest, Part.listed_choice]
        exact ⟨hyes, hno⟩
      | some other =>
        have hlocated := locatePart_listed m hdescend other hs (hno other rfl)
        rw [locatePart_no htest]
        dsimp only
        split <;> rw [Part.listed_choice]
        · refine ⟨hyes, fun _ hsettled => ?_⟩
          rw [← Option.some.inj hsettled, Part.listed_settle]
          exact hlocated
        · refine ⟨hyes, fun _ hother => ?_⟩
          rw [← Option.some.inj hother]
          exact hlocated
  | .group frame members stale, s, hs, hp => by
    have hmembers := locateParts_listed m hdescend members hs hp
    rw [locatePart_group]
    dsimp only
    split
    · rw [Part.listed_settle]
      exact hmembers
    · exact hmembers
termination_by structural p => p

/-- Parts that were located. -/
theorem locateParts_listed (m : M)
    (hdescend : ∀ id, Job.Keeping (ForwardAt owner) (descend id)) :
    ∀ (parts : List (Part M O)) {s : Survey M O}, s.tree.ForwardAt owner →
      (∀ x ∈ Part.listedAll parts, owner < x) →
      ∀ x ∈ Part.listedAll (locateParts descend m owner parts s).1, owner < x
  | [], _, _, hparts => hparts
  | p :: rest, s, hs, hparts => by
    rw [Part.listedAll, List.forall_mem_append] at hparts
    obtain ⟨hp, hrest⟩ := hparts
    have hpart := locatePart_listed m hdescend p hs hp
    have htree := ((surveys m).and_lt owner).locatePart hdescend (fun _ hu => hu.2) p hs
    rw [locateParts_cons]
    dsimp only
    split <;> rw [Part.listedAll, List.forall_mem_append]
    · exact ⟨hpart, locateParts_listed m hdescend rest htree hrest⟩
    · exact ⟨hpart, hrest⟩
termination_by structural parts => parts

end

end Forward

end Locate

namespace Forward

/-- Locating a node and those below it, by induction on the depth. -/
theorem locateWithin (m : M) : ∀ depth id owner,
    Job.Keeping (ForwardAt owner) (Tree.locateWithin m depth id : Job M O Unit)
  | 0, _, _ => .throw _
  | depth + 1, id, owner => by
    intro t ht
    rcases after_locateWithin m depth id t with
      hafter | ⟨n, place, parts, s, hn, _, _, hparts, hafter⟩ <;> rw [hafter]
    · exact ht
    · -- both `id` and `owner` are nodes of every tree on the way
      have hid : t.ForwardAt id := ⟨ht.1, lt_size_of_node hn⟩
      have hdescend := fun c => locateWithin m depth c id
      have hlisted := locateParts_listed m hdescend n.parts
        (s := ⟨t, place.span.start, none⟩) hid (ht.1.later hn)
      have htree := (((surveys m).and_lt owner).and_lt id).locateParts
        (fun c t ht => ⟨locateWithin m depth c owner t ht.1, (hdescend c t ⟨ht.1.1, ht.2⟩).2⟩)
        (fun _ hu => hu.2) n.parts (s := ⟨t, place.span.start, none⟩) ⟨ht, hid.2⟩
      rw [hparts] at hlisted htree
      refine ⟨htree.1.1.modify id (fun n => .finish n parts s.cursor) fun _ _ => hlisted, ?_⟩
      rw [Survey.finish, size_modify]
      exact htree.1.2

/-- A tree is forward when it has just been located. -/
theorem completed {t : Tree M O} (h : t.Forward) : Forward { t with complete := true } where
  toTied := h.toTied.of_sameTies fun _ => rfl
  toCovering := ⟨h.parsed, h.spanned, h.nested, h.owned, h.marked⟩
  layouts := h.layouts
  later := h.later

/-- Other settings. -/
theorem reset {t : Tree M O} (h : t.Forward) (settings : Settings) :
    Forward { t with settings := settings } where
  toTied := h.toTied.of_sameTies fun _ => rfl
  toCovering := ⟨h.parsed, h.spanned, h.nested, h.owned, h.marked⟩
  layouts := h.layouts
  later := h.later

/-- Locating the whole tree. -/
theorem locate (m : M) : Job.Keeping Forward (Tree.locate m : Job M O Unit) := by
  refine .get_bind fun t ht => ?_
  split
  · exact ht
  · refine Job.Keeping.bind ((surveys m).plant root) (fun _ => ?_) t ht
    refine .bind (fun u hu => ?_) fun _ => .get_bind fun u hu => hu.completed
    obtain ⟨n, hn, _⟩ := hu.root
    exact (locateWithin m _ root root u ⟨hu, lt_size_of_node hn⟩).1

/-- A tree with its root alone. -/
theorem ofRoot {language : Language M O} {m : M} {source : Text} {object : O} {t : Tree M O}
    (layouts : ∀ {m : M} {object : O} {layout : Layout M O},
      language.layout m object = some layout → Part.listedAll layout.parts = [])
    (h : Tree.ofRoot language m source object = .ok t) : t.Forward where
  toWellFormed := wellFormed_ofRoot h
  layouts := by
    obtain ⟨layout, place, _, _, rfl⟩ := newNode_eq_ok h
    exact layouts
  later {id n} hn := by
    obtain ⟨layout, place, hlayout, _, rfl⟩ := newNode_eq_ok h
    have hid := lt_size_of_node hn
    rw [addNode_none] at hn hid
    obtain rfl : id = 0 := by simpa using hid
    cases hn
    have hnone : Part.listedAll layout.parts = [] := layouts hlayout
    intro x hx
    change x ∈ Part.listedAll layout.parts at hx
    rw [hnone] at hx
    cases hx

end Forward

end Tree

/-! ## Tended trees -/

/-- A change of the parts of a node only lists nodes that the parts list
already or that come later. -/
def Operation.ListsLater (t : Tree M O) : Operation M O → Prop
  | .editParts id change => ∀ {n : Node M O} {parts : List (Part M O)}, t.nodes[id]? = some n →
      change n.parts = .ok parts → ∀ x ∈ Part.listedAll parts, x ∈ Part.listedAll n.parts ∨ id < x
  | _ => True

/-- Adding a member to a group is such a change, if the member lists nothing. -/
theorem Operation.listsLater_addMember (t : Tree M O) (id index : Nat) {member : Part M O}
    (hmember : member.listed = []) :
    (Operation.editParts id fun parts => match parts[index]? with
      | some p => do return parts.set index (← p.addMember member)
      | none => .error .notGroup).ListsLater t := by
  intro n parts _ hparts x hx
  dsimp only at hparts
  split at hparts
  next p hp =>
    cases hadded : p.addMember member with
    | error e => simp [hadded, bind, Except.bind] at hparts
    | ok q =>
      simp only [hadded, bind, Except.bind, pure, Except.pure, Except.ok.injEq] at hparts
      subst hparts
      rw [Part.mem_listedAll] at hx ⊢
      obtain ⟨r, hr, hx⟩ := hx
      rcases List.mem_or_eq_of_mem_set hr with hr | rfl
      · exact Or.inl ⟨r, hr, hx⟩
      · rcases Part.mem_listed_addMember hadded hx with hx | hx
        · exact Or.inl ⟨p, List.mem_of_getElem? hp, hx⟩
        · rw [hmember] at hx
          cases hx
  · cases hparts

variable [DecidableEq O]

/-- Such a change keeps a tree forward, as everything else does. -/
theorem Operation.forward (op : Operation M O) {t : Tree M O} (h : t.Forward)
    (hop : op.ListsLater t) : (op.run.after t).Forward := by
  refine op.kept (fun m => (Forward.surveys m).toPrints) Forward.locate h ?_
  rintro id change n parts rfl hn hparts
  apply h.modify id fun n => .parts n parts
  intro k hk x hx
  exact (hop hn hparts x hx).elim (h.later hn x) fun hlt => hlt

namespace Tree

/-- A tree that was made from a source, with all that was done with it since
other than listing nodes among parts where they were not found. -/
inductive Tended (language : Language M O) (source : Text) : Tree M O → Prop where
  | made {m : M} {object : O} {t : Tree M O} :
      ofRoot language m source object = .ok t → Tended language source t
  | settings {t : Tree M O} (settings : Settings) :
      Tended language source t → Tended language source { t with settings := settings }
  | step {t : Tree M O} (op : Operation M O) :
      Tended language source t → op.ListsLater t → Tended language source (op.run.after t)

theorem Tended.forward {language : Language M O} {source : Text} {t : Tree M O}
    (layouts : ∀ {m : M} {object : O} {layout : Layout M O},
      language.layout m object = some layout → Part.listedAll layout.parts = [])
    (h : Tended language source t) : t.Forward := by
  induction h with
  | made h => exact .ofRoot layouts h
  | settings settings _ ih => exact ih.reset settings
  | step op _ hop ih => exact op.forward ih hop

end Tree

end Reprint
