import Reprint.Proofs.Part.UpToDate
import Reprint.Proofs.Tree.Adopted
import Reprint.Proofs.Tree.Restored

/-!
# Extents that were asked for after the search

Locating a group gives its members their extents and then brings its own up to
date (`Part.Unasked.locatePart`).  It does not mark the extent stale, though.  A
group that was asked for its extent before it was located answers with what it
answered then, `none` (`settle_askedEarly`).

`Tree.Queried` are the trees that come out when no group is asked as long as its
node is still to be searched (`Tree.Awaits`).  Everything else may be done in any
order: nodes may be looked up, groups may get members, the tree may be located
and printed, and groups may be asked that are not searched any more.  In all of
these trees every group, however deep, answers with the union of what its members
answer with (`Queried.settle_isUnion`).

`Tidy` is what carries that.  The parts of all nodes are up to date, and while
the search is still to come nobody has asked for those that it will fill in.
-/

namespace Reprint

open Reprint.Tree

variable {M O : Type} [DecidableEq O]

/-! ## Locating parts that nobody has asked -/

namespace Part

variable {m : M} {owner : Nat} {descend : Nat → Job M O Unit}

mutual

/-- A part that nobody has asked is up to date after it was located. -/
theorem Unasked.locatePart : ∀ {p : Part M O} (s : Survey M O), p.Unasked →
    (Tree.locatePart descend m owner p s).1.UpToDate
  | .literal frame wording place, s, _ => by
    rw [Tree.locatePart]
    split <;> exact every_literal.2 trivial
  | .slot frame supply listed, s, _ => by
    rw [Tree.locatePart]
    split
    · exact every_slot.2 trivial
    · split <;> exact every_slot.2 trivial
  | .items frame list, s, _ => by
    rw [locatePart_items]
    exact every_items.2 trivial
  | .choice frame test yes no taken, s, hp => by
    obtain ⟨_, hyes, hno⟩ := every_choice.1 hp
    cases htest : test m with
    | true =>
      have hlocated := Unasked.locatePart s hyes
      have hno' : ∀ other, no = some other → other.UpToDate :=
        fun other h => Unasked.upToDate (hno other h)
      rw [locatePart_yes htest]
      dsimp only
      split
      · exact every_choice.2 ⟨trivial, hlocated.settle, hno'⟩
      · exact every_choice.2 ⟨trivial, hlocated, hno'⟩
    | false =>
      have hyes' : yes.UpToDate := Unasked.upToDate hyes
      cases no with
      | none =>
        rw [locatePart_neither htest]
        exact every_choice.2 ⟨trivial, hyes', fun _ => nofun⟩
      | some other =>
        have hlocated := Unasked.locatePart s (hno other rfl)
        rw [locatePart_no htest]
        dsimp only
        split
        · refine every_choice.2 ⟨trivial, hyes', ?_⟩
          rintro _ ⟨⟩
          exact hlocated.settle
        · refine every_choice.2 ⟨trivial, hyes', ?_⟩
          rintro _ ⟨⟩
          exact hlocated
  | .group frame members stale, s, hp => by
    obtain ⟨hstale, hmembers⟩ := every_group.1 hp
    have hlocated := Unasked.locateParts s hmembers
    -- the group itself is still stale, whatever became of its members
    have hgroup : (group frame (Tree.locateParts descend m owner members s).1 stale).UpToDate :=
      every_group.2 ⟨IsStale.isRight (.group frame _ stale) hstale, hlocated⟩
    rw [locatePart_group]
    dsimp only
    split
    · exact hgroup.settle
    · exact hgroup
termination_by structural p => p

theorem Unasked.locateParts : ∀ {parts : List (Part M O)} (s : Survey M O),
    (∀ p ∈ parts, p.Unasked) →
      ∀ p ∈ (Tree.locateParts descend m owner parts s).1, p.UpToDate
  | [], s, _ => by simp [Tree.locateParts]
  | p :: rest, s, h => by
    rw [List.forall_mem_cons] at h
    have hpart := Unasked.locatePart s h.1
    rw [locateParts_cons]
    dsimp only
    split <;> rw [List.forall_mem_cons]
    · exact ⟨hpart, Unasked.locateParts _ h.2⟩
    · exact ⟨hpart, fun q hq => Unasked.upToDate (h.2 q hq)⟩
termination_by structural parts => parts

end

/-- Asks the parts at some of the indices for their extents. -/
def askAt (asked : Nat → Bool) (parts : List (Part M O)) : List (Part M O) :=
  parts.mapIdx fun i p => if asked i then p.settle else p

omit [DecidableEq O] in
theorem askAt_all (parts : List (Part M O)) : askAt (fun _ => true) parts = settleAll parts := by
  rw [settleAll_eq_map, askAt]
  exact List.ext_getElem (by simp) fun i _ _ => by simp

end Part

namespace Tree

/-! ## Trees whose parts are up to date -/

/-- The parts of all nodes are up to date, and if the search is still to come,
nobody has asked for those that it will fill in. -/
structure Tidy (waiting : Prop) (t : Tree M O) : Prop where
  layouts : ∀ {m : M} {object : O} {layout : Layout M O},
    t.language.layout m object = some layout → ∀ p ∈ layout.parts, p.Unasked
  upToDate : ∀ {id : Nat} {n : Node M O}, t.nodes[id]? = some n → ∀ p ∈ n.parts, p.UpToDate
  unasked : waiting → ∀ {id : Nat} {n : Node M O}, t.nodes[id]? = some n →
    n.place.isSome = true → n.isLocated = false → ∀ p ∈ n.parts, p.Unasked

namespace Tidy

variable {waiting : Prop} {t u : Tree M O}

omit [DecidableEq O] in
theorem imp {waiting' : Prop} (h : t.Tidy waiting) (himp : waiting' → waiting) :
    t.Tidy waiting' where
  layouts := h.layouts
  upToDate := h.upToDate
  unasked hwaiting := h.unasked (himp hwaiting)

omit [DecidableEq O] in
/-- A step that leaves the nodes their parts and makes new ones whose parts
nobody has asked. -/
theorem of_nodes (h : t.Tidy waiting) (hlanguage : u.language = t.language)
    (hnodes : ∀ {id : Nat} {n' : Node M O}, u.nodes[id]? = some n' →
      (∃ n, t.nodes[id]? = some n ∧ n'.parts = n.parts ∧ n'.isLocated = n.isLocated ∧
        n'.place.isSome = n.place.isSome) ∨ ∀ p ∈ n'.parts, p.Unasked) : u.Tidy waiting where
  layouts := by
    rw [hlanguage]
    exact h.layouts
  upToDate hn' := by
    rcases hnodes hn' with ⟨n, hn, hparts, _⟩ | hnew
    · rw [hparts]
      exact h.upToDate hn
    · exact fun p hp => (hnew p hp).upToDate
  unasked hwaiting id n' hn' hplace hlocated := by
    rcases hnodes hn' with ⟨n, hn, hparts, hsame, hsome⟩ | hnew
    · rw [hparts]
      exact h.unasked hwaiting hn (hsome ▸ hplace) (hsame ▸ hlocated)
    · exact hnew

omit [DecidableEq O] in
/-- Something is noted in the place of a node. -/
theorem mapPlace (h : t.Tidy waiting) (id : Nat) {g : Place → Place}
    (hlocated : ∀ p, (g p).located = p.located) :
    (t.modify id fun n => n.mapPlace g).Tidy waiting := by
  refine h.of_nodes (language_modify ..) fun {x n'} hn' => ?_
  rcases modify_cases hn' with ⟨n, _, hn, rfl⟩ | ⟨_, hn⟩
  · exact Or.inl ⟨n, hn, rfl, Node.isLocated_mapPlace n hlocated, Option.isSome_map⟩
  · exact Or.inl ⟨n', hn, rfl, rfl, rfl⟩

theorem getNode {m : M} {parent id : Nat} {object : O} (h : t.Tidy waiting)
    (hget : t.getNode m parent object = .ok (id, u)) : u.Tidy waiting := by
  apply h.of_nodes (Extends.getNode hget).language
  intro x n' hn'
  rcases node_of_getNode hget hn' with ⟨n, hn, hkept, _⟩ | ⟨_, hmade⟩
  · exact Or.inl ⟨n, hn, hkept.parts, hkept.located, hkept.isSome_place⟩
  · obtain ⟨_, _, hlayout, _, hparts⟩ := hmade.layout
    exact Or.inr (hparts ▸ h.layouts hlayout)

/-- Looking nodes up, noting something in the place of a node and recording
pieces of the source asks nobody. -/
theorem surveys (m : M) (waiting : Prop) : Surveys m (Tidy (M := M) (O := O) waiting) where
  getNode ht hget := ht.getNode hget
  place id _ ht _ _ hlocated := ht.mapPlace id hlocated
  mark {t t' owner role span} ht _ hmark := by
    apply ht.of_nodes (Extends.mark hmark).language
    intro x n' hn'
    obtain ⟨n, hn, hkept, _⟩ := node_of_mark hmark hn'
    exact Or.inl ⟨n, hn, hkept.parts, hkept.located, hkept.isSome_place⟩

omit [DecidableEq O] in
/-- The parts of a node change. -/
theorem setParts (h : t.Tidy waiting) (id : Nat) {parts : List (Part M O)}
    (hparts : ∀ p ∈ parts, p.UpToDate)
    (hunasked : waiting → ∀ n, t.nodes[id]? = some n → n.place.isSome = true →
      n.isLocated = false → ∀ p ∈ parts, p.Unasked) :
    (t.modify id fun n => { n with parts := parts }).Tidy waiting where
  layouts := h.layouts
  upToDate {x k} hk := by
    rcases modify_cases hk with ⟨n, _, _, rfl⟩ | ⟨_, hk⟩
    · exact hparts
    · exact h.upToDate hk
  unasked hwaiting x k hk hplace hlocated := by
    rcases modify_cases hk with ⟨n, rfl, hn, rfl⟩ | ⟨_, hk⟩
    · exact hunasked hwaiting n hn hplace hlocated
    · exact h.unasked hwaiting hk hplace hlocated

omit [DecidableEq O] in
/-- A node gets its parts when it was located. -/
theorem finish (h : t.Tidy waiting) (id : Nat) {parts : List (Part M O)} (q : Position)
    (hparts : ∀ p ∈ parts, p.UpToDate) :
    (t.modify id fun n => n.finish parts q).Tidy waiting where
  layouts := h.layouts
  upToDate {x k} hk := by
    rcases modify_cases hk with ⟨n, _, _, rfl⟩ | ⟨_, hk⟩
    · exact hparts
    · exact h.upToDate hk
  unasked hwaiting x k hk hplace hlocated := by
    rcases modify_cases hk with ⟨n, rfl, hn, rfl⟩ | ⟨_, hk⟩
    · rw [Node.place_finish, Option.isSome_map] at hplace
      rw [n.isLocated_finish parts q hplace] at hlocated
      cases hlocated
    · exact h.unasked hwaiting hk hplace hlocated

/-- Locating a node and those below it, by induction on the depth.  Every node
that is visited has parts nobody has asked, since it is not located yet. -/
theorem locateWithin (m : M) : ∀ depth id,
    Job.Keeping (Tidy True) (Tree.locateWithin m depth id : Job M O Unit)
  | 0, _ => .throw _
  | depth + 1, id => by
    intro t ht
    rcases after_locateWithin m depth id t with
      hafter | ⟨n, place, parts, s, hn, hplace, hlocated, hparts, hafter⟩ <;> rw [hafter]
    · exact ht
    · have hunasked := ht.unasked trivial hn (by rw [hplace]; rfl)
        ((Node.isLocated_of_place hplace).trans hlocated)
      have htree := ((surveys m True).and_lt id).locateParts
        (fun c => (locateWithin m depth c).and ((lt_size_carried m id).locateWithin depth c))
        (fun _ hu => hu.2) n.parts (s := ⟨t, place.span.start, none⟩) ⟨ht, lt_size_of_node hn⟩
      have hupToDate : ∀ p ∈ (locateParts (Tree.locateWithin m depth) m id n.parts
          ⟨t, place.span.start, none⟩).1, p.UpToDate :=
        Part.Unasked.locateParts ⟨t, place.span.start, none⟩ hunasked
      rw [hparts] at htree hupToDate
      exact htree.1.finish id s.cursor hupToDate

end Tidy

/-! ## The search as a whole -/

/-- The nodes of the tree are still to be searched. -/
def Awaits (t : Tree M O) : Prop := t.complete = false ∧ t.isLocated root = false

omit [DecidableEq O] in
theorem Restored.isLocated {t u : Tree M O} (h : t.Restored u) {id : Nat}
    (hid : t.isLocated id = true) : u.isLocated id = true := by
  obtain ⟨n, hn⟩ := exists_node_of_isLocated hid
  obtain ⟨n', hn', hkept⟩ := h.node hn
  rw [isLocated_eq hn] at hid
  rw [isLocated_eq hn', hkept.located, hid]

omit [DecidableEq O] in
/-- A tree that was restored awaits the search only if it did before. -/
theorem Restored.awaits {t u : Tree M O} (h : t.Restored u) (hu : u.Awaits) : t.Awaits := by
  refine ⟨h.complete.symm.trans hu.1, ?_⟩
  rw [Bool.eq_false_iff]
  exact fun hroot => Bool.false_ne_true (hu.2.symm.trans (h.isLocated hroot))

/-- A tidy tree between two operations. -/
abbrev AtRest (t : Tree M O) : Prop := t.Tidy t.Awaits

namespace AtRest

/-- Looking nodes up and printing leaves a tree at rest. -/
theorem prints (m : M) : Prints m (AtRest (M := M) (O := O)) where
  getNode ht hget := (ht.getNode hget).imp (Restored.getNode hget).awaits
  insertion {t} id q ht := Tidy.imp (Tidy.mapPlace ht id fun _ => rfl) (Restored.moved t id q).awaits

omit [DecidableEq O] in
/-- The tree is complete. -/
theorem completed {waiting : Prop} {t : Tree M O} (h : t.Tidy waiting) :
    Tidy waiting { t with complete := true } :=
  ⟨h.layouts, h.upToDate, h.unasked⟩

/-- What the stages of locating a tree keep, locating it keeps. -/
theorem keeping_locate {m : M} {P : Tree M O → Prop} (hplant : Job.Keeping P (plant m root))
    (hsearch : Job.Keeping P (locateFrom m root))
    (hcomplete : ∀ {t : Tree M O}, P t → P { t with complete := true }) :
    Job.Keeping P (Tree.locate m) := by
  refine .get_bind fun t ht => ?_
  split
  · exact ht
  · exact Job.Keeping.bind hplant (fun _ => .bind hsearch fun _ => .get_bind fun _ => hcomplete) t ht

/-- Once the root was located, nothing is searched for any more. -/
theorem locateFrom_of_located (m : M) {t : Tree M O} {id : Nat} (h : t.isLocated id = true) :
    (locateFrom m id : Job M O Unit) t = .ok () t := by
  obtain ⟨n, hn⟩ := exists_node_of_isLocated h
  rw [isLocated_eq hn] at h
  exact locateWithin_of_located m _ hn h

/-- Locating the whole tree. -/
theorem locate (m : M) : Job.Keeping AtRest (Tree.locate m : Job M O Unit) := by
  intro t ht
  by_cases hroot : t.isLocated root = true
  · let P : Tree M O → Prop := fun u => u.Tidy False ∧ u.isLocated root = true
    have hgrows : Grows m P := ⟨fun hu hget =>
      ⟨hu.1.getNode hget, (Restored.getNode hget).isLocated hu.2⟩⟩
    have hsearch : Job.Keeping P (locateFrom m root) := fun u hu => by
      rw [Job.after, locateFrom_of_located m hu.2]
      exact hu
    have hafter := keeping_locate (hgrows.plant root) hsearch
      (fun hu => ⟨completed hu.1, hu.2⟩) t ⟨ht.imp False.elim, hroot⟩
    exact hafter.1.imp fun hawaits => Bool.false_ne_true (hawaits.2.symm.trans hafter.2)
  cases hcomplete : t.complete with
  | true =>
    have hskip : Tree.locate m t = .ok () t := by
      simp only [Tree.locate, bind, EStateM.bind, Job.get_eq, hcomplete, if_true]
      rfl
    rw [Job.after, hskip]
    exact ht
  | false =>
    have hafter := keeping_locate ((Tidy.surveys m True).plant root)
      (fun u hu => Tidy.locateWithin m _ root u hu) completed t
      (ht.imp fun _ => ⟨hcomplete, Bool.eq_false_iff.2 hroot⟩)
    exact hafter.imp fun _ => trivial

omit [DecidableEq O] in
/-- The parts of a node change. -/
theorem setParts {t : Tree M O} (h : t.AtRest) {id : Nat} {n : Node M O}
    (hn : t.nodes[id]? = some n) {parts : List (Part M O)} (hparts : ∀ p ∈ parts, p.UpToDate)
    (hunasked : t.Awaits → n.place.isSome = true → n.isLocated = false → ∀ p ∈ parts, p.Unasked) :
    (t.modify id fun n => { n with parts := parts }).AtRest := by
  have hroot : t.isLocated root = true →
      (t.modify id fun n => { n with parts := parts }).isLocated root = true := by
    intro hroot
    obtain ⟨k, hk⟩ := exists_node_of_isLocated hroot
    rw [isLocated_eq hk] at hroot
    by_cases hid : id = root
    · subst hid
      exact (isLocated_eq (getElem?_modify_self _ hk)).trans hroot
    · exact (isLocated_eq ((getElem?_modify_of_ne t _ hid).trans hk)).trans hroot
  refine (Tidy.setParts h id hparts fun hawaits k hk => ?_).imp ?_
  · obtain rfl := Option.some.inj (hn.symm.trans hk)
    exact hunasked hawaits
  · rintro ⟨hincomplete, hnone⟩
    refine ⟨hincomplete, Bool.eq_false_iff.2 fun h => ?_⟩
    exact Bool.false_ne_true (hnone.symm.trans (hroot h))

omit [DecidableEq O] in
/-- A group among the parts of a node gets a member. -/
theorem appendTo {t u : Tree M O} (h : t.AtRest) {id index : Nat} {n : Node M O}
    {member : Part M O} (hn : t.nodes[id]? = some n)
    (hmember : member.Unasked ∨ member.UpToDate ∧ (t.Awaits → n.place = none))
    (hrun : t.appendTo id index member = .ok u) : u.AtRest := by
  obtain ⟨k, parts, hk, hparts, rfl⟩ := editParts_eq_ok hrun
  obtain rfl : n = k := Option.some.inj (hn.symm.trans hk)
  split at hparts
  next p hp =>
    cases hadded : p.addMember member with
    | error e => simp [hadded, bind, Except.bind] at hparts
    | ok q =>
      simp only [hadded, bind, Except.bind, pure, Except.pure, Except.ok.injEq] at hparts
      subst hparts
      have hp := List.mem_of_getElem? hp
      refine setParts h hn (fun r hr => ?_) fun hawaits hplace hlocated r hr => ?_
      · rcases List.mem_or_eq_of_mem_set hr with hr | rfl
        · exact h.upToDate hn r hr
        · exact (h.upToDate hn p hp).addMember
            (hmember.elim Part.Unasked.upToDate And.left) hadded
      · have hunasked := h.unasked hawaits hn hplace hlocated
        rcases List.mem_or_eq_of_mem_set hr with hr | rfl
        · exact hunasked r hr
        · refine (hunasked p hp).addMember (hmember.resolve_right ?_) hadded
          rintro ⟨_, hnone⟩
          rw [hnone hawaits] at hplace
          cases hplace
  · cases hparts

omit [DecidableEq O] in
/-- Parts of a node are asked that will not be searched. -/
theorem ask {t : Tree M O} (h : t.AtRest) {id : Nat} {n : Node M O} (hn : t.nodes[id]? = some n)
    (hlate : t.Awaits → n.place = none) (asked : Nat → Bool) :
    (t.modify id fun k => { k with parts := Part.askAt asked n.parts }).AtRest := by
  refine setParts h hn (fun q hq => ?_) fun hawaits hplace => ?_
  · obtain ⟨i, hi, rfl⟩ := List.mem_mapIdx.1 hq
    have hp := h.upToDate hn _ (List.getElem_mem hi)
    split
    · exact hp.settle
    · exact hp
  · rw [hlate hawaits] at hplace
    cases hplace

end AtRest

end Tree

/-- An operation that leaves the parts of the nodes alone. -/
def Operation.LeavesParts : Operation M O → Prop
  | .editParts .. => False
  | _ => True

namespace Tree

/-- A tree that was made from a source, with all that was done with it since,
where no part was asked for its extent as long as its node was still to be
searched. -/
inductive Queried (language : Language M O) (source : Text) : Tree M O → Prop where
  | made {m : M} {object : O} {t : Tree M O} :
      ofRoot language m source object = .ok t → Queried language source t
  | settings {t : Tree M O} (settings : Settings) :
      Queried language source t → Queried language source { t with settings := settings }
  | step {t : Tree M O} (op : Operation M O) :
      Queried language source t → op.LeavesParts → Queried language source (op.run.after t)
  /-- A group gets a member.  Nobody has asked that for its extent, or else its
  answer is right and it will not be searched. -/
  | append {t u : Tree M O} {id index : Nat} {n : Node M O} {member : Part M O} :
      Queried language source t → t.nodes[id]? = some n →
      member.Unasked ∨ member.UpToDate ∧ (t.Awaits → n.place = none) →
      t.appendTo id index member = .ok u → Queried language source u
  | ask {t : Tree M O} {id : Nat} {n : Node M O} (asked : Nat → Bool) :
      Queried language source t → t.nodes[id]? = some n → (t.Awaits → n.place = none) →
      Queried language source
        (t.modify id fun k => { k with parts := Part.askAt asked n.parts })

namespace Queried

variable {language : Language M O} {source : Text} {t u : Tree M O}

theorem atRest (layouts : ∀ {m : M} {object : O} {layout : Layout M O},
      language.layout m object = some layout → ∀ p ∈ layout.parts, p.Unasked)
    (h : Queried language source t) : t.AtRest := by
  induction h with
  | made hmade =>
    obtain ⟨layout, place, hlayout, _, rfl, hroot⟩ := node_of_ofRoot hmade
    refine ⟨layouts, fun hn p hp => ?_, fun _ _ _ hn _ _ p hp => ?_⟩ <;> rw [hroot hn] at hp
    · exact (layouts hlayout p hp).upToDate
    · exact layouts hlayout p hp
  | settings _ _ ih => exact ⟨ih.layouts, ih.upToDate, ih.unasked⟩
  | step op _ hop ih =>
    refine op.kept AtRest.prints AtRest.locate ih ?_
    rintro id change n parts rfl
    cases hop
  | append _ hn hmember hrun ih => exact ih.appendTo hn hmember hrun
  | ask asked _ hn hlate ih => exact ih.ask hn hlate asked

/-- All parts of a node are asked. -/
theorem settleParts {id : Nat} {n : Node M O} (h : Queried language source t)
    (hn : t.nodes[id]? = some n) (hlate : t.Awaits → n.place = none)
    (hrun : t.settleParts id = .ok u) : Queried language source u := by
  obtain ⟨k, parts, hk, hparts, rfl⟩ := editParts_eq_ok hrun
  obtain rfl : n = k := Option.some.inj (hn.symm.trans hk)
  rw [← Except.ok.inj hparts, ← Part.askAt_all]
  exact h.ask (fun _ => true) hn hlate

/-- Every group of a node answers with the union of the answers of its
members. -/
theorem settle_isUnion (layouts : ∀ {m : M} {object : O} {layout : Layout M O},
      language.layout m object = some layout → ∀ p ∈ layout.parts, p.Unasked)
    (h : Queried language source t) {id : Nat} {n : Node M O} (hn : t.nodes[id]? = some n)
    {p : Part M O} (hp : p ∈ n.parts) {frame : Frame} {members : List (Part M O)} {stale : Bool}
    (hin : Part.StandsIn (.group frame members stale) p) :
    Span.IsUnion (members.map fun q => q.settle.frame.extent)
      (Part.group frame members stale).settle.frame.extent := by
  have hgroup := (h.atRest layouts).upToDate hn p hp
  exact Part.UpToDate.isUnion_settle fun q hq => hgroup q (hq.trans hin)

/-- A text in which a letter is followed by a group with another one. -/
def letterAndGroup : Language Unit Unit where
  layout _ _ := some
    { origin := some (.ok (.between ⟨1, 0⟩ ⟨1, 2⟩))
      parts := [Part.ofMembers [Part.constant ['a'], Part.ofMembers [Part.constant ['b']]]] }
  describe _ _ := ""
  size _ := 1

/-- The text is located, its group gets a third member and is asked, then it gets
a fourth one. -/
theorem settle_letterAndGroup :
    ∃ (t : Tree Unit Unit) (n : Node Unit Unit) (frame : Frame) (members : List (Part Unit Unit))
      (stale : Bool), Queried letterAndGroup ['a', 'b'] t ∧ t.nodes[root]? = some n ∧
      n.parts = [.group frame members stale] ∧ members.length = 4 ∧
      Span.IsUnion (members.map fun q => q.settle.frame.extent)
        (Part.group frame members stale).settle.frame.extent := by
  obtain ⟨t, u, v, w, k, l, n, made, hk, third, hl, complete, asked, hv, fourth, hn, hparts⟩ :
      ∃ (t u v w : Tree Unit Unit) (k l n : Node Unit Unit),
        ofRoot letterAndGroup () ['a', 'b'] () = .ok t ∧
        ((locate ()).after t).nodes[root]? = some k ∧
        ((locate ()).after t).appendTo root 0 (Part.constant ['c']) = .ok u ∧
        u.nodes[root]? = some l ∧ u.complete = true ∧ u.settleParts root = .ok v ∧
        (∃ n, v.nodes[root]? = some n) ∧ v.appendTo root 0 (Part.constant ['d']) = .ok w ∧
        w.nodes[root]? = some n ∧
        ∃ frame members stale, n.parts = [.group frame members stale] ∧ members.length = 4 :=
    ⟨_, _, _, _, _, _, _, rfl, rfl, rfl, rfl, rfl, rfl, ⟨_, rfl⟩, rfl, rfl, _, _, _, rfl, rfl⟩
  obtain ⟨frame, members, stale, hparts, hlength⟩ := hparts
  obtain ⟨n', hv⟩ := hv
  have layouts : ∀ {m : Unit} {object : Unit} {layout : Layout Unit Unit},
      letterAndGroup.layout m object = some layout → ∀ p ∈ layout.parts, p.Unasked := by
    rintro _ _ _ ⟨⟩ p hp
    obtain rfl := List.mem_singleton.1 hp
    simp [Part.Unasked, Part.ofMembers, Part.constant, Part.every_group, Part.every_literal, Part.IsStale]
  have hletter : ∀ c, (Part.constant c : Part Unit Unit).Unasked := fun c =>
    Part.every_literal.2 trivial
  have located := Queried.step (.locate ()) (.made made) trivial
  have queried := (located.append hk (.inl (hletter _)) third).settleParts hl
    (fun hawaits => by simp [Awaits, complete] at hawaits) asked
  have queried := queried.append hv (.inl (hletter _)) fourth
  exact ⟨w, n, frame, members, stale, queried, hn, hparts, hlength,
    queried.settle_isUnion layouts hn (hparts ▸ List.mem_singleton.2 rfl) .self⟩

end Queried

/-- A text that is a group with one letter. -/
def letterInGroup : Language Unit Unit where
  layout _ _ := some
    { origin := some (.ok (.between ⟨1, 0⟩ ⟨1, 1⟩))
      parts := [Part.ofMembers [Part.constant ['a']]] }
  describe _ _ := ""
  size _ := 1

/-- The group is asked for its extent before the text is located.  After that the
letter has an extent, and the group still answers that there is none. -/
theorem settle_askedEarly :
    ∃ (t u v : Tree Unit Unit) (n : Node Unit Unit) (frame : Frame)
      (members : List (Part Unit Unit)) (stale : Bool),
      ofRoot letterInGroup () ['a'] () = .ok t ∧ t.settleParts root = .ok u ∧
      locate () u = .ok () v ∧ v.nodes[root]? = some n ∧ n.parts = [.group frame members stale] ∧
      (members.map fun q => q.settle.frame.extent) = [some (.between ⟨1, 0⟩ ⟨1, 1⟩)] ∧
      (Part.group frame members stale).settle.frame.extent = none ∧
      ¬ Span.IsUnion (members.map fun q => q.settle.frame.extent)
        (Part.group frame members stale).settle.frame.extent :=
  ⟨_, _, _, _, _, _, _, rfl, rfl, rfl, rfl, rfl, rfl, rfl, fun h => by cases h _ (.head _)⟩

end Tree

end Reprint
