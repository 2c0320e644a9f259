import Reprint.Proofs.Part.Every
import Reprint.Proofs.Tree.Adopted
import Reprint.Proofs.Tree.Restored

/-!
# Where delimiters come from

Every delimiter that a located tree has was found by a search that went out from
what it delimits (`FoundFrom`).  The search is one of a tree on the way, in which
the nodes have at least the spans that they had before, and what it found was
recorded at once.

`Traced` says so of all delimiters: those around the nodes, and those around the
literals at any depth of their parts.  Only `locateDelimiter` makes delimiters
(`foundFrom_locateDelimiter`), so locating keeps a tree traced, part by part
(`Onward.locatePart`), whether it succeeds or not (`locate_traced`).
-/

namespace Reprint

open Reprint.Tree

variable {M O : Type}

namespace Tree

/-! ## Searches on the way -/

/-- The delimiter, if it is in the source, was found between two trees by a search
from a position on and then recorded. -/
def FoundFrom (u t : Tree M O) (owner : Nat) (role : Role) (boundary : Position)
    (delimiter : Delimiter) : Prop :=
  ∀ literal span, delimiter = .present literal span →
    ∃ s s' window, u.Extends s ∧ owner < s.nodes.size ∧ literal ≠ [] ∧
      s.findOutward owner boundary literal role = .ok (some window) ∧
      span = outwardSpan boundary window role ∧ s.mark owner role span = .ok s' ∧ s'.Extends t

/-- The delimiters around a span were found from its ends. -/
structure Flanked (u t : Tree M O) (owner : Nat) (core : Span) (before behind : Delimiter) :
    Prop where
  lead : FoundFrom u t owner .lead core.start before
  trail : FoundFrom u t owner .trail core.stop behind

section Search

variable {u t t' : Tree M O} {owner : Nat}

theorem Extends.lt_size (h : t.Extends t') {id : Nat} (hid : id < t.nodes.size) :
    id < t'.nodes.size := by
  obtain ⟨n, hn⟩ := exists_node_of_lt hid
  obtain ⟨n', hn', _⟩ := h.node hn
  exact lt_size_of_node hn'

theorem FoundFrom.extend {role : Role} {boundary : Position} {d : Delimiter}
    (h : FoundFrom u t owner role boundary d) (hextends : t.Extends t') :
    FoundFrom u t' owner role boundary d := by
  intro literal span hd
  obtain ⟨s, s', window, hbefore, howner, hliteral, hfind, hspan, hmark, hafter⟩ :=
    h literal span hd
  exact ⟨s, s', window, hbefore, howner, hliteral, hfind, hspan, hmark, hafter.trans hextends⟩

theorem Flanked.extend {core : Span} {before behind : Delimiter}
    (h : Flanked u t owner core before behind) (hextends : t.Extends t') :
    Flanked u t' owner core before behind :=
  ⟨h.lead.extend hextends, h.trail.extend hextends⟩

/-- Nothing is around the span. -/
theorem Flanked.bare (u t : Tree M O) (owner : Nat) (core : Span) :
    Flanked u t owner core .empty .empty :=
  ⟨fun _ _ => nofun, fun _ _ => nofun⟩

/-- The search for a delimiter. -/
theorem foundFrom_locateDelimiter {boundary : Position} {literal : Text} {role : Role}
    {d : Delimiter} (hu : u.Extends t) (howner : owner < t.nodes.size)
    (h : t.locateDelimiter owner boundary literal role = .ok (d, t')) :
    t.Extends t' ∧ FoundFrom u t' owner role boundary d := by
  rcases locateDelimiter_cases h with ⟨rfl, ⟨_, rfl⟩ | rfl⟩ | ⟨window, hliteral, hfind, rfl, hmark⟩
  · exact ⟨.refl t', fun _ _ => nofun⟩
  · exact ⟨.refl t', fun _ _ => nofun⟩
  · refine ⟨.mark hmark, ?_⟩
    rintro _ _ ⟨⟩
    exact ⟨t, t', window, hu, howner, hliteral, hfind, rfl, hmark, .refl t'⟩

/-- The search for the delimiters on both sides. -/
theorem flanked_locateAround {span : Span} {lead trail : Text} {before behind : Delimiter}
    (hu : u.Extends t) (howner : owner < t.nodes.size)
    (h : t.locateAround owner span lead trail = .ok (before, behind, t')) :
    t.Extends t' ∧ Flanked u t' owner span before behind := by
  obtain ⟨v, hbefore, hbehind⟩ := locateAround_cases h
  obtain ⟨hv, hlead⟩ := foundFrom_locateDelimiter hu howner hbefore
  obtain ⟨ht', htrail⟩ := foundFrom_locateDelimiter (hu.trans hv) (hv.lt_size howner) hbehind
  exact ⟨hv.trans ht', hlead.extend ht', htrail⟩

end Search

end Tree

/-! ## Parts -/

namespace Part

/-- A literal with delimiters that were found from its ends, or without any. -/
def IsTraced (u t : Tree M O) (owner : Nat) : Part M O → Prop
  | .literal _ _ place =>
    place.before = .empty ∧ place.behind = .empty ∨
      ∃ core, place.span? = some core ∧ Flanked u t owner core place.before place.behind
  | _ => True

theorem IsTraced.extend {u t t' : Tree M O} {owner : Nat} (hextends : t.Extends t') :
    ∀ p : Part M O, p.IsTraced u t owner → p.IsTraced u t' owner
  | .literal .., h => h.imp_right fun ⟨core, hcore, h⟩ => ⟨core, hcore, h.extend hextends⟩
  | .slot .., _ => trivial
  | .items .., _ => trivial
  | .choice .., _ => trivial
  | .group .., _ => trivial

mutual

/-- Nothing was found yet of the literals of a new part. -/
theorem IsNew.every_isTraced (u t : Tree M O) (owner : Nat) :
    ∀ {p : Part M O}, p.IsNew → p.Every (IsTraced u t owner)
  | .literal .., h => every_literal.2 (Or.inl h)
  | .slot .., _ => every_slot.2 trivial
  | .items .., _ => every_items.2 trivial
  | .choice _ _ yes none _, h => by
    simp only [IsNew] at h
    exact every_choice.2 ⟨trivial, IsNew.every_isTraced u t owner h.2.1, fun _ => nofun⟩
  | .choice _ _ yes (some other) _, h => by
    simp only [IsNew] at h
    refine every_choice.2 ⟨trivial, IsNew.every_isTraced u t owner h.2.1, ?_⟩
    rintro _ ⟨⟩
    exact IsNew.every_isTraced u t owner h.2.2
  | .group _ members _, h => by
    simp only [IsNew] at h
    exact every_group.2 ⟨trivial, AllNew.every_isTraced u t owner h⟩
termination_by structural p => p

theorem AllNew.every_isTraced (u t : Tree M O) (owner : Nat) :
    ∀ {parts : List (Part M O)}, AllNew parts → ∀ p ∈ parts, p.Every (IsTraced u t owner)
  | [], _ => fun _ hp => absurd hp List.not_mem_nil
  | p :: rest, h => by
    simp only [AllNew] at h
    rw [List.forall_mem_cons]
    exact ⟨IsNew.every_isTraced u t owner h.1, AllNew.every_isTraced u t owner h.2⟩
termination_by structural parts => parts

end

end Part

namespace Tree

/-! ## Traced trees -/

variable [DecidableEq O]

/-- A tree that has grown out of another one, and all delimiters of which were
found on the way. -/
structure Traced (u t : Tree M O) : Prop extends t.WellFormed where
  grown : u.Extends t
  layouts : ∀ {m : M} {object : O} {layout : Layout M O},
    t.language.layout m object = some layout → Part.AllNew layout.parts
  around : ∀ {id owner : Nat} {n : Node M O} {own : Span}, t.nodes[id]? = some n →
    n.parent = some owner → n.span? = some own →
      ∃ core, own.contains core = true ∧ Flanked u t owner core n.before n.behind
  parts : ∀ {id : Nat} {n : Node M O}, t.nodes[id]? = some n →
    ∀ p ∈ n.parts, p.Every (Part.IsTraced u t id)

namespace Traced

variable {u t t' : Tree M O}

/-- A step that leaves the nodes their delimiters and parts, and makes new ones
without delimiters. -/
theorem of_nodes (h : Traced u t) (hextends : t.Extends t') (hwell : t'.WellFormed)
    (hnodes : ∀ {id : Nat} {n' : Node M O}, t'.nodes[id]? = some n' →
      (∃ n, t.nodes[id]? = some n ∧ n'.parts = n.parts ∧ n'.before = n.before ∧
        n'.behind = n.behind) ∨
      n'.before = .empty ∧ n'.behind = .empty ∧ Part.AllNew n'.parts) : Traced u t' where
  toWellFormed := hwell
  grown := h.grown.trans hextends
  layouts := by
    rw [hextends.language]
    exact h.layouts
  around {id owner n' own'} hn' hparent hown' := by
    rcases hnodes hn' with ⟨n, hn, _, hbefore, hbehind⟩ | ⟨hbefore, hbehind, _⟩
    · obtain ⟨k, hk, hkept⟩ := hextends.node hn
      obtain rfl : k = n' := Option.some.inj (hk.symm.trans hn')
      obtain ⟨own, hown⟩ : ∃ own, n.span? = some own := by
        obtain ⟨parsed, hparsed⟩ := hwell.spanned hn' hown'
        obtain ⟨own, hown, _⟩ := h.parsed hn (hkept.parsed.symm.trans hparsed)
        exact ⟨own, hown⟩
      obtain ⟨s, hs, hcontains⟩ := hkept.span hown
      obtain rfl : s = own' := Option.some.inj (hs.symm.trans hown')
      obtain ⟨core, hcore, hflanked⟩ := h.around hn
        (by rw [← hparent, Node.parent, Node.parent, hkept.ancestors]) hown
      exact ⟨core, Span.contains_trans hcontains hcore,
        hbefore ▸ hbehind ▸ hflanked.extend hextends⟩
    · exact ⟨own', Span.contains_self own', hbefore ▸ hbehind ▸ .bare u t' owner own'⟩
  parts {id n'} hn' p hp := by
    rcases hnodes hn' with ⟨n, hn, hparts, _⟩ | ⟨_, _, hnew⟩
    · rw [hparts] at hp
      exact (h.parts hn p hp).imp (Part.IsTraced.extend hextends)
    · exact hnew.every_isTraced u t' id p hp

theorem getNode {m : M} {parent id : Nat} {object : O} (h : Traced u t)
    (hget : t.getNode m parent object = .ok (id, t')) : Traced u t' := by
  apply h.of_nodes (.getNode hget) (h.toWellFormed.getNode hget)
  intro x n' hn'
  rcases node_of_getNode hget hn' with ⟨n, hn, hkept, _⟩ | ⟨_, hmade⟩
  · exact Or.inl ⟨n, hn, hkept.parts, hkept.before, hkept.behind⟩
  · obtain ⟨_, _, hlayout, _, hparts⟩ := hmade.layout
    exact Or.inr ⟨hmade.before, hmade.behind, hparts ▸ h.layouts hlayout⟩

theorem mark {owner : Nat} {role : Role} {span : Span} (h : Traced u t)
    (howner : owner < t.nodes.size) (hmark : t.mark owner role span = .ok t') : Traced u t' := by
  apply h.of_nodes (.mark hmark) (h.toWellFormed.mark howner hmark)
  intro x n' hn'
  obtain ⟨n, hn, hkept, _⟩ := node_of_mark hmark hn'
  exact Or.inl ⟨n, hn, hkept.parts, hkept.before, hkept.behind⟩

theorem locateDelimiter {owner : Nat} {boundary : Position} {literal : Text} {role : Role}
    {d : Delimiter} (h : Traced u t) (howner : owner < t.nodes.size)
    (hrun : t.locateDelimiter owner boundary literal role = .ok (d, t')) : Traced u t' := by
  rcases locateDelimiter_cases hrun with ⟨rfl, _⟩ | ⟨window, _, _, _, hmark⟩
  · exact h
  · exact h.mark howner hmark

theorem locateAround {owner : Nat} {span : Span} {lead trail : Text} {before behind : Delimiter}
    (h : Traced u t) (howner : owner < t.nodes.size)
    (hrun : t.locateAround owner span lead trail = .ok (before, behind, t')) : Traced u t' := by
  obtain ⟨v, hbefore, hbehind⟩ := locateAround_cases hrun
  have hv := (foundFrom_locateDelimiter h.grown howner hbefore).1.lt_size howner
  exact (h.locateDelimiter howner hbefore).locateDelimiter hv hbehind

/-- A node is retouched, and what it has then was found on the way. -/
theorem retouch (h : Traced u t) {id : Nat} {g : Node M O → Node M O}
    (hretouched : ∀ n : Node M O, n.Retouched (g n))
    (haround : ∀ {n : Node M O} {owner : Nat} {own : Span}, t.nodes[id]? = some n →
      n.parent = some owner → n.span? = some own →
        ∃ core, own.contains core = true ∧ Flanked u t owner core (g n).before (g n).behind)
    (hparts : ∀ {n : Node M O}, t.nodes[id]? = some n →
      ∀ p ∈ (g n).parts, p.Every (Part.IsTraced u t id)) : Traced u (t.modify id g) := by
  have hextends := Extends.modify t id hretouched
  have hparent : ∀ n : Node M O, (g n).parent = n.parent := fun n => by
    rw [Node.parent, Node.parent, (Node.Extends.of_retouched (hretouched n)).ancestors]
  refine ⟨h.toWellFormed.modify id hretouched, h.grown.trans hextends, h.layouts,
    fun {x owner k' own} hk' hchild hown => ?_, fun {x k'} hk' p hp => ?_⟩
  · have hold : ∃ core, own.contains core = true ∧ Flanked u t owner core k'.before k'.behind := by
      rcases modify_cases hk' with ⟨k, rfl, hk, rfl⟩ | ⟨_, hk⟩
      · exact haround hk ((hparent k).symm.trans hchild) ((hretouched k).span.symm.trans hown)
      · exact h.around hk hchild hown
    obtain ⟨core, hcore, hflanked⟩ := hold
    exact ⟨core, hcore, hflanked.extend hextends⟩
  · have hold : p.Every (Part.IsTraced u t x) := by
      rcases modify_cases hk' with ⟨k, rfl, hk, rfl⟩ | ⟨_, hk⟩
      · exact hparts hk p hp
      · exact h.parts hk p hp
    exact hold.imp (Part.IsTraced.extend hextends)

/-- A node gets the delimiters that were found around its span. -/
theorem surround {id owner : Nat} {n : Node M O} {core own : Span} {before behind : Delimiter}
    (h : Traced u t) (hn : t.nodes[id]? = some n) (hparent : n.parent = some owner)
    (hown : n.span? = some own) (hcore : own.contains core = true)
    (hflanked : Flanked u t owner core before behind) :
    Traced u (t.modify id fun n =>
      n.mapPlace fun p => { p with before := before, behind := behind }) := by
  refine h.retouch (fun n => .mapPlace n (fun _ => rfl) fun _ => rfl) ?_ fun {k} hk =>
    h.parts (n := k) hk
  intro k owner' own' hk hparent' hown'
  obtain rfl := Option.some.inj (hn.symm.trans hk)
  obtain rfl := Option.some.inj (hparent.symm.trans hparent')
  obtain rfl := Option.some.inj (hown.symm.trans hown')
  obtain ⟨place, hplace, _⟩ := Option.map_eq_some_iff.1 hown
  refine ⟨core, hcore, ?_⟩
  simpa [Node.before, Node.behind, hplace] using hflanked

/-- A node gets its parts when they were located. -/
theorem finish (h : Traced u t) (id : Nat) {parts : List (Part M O)} (q : Position)
    (hparts : ∀ p ∈ parts, p.Every (Part.IsTraced u t id)) :
    Traced u (t.modify id fun n => n.finish parts q) := by
  refine h.retouch (fun n => .finish n parts q) ?_ fun _ => hparts
  intro k owner own hk hparent hown
  rw [Node.before_finish, Node.behind_finish]
  exact h.around hk hparent hown

end Traced

/-! ## Locating -/

/-- A traced tree that comes after another one. -/
structure Onward (u t t' : Tree M O) : Prop where
  extend : t.Extends t'
  traced : Traced u t'

namespace Onward

variable {u : Tree M O} {m : M} {owner : Nat} {descend : Nat → Job M O Unit}

theorem refl {t : Tree M O} (h : Traced u t) : Onward u t t := ⟨.refl t, h⟩

theorem trans {t t' t'' : Tree M O} (h : Onward u t t') (h' : Onward u t' t'') : Onward u t t'' :=
  ⟨h.extend.trans h'.extend, h'.traced⟩

/-- A literal. -/
theorem locateLiteral {s s' : Survey M O} {frame : Frame} {wording : Wording M} {text : Text}
    {place place' : LiteralPlace} (hs : Traced u s.tree) (howner : owner < s.tree.nodes.size)
    (hplace : (Part.literal frame wording place : Part M O).IsTraced u s.tree owner)
    (hrun : Tree.locateLiteral s owner frame text place = .ok (place', s')) :
    Onward u s.tree s'.tree ∧
      ∀ frame, (Part.literal frame wording place' : Part M O).IsTraced u s'.tree owner := by
  rcases locateLiteral_cases hrun with
    ⟨_, rfl, rfl⟩ | ⟨span, t, v, before, behind, _, hmarked, haround, rfl, rfl⟩
  · exact ⟨.refl hs, fun _ => hplace⟩
  · have ht : Onward u s.tree t := by
      rcases markLiteral_cases hmarked with rfl | hmark
      · exact .refl hs
      · exact ⟨.mark hmark, hs.mark howner hmark⟩
    have howner := ht.extend.lt_size howner
    obtain ⟨hv, hflanked⟩ := flanked_locateAround ht.traced.grown howner haround
    exact ⟨ht.trans ⟨hv, ht.traced.locateAround howner haround⟩,
      fun _ => Or.inr ⟨span, rfl, hflanked⟩⟩

/-- An item. -/
theorem locateItem (hdescend : ∀ id t, Traced u t → Onward u t ((descend id).after t))
    (object : O) (lead trail : Text) {s : Survey M O} (hs : Traced u s.tree)
    (howner : owner < s.tree.nodes.size) :
    Onward u s.tree (Tree.locateItem descend m owner object lead trail s).2.tree := by
  -- the tree in which the node is there, and the one after its visit
  have hlooked : ∀ {id : Nat} {t : Tree M O}, s.tree.getNode m owner object = .ok (id, t) →
      Onward u s.tree t := fun hget => ⟨.getNode hget, hs.getNode hget⟩
  have hvisited : ∀ {id : Nat} {t v : Tree M O}, s.tree.getNode m owner object = .ok (id, t) →
      (descend id).after t = v → Onward u s.tree v :=
    fun hget hafter => (hlooked hget).trans (hafter ▸ hdescend _ _ (hlooked hget).traced)
  cases hvisit : Tree.locateItem descend m owner object lead trail s with
  | mk found s' =>
    cases locateItem_visit hvisit with
    | skipped | refused => exact .refl hs
    | again hget => exact hlooked hget
    | failed hget _ hrun => exact hvisited hget (Job.after_of_error hrun)
    | unread hget _ hrun => exact hvisited hget (Job.after_of_ok hrun)
    | blocked hget _ hrun => exact hvisited hget (Job.after_of_ok hrun)
    | @found id t v w span before behind hget _ hrun hspan haround =>
      have hv := hvisited hget (Job.after_of_ok hrun)
      have hchild := (isChild_of_getNode hget).extend
        (Job.after_of_ok hrun ▸ (hdescend id t (hlooked hget).traced).extend)
      have howner := hv.extend.lt_size howner
      obtain ⟨hw, hflanked⟩ := flanked_locateAround hv.traced.grown howner haround
      have htraced := hv.traced.locateAround howner haround
      obtain ⟨k, hk, hchild⟩ := hchild.extend hw
      obtain ⟨n, hn, hparent, _⟩ := htraced.child hk hchild
      obtain ⟨n', hn', hspan⟩ := Option.bind_eq_some_iff.1 hspan
      obtain ⟨n'', hn'', hkept⟩ := hw.node hn'
      obtain rfl := Option.some.inj (hn.symm.trans hn'')
      obtain ⟨own, hown, hcore⟩ := hkept.span hspan
      exact hv.trans ⟨hw.trans (.modify w id fun n => .mapPlace n (fun _ => rfl) fun _ => rfl),
        htraced.surround hn hparent hown hcore hflanked⟩

/-- The items of a list. -/
theorem locateItems (hdescend : ∀ id t, Traced u t → Onward u t ((descend id).after t))
    (frame : Frame) (count : Nat) : ∀ (objects : List O) (index : Nat) (list : ItemList M O)
      (extent : Option Span) {s : Survey M O}, Traced u s.tree → owner < s.tree.nodes.size →
      Onward u s.tree
        (Tree.locateItems descend m owner frame count index objects list extent s).2.2.tree
  | [], _, _, _, _, hs, _ => .refl hs
  | object :: rest, index, list, extent, s, hs, howner => by
    rw [Tree.locateItems]
    split
    · exact locateItems hdescend frame count rest _ _ _ hs howner
    split
    next lead trail _ =>
    have hitem := locateItem (m := m) hdescend object lead trail hs howner
    have hrest : ∀ index list extent, Onward u s.tree
        (Tree.locateItems descend m owner frame count index rest list extent
          (Tree.locateItem descend m owner object lead trail s).2).2.2.tree :=
      fun index list extent => hitem.trans
        (locateItems hdescend frame count rest index list extent hitem.traced
          (hitem.extend.lt_size howner))
    split
    · next hrun =>
      rw [hrun] at hitem hrest
      split
      · exact hrest _ _ _
      · exact hitem
    · next hrun =>
      rw [hrun] at hrest
      exact hrest _ _ _

mutual

/-- A part. -/
theorem locatePart (hdescend : ∀ id t, Traced u t → Onward u t ((descend id).after t)) :
    ∀ (p : Part M O) {s : Survey M O}, Traced u s.tree → owner < s.tree.nodes.size →
      p.Every (Part.IsTraced u s.tree owner) →
      Onward u s.tree (Tree.locatePart descend m owner p s).2.tree ∧
        (Tree.locatePart descend m owner p s).1.Every
          (Part.IsTraced u (Tree.locatePart descend m owner p s).2.tree owner)
  | .literal frame wording place, s, hs, howner, hp => by
    rw [Tree.locatePart]
    split
    · exact ⟨.refl hs, hp⟩
    · next hrun =>
      obtain ⟨honward, hplace⟩ := locateLiteral hs howner hp.self hrun
      exact ⟨honward, Part.every_literal.2 (hplace _)⟩
  | .slot frame supply listed, s, hs, howner, _ => by
    rw [Tree.locatePart]
    split
    · exact ⟨.refl hs, Part.every_slot.2 trivial⟩
    next object _ =>
    have hitem := locateItem (m := m) hdescend object frame.leadText frame.trailText hs howner
    split
    · next hrun =>
      rw [hrun] at hitem
      exact ⟨hitem, Part.every_slot.2 trivial⟩
    · next hrun =>
      rw [hrun] at hitem
      exact ⟨hitem, Part.every_slot.2 trivial⟩
  | .items frame list, s, hs, howner, _ => by
    rw [locatePart_items]
    exact ⟨locateItems hdescend frame (list.supply m).length (list.supply m) 0 list none hs howner,
      Part.every_items.2 trivial⟩
  | .choice frame test yes no taken, s, hs, howner, hp => by
    obtain ⟨_, hyes, hno⟩ := Part.every_choice.1 hp
    cases htest : test m with
    | true =>
      obtain ⟨honward, hlocated⟩ := locatePart hdescend yes hs howner hyes
      have hno := fun other h => (hno other h).imp (Part.IsTraced.extend honward.extend)
      rw [locatePart_yes htest]
      refine ⟨honward, ?_⟩
      dsimp only
      split
      · exact Part.every_choice.2 ⟨trivial, hlocated.settle fun _ _ _ => trivial, hno⟩
      · exact Part.every_choice.2 ⟨trivial, hlocated, hno⟩
    | false =>
      cases no with
      | none =>
        rw [locatePart_neither htest]
        exact ⟨.refl hs, Part.every_choice.2 ⟨trivial, hyes, fun _ => nofun⟩⟩
      | some other =>
        obtain ⟨honward, hlocated⟩ := locatePart hdescend other hs howner (hno other rfl)
        have hyes := hyes.imp (Part.IsTraced.extend honward.extend)
        rw [locatePart_no htest]
        refine ⟨honward, ?_⟩
        dsimp only
        split
        · refine Part.every_choice.2 ⟨trivial, hyes, ?_⟩
          rintro _ ⟨⟩
          exact hlocated.settle fun _ _ _ => trivial
        · refine Part.every_choice.2 ⟨trivial, hyes, ?_⟩
          rintro _ ⟨⟩
          exact hlocated
  | .group frame members stale, s, hs, howner, hp => by
    obtain ⟨honward, hlocated⟩ := locateParts hdescend members hs howner (Part.every_group.1 hp).2
    have hgroup : (Part.group frame _ stale).Every (Part.IsTraced u _ owner) :=
      Part.every_group.2 ⟨trivial, hlocated⟩
    rw [locatePart_group]
    refine ⟨honward, ?_⟩
    dsimp only
    split
    · exact hgroup.settle fun _ _ _ => trivial
    · exact hgroup
termination_by structural p => p

/-- Several parts. -/
theorem locateParts (hdescend : ∀ id t, Traced u t → Onward u t ((descend id).after t)) :
    ∀ (parts : List (Part M O)) {s : Survey M O}, Traced u s.tree → owner < s.tree.nodes.size →
      (∀ p ∈ parts, p.Every (Part.IsTraced u s.tree owner)) →
      Onward u s.tree (Tree.locateParts descend m owner parts s).2.tree ∧
        ∀ p ∈ (Tree.locateParts descend m owner parts s).1,
          p.Every (Part.IsTraced u (Tree.locateParts descend m owner parts s).2.tree owner)
  | [], s, hs, _, hparts => ⟨.refl hs, hparts⟩
  | p :: rest, s, hs, howner, hparts => by
    rw [List.forall_mem_cons] at hparts
    obtain ⟨honward, hpart⟩ := locatePart hdescend p hs howner hparts.1
    have hrest := fun q hq => (hparts.2 q hq).imp (Part.IsTraced.extend honward.extend)
    rw [locateParts_cons]
    dsimp only
    split
    · obtain ⟨honward', hrest'⟩ := locateParts hdescend rest honward.traced
        (honward.extend.lt_size howner) hrest
      refine ⟨honward.trans honward', ?_⟩
      rw [List.forall_mem_cons]
      exact ⟨hpart.imp (Part.IsTraced.extend honward'.extend), hrest'⟩
    · refine ⟨honward, ?_⟩
      rw [List.forall_mem_cons]
      exact ⟨hpart, hrest⟩
termination_by structural parts => parts

end

/-- A node and those below it, by induction on the depth. -/
theorem locateWithin (m : M) : ∀ depth id (t : Tree M O), Traced u t →
    Onward u t ((Tree.locateWithin m depth id).after t)
  | 0, _, _, ht => .refl ht
  | depth + 1, id, t, ht => by
    rcases after_locateWithin m depth id t with
      hafter | ⟨n, place, parts, s, hn, _, _, hparts, hafter⟩ <;> rw [hafter]
    · exact .refl ht
    · have hlocated := locateParts (m := m) (locateWithin m depth) n.parts
        (s := ⟨t, place.span.start, none⟩) ht (lt_size_of_node hn) (ht.parts hn)
      rw [hparts] at hlocated
      obtain ⟨honward, htraced⟩ := hlocated
      exact honward.trans ⟨.modify s.tree id fun n => .finish n parts s.cursor,
        honward.traced.finish id s.cursor htraced⟩

end Onward

/-! ## The first search -/

/-- Nothing was found around any node. -/
def Unflanked (t : Tree M O) : Prop :=
  ∀ {id : Nat} {n : Node M O}, t.nodes[id]? = some n → n.before = .empty ∧ n.behind = .empty

/-- Looking nodes up and printing finds nothing. -/
theorem Unflanked.prints (m : M) : Prints m (Unflanked (M := M) (O := O)) where
  getNode {t t' parent id object} ht hget := by
    intro x n' hn'
    rcases node_of_getNode hget hn' with ⟨n, hn, hkept, _⟩ | ⟨_, hmade⟩
    · rw [hkept.before, hkept.behind]
      exact ht hn
    · exact ⟨hmade.before, hmade.behind⟩
  insertion id q ht x n' hn' := by
    rcases modify_cases hn' with ⟨n, _, hn, rfl⟩ | ⟨_, hn⟩
    · have hkept := Node.Restored.mapPlace n (g := fun p => { p with insertion := q })
        (fun _ => rfl) (fun _ => rfl) (fun _ => rfl) fun _ => rfl
      rw [hkept.before, hkept.behind]
      exact ht hn
    · exact ht hn

theorem Prepared.unflanked {language : Language M O} {source : Text} {t : Tree M O}
    (h : Prepared language source t) : t.Unflanked := by
  induction h with
  | root made =>
    obtain ⟨layout, place, _, hplace, _, hroot⟩ := node_of_ofRoot made
    intro id n hn
    rw [hroot hn]
    cases place with
    | none => exact ⟨rfl, rfl⟩
    | some p =>
      rw [(placeOf_eq_ok hplace).2]
      exact ⟨rfl, rfl⟩
  | settings _ _ ih => exact ih
  | edit _ _ edited ih =>
    obtain ⟨_, parts, _, _, rfl⟩ := editParts_eq_ok edited
    intro x n' hn'
    rcases modify_cases hn' with ⟨n, _, hn, rfl⟩ | ⟨_, hn⟩
    · exact ih (n := n) hn
    · exact ih hn
  | plant _ m id ih => exact (Unflanked.prints m).plant id _ ih
  | print _ m id margin ih => exact (Unflanked.prints m).print id margin _ ih
  | printSource _ m ih => exact (Unflanked.prints m).printSource _ ih
  | printMapped _ m file ih => exact (Unflanked.prints m).printMapped file _ ih

/-- A tree that was not located yet is traced. -/
theorem Prepared.traced {language : Language M O} {source : Text} {t : Tree M O}
    (layouts : ∀ {m object layout}, language.layout m object = some layout →
      Part.AllNew layout.parts) (h : Prepared language source t) : Traced t t where
  toWellFormed := h.wellFormed
  grown := .refl t
  layouts := (h.unsearched layouts).layouts
  around {id owner n own} hn _ _ := by
    obtain ⟨hbefore, hbehind⟩ := h.unflanked hn
    exact ⟨own, Span.contains_self own, hbefore ▸ hbehind ▸ .bare t t owner own⟩
  parts {id n} hn := ((h.unsearched layouts).node hn).2.every_isTraced t t id

/-- After a tree was located for the first time, or after that failed, it is traced
back to the tree with all nodes and without delimiters. -/
theorem locate_traced {language : Language M O} {source : Text} {m : M} {t : Tree M O}
    (layouts : ∀ {m object layout}, language.layout m object = some layout →
      Part.AllNew layout.parts) (h : Prepared language source t) :
    Traced ((plant m root).after t) ((locate m).after t) := by
  have hplanted := (h.plant m root).traced layouts
  unfold Job.after at hplanted ⊢
  rw [locate_of_incomplete (h.unsearched layouts).incomplete]
  cases hplant : plant m root t with
  | error e u =>
    rw [hplant] at hplanted
    exact hplanted
  | ok _ u =>
    rw [hplant] at hplanted
    have hlocated := (Onward.locateWithin m (u.depthBound m) root u hplanted).traced
    change Traced u ((locateFrom m root).after u) at hlocated
    unfold Job.after at hlocated
    dsimp only
    cases hfrom : locateFrom m root u with
    | error e v =>
      rw [hfrom] at hlocated
      exact hlocated
    | ok _ v =>
      rw [hfrom] at hlocated
      have hextends : v.Extends { v with complete := true } :=
        ⟨rfl, rfl, List.prefix_refl _, fun hn => ⟨_, hn, .refl _⟩⟩
      refine hlocated.of_nodes hextends ?_ fun {id n'} hn' => Or.inl ⟨n', hn', rfl, rfl, rfl⟩
      exact ⟨hlocated.toTied.of_sameTies fun _ => rfl, ⟨hlocated.parsed, hlocated.spanned,
        hlocated.nested, hlocated.owned, hlocated.marked⟩⟩

end Tree

end Reprint
