import Reprint.Proofs.WordList.Standing
import Reprint.Proofs.WordList.Told

/-!
# Revising a located document

Printing an entry of a located tree from its source text gives the text
`Entry.told`, and leaves a tree of the same kind.  The revision of each
part adds edits that make the right text of the piece of the source
that the part covers.

* `reviseListed_woven` is the loop over the objects of a list, and
  `removeGone_removals` removes the items that are gone.
* `reviseParts_told` are the parts of one entry.
* `printWithin_told` is the induction over the entries.
-/

namespace Reprint.WordList

open Reprint.Tree

/-! ## What the tree says of an entry -/

namespace Standing

variable {text separator : Text} {r e : Entry} {m : Model} {t : Tree Model Nat}

theorem sourceText (h : Standing text separator r m t) {a b : Nat} (hab : a ≤ b)
    (hb : b ≤ text.length) : t.sourceText (window (.ofText text) a b) = .ok (text.piece a b) := by
  have hcount := Source.charCount_ofText text
  unfold Tree.sourceText
  rw [h.source, extract_window hab (by omega), Source.text_ofText]
  rfl

theorem placeOfNode (h : Standing text separator r m t) (he : r.Holds e) :
    ∃ p, t.placeOfNode e.node = .ok p ∧ p.span = e.span text ∧
      p.before = e.lead text separator ∧ p.behind = .empty := by
  obtain ⟨n, hn, hloaded, _⟩ := h.loaded he
  obtain ⟨p, hp, _, hbefore, hbehind⟩ := hloaded.place
  have hspan := hloaded.sits.span
  rw [Node.span?, hp, Option.map_some, Option.some.injEq] at hspan
  refine ⟨p, ?_, hspan, hbefore, hbehind⟩
  simp only [Tree.placeOfNode, bind, Except.bind, node_eq_ok.2 hn, hp]
  rfl

theorem aligned (h : Standing text separator r m t) (he : r.Holds e) (s : Text) :
    t.aligned e.node .keep s = e.hung text s := by
  obtain ⟨n, hn, hloaded, _⟩ := h.loaded he
  unfold Tree.aligned
  rw [hn, Option.bind_some, hloaded.sits.span, h.settings, h.source]
  rfl

theorem node_extent (hm : Edition text r m) (h : Standing text separator r m t) (he : r.Holds e) :
    ∃ n, t.nodes[e.node]? = some n ∧ n.before = e.lead text separator ∧
      n.extent = some (window (.ofText text) (e.cut text separator) e.stop) := by
  obtain ⟨n, hn, hloaded, _⟩ := h.loaded he
  obtain ⟨p, hp, _, hbefore, _⟩ := hloaded.place
  have hbounds := (hm.laid.holds he).1.bounds
  refine ⟨n, hn, ?_, hloaded.extent hbounds.1 hbounds.2⟩
  rw [Node.before, hp]
  exact hbefore

/-- The node below the node of an entry for one of its items, or for any
other object that it lists. -/
theorem getNode_item (h : Standing text separator r m t) (he : r.Holds e) {c : Entry}
    (hc : c ∈ e.items) : t.getNode m e.node c.address = .ok (c.node, t) := by
  obtain ⟨n, hn, hloaded, _⟩ := h.loaded he
  refine WordList.getNode_item hn hloaded.sits.children (fun d hd => ?_) hc
  obtain ⟨k, hk, hloaded', _⟩ := h.loaded (he.item hd)
  exact ⟨k, hk, hloaded'.sits.object⟩

theorem getNode_other (hm : Edition text r m) (h : Standing text separator r m t)
    (he : Entry.Kept m r e) {x : Nat} (hx : x ∈ m.items e.address)
    (hother : ∀ c ∈ e.items, c.address ≠ x) :
    ∃ id t', t.getNode m e.node x = .ok (id, t') ∧ Standing text separator r m t' ∧
      r.item.cells ≤ id ∧ Sheltered r m t' id x ∧ ∃ k, t'.nodes[id]? = some k ∧ k.object = x := by
  obtain ⟨n, hn, hloaded, hchildren⟩ := h.loaded he.holds
  have hsheltered : Sheltered r m t e.node x := by
    intro a ha hlineage
    rw [lineage_eq hn, hloaded.sits.ancestors] at hlineage
    obtain ⟨a', ha', hnode, hreaches⟩ := he.exists_of_mem_lineage hm.top hlineage
    rw [Entry.Holds.eq_of_node ha ha'.holds hnode.symm]
    exact fun b hb => hm.confines a' ha' b (hreaches.trans (.step hx hb))
  apply h.getNode hm hn (hm.redone.items hx) hsheltered
  intro c hc hlt k hk
  rcases hchildren c hc with hmem | hle
  · obtain ⟨d, hd, rfl⟩ := List.mem_map.1 hmem
    obtain ⟨k', hk', hloaded', _⟩ := h.loaded (he.holds.item hd)
    rw [hk] at hk'
    cases hk'
    rw [hloaded'.sits.object]
    exact hother d hd
  · omega

end Standing

section Revise

variable {text separator : Text} {r e : Entry} {m : Model}

/-! ## Items that are gone -/

/-- An item that is gone is removed with its delimiter.  The gap in front
of it stays, because it is not blank. -/
theorem gonePiece_cut (hm : Edition text r m) {t : Tree Model Nat} (h : Standing text separator r m t)
    {c : Entry} (hc : r.Holds c) {first : Bool} {a : Nat} {previous : Option Nat}
    (hahead : Ahead text first a c.start) (hbefore : c.before = if first then none else some a)
    (hprevious : if first then previous = none
      else ∃ d, r.Holds d ∧ previous = some d.node ∧ d.stop = a) :
    t.gonePiece previous c.node =
      .ok (some (window (.ofText text) (c.cut text separator) c.stop)) := by
  have hcount := Source.charCount_ofText text
  obtain ⟨n, hn, hlead, hextent⟩ := h.node_extent hm hc
  have hbounds := (hm.laid.holds hc).1.bounds
  have hcut := c.cut_le_start text separator
  unfold gonePiece
  simp only [bind, Except.bind, node_eq_ok.2 hn, hextent]
  cases first with
  | true =>
    rw [if_pos rfl] at hprevious
    rw [hprevious]
    cases n.before.span? <;> rfl
  | false =>
    rw [if_neg Bool.false_ne_true] at hprevious
    obtain ⟨d, hd, rfl, rfl⟩ := hprevious
    cases hspan : n.before.span? with
    | some => rfl
    | none =>
      obtain ⟨k, hk, _, hextent'⟩ := h.node_extent hm hd
      have hbounds' := (hm.laid.holds hd).1.bounds
      have hcut' := d.cut_le_start text separator
      have hgap : Gap text d.stop c.start := hahead
      have hstart : c.cut text separator = c.start := by
        rcases c.lead_cases text separator with ⟨_, hcut, _⟩ | ⟨_, _, hcut, _⟩ | ⟨_, p, hlead', _⟩
        · exact hcut
        · exact hcut
        · rw [hlead, hlead'] at hspan
          cases hspan
      have hlt := hgap.lt
      rw [hstart]
      simp only [node_eq_ok.2 hk, hextent', stop_window (show d.cut text separator ≤ d.stop by omega)
        (by omega : d.stop ≤ (Source.ofText text).charCount), start_window hbounds.1
        (by omega : c.stop ≤ (Source.ofText text).charCount)]
      have hsource : t.sourceText (Span.between ((Source.ofText text).place d.stop)
          ((Source.ofText text).place c.start)) = .ok (text.piece d.stop c.start) :=
        h.sourceText (Nat.le_of_lt hlt.1) hlt.2
      rw [hsource]
      simp only [hgap.not_isBlank, Bool.false_eq_true, if_false, ite_self]
      rfl

/-- The items that are gone are removed one after the other. -/
theorem removeGone_removals (hm : Edition text r m) (current : List Nat) (cursor : Position)
    {b : Nat} : ∀ {entries : List Entry} {first : Bool} {a : Nat} {previous : Option Nat},
    Chain text first entries a b → (∀ c ∈ entries, r.Holds c) →
    (if first then previous = none else ∃ d, r.Holds d ∧ previous = some d.node ∧ d.stop = a) →
    Revises (Standing text separator r m)
      (removeGone current previous (entries.map (Entry.listing separator))) cursor ()
      (Entry.removals text separator current entries) cursor
  | [], _, _, _, _, _, _ => .pure cursor ()
  | c :: rest, first, a, previous, hchain, hentries, hprevious => by
    rw [Chain] at hchain
    obtain ⟨hahead, hfits, hbefore, htail⟩ := hchain
    have hc := hentries c List.mem_cons_self
    have hprevious' : ∃ d, r.Holds d ∧ some c.node = some d.node ∧ d.stop = c.stop :=
      ⟨c, hc, rfl, rfl⟩
    have hrest := removeGone_removals hm current cursor htail
      (fun d hd => hentries d (List.mem_cons_of_mem _ hd)) hprevious'
    rw [List.map_cons, removeGone]
    by_cases hlisted : c.address ∈ current
    · rw [Entry.removals_cons_of_mem hlisted]
      have hcontains : (!current.contains (Entry.listing separator c).object) = false := by
        simpa [Entry.listing] using hlisted
      rw [hcontains]
      exact hrest
    · have hcontains : (!current.contains (Entry.listing separator c).object) = true := by
        simpa [Entry.listing] using hlisted
      have hlt : c.start < c.stop ∧ c.stop ≤ text.length := hfits.lt
      have hcut := c.cut_le_start text separator
      have hcount := Source.charCount_ofText text
      have hempty : (window (.ofText text) (c.cut text separator) c.stop).isEmpty = false := by
        rw [← Bool.not_eq_true, isEmpty_window (by omega) (by omega)]
        omega
      have hremovals : Entry.removals text separator current (c :: rest) =
          [Entry.removal text separator c] ++ Entry.removals text separator current rest := by
        rw [← List.singleton_append, Entry.removals_append]
        congr 1
        exact Entry.removals_of_absent fun d hd => by rwa [List.mem_singleton.1 hd]
      rw [hcontains, if_pos rfl, hremovals]
      exact .read fun t ht => ⟨_, gonePiece_cut hm ht hc hahead hbefore hprevious,
        .bind (.remove cursor hempty) hrest⟩

/-! ## Items that are listed -/

section List

variable {print : Nat → Margin → Job Model Nat Text} {unit : Margin} {frame : Frame} {count : Nat}

/-- An item that was found is brought up to date together with its
delimiter. -/
theorem reviseItem_kept (hm : Edition text r m) (hlist : r.Holds e) {c : Entry} (hc : c ∈ e.items)
    (index : Nat) {printed : Text} (cursor : Position)
    (hprint : Runs (Standing text separator r m) (print c.node unit) printed
      (Standing text separator r m)) :
    ∃ edits, Revises (Standing text separator r m)
        (reviseItem print unit c.node (some (leadAt separator index, []))) cursor () edits
        ((Source.ofText text).place c.stop) ∧
      Patch.Splices (.ofText text) (c.cut text separator) c.stop edits
        (c.joint text separator index ++ printed) := by
  have hcount := Source.charCount_ofText text
  obtain ⟨hfits, _, hlt, _⟩ := (hm.laid.holds hlist).1.item hc
  have hbound : c.stop ≤ text.length := hfits.lt.2
  refine ⟨_, ?_, Entry.item_splices hlt hbound index printed⟩
  have hitem : Revises (Standing text separator r m)
      (reviseItem print unit c.node (some (leadAt separator index, []))) cursor ()
      (delimiterEdits (c.lead text separator) (leadAt separator index) (c.span text).start ++
        replacement (c.span text) (text.piece c.start c.stop) printed) (c.span text).stop :=
    .item cursor (leadAt separator index) (fun t ht => ht.placeOfNode (hlist.item hc))
      (fun t ht => ht.sourceText (Nat.le_of_lt hlt) hbound) hprint
  rw [Entry.span, start_window (Nat.le_of_lt hlt) (by omega),
    stop_window (Nat.le_of_lt hlt) (by omega)] at hitem
  exact hitem

/-- The text of an object that has none where it is needed. -/
theorem freshText_hung (hlist : r.Holds e) (hunit : unit.level = 0) {x : Nat} {body : Text}
    (index : Nat) (cursor : Position)
    (hbelow : Runs (Standing text separator r m) (printBelow print m e.node x unit) (some body)
      (Standing text separator r m)) :
    Revises (Standing text separator r m)
      (freshText print m e.node unit .keep (leadAt separator index) [] x) cursor
      (e.hung text (leadAt separator index ++ body)) [] cursor :=
  .fresh cursor hbelow hunit fun _ ht => ht.aligned hlist _

/-- The items of an entry that are left when the objects `rest` are still to
come: objects that were found and are among `done` come again. -/
structure Remaining (m : Model) (e : Entry) (entries : List Entry) (rest done : List Nat) : Prop where
  item : ∀ c ∈ entries, c ∈ e.items
  object : ∀ x ∈ rest, x ∈ m.items e.address
  done_iff : ∀ c ∈ e.items, c.address ∈ rest → (c.address ∈ done ↔ c ∉ entries)
  listed : ∀ c ∈ entries, c.address ∈ m.items e.address → c.address ∈ rest

namespace Remaining

variable {entries gone more : List Entry} {c : Entry} {x : Nat} {rest done : List Nat}

/-- An object that is none of the items that are left. -/
theorem fresh (h : Remaining m e entries (x :: rest) done) (new : ∀ c ∈ entries, c.address ≠ x) :
    Remaining m e entries rest done where
  item := h.item
  object y hy := h.object y (List.mem_cons_of_mem _ hy)
  done_iff c hc hmem := h.done_iff c hc (List.mem_cons_of_mem _ hmem)
  listed c hc hmem := by
    rcases List.mem_cons.1 (h.listed c hc hmem) with h | h
    · exact absurd h (new c hc)
    · exact h

/-- The items in front of the next one that is listed are gone. -/
theorem keep (h : Remaining m e (gone ++ c :: more) (c.address :: rest) done)
    (absent : ∀ d ∈ gone, d.address ∉ c.address :: rest) (new : ∀ d ∈ more, d.address ≠ c.address) :
    Remaining m e more rest (c.address :: done) where
  item d hd := h.item d (by simp [hd])
  object y hy := h.object y (List.mem_cons_of_mem _ hy)
  done_iff d hd hmem := by
    have hiff := h.done_iff d hd (List.mem_cons_of_mem _ hmem)
    have hgone : d ∉ gone := fun h => absent d h (List.mem_cons_of_mem _ hmem)
    by_cases hcd : d = c
    · subst hcd
      simp only [List.mem_cons, true_or, true_iff]
      exact fun h => new d h rfl
    · have haddress : d.address ≠ c.address := fun haddress =>
        hcd (Entry.Holds.eq_of_address (.step hd (.refl d)) (.step (h.item c (by simp)) (.refl c))
          haddress)
      simp only [List.mem_cons, haddress, false_or, hiff, List.mem_append, hgone, hcd]
  listed d hd hmem := by
    rcases List.mem_cons.1 (h.listed d (by simp [hd]) hmem) with h | h
    · exact absurd h (new d hd)
    · exact h

/-- An object that was found and is none of the items that are left is done. -/
theorem mem_done (h : Remaining m e entries (x :: rest) done) (new : ∀ c ∈ entries, c.address ≠ x)
    (hfound : ((e.loadedList separator).item? x).isSome = true) : x ∈ done := by
  have hmem : x ∈ e.itemCells := by simpa [Entry.item?_loadedList] using hfound
  obtain ⟨c, hc, rfl⟩ := List.mem_map.1 hmem
  exact (h.done_iff c hc List.mem_cons_self).2 fun h => new c h rfl

/-- All items are left in the beginning, but for some that are gone. -/
theorem start (hitems : e.items = gone ++ entries)
    (absent : ∀ d ∈ gone, d.address ∉ m.items e.address) :
    Remaining m e entries (m.items e.address) [] where
  item d hd := by
    rw [hitems]
    exact List.mem_append_right _ hd
  object _ hx := hx
  done_iff d hd hmem := by
    rw [hitems, List.mem_append] at hd
    have hleft : d ∈ entries := hd.resolve_left fun hgone => absent d hgone hmem
    simp [hleft]
  listed _ _ hmem := hmem

end Remaining

/-- The objects of a list are taken one after the other.  By induction on
how they are aligned with the items that are left. -/
theorem reviseListed_woven (hm : Edition text r m) (hlist : r.Holds e) (hunit : unit.level = 0)
    (hindent : frame.indent = .keep)
    (haround : ∀ index, (e.loadedList separator).around frame index count =
      (leadAt separator index, []))
    {body : Nat → Text} (hitem : ∀ c ∈ e.items, c.address ∈ m.items e.address →
      Runs (Standing text separator r m) (print c.node unit) (body c.address)
        (Standing text separator r m))
    (hbelow : ∀ x ∈ m.items e.address, Runs (Standing text separator r m)
      (printBelow print m e.node x unit) (some (body x)) (Standing text separator r m))
    {entries : List Entry} {rest : List Nat} (haligned : Aligned Entry.address entries rest) :
    ∀ {a : Nat} (index : Nat) (done : List Nat),
      Entry.Spread text separator a entries e.outer → Remaining m e entries rest done →
      ∃ edits b, Revises (Standing text separator r m)
          (reviseListed print m e.node unit frame (e.loadedList separator) count index rest done [])
          ((Source.ofText text).place a) () edits b ∧
        Patch.Splices (.ofText text) a e.outer
          (edits ++ Entry.removals text separator (m.items e.address) entries)
          (Entry.woven text separator (e.hung text) body e.outer a index entries rest) := by
  induction haligned with
  | nil entries =>
    intro a index done hspread hleft
    refine ⟨[], _, .pure _ (), ?_⟩
    rw [List.nil_append, Entry.removals_of_absent fun c hc hmem => by
      cases hleft.listed c hc hmem]
    exact (Entry.stripped_splices hspread).1
  | @fresh entries x rest new _ ih =>
    intro a index done hspread hleft
    obtain ⟨edits, b, hrun, hsplices⟩ := ih (index + 1) done hspread (hleft.fresh new)
    have hstep : Revises (Standing text separator r m) (do
        let t ← freshText print m e.node unit .keep (leadAt separator index) [] x
        Revision.insertHere t
        reviseListed print m e.node unit frame (e.loadedList separator) count (index + 1) rest done [])
        ((Source.ofText text).place a) ()
        (insertion ((Source.ofText text).place a) (e.hung text (leadAt separator index ++ body x)) ++
          edits) b :=
      .bind_nil (freshText_hung hlist hunit index _ (hbelow x (hleft.object x List.mem_cons_self)))
        (.bind (.insertHere _ _) hrun)
    refine ⟨insertion ((Source.ofText text).place a)
      (e.hung text (leadAt separator index ++ body x)) ++ edits, b, ?_, ?_⟩
    · rw [reviseListed, haround index, hindent]
      cases hfound : (e.loadedList separator).item? x with
      | none => exact hstep
      | some item =>
        -- The item was brought up to date before, so this is a repetition.
        have hmem : x ∈ done := hleft.mem_done new (by rw [hfound]; rfl)
        have hcontains : done.contains x = true := by simpa using hmem
        simp only [hcontains, Bool.not_true, Bool.false_eq_true, if_false, List.contains_nil]
        exact hstep
    · rw [Entry.woven_fresh new, List.append_assoc]
      exact insertion_splices hsplices _
  | @keep gone more c rest absent new _ ih =>
    intro a index done hspread hleft
    obtain ⟨hgone, _, hlt, hmore⟩ := hspread.split
    have hc : c ∈ e.items := hleft.item c (by simp)
    have hlisted := hleft.object c.address List.mem_cons_self
    have hbound := hmore.le
    obtain ⟨own, hown, hsplice⟩ := reviseItem_kept hm hlist hc index
      ((Source.ofText text).place a) (hitem c hc hlisted)
    obtain ⟨edits, b, hrun, hsplices⟩ :=
      ih (index + 1) (c.address :: done) hmore (hleft.keep absent new)
    have habsent : ∀ d ∈ gone, d.address ∉ m.items e.address := fun d hd hmem =>
      absent d hd (hleft.listed d (by simp [hd]) hmem)
    refine ⟨own ++ edits, b, ?_, ?_⟩
    · have hnot : done.contains c.address = false := by
        have := (hleft.done_iff c hc List.mem_cons_self).1
        simpa using fun h => this h (by simp)
      rw [reviseListed, haround index, Entry.item?_of_mem hc]
      simp only [hnot, Bool.not_false, if_true]
      exact hown.bind hrun
    · rw [Entry.woven_keep fun d hd h => absent d hd (h ▸ List.mem_cons_self),
        Entry.removals_append, Entry.removals_cons_of_mem hlisted, Entry.removals_of_absent habsent]
      obtain ⟨hstripped, hbefore⟩ := Entry.stripped_splices hgone
      have hright := hsplice.append hsplices
      rw [← List.append_assoc] at hright
      have hall := Patch.Splices.cut [] (own ++ edits) (gone.map (Entry.removal text separator))
        (Entry.removals text separator (m.items e.address) more) hstripped hright hbefore
      rwa [List.nil_append, ← List.append_assoc (Entry.stripped text separator a gone _)] at hall

/-- The objects of a list that is written anew. -/
theorem freshItems_rewritten (hlist : r.Holds e) (hunit : unit.level = 0)
    (hindent : frame.indent = .keep)
    (haround : ∀ index, (e.loadedList separator).around frame index count =
      (leadAt separator index, []))
    {body : Nat → Text} (cursor : Position) :
    ∀ (objects : List Nat) (index : Nat),
      (∀ x ∈ objects, Runs (Standing text separator r m)
        (printBelow print m e.node x unit) (some (body x)) (Standing text separator r m)) →
      Revises (Standing text separator r m)
        (freshItems print m e.node unit frame (e.loadedList separator) count index objects) cursor
        (Entry.rewritten separator (e.hung text) body index objects) [] cursor
  | [], _, _ => .pure cursor []
  | x :: rest, index, hbelow => by
    have hrest := freshItems_rewritten hlist hunit hindent haround cursor rest (index + 1)
      fun y hy => hbelow y (List.mem_cons_of_mem _ hy)
    rw [freshItems, haround index, hindent]
    exact .bind_nil (freshText_hung hlist hunit index cursor (hbelow x List.mem_cons_self))
      (.bind_nil hrest (.pure cursor _))

/-- The cursor moves to the first item that is listed. -/
theorem moveToFirst_cut (hlist : r.Holds e) (hm : Edition text r m) {current : List Nat}
    {gone more : List Entry} {c : Entry} (hitems : e.items = gone ++ c :: more)
    (habsent : ∀ d ∈ gone, d.address ∉ current) (hlisted : c.address ∈ current) (cursor : Position) :
    Revises (Standing text separator r m) (moveToFirst (e.loadedList separator) current) cursor ()
      [] ((Source.ofText text).place (c.cut text separator)) := by
  have hcount := Source.charCount_ofText text
  have hc : c ∈ e.items := by simp [hitems]
  have hfind : (e.loadedList separator).listed.find? (fun item => current.contains item.object) =
      some (Entry.listing separator c) := by
    unfold Entry.loadedList
    rw [hitems, List.map_append, List.find?_append, List.find?_eq_none.2 fun item hitem => by
      obtain ⟨d, hd, rfl⟩ := List.mem_map.1 hitem
      simpa [Entry.listing] using habsent d hd, List.map_cons,
      List.find?_cons_of_pos (by simpa [Entry.listing] using hlisted)]
    rfl
  have hbounds := (hm.laid.holds (hlist.item hc)).1.bounds
  unfold moveToFirst
  rw [hfind]
  refine .read fun t ht => ?_
  obtain ⟨n, hn, hloaded, _⟩ := ht.loaded (hlist.item hc)
  obtain ⟨p, hp, _, hbefore, _⟩ := hloaded.place
  have hlead : n.before = c.lead text separator := by
    rw [Node.before, hp]
    exact hbefore
  refine ⟨n, node_eq_ok.2 hn, ?_⟩
  have hstart : (n.before.span?.map fun s => s.start).or (n.span?.map fun s => s.start) =
      some ((Source.ofText text).place (c.cut text separator)) := by
    rw [hlead, hloaded.sits.span]
    have hspan : (c.span text).start = (Source.ofText text).place c.start :=
      start_window hbounds.1 (by omega)
    rcases c.lead_cases text separator with ⟨hlead, hcut, _⟩ | ⟨_, hlead, hcut, _⟩ |
      ⟨_, p, hlead, hcut, _, _, _, hle, _⟩ <;> rw [hlead, hcut]
    · exact congrArg some hspan
    · exact congrArg some hspan
    · exact congrArg some (start_window (by omega) (by omega))
  rw [hstart]
  exact .moveTo cursor _

theorem moveToFirst_none {current : List Nat} (habsent : ∀ d ∈ e.items, d.address ∉ current)
    (cursor : Position) :
    Revises (Standing text separator r m) (moveToFirst (e.loadedList separator) current) cursor ()
      [] cursor := by
  have hfind : (e.loadedList separator).listed.find? (fun item => current.contains item.object) =
      none := by
    rw [List.find?_eq_none]
    intro item hitem
    obtain ⟨d, hd, rfl⟩ := List.mem_map.1 hitem
    simpa [Entry.listing] using habsent d hd
  unfold moveToFirst
  rw [hfind]
  exact .pure cursor ()

/-- The items of a list that come in another order. -/
theorem reviseItems_reordered (hlist : r.Holds e) (hunit : unit.level = 0)
    (hindent : frame.indent = .keep)
    (haround : ∀ index count, (e.loadedList separator).around frame index count =
      (leadAt separator index, []))
    (hextent : frame.extent = e.itemsExtent text)
    (hchain : Chain text true e.items e.inner e.outer) (hne : e.items ≠ [])
    (hreordered : (e.loadedList separator).isReordered (m.items e.address) = true)
    {body : Nat → Text} (hbelow : ∀ x ∈ m.items e.address, Runs (Standing text separator r m)
      (printBelow print m e.node x unit) (some (body x)) (Standing text separator r m)) :
    ∃ edits b, Revises (Standing text separator r m)
        (reviseItems print m e.node unit frame (e.loadedList separator))
        ((Source.ofText text).place e.inner) () edits b ∧
      Patch.Splices (.ofText text) e.inner e.outer edits
        (e.toldItems text separator (e.hung text) body (m.items e.address)) := by
  have hcount := Source.charCount_ofText text
  obtain ⟨first, others, hitems⟩ := List.exists_cons_of_ne_nil hne
  have hsupply : (e.loadedList separator).supply m = m.items e.address := rfl
  have hwindow : frame.extent =
      some (window (.ofText text) first.start (Entry.rowStop e.inner e.items)) := by
    rw [hextent, Entry.itemsExtent, hitems]
    rfl
  have hjob : reviseItems print m e.node unit frame (e.loadedList separator) = (do
      let t ← freshItems print m e.node unit frame (e.loadedList separator)
        (m.items e.address).length 0 (m.items e.address)
      Revision.overwrite
        (some (window (.ofText text) first.start (Entry.rowStop e.inner e.items))) t) := by
    unfold reviseItems
    simp only [hsupply, hreordered, hwindow, Option.isSome_some, Bool.and_self, if_true]
  have hfirst : first ∈ e.items := by simp [hitems]
  have hmem := hchain.mem hfirst
  have hstop := hchain.stop_le_rowStop hfirst
  have hrow := hchain.rowStop
  have hbound := hchain.le
  have hsingle := Patch.Splices.single (s := .ofText text) (a := e.inner) (b := e.outer)
    ⟨.replace, window (.ofText text) first.start (Entry.rowStop e.inner e.items),
      Entry.rewritten separator (e.hung text) body 0 (m.items e.address)⟩
    (show e.inner ≤ first.start by omega)
    (show first.start ≤ Entry.rowStop e.inner e.items by omega) hrow.2 (by omega) rfl
  rw [Source.text_ofText] at hsingle
  rw [hjob, Entry.toldItems_rewritten hitems hreordered]
  exact ⟨_, _, .bind_nil (freshItems_rewritten hlist hunit hindent (haround · _) _ _ 0 hbelow)
    (.overwrite _ _ _), hsingle⟩

/-- The items of a list that come in the order of the source: those before the
first one that is listed are gone, and the rest is woven. -/
theorem reviseItems_ordered (hm : Edition text r m) (hlist : r.Holds e) (hunit : unit.level = 0)
    (hindent : frame.indent = .keep)
    (haround : ∀ index count, (e.loadedList separator).around frame index count =
      (leadAt separator index, []))
    (hchain : Chain text true e.items e.inner e.outer) (hne : e.items ≠ [])
    (hordered : (e.loadedList separator).isReordered (m.items e.address) = false)
    {body : Nat → Text} (hitem : ∀ c ∈ e.items, c.address ∈ m.items e.address →
      Runs (Standing text separator r m) (print c.node unit) (body c.address)
        (Standing text separator r m))
    (hbelow : ∀ x ∈ m.items e.address, Runs (Standing text separator r m)
      (printBelow print m e.node x unit) (some (body x)) (Standing text separator r m)) :
    ∃ edits b, Revises (Standing text separator r m)
        (reviseItems print m e.node unit frame (e.loadedList separator))
        ((Source.ofText text).place e.inner) () edits b ∧
      Patch.Splices (.ofText text) e.inner e.outer edits
        (e.toldItems text separator (e.hung text) body (m.items e.address)) := by
  have hspread : Entry.Spread text separator e.inner e.items e.outer := Entry.spread_of_chain hchain
  have hgone : ∀ cursor, Revises (Standing text separator r m)
      (removeGone (m.items e.address) none (e.loadedList separator).listed) cursor ()
      (Entry.removals text separator (m.items e.address) e.items) cursor :=
    fun cursor => removeGone_removals hm (m.items e.address) cursor hchain
      (fun c hc => hlist.item hc) rfl
  have hsupply : (e.loadedList separator).supply m = m.items e.address := rfl
  have hjob : reviseItems print m e.node unit frame (e.loadedList separator) = (do
      moveToFirst (e.loadedList separator) (m.items e.address)
      reviseListed print m e.node unit frame (e.loadedList separator)
        (m.items e.address).length 0 (m.items e.address) [] []
      removeGone (m.items e.address) none (e.loadedList separator).listed) := by
    unfold reviseItems
    simp only [hsupply, hordered, Bool.false_and, Bool.false_eq_true, if_false]
    rfl
  rw [hjob]
  rcases e.exists_first_listed (m.items e.address) with
    habsent | ⟨gone, c, more, hsplit, habsent, hlisted⟩
  · obtain ⟨edits, b, hrun, hsplices⟩ := reviseListed_woven hm hlist hunit hindent
      (haround · (m.items e.address).length) hitem hbelow
      (Entry.aligned_of_not_reordered hordered (List.nil_append _).symm fun d hd =>
        absurd hd List.not_mem_nil) 0 [] hspread
      (.start (List.nil_append _).symm fun d hd => absurd hd List.not_mem_nil)
    rw [Entry.toldItems_absent hne hordered habsent]
    exact ⟨_, b, .bind_nil (moveToFirst_none habsent _) (.bind hrun (hgone b)), hsplices⟩
  · rw [hsplit] at hspread
    obtain ⟨hbefore, hstart, hlt, hbehind⟩ := hspread.split
    obtain ⟨edits, b, hrun, hsplices⟩ := reviseListed_woven hm hlist hunit hindent
      (haround · (m.items e.address).length) hitem hbelow
      (Entry.aligned_of_not_reordered hordered hsplit habsent) (a := c.cut text separator) 0 []
      ⟨Nat.le_refl _, hstart, hlt, hbehind⟩ (.start hsplit habsent)
    obtain ⟨hstripped, hstarts⟩ := Entry.stripped_splices hbefore
    rw [Entry.toldItems_listed hsplit hordered habsent hlisted]
    refine ⟨_, b, .bind_nil (moveToFirst_cut hlist hm hsplit habsent hlisted _)
      (.bind hrun (hgone b)), ?_⟩
    rw [hsplit, Entry.removals_append, Entry.removals_of_absent habsent]
    have hall := Patch.Splices.cut [] edits (gone.map (Entry.removal text separator))
      (Entry.removals text separator (m.items e.address) (c :: more)) hstripped hsplices hstarts
    rwa [List.nil_append] at hall

/-- The items of a list, whether or not some were found in the source. -/
theorem revisePart_items (hm : Edition text r m) (hlist : r.Holds e) (hunit : unit.level = 0)
    (hchain : Chain text true e.items e.inner e.outer)
    {body : Nat → Text} (hitem : ∀ c ∈ e.items, c.address ∈ m.items e.address →
      Runs (Standing text separator r m) (print c.node unit) (body c.address)
        (Standing text separator r m))
    (hbelow : ∀ x ∈ m.items e.address, Runs (Standing text separator r m)
      (printBelow print m e.node x unit) (some (body x)) (Standing text separator r m)) :
    ∃ edits b, Revises (Standing text separator r m)
        (revisePart print m e.node unit (e.loadedItems text separator))
        ((Source.ofText text).place e.inner) () edits b ∧
      Patch.Splices (.ofText text) e.inner e.outer edits
        (e.toldItems text separator (e.hung text) body (m.items e.address)) := by
  have hcount := Source.charCount_ofText text
  have haround : ∀ index count, (e.loadedList separator).around
      { itemsFrame separator with extent := e.itemsExtent text } index count =
        (leadAt separator index, []) :=
    fun index count => around_eq _ _ rfl rfl rfl rfl index count
  unfold Entry.loadedItems
  rw [revisePart]
  by_cases hitems : e.items = []
  · have hempty : (e.loadedList separator).listed.isEmpty = true := by
      simp [Entry.loadedList, hitems]
    have hbound := hchain.le
    have hnormal : Runs (Standing text separator r m) (normalPart print m e.node unit
        (.items { itemsFrame separator with extent := e.itemsExtent text } (e.loadedList separator)))
        (joinedFrom separator 0 ((m.items e.address).map body)) (Standing text separator r m) := by
      have hloop := @normalItems_runs print m e.node unit
        (fun objects t => Standing text separator r m t ∧ ∀ x ∈ objects, x ∈ m.items e.address)
        body (m.items e.address).length (e.loadedList separator) _ separator (haround · _)
        (fun x rest t ht => by
          obtain ⟨t', hrun, ht'⟩ := hbelow x (ht.2 x List.mem_cons_self) t ht.1
          exact ⟨t', hrun, ht', fun y hy => ht.2 y (List.mem_cons_of_mem _ hy)⟩)
        (m.items e.address) 0
      rw [normalPart]
      refine .bind (hloop.weaken (fun t ht => ⟨ht, fun x hx => hx⟩) fun t ht => ht.1) ?_
      exact (Runs.pure (fun t ht => ht) _).congr (Margin.apply_of_level hunit _)
    rw [if_pos hempty, Entry.toldItems_nil hitems]
    refine ⟨_, _, .part _ hnormal fun t ht => ht.aligned hlist _, ?_⟩
    have hnil := Patch.Splices.nil (s := .ofText text) hbound.1 (by omega)
    rw [Source.text_ofText] at hnil
    have hinsert := insertion_splices hnil
      (e.hung text (joinedFrom separator 0 ((m.items e.address).map body)))
    rwa [List.append_nil] at hinsert
  · have hnonempty : (e.loadedList separator).listed.isEmpty = false := by
      simpa [Entry.loadedList] using hitems
    rw [hnonempty, if_neg Bool.false_ne_true]
    cases hreordered : (e.loadedList separator).isReordered (m.items e.address) with
    | true =>
      exact reviseItems_reordered hlist hunit rfl haround rfl hchain hitems hreordered hbelow
    | false =>
      exact reviseItems_ordered hm hlist hunit rfl haround hchain hitems hreordered hitem hbelow

end List

/-! ## Words -/

section Word

variable {print : Nat → Margin → Job Model Nat Text} {unit : Margin}

/-- A literal that stays what it is. -/
theorem revisePart_constant {span : Span} {t : Text} (owner : Nat) (cursor : Position)
    (hpresent : ∀ u, Standing text separator r m u → u.sourceText span = .ok t) :
    Revises (Standing text separator r m)
      (revisePart print m owner unit (foundPart (.constant t) span)) cursor () [] span.stop := by
  have h := Revises.literal cursor hpresent t
  rw [replacement, if_pos rfl] at h
  unfold foundPart
  rw [revisePart]
  exact h

theorem hung_mark (e : Entry) (loudness : Option Bool) :
    e.hung text (markText loudness) = markText loudness := by
  rcases loudness with _ | _ | _ <;> rfl

/-- A mark is replaced by another one, or put behind a name without a
mark. -/
theorem switchTo_mark (hlist : r.Holds e) {w : Word} (hw : w.Fits text) {part : Part Model Nat}
    (now : Option Bool) (frame : Frame) (hindent : part.frame.indent = .keep)
    (hextent : frame.extent = if w.loudness.isSome then
      some (window (.ofText text) w.nameBytes.2 w.bytes.2) else none)
    (hprint : ∀ t, normalPart print m e.node unit part t = .ok (markText now) t) :
    ∃ edits b, Revises (Standing text separator r m)
        (switchTo print m e.node unit frame (some part))
        ((Source.ofText text).place w.nameBytes.2) () edits b ∧
      Patch.Splices (.ofText text) w.nameBytes.2 w.bytes.2 edits (markText now) := by
  have hcount := Source.charCount_ofText text
  have hstop := hw.stop
  have hbound := hw.bound
  have hnormal : Runs (Standing text separator r m) (normalPart print m e.node unit part)
      (markText now) (Standing text separator r m) := .unchanged fun t _ => hprint t
  have hswitch := @Revises.switch _ _ _ _ _ _ _ unit frame part _ _
    ((Source.ofText text).place w.nameBytes.2) hnormal
    (fun t ht => by rw [hindent]; exact ht.aligned hlist (markText now))
  rw [hung_mark] at hswitch
  refine ⟨_, _, hswitch, ?_⟩
  cases hloud : w.loudness with
  | some loudness =>
    have hsingle := Patch.Splices.single (s := .ofText text)
      ⟨.replace, window (.ofText text) w.nameBytes.2 w.bytes.2, markText now⟩
      (Nat.le_refl w.nameBytes.2) (by omega) (Nat.le_refl w.bytes.2) (by omega) rfl
    rw [hloud, Option.isSome_some, if_pos rfl] at hextent
    rw [hextent]
    simpa only [Text.piece_self, List.append_nil, List.nil_append] using hsingle
  | none =>
    have hempty : w.bytes.2 = w.nameBytes.2 := by
      rw [hloud] at hstop
      exact hstop
    have hnil := Patch.Splices.nil (s := .ofText text) (Nat.le_of_eq hempty.symm) (by omega)
    rw [Source.text_ofText, hempty, Text.piece_self] at hnil
    have hinsert := insertion_splices hnil (markText now)
    rw [hloud, Option.isSome_none, if_neg Bool.false_ne_true] at hextent
    rw [hextent, hempty]
    simpa only [List.append_nil] using hinsert

/-- The mark of a word, by cases on the mark that was read and the one that
the word has now. -/
theorem revisePart_mark (hlist : r.Holds e) (hunit : unit.level = 0) {w : Word} (hw : w.Fits text)
    (a : Nat) :
    ∃ edits b, Revises (Standing text separator r m)
        (revisePart print m e.node unit
          (markLoaded a w.loudness (window (.ofText text) w.nameBytes.2 w.bytes.2)))
        ((Source.ofText text).place w.nameBytes.2) () edits b ∧
      Patch.Splices (.ofText text) w.nameBytes.2 w.bytes.2 edits (markText (m.loudness a)) := by
  have hcount := Source.charCount_ofText text
  have hstop := hw.stop
  have hbound := hw.bound
  have hmark := hw.mark
  have hle : w.nameBytes.2 ≤ w.bytes.2 := by omega
  have hconstant : ∀ (t : Text) (u : Tree Model Nat),
      normalPart print m e.node unit (.constant t) u = .ok t u := normalPart_constant hunit
  have hsame := Patch.Splices.nil (s := .ofText text) hle (by omega)
  rw [Source.text_ofText, hmark] at hsame
  have hpresent : ∀ u, Standing text separator r m u →
      u.sourceText (window (.ofText text) w.nameBytes.2 w.bytes.2) = .ok (markText w.loudness) :=
    fun u hu => hmark ▸ hu.sourceText hle hbound
  have hloudness : ∀ (now : Option Bool) (frame : Frame) (part : Part Model Nat),
      m.loudness a = now → part.frame.indent = .keep →
      (frame.extent = if w.loudness.isSome then
        some (window (.ofText text) w.nameBytes.2 w.bytes.2) else none) →
      (∀ t, normalPart print m e.node unit part t = .ok (markText now) t) →
      ∃ edits b, Revises (Standing text separator r m)
          (switchTo print m e.node unit frame (some part))
          ((Source.ofText text).place w.nameBytes.2) () edits b ∧
        Patch.Splices (.ofText text) w.nameBytes.2 w.bytes.2 edits (markText (m.loudness a)) :=
    fun now frame part hnow hindent hextent hprint => hnow ▸
      switchTo_mark hlist hw now frame hindent hextent hprint
  have hquiet : ∀ (now : Option Bool), m.loudness a = now → now ≠ some true → ∀ u,
      normalPart print m e.node unit
        (.either (fun m => m.loudness a = some false) (.constant ['?']) (some (.constant []))) u =
          .ok (markText now) u := by
    intro now hnow hnot u
    rcases now with _ | _ | _
    · simp [Part.either, normalPart, hnow, hconstant, bind, EStateM.bind, pure, EStateM.pure,
        wrap_of_level hunit, markText]
    · simp [Part.either, normalPart, hnow, hconstant, bind, EStateM.bind, pure, EStateM.pure,
        wrap_of_level hunit, markText]
    · exact absurd rfl hnot
  rcases hread : w.loudness with _ | _ | _ <;> rcases hnow : m.loudness a with _ | _ | _ <;>
    rw [hread] at hloudness hpresent hsame <;> rw [hnow] at hloudness <;>
    simp only [markLoaded, Part.either, revisePart_choice, hnow, decide_true, decide_false, reduceCtorEq,
      Option.some.injEq, Bool.false_eq_true, Bool.true_eq_false, if_true, if_false]
  case none.none =>
    refine ⟨_, _, .part _ (Runs.unchanged fun t _ => hconstant [] t)
      (fun t ht => ht.aligned hlist []), ?_⟩
    exact hsame
  case none.some.false => exact hloudness _ _ _ rfl rfl rfl (hconstant ['?'])
  case none.some.true => exact hloudness _ _ _ rfl rfl rfl (hconstant ['!'])
  case some.false.none => exact hloudness _ _ _ rfl rfl rfl (hconstant [])
  case some.false.some.false => exact ⟨[], _, revisePart_constant _ _ hpresent, hsame⟩
  case some.false.some.true => exact hloudness _ _ _ rfl rfl rfl (hconstant ['!'])
  case some.true.none =>
    exact hloudness _ _ _ rfl rfl rfl (hquiet none hnow (by decide))
  case some.true.some.false =>
    exact hloudness _ _ _ rfl rfl rfl (hquiet (some false) hnow (by decide))
  case some.true.some.true => exact ⟨[], _, revisePart_constant _ _ hpresent, hsame⟩

/-- The parts of a word. -/
theorem reviseParts_word (hm : Edition text r m) (hlist : r.Holds e) (hunit : unit.level = 0)
    {w : Word} (hitem : e.item = .word w) :
    ∃ edits b, Revises (Standing text separator r m)
        (reviseParts print m e.node unit (e.loadedParts text separator))
        ((Source.ofText text).place e.start) () edits b ∧
      Patch.Splices (.ofText text) e.start e.stop edits (e.told text separator m) := by
  have hcount := Source.charCount_ofText text
  have hw := (hm.laid.holds hlist).1.word hitem
  have hstart : e.start = w.nameBytes.1 := by rw [Entry.start, hitem, Item.bytes, hw.start]
  have hstop : e.stop = w.bytes.2 := by rw [Entry.stop, hitem, Item.bytes]
  have horder := hw.order
  have hlength := hw.stop
  have hbound := hw.bound
  obtain ⟨edits, b, hmark, hsplices⟩ :=
    @revisePart_mark text separator r e m print unit hlist hunit w hw e.address
  have hname : Revises (Standing text separator r m)
      (revisePart print m e.node unit (foundPart (.computed fun m => m.name e.address)
        (window (.ofText text) w.nameBytes.1 w.nameBytes.2)))
      ((Source.ofText text).place e.start) ()
      (replacement (window (.ofText text) w.nameBytes.1 w.nameBytes.2)
        (text.piece w.nameBytes.1 w.nameBytes.2) (m.name e.address))
      ((Source.ofText text).place w.nameBytes.2) := by
    rw [← stop_window (Nat.le_of_lt horder) (show w.nameBytes.2 ≤ (Source.ofText text).charCount by omega)]
    unfold foundPart
    rw [revisePart]
    exact .literal _ (fun t ht => ht.sourceText (Nat.le_of_lt horder) (by omega)) _
  have hparts : e.loadedParts text separator =
      [foundPart (.computed fun m => m.name e.address)
          (window (.ofText text) w.nameBytes.1 w.nameBytes.2),
        markLoaded e.address w.loudness (window (.ofText text) w.nameBytes.2 w.bytes.2)] := by
    rw [Entry.loadedParts, hitem]
  rw [hparts, reviseParts, reviseParts, reviseParts]
  refine ⟨_, b, .bind hname (.bind hmark (.pure b ())), ?_⟩
  rw [Entry.told_word hitem, hstart, hstop, List.append_nil]
  exact (Entry.replaced_splices (Nat.le_of_lt horder) (by omega) _).append hsplices

end Word

/-! ## Entries -/

/-- The parts of a list. -/
theorem reviseParts_list {print : Nat → Margin → Job Model Nat Text} {unit : Margin}
    (hm : Edition text r m) (hlist : r.Holds e) (hunit : unit.level = 0)
    {bytes : Nat × Nat} {bracketed : Bool} {items : List Item}
    (hitem : e.item = .list bytes bracketed items)
    (hprint : ∀ c ∈ e.items, c.address ∈ m.items e.address →
      Runs (Standing text separator r m) (print c.node unit) (e.body text separator m c.address)
        (Standing text separator r m))
    (hbelow : ∀ x ∈ m.items e.address, Runs (Standing text separator r m)
      (printBelow print m e.node x unit) (some (e.body text separator m x))
      (Standing text separator r m)) :
    ∃ edits b, Revises (Standing text separator r m)
        (reviseParts print m e.node unit (e.loadedParts text separator))
        ((Source.ofText text).place e.start) () edits b ∧
      Patch.Splices (.ofText text) e.start e.stop edits (e.told text separator m) := by
  have hcount := Source.charCount_ofText text
  have hread := (hm.laid.holds hlist).1.list hitem
  have hbracketed : e.isBracketed = bracketed := by rw [Entry.isBracketed, hitem]
  have hbound := hread.bound
  have hchain := hread.chain.le
  have hstart := hread.start_le
  have hstop := hread.le_stop
  obtain ⟨edits, b, hitems, hsplices⟩ :=
    revisePart_items hm hlist hunit hread.chain hprint hbelow
  have hframed := (hsplices.extend hstart).widen hstop (by omega)
  rw [Source.text_ofText] at hframed
  rw [Entry.told_list hitem]
  cases bracketed with
  | false =>
    obtain ⟨hinner, _⟩ := hread.plain hbracketed
    rw [hinner] at hitems
    rw [Entry.loadedParts, hitem]
    simp only [reviseParts]
    refine ⟨_, b, .bind hitems (.pure b ()), ?_⟩
    rw [List.append_nil]
    exact hframed
  | true =>
    obtain ⟨hinner, houter, hopen, hclose⟩ := hread.bracketed hbracketed
    have hfirst := @revisePart_constant text separator r m print unit _ _ e.node
      ((Source.ofText text).place e.start) fun u (hu : Standing text separator r m u) =>
        hopen ▸ hu.sourceText (Nat.le_add_right e.start 1) (by omega)
    have hlast := @revisePart_constant text separator r m print unit _ _ e.node b
      fun u (hu : Standing text separator r m u) =>
        hclose ▸ hu.sourceText (Nat.le_add_right e.outer 1) (by omega)
    rw [stop_window (by omega) (by omega), ← hinner] at hfirst
    rw [houter] at hlast
    rw [Entry.loadedParts, hitem]
    simp only [reviseParts]
    refine ⟨_, _, .bind_nil hfirst (.bind hitems (.bind_nil hlast (.pure _ ()))), ?_⟩
    rw [List.append_nil]
    exact hframed

/-- The place where a revision ended is no matter to the tree. -/
theorem Standing.keepEnd {t : Tree Model Nat} (h : Standing text separator r m t) (id : Nat)
    (cursor : Position) : Standing text separator r m
      (t.modify id fun n => n.mapPlace fun p => { p with insertion := cursor }) := by
  have htied := h.tied.of_sameTies (SameTies.modify t id
    (g := fun n => n.mapPlace fun p => { p with insertion := cursor })
    fun n => .mapPlace n (fun _ => rfl) fun _ => rfl)
  refine ⟨h.language, h.source, h.settings, htied, by rw [size_modify]; exact h.size,
    fun {d} hd => ?_, fun {x n} hx hn => ?_⟩
  · obtain ⟨n, hn, hloaded, hchildren⟩ := h.loaded hd
    rw [getElem?_modify, hn]
    split
    · obtain ⟨p, hp, hlocated, hbefore, hbehind⟩ := hloaded.place
      refine ⟨_, rfl, ⟨⟨hloaded.sits.object, hloaded.sits.ancestors, hloaded.sits.children, ?_⟩,
        hloaded.parts, { p with insertion := cursor }, by rw [Node.place_mapPlace, hp]; rfl, hlocated,
        hbefore, hbehind⟩, hchildren⟩
      have hspan := hloaded.sits.span
      rw [Node.span?, hp] at hspan
      rw [Node.span?, Node.place_mapPlace, hp]
      exact hspan
    · exact ⟨n, rfl, hloaded, hchildren⟩
  · rcases modify_cases hn with ⟨k, _, hk, rfl⟩ | ⟨_, hn⟩
    · have hfresh := h.fresh hx hk
      exact ⟨(Node.isLocated_mapPlace k (g := fun p => { p with insertion := cursor })
        fun _ => rfl).trans hfresh.unlocated, hfresh.layout, hfresh.children⟩
    · exact h.fresh hx hn

/-- The patch of an entry, when the entries below print as they should. -/
theorem patchOf_told {print : Nat → Margin → Job Model Nat Text} (hm : Edition text r m)
    (hlist : r.Holds e)
    (hprint : ∀ unit : Margin, unit.level = 0 → ∀ c ∈ e.items, c.address ∈ m.items e.address →
      Runs (Standing text separator r m) (print c.node unit) (e.body text separator m c.address)
        (Standing text separator r m))
    (hbelow : ∀ unit : Margin, unit.level = 0 → ∀ x ∈ m.items e.address,
      Runs (Standing text separator r m) (printBelow print m e.node x unit)
        (some (e.body text separator m x)) (Standing text separator r m))
    {t : Tree Model Nat} (ht : Standing text separator r m t) :
    ∃ n p, t.nodes[e.node]? = some n ∧ n.located? = some p ∧ p.span = e.span text ∧
      ∃ patch t', patchOf print m e.node n.parts p t = .ok patch t' ∧
        patch.text = .ok (e.told text separator m) ∧ Standing text separator r m t' := by
  have hcount := Source.charCount_ofText text
  obtain ⟨n, hn, hloaded, _⟩ := ht.loaded hlist
  obtain ⟨p, hp, hlocated, _, _⟩ := hloaded.place
  have hspan := hloaded.sits.span
  rw [Node.span?, hp, Option.map_some, Option.some.injEq] at hspan
  have hbounds := (hm.laid.holds hlist).1.bounds
  have hunit : t.settings.margin.level = 0 := rfl
  obtain ⟨edits, b, hrun, hsplices⟩ : ∃ edits b, Revises (Standing text separator r m)
      (reviseParts print m e.node t.settings.margin (e.loadedParts text separator))
      ((Source.ofText text).place e.start) () edits b ∧
        Patch.Splices (.ofText text) e.start e.stop edits (e.told text separator m) := by
    cases hitem : e.item with
    | word w => exact reviseParts_word hm hlist hunit hitem
    | list bytes bracketed items =>
      exact reviseParts_list hm hlist hunit hitem (hprint _ hunit) (hbelow _ hunit)
  obtain ⟨t', hparts, ht'⟩ := hrun t _ ht hsplices.compatible
  have hbase : Patch.ofBase t.source p.span =
      .ok ⟨.ofText text, window (.ofText text) e.start e.stop, []⟩ := by
    rw [ht.source, hspan, Entry.span]
    exact Patch.ofBase_eq_ok_iff.2 ⟨validateBounds_window hbounds.1 (by omega), rfl⟩
  have hstart : p.span.start = (Source.ofText text).place e.start := by
    rw [hspan, Entry.span, start_window hbounds.1 (by omega)]
  refine ⟨n, p, hn, Node.located?_eq_some.2 ⟨hp, hlocated⟩, hspan, _, _, ?_, hsplices.patch_text,
    ht'.keepEnd e.node b⟩
  unfold patchOf
  simp only [hbase, hloaded.parts, hstart, hparts]
  rfl

/-- Text that a bound is large enough for does not depend on the bound. -/
theorem Model.text_eq_shown {depth a : Nat} (h : m.Unfolds depth a)
    (h' : m.Unfolds m.cells.size a) : m.text separator depth a = m.shown separator a := by
  rcases Nat.le_total depth m.cells.size with hle | hle
  · exact (Model.text_of_unfolds h hle).symm
  · exact Model.text_of_unfolds h' hle

/-- An object below an entry that is printed from its source text. -/
theorem printBelow_body {print : Nat → Margin → Job Model Nat Text} (hm : Edition text r m)
    (he : Entry.Kept m r e) {unit : Margin}
    (hprint : ∀ c ∈ e.items, c.address ∈ m.items e.address →
      Runs (Standing text separator r m) (print c.node unit) (e.body text separator m c.address)
        (Standing text separator r m))
    (hfresh : ∀ x ∈ m.items e.address, ∀ id t n, Standing text separator r m t →
      r.item.cells ≤ id → t.nodes[id]? = some n → n.object = x → Sheltered r m t id x →
      ∃ t', print id unit t = .ok (m.shown separator x) t' ∧ Standing text separator r m t')
    {x : Nat} (hx : x ∈ m.items e.address) :
    Runs (Standing text separator r m) (printBelow print m e.node x unit)
      (some (e.body text separator m x)) (Standing text separator r m) := by
  intro t ht
  by_cases hitem : ∃ c ∈ e.items, c.address = x
  · obtain ⟨c, hc, rfl⟩ := hitem
    obtain ⟨t', hrun, ht'⟩ := hprint c hc hx t ht
    exact ⟨t', printBelow_of_getNode (ht.getNode_item he.holds hc) hrun, ht'⟩
  · have hother : ∀ c ∈ e.items, c.address ≠ x := fun c hc h => hitem ⟨c, hc, h⟩
    obtain ⟨id, u, hget, hu, hid, hsheltered, n, hn, hobject⟩ := ht.getNode_other hm he hx hother
    obtain ⟨t', hrun, ht'⟩ := hfresh x hx id u n hu hid hn hobject hsheltered
    rw [Entry.body_other hother]
    exact ⟨t', printBelow_of_getNode hget hrun, ht'⟩

variable (separator) in
/-- What is common to the objects below an entry, for a print function
that prints them. -/
theorem printWithin_below (hm : Edition text r m) (he : Entry.Kept m r e) (depth : Nat)
    (hdepth : ∀ x ∈ m.items e.address, m.Unfolds depth x)
    (hsize : m.Unfolds m.cells.size e.address)
    (hkept : ∀ c ∈ e.items, c.address ∈ m.items e.address → ∀ margin,
      Runs (Standing text separator r m) (printWithin m depth c.node margin)
        (c.told text separator m) (Standing text separator r m))
    (unit : Margin) (hunit : unit.level = 0) :
    (∀ c ∈ e.items, c.address ∈ m.items e.address →
      Runs (Standing text separator r m) (printWithin m depth c.node unit)
        (e.body text separator m c.address) (Standing text separator r m)) ∧
      ∀ x ∈ m.items e.address, Runs (Standing text separator r m)
        (printBelow (printWithin m depth) m e.node x unit) (some (e.body text separator m x))
        (Standing text separator r m) := by
  have hprint : ∀ c ∈ e.items, c.address ∈ m.items e.address →
      Runs (Standing text separator r m) (printWithin m depth c.node unit)
        (e.body text separator m c.address) (Standing text separator r m) := by
    intro c hc hlisted
    rw [Entry.body_item hc]
    exact hkept c hc hlisted unit
  refine ⟨hprint, fun x hx =>
    printBelow_body hm he hprint (fun y hy id t n ht hid hn hobject hsheltered => ?_) hx⟩
  subst hobject
  obtain ⟨t', hrun, ht', _⟩ :=
    Standing.printWithin_fresh hm depth id unit t n ht hid hn hsheltered (hdepth _ hy) hunit
  rw [Model.text_eq_shown (hdepth _ hy) (hsize.item hy)] at hrun
  exact ⟨t', hrun, ht'⟩

/-- An entry that is reached as it was read is printed from its source
text, by induction on the depth. -/
theorem printWithin_told (hm : Edition text r m) : ∀ (depth : Nat) (e : Entry) (margin : Margin),
    Entry.Kept m r e → m.Unfolds depth e.address → m.Unfolds m.cells.size e.address →
    Runs (Standing text separator r m) (printWithin m depth e.node margin)
      (e.told text separator m) (Standing text separator r m)
  | 0, _, _, _, hdepth, _ => hdepth.elim
  | depth + 1, e, margin, he, hdepth, hsize => by
    intro t ht
    have hbelow := printWithin_below separator hm he depth hdepth.2 hsize
      fun c hc hlisted margin => printWithin_told hm depth c margin (he.item hc hlisted)
        (hdepth.2 _ hlisted) (hsize.item hlisted)
    obtain ⟨n, p, hn, hlocated, _, patch, t', hrun, htext, ht'⟩ :=
      patchOf_told hm he.holds (fun unit hunit => (hbelow unit hunit).1)
        (fun unit hunit => (hbelow unit hunit).2) ht
    refine ⟨t', ?_, ht'⟩
    rw [printWithin_of_located hn hlocated]
    simp only [hrun, htext]

end Revise

end Reprint.WordList
