import Reprint.Proofs.WordList.History

/-!
# Edits of some items

A document is edited in some items only, none of which is in another one,
and all its items are separated.  Then a render gives the document with the
text of each of these items in its place, and nothing else is changed
(`printSource_local`).

* `Entry.spliced` is a piece of a text with other texts in the place of
  some entries.
* `Sites` says that a model is edited at some entries below others, which
  are given in the order of the text, and nowhere else.
* `Entry.told_spliced` is the induction over the entries: the edits of a
  list are collected level by level, and what comes out is a single splice.
-/

namespace Reprint.WordList

open Reprint.Tree

namespace Entry

/-- The text between two offsets with other texts in the place of some
entries. -/
def spliced (text : Text) (own : Entry → Text) : Nat → List Entry → Nat → Text
  | a, [], b => text.piece a b
  | a, e :: rest, b => text.piece a e.start ++ own e ++ spliced text own e.stop rest b

theorem spliced_append {text : Text} {own : Entry → Text} {first second : List Entry} {a b c : Nat}
    (hab : a ≤ b) (hbc : b ≤ c) (hfirst : ∀ e ∈ first, e.stop ≤ b)
    (hsecond : ∀ e ∈ second, b ≤ e.start) :
    spliced text own a first b ++ spliced text own b second c =
      spliced text own a (first ++ second) c := by
  induction first generalizing a with
  | nil =>
    cases second with
    | nil => exact Text.piece_append hab hbc
    | cons e rest =>
      rw [List.nil_append, spliced, spliced, spliced,
        ← Text.piece_append hab (hsecond e List.mem_cons_self)]
      simp only [List.append_assoc]
  | cons e rest ih =>
    rw [List.cons_append, spliced, spliced, List.append_assoc,
      ih (hfirst e List.mem_cons_self) fun f hf => hfirst f (List.mem_cons_of_mem e hf)]

/-- More of the text on both sides. -/
theorem spliced_around {text : Text} {own : Entry → Text} {sites : List Entry} {a b c d : Nat}
    (hab : a ≤ b) (hbc : b ≤ c) (hcd : c ≤ d) (hsites : ∀ e ∈ sites, b ≤ e.start ∧ e.stop ≤ c) :
    text.piece a b ++ spliced text own b sites c ++ text.piece c d = spliced text own a sites d := by
  have hbefore : text.piece a b ++ spliced text own b sites c = spliced text own a ([] ++ sites) c :=
    spliced_append hab hbc (fun e he => absurd he List.not_mem_nil) fun e he => (hsites e he).1
  have hbehind : spliced text own a sites c ++ text.piece c d = spliced text own a (sites ++ []) d :=
    spliced_append (Nat.le_trans hab hbc) hcd (fun e he => (hsites e he).2)
      fun e he => absurd he List.not_mem_nil
  rw [hbefore, List.nil_append, hbehind, List.append_nil]

/-- Entries that hold each other are the same. -/
theorem Holds.antisymm {e d : Entry} (h : e.Holds d) (h' : d.Holds e) : d = e := by
  have hle := h.node_le
  have hle' := h'.node_le
  exact h.eq_of_node (.refl e) (by omega)

/-- What is in an item that was read was read as an item, too, from within
it. -/
theorem Holds.fits {text : Text} {e d : Entry} (h : e.Holds d) (he : e.item.Fits text) :
    d.item.Fits text ∧ e.start ≤ d.start ∧ d.start < d.stop ∧ d.stop ≤ e.stop := by
  induction h with
  | refl e => exact ⟨he, Nat.le_refl _, he.lt.1, Nat.le_refl _⟩
  | @step e c d hmem _ ih =>
    have hlaid : e.IsLaid text := Or.inl he
    obtain ⟨hc, hstart, _, hstop⟩ := hlaid.item hmem
    obtain ⟨hd, hstart', hlt, hstop'⟩ := ih hc
    exact ⟨hd, by omega, hlt, by omega⟩

/-- Two entries that are numbered one behind the other hold nothing in
common. -/
theorem not_holds_of_numbered {c c' d : Entry} (h : c.node + c.item.cells ≤ c'.node)
    (hc : c.Holds d) : ¬ c'.Holds d := by
  intro hc'
  have hle := hc.node_le
  have hle' := hc'.node_le
  have := d.item.cells_pos
  omega

end Entry

/-- A model is edited at some entries below the given ones and nowhere else.
They are in the order of the text, and none of them is in another one. -/
structure Sites (m : Model) (tops sites : List Entry) : Prop where
  holds : ∀ e ∈ sites, ∃ c ∈ tops, c.Holds e
  nodup : sites.Nodup
  apart : ∀ e ∈ sites, ∀ f ∈ sites, e.Holds f → f = e
  ordered : sites.Pairwise fun e f => e.stop ≤ f.start
  untouched : ∀ c ∈ tops, ∀ d, c.Holds d → (∀ e ∈ sites, ¬ e.Holds d) →
    m.cells[d.address]? = some d.cell

namespace Sites

variable {text separator : Text} {m : Model} {e c : Entry} {tops more sites : List Entry}

/-- The edit of an entry as a whole. -/
theorem eq_singleton (h : Sites m [e] sites) (he : e ∈ sites) : sites = [e] := by
  have hall : ∀ f ∈ sites, f = e := by
    intro f hf
    obtain ⟨c, hc, hcf⟩ := h.holds f hf
    rw [List.mem_singleton] at hc
    exact h.apart e he f hf (hc ▸ hcf)
  have hnodup := h.nodup
  cases sites with
  | nil => cases he
  | cons f rest =>
    obtain rfl := hall f List.mem_cons_self
    cases rest with
    | nil => rfl
    | cons g _ =>
      obtain rfl := hall g (List.mem_cons_of_mem _ List.mem_cons_self)
      simp at hnodup

/-- An entry that is not edited as a whole has its own cell unchanged. -/
theorem cell (h : Sites m [e] sites) (he : e ∉ sites) : m.cells[e.address]? = some e.cell := by
  apply h.untouched e List.mem_cons_self e (.refl e)
  intro f hf hfe
  obtain ⟨c, hc, hcf⟩ := h.holds f hf
  rw [List.mem_singleton] at hc
  exact he (Entry.Holds.antisymm (hc ▸ hcf) hfe ▸ hf)

/-- The edits below an entry that is not edited as a whole are those below
its items. -/
theorem items (h : Sites m [e] sites) (he : e ∉ sites) : Sites m e.items sites where
  holds f hf := by
    obtain ⟨c, hc, hcf⟩ := h.holds f hf
    rw [List.mem_singleton] at hc
    subst hc
    cases hcf with
    | refl => exact absurd hf he
    | step hmem htail => exact ⟨_, hmem, htail⟩
  nodup := h.nodup
  apart := h.apart
  ordered := h.ordered
  untouched c hc d hcd := h.untouched e List.mem_cons_self d (.step hc hcd)

/-- Entries in the order of the text on both sides of an offset. -/
theorem exists_append {k : Nat} : ∀ {sites : List Entry},
    (sites.Pairwise fun e f => e.stop ≤ f.start) →
    (∀ f ∈ sites, f.start < f.stop ∧ (f.stop ≤ k ∨ k ≤ f.start)) →
    ∃ before behind, sites = before ++ behind ∧ (∀ f ∈ before, f.stop ≤ k) ∧
      ∀ f ∈ behind, k ≤ f.start
  | [], _, _ => ⟨[], [], rfl, fun _ hf => absurd hf List.not_mem_nil,
      fun _ hf => absurd hf List.not_mem_nil⟩
  | f :: rest, hordered, hsides => by
    rw [List.pairwise_cons] at hordered
    obtain ⟨hlt, hside⟩ := hsides f List.mem_cons_self
    rcases hside with hstop | hstart
    · obtain ⟨before, behind, rfl, hbefore, hbehind⟩ := exists_append hordered.2
        fun g hg => hsides g (List.mem_cons_of_mem f hg)
      refine ⟨f :: before, behind, rfl, fun g hg => ?_, hbehind⟩
      rcases List.mem_cons.1 hg with rfl | hg
      · exact hstop
      · exact hbefore g hg
    · refine ⟨[], f :: rest, rfl, fun _ hg => absurd hg List.not_mem_nil, fun g hg => ?_⟩
      rcases List.mem_cons.1 hg with rfl | hg
      · exact hstart
      · have := hordered.1 g hg
        omega

/-- The edits below the first of some entries, and those below the
others. -/
theorem split (h : Sites m (c :: more) sites)
    (hnumbered : ∀ d ∈ more, c.node + c.item.cells ≤ d.node) (hc : c.item.Fits text)
    (hmore : ∀ d ∈ more, d.item.Fits text ∧ c.stop ≤ d.start) :
    ∃ here rest, sites = here ++ rest ∧ Sites m [c] here ∧ Sites m more rest ∧
      (∀ f ∈ here, f.stop ≤ c.stop) ∧ ∀ f ∈ rest, c.stop ≤ f.start := by
  have hsides : ∀ f ∈ sites, f.start < f.stop ∧
      (c.Holds f ∧ f.stop ≤ c.stop ∨ (∃ d ∈ more, d.Holds f) ∧ c.stop ≤ f.start) := by
    intro f hf
    obtain ⟨d, hd, hdf⟩ := h.holds f hf
    rcases List.mem_cons.1 hd with rfl | hd
    · obtain ⟨_, _, hlt, hstop⟩ := hdf.fits hc
      exact ⟨hlt, Or.inl ⟨hdf, hstop⟩⟩
    · obtain ⟨hfits, hafter⟩ := hmore d hd
      obtain ⟨_, hstart, hlt, _⟩ := hdf.fits hfits
      exact ⟨hlt, Or.inr ⟨⟨d, hd, hdf⟩, by omega⟩⟩
  obtain ⟨here, rest, rfl, hhere, hrest⟩ := exists_append (k := c.stop) h.ordered fun f hf =>
    ⟨(hsides f hf).1, (hsides f hf).2.imp And.right And.right⟩
  have hbelow : ∀ f ∈ here, c.Holds f := by
    intro f hf
    obtain ⟨hlt, hside⟩ := hsides f (List.mem_append_left rest hf)
    rcases hside with ⟨hcf, _⟩ | ⟨_, hstart⟩
    · exact hcf
    · have := hhere f hf
      omega
  have hbehind : ∀ f ∈ rest, ∃ d ∈ more, d.Holds f := by
    intro f hf
    obtain ⟨hlt, hside⟩ := hsides f (List.mem_append_right here hf)
    rcases hside with ⟨_, hstop⟩ | ⟨hdf, _⟩
    · have := hrest f hf
      omega
    · exact hdf
  obtain ⟨hordered, hordered', _⟩ := List.pairwise_append.1 h.ordered
  obtain ⟨hnodup, hnodup', _⟩ := List.nodup_append.1 h.nodup
  refine ⟨here, rest, rfl, ?_, ?_, hhere, hrest⟩
  · refine ⟨fun f hf => ⟨c, List.mem_cons_self, hbelow f hf⟩, hnodup, fun e he f hf =>
      h.apart e (List.mem_append_left _ he) f (List.mem_append_left _ hf), hordered, ?_⟩
    intro x hx d hcd hnone
    rw [List.mem_singleton] at hx
    subst hx
    apply h.untouched x List.mem_cons_self d hcd
    intro f hf hfd
    rcases List.mem_append.1 hf with hf | hf
    · exact hnone f hf hfd
    · obtain ⟨y, hy, hyf⟩ := hbehind f hf
      exact Entry.not_holds_of_numbered (hnumbered y hy) hcd (hyf.trans hfd)
  · refine ⟨hbehind, hnodup', fun e he f hf =>
      h.apart e (List.mem_append_right _ he) f (List.mem_append_right _ hf), hordered', ?_⟩
    intro x hx d hxd hnone
    apply h.untouched x (List.mem_cons_of_mem _ hx) d hxd
    intro f hf hfd
    rcases List.mem_append.1 hf with hf | hf
    · exact Entry.not_holds_of_numbered (hnumbered x hx) ((hbelow f hf).trans hfd) hxd
    · exact hnone f hf hfd

end Sites

section Told

variable {text separator : Text} {m : Model} {body : Nat → Text}

/-- The items of a list all of which are separated, when each of them is a
splice. -/
theorem Entry.rowText_spliced {own : Entry → Text} {stop : Nat} : ∀ {row : List Entry} {first : Bool}
    {a : Nat} {sites : List Entry}, Chain text first row a stop →
    (row.Pairwise fun c d => c.node + c.item.cells ≤ d.node) →
    (∀ c ∈ row, gapOffsets text separator c.before c.start = []) → Sites m row sites →
    (∀ c ∈ row, ∀ here, Sites m [c] here →
      body c.address = spliced text own c.start here c.stop) →
    rowText text separator body stop a row = spliced text own a sites stop
  | [], _, a, sites, _, _, _, hsites, _ => by
    cases sites with
    | nil => rfl
    | cons e _ =>
      obtain ⟨_, hc, _⟩ := hsites.holds e List.mem_cons_self
      cases hc
  | c :: more, first, a, sites, hchain, hnumbered, hgaps, hsites, hbody => by
    have hpairs := hchain.pairwise
    have hmem := @Chain.mem text first _ a stop hchain
    rw [List.pairwise_cons] at hpairs hnumbered
    rw [Chain] at hchain
    obtain ⟨hahead, hfits, _, htail⟩ := hchain
    obtain ⟨here, rest, rfl, hhere, hrest, hstop, hstart⟩ := hsites.split hnumbered.1 hfits
      fun d hd => ⟨(hmem (List.mem_cons_of_mem c hd)).1, hpairs.1 d hd⟩
    have hmore := Entry.rowText_spliced htail hnumbered.2
      (fun d hd => hgaps d (List.mem_cons_of_mem c hd)) hrest
      fun d hd => hbody d (List.mem_cons_of_mem c hd)
    have hle := hahead.le
    have hlt : c.start < c.stop ∧ c.stop ≤ text.length := hfits.lt
    have hbegin : ∀ f ∈ here, c.start ≤ f.start := by
      intro f hf
      obtain ⟨d, hd, hdf⟩ := hhere.holds f hf
      rw [List.mem_singleton] at hd
      subst hd
      exact (hdf.fits hfits).2.1
    have hself : text.piece a c.start ++ spliced text own c.start here c.stop =
        spliced text own a ([] ++ here) c.stop :=
      spliced_append hle.1 (Nat.le_of_lt hlt.1) (fun f hf => absurd hf List.not_mem_nil) hbegin
    rw [rowText, hgaps c List.mem_cons_self, Text.pieceWith, hmore,
      hbody c List.mem_cons_self here hhere, hself, List.nil_append,
      spliced_append (by omega) htail.le.1 hstop hstart]

/-- The text of an entry is a splice of the texts of the entries that were
edited. -/
theorem Entry.told_spliced : ∀ (e : Entry) {sites : List Entry}, e.IsLaid text →
    e.item.unseparated text separator = [] → Sites m [e] sites →
    e.told text separator m = spliced text (told text separator m) e.start sites e.stop := by
  intro e
  induction e using Entry.induction with
  | h e ih =>
    intro sites hlaid hgaps hsites
    by_cases he : e ∈ sites
    · rw [hsites.eq_singleton he, spliced, spliced, Text.piece_self, Text.piece_self,
        List.nil_append, List.append_nil]
    have hbelow := hsites.items he
    cases hitem : e.item with
    | word w =>
      have hnone : sites = [] := by
        refine List.eq_nil_iff_forall_not_mem.2 fun f hf => ?_
        obtain ⟨c, hc, _⟩ := hbelow.holds f hf
        rw [items_word hitem] at hc
        cases hc
      rw [hnone, told_word_unedited (hsites.cell he) hlaid hitem, spliced]
    | list bytes bracketed items =>
      have hlist := hlaid.list hitem
      have hcell := hsites.cell he
      have hlisted : m.items e.address = e.itemCells := by
        rw [Entry.cell, hitem] at hcell
        exact Model.items_list hcell
      rw [hitem, Item.unseparated] at hgaps
      have hrow := items_list hitem
      have hspliced : rowText text separator (e.body text separator m) e.outer e.inner e.items =
          spliced text (told text separator m) e.inner sites e.outer := by
        apply rowText_spliced hlist.chain (e.pairwise_items.imp And.left) ?_ hbelow
        · intro c hc here hhere
          rw [body_item hc]
          apply ih c hc (Or.inl (hlaid.item hc).1) ?_ hhere
          rw [hrow] at hc
          exact Item.unseparated_of_mem (mem_row hc).2.2.2.2.2 hgaps
        · intro c hc
          rw [hrow] at hc
          exact Item.gapOffsets_of_mem hc hgaps
      have hwithin : ∀ f ∈ sites, e.inner ≤ f.start ∧ f.stop ≤ e.outer := by
        intro f hf
        obtain ⟨c, hc, hcf⟩ := hbelow.holds f hf
        obtain ⟨hfits, hstart, _, hstop⟩ := hlist.chain.mem hc
        obtain ⟨_, hstart', _, hstop'⟩ := hcf.fits hfits
        omega
      rw [told_row hlaid hitem hlisted, hspliced,
        spliced_around hlist.start_le hlist.chain.le.1 hlist.le_stop hwithin]

end Told

/-! ## Documents -/

section Document

variable {text separator : Text} {item : Item} {m : Model} {r e : Entry} {places sites : List Entry}

/-- An entry that is edited is still reached the way it was read. -/
theorem Sites.kept (h : Sites m [r] sites) (he : e ∈ sites) : Entry.Kept m r e := by
  have hbelow : ∀ {a d : Entry}, a.Holds d → d = e → Entry.Kept m r a → Entry.Kept m r e := by
    intro a d had
    induction had with
    | refl => exact fun heq ha => heq ▸ ha
    | @step a c d hmem htail ih =>
      intro heq ha
      subst heq
      apply ih rfl
      apply ha.item hmem
      have hcell : m.cells[a.address]? = some a.cell := by
        apply h.untouched r List.mem_cons_self a ha.holds
        intro f hf hfa
        -- An edited entry above would hold this one.
        obtain rfl := h.apart f hf d he (hfa.trans (.step hmem htail))
        have hle := hfa.node_le
        have hle' := htail.node_le
        have := (Entry.mem_items hmem).2.1
        omega
      cases hitem : a.item with
      | word w =>
        rw [Entry.items_word hitem] at hmem
        cases hmem
      | list bytes bracketed items =>
        rw [Entry.cell, hitem] at hcell
        rw [Model.items_list hcell]
        exact List.mem_map_of_mem hmem
  obtain ⟨c, hc, hce⟩ := h.holds e he
  rw [List.mem_singleton] at hc
  exact hbelow (hc ▸ hce) rfl .refl

/-- The first node that was made for the cell of an entry. -/
theorem Standing.find? {t : Tree Model Nat} (hm : Edition text r m)
    (h : Standing text separator r m t) (he : r.Holds e) : t.find? e.address = some e.node := by
  obtain ⟨n, hn, hloaded, _⟩ := h.loaded he
  obtain ⟨hlt, hget⟩ := Array.getElem?_eq_some_iff.1 hn
  refine Array.findIdx?_eq_some_iff_getElem.2 ⟨hlt, ?_, fun j hj => ?_⟩
  · rw [hget, hloaded.sits.object]
    exact decide_eq_true rfl
  · have hcells := hm.node_lt he
    obtain ⟨d, hd, hnode⟩ := r.exists_holds_node (show j < r.item.cells by omega)
    rw [hm.root, Nat.zero_add] at hnode
    subst hnode
    obtain ⟨k, hk, hloaded', _⟩ := h.loaded hd
    obtain ⟨_, hget'⟩ := Array.getElem?_eq_some_iff.1 hk
    rw [hget', hloaded'.sits.object]
    intro hsame
    obtain rfl := Entry.Holds.eq_of_address hd he (of_decide_eq_true hsame)
    omega

/-- Entries in the order of the text. -/
def inOrder (places : List Entry) : List Entry := places.mergeSort fun e f => e.start ≤ f.start

/-- Entries of a document none of which is in another one. -/
structure Separate (r : Entry) (places : List Entry) : Prop where
  holds : ∀ e ∈ places, r.Holds e
  nodup : places.Nodup
  apart : ∀ e ∈ places, ∀ f ∈ places, e.Holds f → f = e

/-- In the order of the text such entries come one behind the other. -/
theorem Separate.ordered (h : Separate (.ofItem item) places) (hread : readDocument text = .ok item) :
    (inOrder places).Pairwise fun e f => e.stop ≤ f.start := by
  have hperm : (inOrder places).Perm places := List.mergeSort_perm ..
  have hsorted : (inOrder places).Pairwise fun e f => decide (e.start ≤ f.start) = true := by
    apply List.pairwise_mergeSort
    · intro a b c hab hbc
      simp only [decide_eq_true_eq] at *
      omega
    · intro a b
      simp only [Bool.or_eq_true, decide_eq_true_eq]
      omega
  have hdistinct : (inOrder places).Pairwise (· ≠ ·) := hperm.nodup_iff.2 h.nodup
  refine (hsorted.and hdistinct).imp_of_mem fun {e f} he hf hef => ?_
  obtain ⟨hle, hne⟩ := hef
  have hle : e.start ≤ f.start := of_decide_eq_true hle
  have he := hperm.mem_iff.1 he
  have hf := hperm.mem_iff.1 hf
  have hlaid := laid_ofItem hread
  rcases Entry.apart hlaid (h.holds e he) (h.holds f hf) with hef | hfe | hbefore | hafter
  · exact absurd (h.apart e he f hf hef).symm hne
  · rcases (h.holds e he).exists_of_mem_lineage (List.mem_cons_of_mem _ hfe) with hnone | ⟨a, ha, hae, hnode⟩
    · cases hnone
    · obtain rfl := ha.eq_of_node (h.holds f hf) hnode
      exact absurd (h.apart a hf e he hae) hne
  · -- Only the document itself may be empty, and it holds the other entry.
    rcases (h.holds f hf).cases_last with rfl | ⟨c, hc, hfc⟩
    · exact absurd (h.apart _ hf e he (h.holds e he)) hne
    · have hlt := ((hlaid.holds hc).1.item hfc).2.2.1
      omega
  · exact hafter

/-- A document whose items are all separated is edited below some entries
and nowhere else, and items that were read stay in their lists.  Then all
renders succeed.  They give the document with the text that each of the
entries has on its own in its place, and nothing else is changed.  The text
of a word is its name with its mark. -/
theorem printSource_local (hread : readDocument text = .ok item)
    (hgaps : item.unseparated text separator = []) (hm : (Model.ofItem item).Edited m)
    (hrenderable : Renderable (.ofItem item) m) (hplaces : Separate (.ofItem item) places)
    (hrest : ∀ d, (Entry.ofItem item).Holds d → (∀ e ∈ places, ¬ e.Holds d) →
      m.cells[d.address]? = some d.cell) :
    ∃ t, ofSource (language text separator) (.ofItem item) text (Model.ofItem item).root = .ok t ∧
      ∃ own : Entry → Text,
        (∀ u, Rendered m t u →
          (∃ v, printSource m u =
            .ok (Entry.spliced text own 0 (inOrder places) text.length) v) ∧
          ∀ e ∈ places, u.find? e.address = some e.node ∧
            ∀ margin, ∃ v, print m e.node margin u = .ok (own e) v) ∧
        ∀ e ∈ places, ∀ w, e.item = .word w →
          own e = m.name e.address ++ markText (m.loudness e.address) := by
  obtain ⟨t, hload, ht⟩ := @ofSource_standing _ separator _ hread m
  have hedition := hrenderable.atHome.edition hread hm
  have hsize := hm.unfolds hrenderable.acyclic
  have hlaid := laid_ofItem hread
  have hperm : (inOrder places).Perm places := List.mergeSort_perm ..
  have hsites : Sites m [.ofItem item] (inOrder places) := {
    holds := fun e he => ⟨_, List.mem_cons_self, hplaces.holds e (hperm.mem_iff.1 he)⟩
    nodup := hperm.nodup_iff.2 hplaces.nodup
    apart := fun e he f hf => hplaces.apart e (hperm.mem_iff.1 he) f (hperm.mem_iff.1 hf)
    ordered := hplaces.ordered hread
    untouched := fun c hc d hcd hnone => by
      rw [List.mem_singleton] at hc
      subst hc
      exact hrest d hcd fun e he => hnone e (hperm.mem_iff.2 he) }
  have hbounds := hlaid.bounds
  have htold : toldSource text separator m (.ofItem item) =
      Entry.spliced text (Entry.told text separator m) 0 (inOrder places) text.length := by
    rw [toldSource, Entry.told_spliced _ hlaid hgaps hsites]
    apply Entry.spliced_around (Nat.zero_le _) hbounds.1 hbounds.2
    intro e he
    exact (hlaid.holds (hplaces.holds e (hperm.mem_iff.1 he))).2
  refine ⟨t, hload, Entry.told text separator m, fun u hu => ?_, fun e _ w hitem =>
    Entry.told_word hitem⟩
  have hstanding := ht.rendered hedition hsize hu
  refine ⟨?_, fun e he => ⟨hstanding.find? hedition (hplaces.holds e he), fun margin => ?_⟩⟩
  · obtain ⟨v, hrun, _⟩ := printSource_told hedition hsize u hstanding
    exact ⟨v, by rw [← htold]; exact hrun⟩
  · have hkept := hsites.kept (hperm.mem_iff.2 he)
    have hunfolds := hsize.reaches hkept.reaches
    obtain ⟨v, hrun, _⟩ := printWithin_told hedition (u.depthBound m) e margin hkept
      (hstanding.unfolds_depthBound hunfolds) hunfolds u hstanding
    exact ⟨v, hrun⟩

/-- The items of one list are separate. -/
theorem separate_items (e : Entry) : Separate e e.items where
  holds c hc := .step hc (.refl c)
  nodup := by
    apply List.Pairwise.imp _ e.pairwise_items
    intro c d hnumbered hsame
    subst hsame
    exact Entry.not_holds_of_numbered hnumbered.1 (.refl c) (.refl c)
  apart c hc d hd hcd := by
    rcases Entry.siblings hc hd with rfl | hnumbered | hnumbered
    · rfl
    · exact absurd (.refl d) (Entry.not_holds_of_numbered hnumbered.1 hcd)
    · exact absurd hcd (Entry.not_holds_of_numbered hnumbered.1 (.refl d))

/-- The edits of both items of a document: the word gets another name and a
mark, and the list a new word. -/
def bothEdited : Model :=
  changed (.ofItem wordAndListItem) [.change (.rename 0 ['x', '\n']),
    .change (.setLoudness 0 (some true)), .change (.assign 2 [.word ['n'] none, .cell 1])]

theorem edited_bothEdited : (Model.ofItem wordAndListItem).Edited bothEdited := by
  have hold : 1 < 4 := by decide
  have hmarked : (Model.ofItem wordAndListItem).Edited
      (((Model.ofItem wordAndListItem).rename 0 ['x', '\n']).setLoudness 0 (some true)) :=
    .setLoudness (.rename (.refl _) _ _) _ _
  exact @Change.edited _ _ hmarked (.assign 2 [.word ['n'] none, .cell 1]) ⟨trivial, hold, trivial⟩

/-- Both items are printed in their places. -/
theorem printSource_bothEdited :
    ∃ t, ofSource (language wordAndList [',']) (.ofItem wordAndListItem) wordAndList
        (Model.ofItem wordAndListItem).root = .ok t ∧
      ∃ own : Entry → Text,
        (∀ u, Rendered bothEdited t u →
          (∃ v, printSource bothEdited u = .ok (Entry.spliced wordAndList own 0
            (inOrder (Entry.ofItem wordAndListItem).items) wordAndList.length) v) ∧
          ∀ e ∈ (Entry.ofItem wordAndListItem).items, u.find? e.address = some e.node ∧
            ∀ margin, ∃ v, print bothEdited e.node margin u = .ok (own e) v) ∧
        ∀ e ∈ (Entry.ofItem wordAndListItem).items, ∀ w, e.item = .word w →
          own e = bothEdited.name e.address ++ markText (bothEdited.loudness e.address) := by
  apply printSource_local readDocument_wordAndList (by decide +kernel) edited_bothEdited
  · exact .of_rank undoneRank (by decide)
  · exact separate_items _
  · intro d hd hnone
    cases hd with
    | refl => rfl
    | step hmem htail => exact absurd htail (hnone _ hmem)

end Document

end Reprint.WordList
