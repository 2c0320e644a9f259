import Reprint.Proofs.WordList.Search

/-!
# The located tree of a document

`Loaded` says what locating a document makes of the node of an entry: the
parts have their places (`Entry.loadedParts`), and the delimiter in front
is the last separator between the entry and the one before it, if there is
one (`Entry.lead`).

* `Retains` compares a tree with a later one: nodes keep their spans, and
  new marks lie within a piece of the text.  So a search elsewhere is not
  disturbed (`Unmarked.retain`).
* `locateItems_loaded` is the loop over the items of a list, and
  `locateWithin_visited` the induction over the entries.
* `locate_loaded` is the result for a whole document.
-/

namespace Reprint.WordList

open Reprint.Tree

/-! ## What is found of an entry -/

/-- A literal that was found where it is. -/
def foundPart (wording : Wording Model) (span : Span) : Part Model Nat :=
  .literal { extent := some span } wording { span? := some span }

/-- The mark of a word after it was located. -/
def markLoaded (address : Nat) (loudness : Option Bool) (span : Span) : Part Model Nat :=
  let isLoud (m : Model) : Bool := m.loudness address = some true
  let isQuiet (m : Model) : Bool := m.loudness address = some false
  match loudness with
  | some true =>
    .choice { extent := some span } isLoud (foundPart (.constant ['!']) span)
      (some (.either isQuiet (.constant ['?']) (some (.constant [])))) (some true)
  | some false =>
    .choice { extent := some span } isLoud (.constant ['!'])
      (some (.choice { extent := some span } isQuiet (foundPart (.constant ['?']) span)
        (some (.constant [])) (some true))) (some false)
  | none =>
    .choice {} isLoud (.constant ['!'])
      (some (.choice {} isQuiet (.constant ['?']) (some (.constant [])) (some false))) (some false)

namespace Entry

/-- The delimiter in front of an item: the last separator behind the item
before. -/
def lead (text separator : Text) (e : Entry) : Delimiter :=
  match e.before with
  | none => .empty
  | some a =>
    if separator.isEmpty then .empty
    else
      match text.lastMatch separator a e.start with
      | some p => .present separator (window (.ofText text) p e.start)
      | none => .missing separator

/-- The offset where an item starts together with its delimiter. -/
def cut (text separator : Text) (e : Entry) : Nat :=
  match e.before with
  | none => e.start
  | some a =>
    if separator.isEmpty then e.start else (text.lastMatch separator a e.start).getD e.start

/-- What the delimiter in front of an item can be: empty because there is
no item before or no separator, missing, or present. -/
theorem lead_cases (text separator : Text) (e : Entry) :
    e.lead text separator = .empty ∧ e.cut text separator = e.start ∧
        (e.before = none ∨ separator = []) ∨
      (∃ a, e.lead text separator = .missing separator ∧ e.cut text separator = e.start ∧
        e.before = some a ∧ separator ≠ [] ∧ text.lastMatch separator a e.start = none) ∨
      ∃ a p, e.lead text separator = .present separator (window (.ofText text) p e.start) ∧
        e.cut text separator = p ∧ e.before = some a ∧ separator ≠ [] ∧ a ≤ p ∧
        p + separator.length ≤ e.start ∧ text.piece p (p + separator.length) = separator := by
  unfold lead cut
  cases e.before with
  | none => exact Or.inl ⟨rfl, rfl, Or.inl rfl⟩
  | some a =>
    dsimp only
    by_cases hempty : separator = []
    · rw [if_pos (by simp [hempty]), if_pos (by simp [hempty])]
      exact Or.inl ⟨rfl, rfl, Or.inr hempty⟩
    · rw [if_neg (by simp [hempty]), if_neg (by simp [hempty])]
      right
      cases hmatch : text.lastMatch separator a e.start with
      | none => exact Or.inl ⟨a, rfl, rfl, rfl, hempty, hmatch⟩
      | some p =>
        obtain ⟨hap, hp, hpiece⟩ := Text.lastMatch_eq_some hmatch
        exact Or.inr ⟨a, p, rfl, rfl, rfl, hempty, hap, hp, hpiece⟩

/-- An item of a list as it was found. -/
def listing (separator : Text) (c : Entry) : ListedItem Nat :=
  ⟨c.address, c.node, if c.before.isNone then [] else separator, []⟩

/-- The list of the items after it was located. -/
def loadedList (separator : Text) (e : Entry) : ItemList Model Nat :=
  { itemsList e.address with listed := e.items.map (listing separator) }

/-- The piece of the source that the items cover. -/
def itemsExtent (text : Text) (e : Entry) : Option Span :=
  (e.items.head?).map fun c => window (.ofText text) c.start (rowStop e.inner e.items)

/-- The items after they were located. -/
def loadedItems (text separator : Text) (e : Entry) : Part Model Nat :=
  .items { itemsFrame separator with extent := e.itemsExtent text } (e.loadedList separator)

/-- The parts of an entry after it was located. -/
def loadedParts (text separator : Text) (e : Entry) : List (Part Model Nat) :=
  match e.item with
  | .word w =>
    [foundPart (.computed fun m => m.name e.address)
        (window (.ofText text) w.nameBytes.1 w.nameBytes.2),
      markLoaded e.address w.loudness (window (.ofText text) w.nameBytes.2 w.bytes.2)]
  | .list _ true _ =>
    [foundPart (.constant ['[']) (window (.ofText text) e.start e.inner),
      e.loadedItems text separator,
      foundPart (.constant [']']) (window (.ofText text) e.outer e.stop)]
  | .list _ false _ => [e.loadedItems text separator]

end Entry

/-- A node of an entry that was located, with the delimiter in front. -/
structure Loaded (text separator : Text) (e : Entry) (before : Delimiter) (n : Node Model Nat) :
    Prop where
  sits : e.Sits text n
  parts : n.parts = e.loadedParts text separator
  place : ∃ p, n.place = some p ∧ p.located = true ∧ p.before = before ∧ p.behind = .empty

/-! ## What stays while a document is located -/

/-- The tree with one more mark. -/
def withMark (t : Tree Model Nat) (owner : Nat) (role : Role) (span : Span) : Tree Model Nat :=
  { t with marks := t.marks ++ [⟨owner, role, span⟩] }

/-- Nodes keep what ties them to their entries, and new marks lie between
two offsets. -/
structure Retains (text : Text) (a b : Nat) (t t' : Tree Model Nat) : Prop where
  same : t' = { t with nodes := t'.nodes, marks := t'.marks }
  size : t'.nodes.size = t.nodes.size
  node : ∀ {x : Nat} {n : Node Model Nat}, t.nodes[x]? = some n → ∃ n', t'.nodes[x]? = some n' ∧
    n'.object = n.object ∧ n'.ancestors = n.ancestors ∧ n'.children = n.children ∧
      n'.span? = n.span?
  marks : ∃ new, t'.marks = t.marks ++ new ∧ ∀ mark ∈ new, ∃ c d,
    mark.span = window (.ofText text) c d ∧ a ≤ c ∧ c ≤ d ∧ d ≤ b ∧ d ≤ text.length

namespace Retains

variable {text : Text} {a b c d : Nat} {t u v : Tree Model Nat}

theorem refl (text : Text) (a b : Nat) (t : Tree Model Nat) : Retains text a b t t :=
  ⟨rfl, rfl, fun hn => ⟨_, hn, rfl, rfl, rfl, rfl⟩, [], by simp, fun _ h => by cases h⟩

theorem mono (h : Retains text a b t u) (hca : c ≤ a) (hbd : b ≤ d) : Retains text c d t u := by
  obtain ⟨new, hnew, hmarks⟩ := h.marks
  refine ⟨h.same, h.size, h.node, new, hnew, fun mark hmark => ?_⟩
  obtain ⟨x, y, hspan, hax, hxy, hyb, hy⟩ := hmarks mark hmark
  exact ⟨x, y, hspan, by omega, hxy, by omega, hy⟩

theorem trans (htu : Retains text a b t u) (huv : Retains text a b u v) : Retains text a b t v := by
  obtain ⟨new, hnew, hmarks⟩ := htu.marks
  obtain ⟨new', hnew', hmarks'⟩ := huv.marks
  refine ⟨?_, huv.size.trans htu.size, fun hn => ?_, new ++ new', ?_, fun mark hmark => ?_⟩
  · have hsame := huv.same
    rw [htu.same] at hsame
    exact hsame
  · obtain ⟨n', hn', hobject, hancestors, hchildren, hspan⟩ := htu.node hn
    obtain ⟨n'', hn'', hobject', hancestors', hchildren', hspan'⟩ := huv.node hn'
    exact ⟨n'', hn'', hobject'.trans hobject, hancestors'.trans hancestors,
      hchildren'.trans hchildren, hspan'.trans hspan⟩
  · rw [hnew', hnew, List.append_assoc]
  · rcases List.mem_append.1 hmark with hmark | hmark
    · exact hmarks mark hmark
    · exact hmarks' mark hmark

/-- One more mark. -/
theorem mark (t : Tree Model Nat) (owner : Nat) (role : Role) (hab : a ≤ b) (hb : b ≤ text.length) :
    Retains text a b t (withMark t owner role (window (.ofText text) a b)) := by
  refine ⟨rfl, rfl, fun hn => ⟨_, hn, rfl, rfl, rfl, rfl⟩, _, rfl, fun mark hmark => ?_⟩
  rw [List.mem_singleton] at hmark
  exact ⟨a, b, by rw [hmark], Nat.le_refl a, hab, Nat.le_refl b, hb⟩

/-- A change of what was found of a node. -/
theorem modify (text : Text) (a b : Nat) (t : Tree Model Nat) (id : Nat)
    {g : Node Model Nat → Node Model Nat} (hg : ∀ n, (g n).object = n.object ∧
      (g n).ancestors = n.ancestors ∧ (g n).children = n.children ∧ (g n).span? = n.span?) :
    Retains text a b t (t.modify id g) := by
  refine ⟨rfl, by simp, fun {x n} hn => ?_, [], by simp, fun _ h => by cases h⟩
  rw [getElem?_modify, hn]
  split
  · exact ⟨g n, rfl, hg n⟩
  · exact ⟨n, rfl, rfl, rfl, rfl, rfl⟩

end Retains

/-- The nodes stay those of the entries. -/
theorem Seated.retain {text separator : Text} {r : Entry} {a b : Nat} {t t' : Tree Model Nat}
    (h : Seated text separator r t) (hretains : Retains text a b t t') :
    Seated text separator r t' where
  laid := h.laid
  language := by
    rw [hretains.same]
    exact h.language
  source := by
    rw [hretains.same]
    exact h.source
  root := h.root
  top := h.top
  size := hretains.size.trans h.size
  sits he := by
    obtain ⟨n, hn, hsits⟩ := h.sits he
    obtain ⟨n', hn', hobject, hancestors, hchildren, hspan⟩ := hretains.node hn
    exact ⟨n', hn', hobject.trans hsits.object, hancestors.trans hsits.ancestors,
      hchildren ▸ hsits.children, hspan.trans hsits.span⟩

/-- Text elsewhere stays without marks. -/
theorem Unmarked.retain {text : Text} {a b c d : Nat} {t t' : Tree Model Nat}
    (h : Unmarked text t c d) (hretains : Retains text a b t t') (hapart : b ≤ c ∨ d ≤ a) :
    Unmarked text t' c d := by
  obtain ⟨new, hnew, hmarks⟩ := hretains.marks
  intro mark hmark
  rw [hnew, List.mem_append] at hmark
  rcases hmark with hmark | hmark
  · exact h mark hmark
  · obtain ⟨x, y, hspan, hax, hxy, hyb, hy⟩ := hmarks mark hmark
    exact ⟨x, y, hspan, hxy, hy, by omega⟩

/-! ## Literals -/

section Locate

variable {text separator : Text} {r e : Entry} {t : Tree Model Nat} {m : Model}
  (descend : Nat → Job Model Nat Unit)

/-- No delimiter has to be searched for. -/
theorem locateDelimiter_nil (t : Tree Model Nat) (owner : Nat) (boundary : Position) (role : Role) :
    t.locateDelimiter owner boundary [] role = .ok (.empty, t) := rfl

/-- A literal that is pinned, or that a search finds. -/
theorem locatePart_found (h : Seated text separator r t) (he : r.Holds e) {a b : Nat}
    (hstart : e.start ≤ a) (hab : a < b) (hstop : b ≤ e.stop) (wording : Wording Model)
    {span? : Option Span} (cursor : Position)
    (hspan : span? = some (window (.ofText text) a b) ∨ span? = none ∧ wording.text m ≠ [] ∧
      t.findForward e.node cursor (wording.text m) = .ok (some (window (.ofText text) a b))) :
    locatePart descend m e.node (.literal {} wording { span? := span? }) ⟨t, cursor, none⟩ =
      (foundPart wording (window (.ofText text) a b),
        ⟨withMark t e.node .literal (window (.ofText text) a b), (Source.ofText text).place b, none⟩) := by
  have hbound := (h.laid.holds he).1.bounds
  have hcount := Source.charCount_ofText text
  have hempty : (window (.ofText text) a b).isEmpty = false := by
    rw [← Bool.not_eq_true, isEmpty_window (Nat.le_of_lt hab) (by omega)]
    omega
  have hmark := h.mark he .literal hstart (Nat.le_of_lt hab) hstop
  have hcursor : (Delimiter.empty).stopBehind (window (.ofText text) a b) =
      (Source.ofText text).place b := stop_window (Nat.le_of_lt hab) (by omega)
  have hliteral : locateLiteral ⟨t, cursor, none⟩ e.node {} (wording.text m) { span? := span? } =
      .ok (⟨some (window (.ofText text) a b), .empty, .empty⟩,
        ⟨withMark t e.node .literal (window (.ofText text) a b),
          (Source.ofText text).place b, none⟩) := by
    rcases hspan with rfl | ⟨rfl, hne, hfind⟩
    · simp only [locateLiteral, bind, Except.bind, pure, Except.pure, hempty, hmark, locateAround,
        Frame.leadText, Frame.trailText, Option.getD_none, locateDelimiter_nil, hcursor, withMark,
        Bool.false_eq_true, if_false]
    · have hnil : (wording.text m).isEmpty = false := by simpa using hne
      simp only [locateLiteral, bind, Except.bind, pure, Except.pure, hnil, hfind, hempty, hmark,
        locateAround, Frame.leadText, Frame.trailText, Option.getD_none, locateDelimiter_nil, hcursor,
        withMark, Bool.false_eq_true, if_false]
  simp only [locatePart, hliteral]
  rfl

/-- A character that is searched for from the cursor on. -/
theorem locatePart_char (h : Seated text separator r t) (he : r.Holds e) {a b : Nat} {ch : Char}
    (hstart : e.start ≤ a) (hab : a ≤ b) (hstop : b + 1 ≤ e.stop) (hmarks : Unmarked text t a (b + 1))
    (hitems : ∀ c ∈ e.items, c.stop ≤ a ∨ b + 1 ≤ c.start)
    (hother : ∀ j, a ≤ j → j < b → text.piece j (j + 1) ≠ [ch])
    (hmatch : text.piece b (b + 1) = [ch]) :
    locatePart descend m e.node (.constant [ch]) ⟨t, (Source.ofText text).place a, none⟩ =
      (foundPart (.constant [ch]) (window (.ofText text) b (b + 1)),
        ⟨withMark t e.node .literal (window (.ofText text) b (b + 1)),
          (Source.ofText text).place (b + 1), none⟩) := by
  have hfind := h.findForward he hstart hab hstop hmarks hitems hother hmatch
  rw [h.source] at hfind
  exact locatePart_found descend h he (by omega) (Nat.lt_succ_self b) hstop _ _
    (Or.inr ⟨rfl, List.cons_ne_nil _ _, hfind⟩)

/-! ## Words -/

/-- The name of a word is pinned where it was read. -/
theorem namePart_pinned (hascii : text.IsAscii) {w : Word} (hw : w.Fits text) (address : Nat) :
    namePart text address (some w) = .literal {} (.computed fun m => m.name address)
      { span? := some (window (.ofText text) w.nameBytes.1 w.nameBytes.2) } := by
  have hspan : spanOfBytes text w.nameBytes =
      .ok (window (.ofText text) w.nameBytes.1 w.nameBytes.2) := by
    have horder := hw.order
    have hstop := hw.stop
    have hbound := hw.bound
    unfold spanOfBytes
    rw [Text.spanOfBytes_eq hascii (Nat.le_of_lt horder) (by omega)]
    rfl
  simp only [namePart, Option.map_some, hspan]
  rfl

/-- The mark of a word is found right behind its name. -/
theorem locatePart_mark (h : Seated text separator r t) (he : r.Holds e) {w : Word}
    (hitem : e.item = .word w) (hm : m.loudness e.address = w.loudness)
    (hmarks : Unmarked text t w.nameBytes.2 w.bytes.2) :
    ∃ t', locatePart descend m e.node (markPart e.address)
        ⟨t, (Source.ofText text).place w.nameBytes.2, none⟩ =
        (markLoaded e.address w.loudness (window (.ofText text) w.nameBytes.2 w.bytes.2),
          ⟨t', (Source.ofText text).place w.bytes.2, none⟩) ∧
      t'.nodes = t.nodes ∧ Retains text w.nameBytes.2 w.bytes.2 t t' := by
  have hw := (h.laid.holds he).1.word hitem
  have hstart : e.start = w.bytes.1 := by rw [Entry.start, hitem, Item.bytes]
  have hstop : e.stop = w.bytes.2 := by rw [Entry.stop, hitem, Item.bytes]
  have hnostart := hw.start
  have horder := hw.order
  have hlength := hw.stop
  have hmark := hw.mark
  have hnone : ∀ c ∈ e.items, c.stop ≤ w.nameBytes.2 ∨ w.nameBytes.2 + 1 ≤ c.start := by
    intro c hc
    rw [Entry.items_word hitem] at hc
    cases hc
  have hchar : ∀ ch : Char, w.bytes.2 = w.nameBytes.2 + 1 →
      text.piece w.nameBytes.2 w.bytes.2 = [ch] →
      locatePart descend m e.node (.constant [ch])
        ⟨t, (Source.ofText text).place w.nameBytes.2, none⟩ =
        (foundPart (.constant [ch]) (window (.ofText text) w.nameBytes.2 w.bytes.2),
          ⟨withMark t e.node .literal (window (.ofText text) w.nameBytes.2 w.bytes.2),
            (Source.ofText text).place w.bytes.2, none⟩) := by
    intro ch hsucc hpiece
    rw [hsucc] at hpiece hmarks ⊢
    exact locatePart_char descend h he (by omega) (Nat.le_refl _) (by omega) hmarks hnone
      (fun j hj hj' => absurd hj' (Nat.not_lt.2 hj)) hpiece
  have hretains := Retains.mark t e.node .literal (show w.nameBytes.2 ≤ w.bytes.2 by omega) hw.bound
  rcases hloudness : w.loudness with _ | _ | _ <;> rw [hloudness] at hm hlength hmark
  · have hsame : w.bytes.2 = w.nameBytes.2 := by simpa [markText] using hlength
    refine ⟨t, ?_, rfl, .refl _ _ _ _⟩
    simp [markPart, Part.either, locatePart, hm, markLoaded, Part.constant, Survey.isRunning, hsame,
      locateLiteral, Wording.text, pure, Except.pure, bind, Except.bind, Part.settle, LiteralPlace.extent, Part.frame, Delimiter.span?]
  · have hpart := hchar '?' hlength hmark
    refine ⟨withMark t e.node .literal (window (.ofText text) w.nameBytes.2 w.bytes.2), ?_, rfl,
      hretains⟩
    simp [markPart, Part.either, locatePart, hm, hpart, markLoaded, Survey.isRunning, Part.settle,
      foundPart, Part.frame]
  · have hpart := hchar '!' hlength hmark
    refine ⟨withMark t e.node .literal (window (.ofText text) w.nameBytes.2 w.bytes.2), ?_, rfl,
      hretains⟩
    simp [markPart, Part.either, locatePart, hm, hpart, markLoaded, Survey.isRunning, Part.settle,
      foundPart, Part.frame]

/-- The parts of a word. -/
theorem locateParts_word (hascii : text.IsAscii) (h : Seated text separator r t) (he : r.Holds e)
    {w : Word} (hitem : e.item = .word w) (hm : m.loudness e.address = w.loudness)
    (hmarks : Unmarked text t e.start e.stop) (cursor : Position) :
    ∃ t', locateParts descend m e.node (e.parts text separator) ⟨t, cursor, none⟩ =
        (e.loadedParts text separator, ⟨t', (Source.ofText text).place e.stop, none⟩) ∧
      t'.nodes = t.nodes ∧ Retains text e.start e.stop t t' := by
  have hw := (h.laid.holds he).1.word hitem
  have hstart : e.start = w.bytes.1 := by rw [Entry.start, hitem, Item.bytes]
  have hstop : e.stop = w.bytes.2 := by rw [Entry.stop, hitem, Item.bytes]
  have hnamestart := hw.start
  have horder := hw.order
  have hlength := hw.stop
  have hbound := hw.bound
  have hname := locatePart_found descend (m := m) h he (show e.start ≤ w.nameBytes.1 by omega) horder
    (show w.nameBytes.2 ≤ e.stop by omega) (.computed fun m => m.name e.address) cursor (Or.inl rfl)
  have hretains := Retains.mark t e.node .literal (Nat.le_of_lt horder)
    (show w.nameBytes.2 ≤ text.length by omega)
  have hmarks' : Unmarked text (withMark t e.node .literal
      (window (.ofText text) w.nameBytes.1 w.nameBytes.2)) w.nameBytes.2 w.bytes.2 :=
    (hmarks.mono (by omega) (by omega)).retain hretains (Or.inl (Nat.le_refl _))
  obtain ⟨t', hmark, hnodes, hretains'⟩ :=
    locatePart_mark descend (h.retain hretains) he hitem hm hmarks'
  refine ⟨t', ?_, hnodes, (hretains.mono (by omega) (by omega)).trans
    (hretains'.mono (by omega) (by omega))⟩
  rw [Entry.parts, Entry.loadedParts, hitem, hstop]
  simp only [namePart_pinned hascii hw, locateParts, hname, hmark, Survey.isRunning,
    Option.isNone_none, if_true]

/-! ## Items -/

/-- The separator in front of an item. -/
theorem locateDelimiter_lead (h : Seated text separator r t) (he : r.Holds e) {c : Entry}
    (hc : c ∈ e.items)
    (hbefore : ∀ a, c.before = some a → a ≤ c.start ∧ Unmarked text t a c.start ∧
      (∃ d ∈ e.items, d.stop = a) ∧ ∀ d ∈ e.items, d.stop ≤ a ∨ c.start ≤ d.start) :
    ∃ t', t.locateDelimiter e.node ((Source.ofText text).place c.start)
        (if c.before.isNone then [] else separator) .lead = .ok (c.lead text separator, t') ∧
      t'.nodes = t.nodes ∧ Retains text (c.before.getD c.start) c.start t t' := by
  have hbound := (h.laid.holds (he.item hc)).1.bounds
  have hcount := Source.charCount_ofText text
  unfold Entry.lead
  cases ha : c.before with
  | none => exact ⟨t, rfl, rfl, .refl _ _ _ _⟩
  | some a =>
    obtain ⟨hle, hmarks, ⟨d, hd, rfl⟩, hitems⟩ := hbefore a ha
    rw [Option.isNone_some, if_neg Bool.false_ne_true, Option.getD_some]
    dsimp only
    by_cases hempty : separator = []
    · rw [hempty]
      exact ⟨t, rfl, rfl, .refl _ _ _ _⟩
    have hnil : separator.isEmpty = false := by simpa using hempty
    have hsearch := h.findBackward he hd hc hle hitems hmarks hempty
    rw [h.source] at hsearch
    rw [hnil, if_neg Bool.false_ne_true]
    cases hmatch : text.lastMatch separator d.stop c.start with
    | none =>
      rw [hmatch] at hsearch
      refine ⟨t, ?_, rfl, .refl _ _ _ _⟩
      simp only [locateDelimiter, hnil, hsearch, Option.map_none, bind, Except.bind, pure,
        Except.pure, Bool.false_eq_true, if_false]
    | some p =>
      rw [hmatch] at hsearch
      obtain ⟨hp, hp', _⟩ := Text.lastMatch_eq_some hmatch
      have hspan : Span.between (window (.ofText text) p (p + separator.length)).start
          ((Source.ofText text).place c.start) = window (.ofText text) p c.start := by
        rw [start_window (by omega) (by omega)]
        rfl
      have hitem := (h.laid.holds he).1.item hd
      have hitem' := (h.laid.holds he).1.item hc
      have hmark := h.mark he .lead (show e.start ≤ p by omega) (show p ≤ c.start by omega)
        (show c.start ≤ e.stop by omega)
      refine ⟨withMark t e.node .lead (window (.ofText text) p c.start), ?_, rfl,
        (Retains.mark t e.node .lead (by omega) (by omega)).mono hp (Nat.le_refl _)⟩
      simp only [locateDelimiter, hnil, hsearch, Option.map_some, hspan, hmark, bind, Except.bind,
        pure, Except.pure, Bool.false_eq_true, if_false, withMark]

/-- The piece that an item covers together with its separator. -/
theorem Loaded.extent {c : Entry} {n : Node Model Nat}
    (h : Loaded text separator c (c.lead text separator) n) (hc : c.start ≤ c.stop)
    (hbound : c.stop ≤ text.length) :
    n.extent = some (window (.ofText text) (c.cut text separator) c.stop) := by
  have hcount := Source.charCount_ofText text
  obtain ⟨p, hp, _, hlead, hbehind⟩ := h.place
  have hspan := h.sits.span
  rw [Node.span?, hp, Option.map_some, Option.some.injEq] at hspan
  have hjoin : n.extent = Span.join (some (c.span text)) (c.lead text separator).span? := by
    rw [Node.extent, hp, Option.bind_some, Place.extent, hspan, hlead, hbehind]
    exact Span.join_none_right _
  rw [hjoin]
  rcases c.lead_cases text separator with ⟨hlead, hcut, _⟩ | ⟨a, hlead, hcut, _⟩ |
    ⟨a, p, hlead, hcut, _, _, _, hle, _⟩ <;> rw [hlead, hcut]
  · rfl
  · rfl
  · show some ((window (.ofText text) c.start c.stop).union (window (.ofText text) p c.start)) = _
    rw [union_window hc (by omega) (by omega) (by omega), Nat.min_eq_right (by omega),
      Nat.max_eq_left hc]

/-- What locating the node of an entry does to the tree. -/
structure Visited (text separator : Text) (e : Entry) (t t' : Tree Model Nat) : Prop where
  retains : Retains text e.start e.stop t t'
  other : ∀ x, x < e.node ∨ e.node + e.item.cells ≤ x → t'.nodes[x]? = t.nodes[x]?
  self : ∃ n, t'.nodes[e.node]? = some n ∧ Loaded text separator e .empty n
  below : ∀ c ∈ e.items, ∀ {d : Entry}, c.Holds d →
    ∃ n, t'.nodes[d.node]? = some n ∧ Loaded text separator d (d.lead text separator) n

/-- What locating an item of a list does to the tree. -/
structure Taken (text separator : Text) (c : Entry) (t t' : Tree Model Nat) : Prop where
  retains : Retains text (c.before.getD c.start) c.stop t t'
  other : ∀ x, x < c.node ∨ c.node + c.item.cells ≤ x → t'.nodes[x]? = t.nodes[x]?
  loaded : ∀ {d : Entry}, c.Holds d →
    ∃ n, t'.nodes[d.node]? = some n ∧ Loaded text separator d (d.lead text separator) n

/-- Locating an item together with the separator in front. -/
theorem locateItem_taken (h : Seated text separator r t) (he : r.Holds e) {c : Entry}
    (hc : c ∈ e.items) (hplanted : ∀ {d : Entry}, c.Holds d →
      t.nodes[d.node]? = some (d.planted text separator d.itemNodes))
    (hbefore : ∀ a, c.before = some a → a ≤ c.start ∧ Unmarked text t a c.start ∧
      (∃ d ∈ e.items, d.stop = a) ∧ ∀ d ∈ e.items, d.stop ≤ a ∨ c.start ≤ d.start)
    (hdescend : ∃ u, descend c.node t = .ok () u ∧ Visited text separator c t u)
    (cursor : Position) :
    ∃ t', locateItem descend m e.node c.address (if c.before.isNone then [] else separator) []
        ⟨t, cursor, none⟩ = (some c.node, ⟨t', (Source.ofText text).place c.stop, none⟩) ∧
      Taken text separator c t t' := by
  obtain ⟨u, hrun, hvisited⟩ := hdescend
  obtain ⟨n, hn, hloaded⟩ := hvisited.self
  have hseated := h.retain hvisited.retains
  have hitem := (h.laid.holds he).1.item hc
  have hlow : c.before.getD c.start ≤ c.start := by
    cases ha : c.before with
    | none => exact Nat.le_refl _
    | some a => exact (hbefore a ha).1
  obtain ⟨v, hlead, hnodes, hretains⟩ := locateDelimiter_lead hseated he hc fun a ha => by
    obtain ⟨hle, hmarks, hprevious, hothers⟩ := hbefore a ha
    exact ⟨hle, hmarks.retain hvisited.retains (Or.inr (Nat.le_refl _)), hprevious, hothers⟩
  have hbound := (h.laid.holds (he.item hc)).1.bounds
  have hcount := Source.charCount_ofText text
  have hlocated : t.isLocated c.node = false := by
    rw [isLocated_eq (hplanted (.refl c))]
    rfl
  have hspan : (u.nodes[c.node]?).bind Node.span? = some (c.span text) := by
    rw [hn]
    exact hloaded.sits.span
  have haround : u.locateAround e.node (c.span text) (if c.before.isNone then [] else separator) [] =
      .ok (c.lead text separator, .empty, v) := by
    have hstart : (c.span text).start = (Source.ofText text).place c.start :=
      start_window hbound.1 (by omega)
    simp only [locateAround, hstart, hlead, bind, Except.bind, locateDelimiter_nil]
    rfl
  have hcursor : (Delimiter.empty).stopBehind (c.span text) = (Source.ofText text).place c.stop :=
    stop_window hbound.1 (by omega)
  have hv : v.nodes[c.node]? = some n := by rw [hnodes, hn]
  refine ⟨v.modify c.node fun n => n.mapPlace fun p =>
    { p with before := c.lead text separator, behind := .empty }, ?_, ?_, fun x hx => ?_, fun {d} hd => ?_⟩
  · simp only [locateItem, h.getNode he hc, hlocated, hrun, hspan, haround, hcursor,
      Bool.false_eq_true, if_false]
  · refine (hvisited.retains.mono hlow (Nat.le_refl _)).trans
      ((hretains.mono (Nat.le_refl _) hbound.1).trans (.modify text _ _ v c.node fun n => ?_))
    exact ⟨rfl, rfl, rfl, by cases hp : n.place <;> simp [Node.span?, hp]⟩
  · have hpos := c.item.cells_pos
    rw [getElem?_modify_of_ne _ _ (by omega), hnodes, hvisited.other x hx]
  · cases hd with
    | refl =>
      obtain ⟨p, hp, hplocated, _, _⟩ := hloaded.place
      refine ⟨_, getElem?_modify_self _ hv, ⟨hloaded.sits.object, hloaded.sits.ancestors,
        hloaded.sits.children, ?_⟩, hloaded.parts,
        { p with before := c.lead text separator, behind := .empty },
        by rw [Node.place_mapPlace, hp]; rfl, hplocated, rfl, rfl⟩
      have hspan := hloaded.sits.span
      rw [Node.span?, hp] at hspan
      rw [Node.span?, Node.place_mapPlace, hp]
      exact hspan
    | @step _ f _ mem tail =>
      have hle := tail.node_le
      have hlt := Entry.mem_items mem
      rw [getElem?_modify_of_ne _ _ (by omega), hnodes]
      exact hvisited.below f mem tail

/-- What is common to a way through the items of a list that has come to
some of them: the items done end at an offset, and nothing was marked
behind it. -/
structure Through (text separator : Text) (r e : Entry) (done rest : List Entry) (a : Nat)
    (t : Tree Model Nat) : Prop where
  seated : Seated text separator r t
  items : e.items = done ++ rest
  chain : Chain text done.isEmpty rest a e.outer
  stop_le : ∀ f ∈ done, f.stop ≤ a
  last : done ≠ [] → ∃ f ∈ done, f.stop = a
  planted : ∀ c ∈ rest, ∀ {d : Entry}, c.Holds d →
    t.nodes[d.node]? = some (d.planted text separator d.itemNodes)
  unmarked : Unmarked text t a e.outer

/-- The item that comes next. -/
theorem Through.before {done rest : List Entry} {c : Entry} {a : Nat}
    (h : Through text separator r e done (c :: rest) a t) :
    a ≤ c.start ∧ c.before = (if done.isEmpty then none else some a) ∧
      ∀ b, c.before = some b → b ≤ c.start ∧ Unmarked text t b c.start ∧
        (∃ d ∈ e.items, d.stop = b) ∧ ∀ d ∈ e.items, d.stop ≤ b ∨ c.start ≤ d.start := by
  have hchain := h.chain
  rw [Chain] at hchain
  obtain ⟨hahead, hfits, hbefore, htail⟩ := hchain
  have hlt : c.start < c.stop ∧ c.stop ≤ text.length := hfits.lt
  have hle := hahead.le
  have hle' := htail.le
  refine ⟨hle.1, hbefore, fun b hb => ?_⟩
  rw [hbefore] at hb
  cases hdone : done with
  | nil =>
    rw [hdone] at hb
    cases hb
  | cons f done' =>
    rw [hdone] at hb
    cases hb
    obtain ⟨f, hf, hstop⟩ := h.last (by simp [hdone])
    refine ⟨hle.1, h.unmarked.mono (Nat.le_refl _) (by omega), ⟨f, ?_, hstop⟩, fun d hd => ?_⟩
    · simp [h.items, hf]
    · rw [h.items, List.mem_append] at hd
      rcases hd with hd | hd
      · exact Or.inl (h.stop_le d hd)
      · rcases List.mem_cons.1 hd with rfl | hd
        · exact Or.inr (Nat.le_refl _)
        · have := (htail.mem hd).2.1
          omega

/-- The state after one more item. -/
theorem Through.next {done rest : List Entry} {c : Entry} {a : Nat} {t' : Tree Model Nat}
    (h : Through text separator r e done (c :: rest) a t) (ht : Taken text separator c t t') :
    Through text separator r e (done ++ [c]) rest c.stop t' := by
  obtain ⟨hle, hbefore, hbefore'⟩ := h.before
  have hchain := h.chain
  rw [Chain] at hchain
  obtain ⟨_, hfits, _, htail⟩ := hchain
  have hlt : c.start < c.stop ∧ c.stop ≤ text.length := hfits.lt
  have hnonempty : (done ++ [c]).isEmpty = false := by simp
  refine ⟨h.seated.retain ht.retains, by simp [h.items], ?_, fun f hf => ?_, fun _ => ⟨c, by simp, rfl⟩,
    fun d hd f hf => ?_, ?_⟩
  · rw [hnonempty]
    exact htail
  · rcases List.mem_append.1 hf with hf | hf
    · have := h.stop_le f hf
      omega
    · rw [List.mem_singleton] at hf
      rw [hf]
  · have hpairs := e.pairwise_items
    rw [h.items, List.pairwise_append, List.pairwise_cons] at hpairs
    have hnodes := (hpairs.2.1.1 d hd).1
    have := hf.node_le
    rw [ht.other f.node (by omega)]
    exact h.planted d (List.mem_cons_of_mem _ hd) hf
  · exact (h.unmarked.mono (by omega) (Nat.le_refl _)).retain ht.retains (Or.inl (Nat.le_refl _))

/-- The item that comes next is not in the list yet. -/
theorem Through.item? {done rest : List Entry} {c : Entry} {a : Nat}
    (h : Through text separator r e done (c :: rest) a t) :
    ItemList.item? { itemsList e.address with listed := done.map (Entry.listing separator) }
      c.address = none := by
  rw [ItemList.item?, List.find?_eq_none]
  intro item hitem
  obtain ⟨f, hf, rfl⟩ := List.mem_map.1 hitem
  have hnumbers := (Entry.lt_of_append h.items hf).2
  have hf' := f.address_lt
  have hc' := c.base_le_address
  have hne : f.address ≠ c.address := by omega
  simpa [Entry.listing] using hne

/-- What goes around the item that comes next. -/
theorem Through.around {done rest : List Entry} {c : Entry} {a : Nat}
    (h : Through text separator r e done (c :: rest) a t) (count : Nat) :
    ItemList.around { itemsList e.address with listed := done.map (Entry.listing separator) }
      (itemsFrame separator) done.length count = (if c.before.isNone then [] else separator, []) := by
  obtain ⟨_, hbefore, _⟩ := h.before
  rw [around_eq _ (itemsFrame separator) rfl rfl rfl rfl, hbefore]
  cases done <;> rfl

/-- The piece of the text that the items up to the next one cover, if those
before it cover the piece from `x` on.  The delimiter of the item lies behind
them. -/
theorem Through.extent {done rest : List Entry} {c : Entry} {a : Nat} {x : Option Nat}
    {t₁ : Tree Model Nat} {n : Node Model Nat}
    (h : Through text separator r e done (c :: rest) a t) (hn : t₁.nodes[c.node]? = some n)
    (hloaded : Loaded text separator c (c.lead text separator) n) (hdone : done.isEmpty = x.isNone)
    (hx : ∀ y, x = some y → y ≤ a) :
    Span.join (x.map fun x => window (.ofText text) x a) (t₁.extentOfNode c.node) =
      (some (x.getD c.start)).map fun x => window (.ofText text) x c.stop := by
  obtain ⟨_, hbefore, hbefore'⟩ := h.before
  have hchain := h.chain
  rw [Chain] at hchain
  obtain ⟨_, hfits, _, _⟩ := hchain
  have hlt : c.start < c.stop ∧ c.stop ≤ text.length := hfits.lt
  have hcount := Source.charCount_ofText text
  have hbounds : c.before.getD c.start ≤ c.cut text separator ∧
      c.cut text separator ≤ c.start := by
    rcases c.lead_cases text separator with ⟨_, hcut, _⟩ | ⟨b, _, hcut, hb, _⟩ |
      ⟨b, p, _, hcut, hb, _, hbp, hp, _⟩ <;> rw [hcut]
    · cases hb : c.before with
      | none => simp
      | some b => exact ⟨(hbefore' b hb).1, Nat.le_refl _⟩
    · rw [hb]
      exact ⟨(hbefore' b hb).1, Nat.le_refl _⟩
    · rw [hb, Option.getD_some]
      omega
  rw [extentOfNode, hn, Option.bind_some, hloaded.extent (Nat.le_of_lt hlt.1) hlt.2]
  cases hx' : x with
  | none =>
    rw [hx', Option.isNone_none] at hdone
    rw [hdone, if_pos rfl] at hbefore
    rw [hbefore, Option.getD_none] at hbounds
    have hstart : c.cut text separator = c.start := by omega
    rw [hstart]
    rfl
  | some y =>
    rw [hx', Option.isNone_some] at hdone
    rw [hdone, if_neg Bool.false_ne_true] at hbefore
    rw [hbefore, Option.getD_some] at hbounds
    have hy := hx y hx'
    show some ((window (.ofText text) y a).union
      (window (.ofText text) (c.cut text separator) c.stop)) = _
    rw [union_window hy (by omega) (by omega) (by omega), Nat.min_eq_left (by omega),
      Nat.max_eq_right (by omega)]
    rfl

/-- Locating the items of a list one after the other. -/
theorem locateItems_loaded (he : r.Holds e) (count : Nat)
    (hdescend : ∀ c ∈ e.items, ∀ u, Seated text separator r u →
      (∀ {d : Entry}, c.Holds d → u.nodes[d.node]? = some (d.planted text separator d.itemNodes)) →
      Unmarked text u c.start c.stop → ∃ v, descend c.node u = .ok () v ∧ Visited text separator c u v) :
    ∀ (rest done : List Entry) (a : Nat) (x : Option Nat) (t : Tree Model Nat),
      Through text separator r e done rest a t → done.isEmpty = x.isNone → (∀ y, x = some y → y ≤ a) →
      ∃ t', locateItems descend m e.node (itemsFrame separator) count done.length
          (rest.map Entry.address)
          { itemsList e.address with listed := done.map (Entry.listing separator) }
          (x.map fun x => window (.ofText text) x a)
          ⟨t, (Source.ofText text).place a, none⟩ =
          (e.loadedList separator,
            (x.or ((rest.head?).map Entry.start)).map fun x =>
              window (.ofText text) x (Entry.rowStop a rest),
            ⟨t', (Source.ofText text).place (Entry.rowStop a rest), none⟩) ∧
        Retains text a (Entry.rowStop a rest) t t' ∧
        (∀ x, (∀ c ∈ rest, x < c.node ∨ c.node + c.item.cells ≤ x) → t'.nodes[x]? = t.nodes[x]?) ∧
        ∀ c ∈ rest, ∀ {d : Entry}, c.Holds d →
          ∃ n, t'.nodes[d.node]? = some n ∧ Loaded text separator d (d.lead text separator) n
  | [], done, a, x, t, h, _, _ => by
    have hitems : e.items = done := by simpa using h.items
    refine ⟨t, ?_, .refl _ _ _ _, fun _ _ => rfl, fun c hc => by cases hc⟩
    simp [locateItems, Entry.loadedList, Entry.rowStop, hitems]
  | c :: rest, done, a, x, t, h, hdone, hx => by
    obtain ⟨hle, hbefore, hbefore'⟩ := h.before
    have hchain := h.chain
    rw [Chain] at hchain
    obtain ⟨_, hfits, _, htail⟩ := hchain
    have hlt : c.start < c.stop ∧ c.stop ≤ text.length := hfits.lt
    have hle' := htail.le
    have hc : c ∈ e.items := by simp [h.items]
    obtain ⟨t₁, hitem, htaken⟩ := locateItem_taken descend (m := m) h.seated he hc
      (h.planted c List.mem_cons_self) hbefore'
      (hdescend c hc t h.seated (h.planted c List.mem_cons_self)
        (h.unmarked.mono (by omega) (by omega))) ((Source.ofText text).place a)
    obtain ⟨n, hn, hloaded⟩ := htaken.loaded (.refl c)
    obtain ⟨t', hrun, hretains, hother, hrest⟩ := locateItems_loaded he count hdescend rest
      (done ++ [c]) c.stop (some (x.getD c.start)) t₁ (h.next htaken) (by simp) (by
        intro y hy
        cases hy
        cases hx' : x with
        | none => simp only [Option.getD_none]; omega
        | some z =>
          have := hx z hx'
          simp only [Option.getD_some]
          omega)
    have hlead := h.around count
    have hnew := h.item?
    have hextent := h.extent hn hloaded hdone hx
    refine ⟨t', ?_, ?_, fun y hy => ?_, fun d hd f hf => ?_⟩
    · rw [List.map_cons, locateItems]
      simp only [hnew, Option.isSome_none, Bool.false_eq_true, if_false, hlead, hitem, hextent]
      rw [List.length_append, List.map_append] at hrun
      have hfirst : (some (x.getD c.start)).or ((rest.head?).map Entry.start) =
          x.or (((c :: rest).head?).map Entry.start) := by
        cases x <;> rfl
      rw [hfirst] at hrun
      exact hrun
    · obtain ⟨hstop, _⟩ := htail.rowStop
      refine Retains.trans (htaken.retains.mono ?_ hstop) (hretains.mono (by omega) (Nat.le_refl _))
      rw [hbefore]
      split
      · exact hle
      · exact Nat.le_refl a
    · have hcy := hy c List.mem_cons_self
      rw [hother y fun d hd => hy d (List.mem_cons_of_mem _ hd), htaken.other y hcy]
    · rcases List.mem_cons.1 hd with rfl | hd
      · have hpairs := e.pairwise_items
        rw [h.items, List.pairwise_append, List.pairwise_cons] at hpairs
        have hf' := hf.node_le
        have hpos := f.item.cells_pos
        rw [hother f.node fun k hk => Or.inl (by have := (hpairs.2.1.1 k hk).1; omega)]
        exact htaken.loaded hf
      · exact hrest d hd hf

/-! ## Nodes -/

/-- The way through the items of a list begins. -/
theorem Seated.through (h : Seated text separator r t) (hlist : e.IsList text)
    (hplanted : ∀ {d : Entry}, e.Holds d →
      t.nodes[d.node]? = some (d.planted text separator d.itemNodes))
    (hmarks : Unmarked text t e.inner e.outer) : Through text separator r e [] e.items e.inner t :=
  { seated := h
    items := rfl
    chain := hlist.chain
    stop_le := fun _ hf => absurd hf List.not_mem_nil
    last := fun hne => absurd rfl hne
    planted := fun _ hc _ hd => hplanted (.step hc hd)
    unmarked := hmarks }

/-- The items of a list as a part. -/
theorem locatePart_items (hm : Holding e m) (h : Seated text separator r t) (he : r.Holds e)
    (hlist : e.IsList text)
    (hdescend : ∀ c ∈ e.items, ∀ u, Seated text separator r u →
      (∀ {d : Entry}, c.Holds d → u.nodes[d.node]? = some (d.planted text separator d.itemNodes)) →
      Unmarked text u c.start c.stop → ∃ v, descend c.node u = .ok () v ∧ Visited text separator c u v)
    (hplanted : ∀ {d : Entry}, e.Holds d →
      t.nodes[d.node]? = some (d.planted text separator d.itemNodes))
    (hmarks : Unmarked text t e.inner e.outer) :
    ∃ t', locatePart descend m e.node (itemsPart separator e.address)
        ⟨t, (Source.ofText text).place e.inner, none⟩ =
        (e.loadedItems text separator,
          ⟨t', (Source.ofText text).place (Entry.rowStop e.inner e.items), none⟩) ∧
      Retains text e.inner (Entry.rowStop e.inner e.items) t t' ∧
      (∀ x, x ≤ e.node ∨ e.node + e.item.cells ≤ x → t'.nodes[x]? = t.nodes[x]?) ∧
      ∀ c ∈ e.items, ∀ {d : Entry}, c.Holds d →
        ∃ n, t'.nodes[d.node]? = some n ∧ Loaded text separator d (d.lead text separator) n := by
  obtain ⟨t', hrun, hretains, hother, hloaded⟩ := locateItems_loaded descend (m := m) he
    (m.items e.address).length hdescend e.items [] e.inner none t
    (h.through hlist hplanted hmarks) rfl (fun y hy => by cases hy)
  refine ⟨t', ?_, hretains, fun x hx => hother x fun c hc => ?_, hloaded⟩
  · have hitems : e.items.map Entry.address = m.items e.address := hm.items.symm
    rw [hitems] at hrun
    change locateItems descend m e.node (itemsFrame separator)
      ((itemsList e.address).supply m).length 0 ((itemsList e.address).supply m)
      (itemsList e.address) none ⟨t, (Source.ofText text).place e.inner, none⟩ = _ at hrun
    rw [itemsPart_eq]
    simp only [locatePart, hrun, Survey.isRunning, Option.isNone_none, if_true, Entry.loadedItems,
      Entry.itemsExtent, Option.none_or, Option.map_map]
    rfl
  · have := Entry.mem_items hc
    omega

/-- The parts of a list. -/
theorem locateParts_list (hm : Holding e m) (h : Seated text separator r t) (he : r.Holds e)
    {bytes : Nat × Nat} {bracketed : Bool} {items : List Item}
    (hitem : e.item = .list bytes bracketed items)
    (hdescend : ∀ c ∈ e.items, ∀ u, Seated text separator r u →
      (∀ {d : Entry}, c.Holds d → u.nodes[d.node]? = some (d.planted text separator d.itemNodes)) →
      Unmarked text u c.start c.stop → ∃ v, descend c.node u = .ok () v ∧ Visited text separator c u v)
    (hplanted : ∀ {d : Entry}, e.Holds d →
      t.nodes[d.node]? = some (d.planted text separator d.itemNodes))
    (hmarks : Unmarked text t e.start e.stop) :
    ∃ t' cursor, locateParts descend m e.node (e.parts text separator)
        ⟨t, (Source.ofText text).place e.start, none⟩ =
        (e.loadedParts text separator, ⟨t', cursor, none⟩) ∧
      Retains text e.start e.stop t t' ∧
      (∀ x, x ≤ e.node ∨ e.node + e.item.cells ≤ x → t'.nodes[x]? = t.nodes[x]?) ∧
      ∀ c ∈ e.items, ∀ {d : Entry}, c.Holds d →
        ∃ n, t'.nodes[d.node]? = some n ∧ Loaded text separator d (d.lead text separator) n := by
  have hlist := (h.laid.holds he).1.list hitem
  have hbracketed : e.isBracketed = bracketed := by rw [Entry.isBracketed, hitem]
  have hchain := hlist.chain
  have hrow := hchain.rowStop
  have hstart := hlist.start_le
  have hstop := hlist.le_stop
  have hbound := hlist.bound
  cases bracketed with
  | false =>
    obtain ⟨hinner, houter⟩ := hlist.plain hbracketed
    obtain ⟨t', hrun, hretains, hother, hloaded⟩ := locatePart_items descend hm h he hlist hdescend
      hplanted (hmarks.mono (by omega) (by omega))
    refine ⟨t', (Source.ofText text).place (Entry.rowStop e.inner e.items), ?_,
      hretains.mono hstart (by omega), hother, hloaded⟩
    rw [Entry.parts, Entry.loadedParts, hitem, ← hinner]
    simp only [listParts, Bool.false_eq_true, if_false, locateParts, hrun, Survey.isRunning,
      Option.isNone_none, if_true]
  | true =>
    obtain ⟨hinner, houter, hopen, hclose⟩ := hlist.bracketed hbracketed
    have hitems : ∀ c ∈ e.items, e.start + 1 ≤ c.start ∧ c.stop ≤ Entry.rowStop e.inner e.items := by
      intro c hc
      have := hchain.mem hc
      exact ⟨by omega, hchain.stop_le_rowStop hc⟩
    have hfirst := locatePart_char descend (m := m) h he (Nat.le_refl e.start) (Nat.le_refl e.start)
      (by omega) (hmarks.mono (Nat.le_refl _) (by omega)) (fun c hc => Or.inr (hitems c hc).1)
      (fun j hj hj' => absurd hj' (Nat.not_lt.2 hj)) hopen
    have hretains₁ := Retains.mark t e.node .literal (Nat.le_add_right e.start 1)
      (show e.start + 1 ≤ text.length by omega)
    obtain ⟨t₂, hsecond, hretains₂, hother, hloaded⟩ := locatePart_items descend hm (h.retain hretains₁)
      he hlist hdescend hplanted
      ((hmarks.mono (by omega) (by omega)).retain hretains₁ (Or.inl (by omega)))
    have hmarks₂ : Unmarked text t₂ (Entry.rowStop e.inner e.items) (e.outer + 1) :=
      ((hmarks.mono (by omega) (by omega)).retain hretains₁ (Or.inl (by omega))).retain hretains₂
        (Or.inl (Nat.le_refl _))
    have hthird := locatePart_char descend (m := m) ((h.retain hretains₁).retain hretains₂) he
      (show e.start ≤ Entry.rowStop e.inner e.items by omega) hrow.2 (by omega) hmarks₂
      (fun c hc => Or.inl (hitems c hc).2) (fun j hj hj' => hchain.behind.ne_bracket hj hj') hclose
    have hretains₃ := Retains.mark t₂ e.node .literal (Nat.le_add_right e.outer 1)
      (show e.outer + 1 ≤ text.length by omega)
    rw [houter] at hthird hretains₃
    refine ⟨withMark t₂ e.node .literal (window (.ofText text) e.outer e.stop),
      (Source.ofText text).place e.stop, ?_, (hretains₁.mono (Nat.le_refl _) (by omega)).trans
      ((hretains₂.mono (by omega) (by omega)).trans (hretains₃.mono (by omega) (Nat.le_refl _))),
      hother, hloaded⟩
    rw [← hinner] at hfirst hsecond
    rw [Entry.parts, Entry.loadedParts, hitem]
    simp only [listParts, if_true, locateParts, hfirst, hsecond, hthird, Survey.isRunning,
      Option.isNone_none]

omit descend in
/-- The node of an entry whose parts were located. -/
theorem Entry.loaded_planted (e : Entry) (cursor : Position) :
    Loaded text separator e .empty
      ((e.planted text separator e.itemNodes).finish (e.loadedParts text separator) cursor) :=
  ⟨⟨rfl, rfl, List.prefix_refl _, rfl⟩, rfl, _, rfl, rfl, rfl, rfl⟩

omit descend in
/-- Locating an entry and all that is in it, by induction on the depth. -/
theorem locateWithin_visited (hascii : text.IsAscii) (hm : Holding r m) :
    ∀ (depth : Nat) (e : Entry) (t : Tree Model Nat), Seated text separator r t → r.Holds e →
      (∀ {d : Entry}, e.Holds d → t.nodes[d.node]? = some (d.planted text separator d.itemNodes)) →
      Unmarked text t e.start e.stop → e.item.cells ≤ depth →
      ∃ t', locateWithin m depth e.node t = .ok () t' ∧ Visited text separator e t t'
  | 0, e, _, _, _, _, _, hdepth => by
    have := e.item.cells_pos
    omega
  | depth + 1, e, t, h, he, hplanted, hmarks, hdepth => by
    have hnode := hplanted (.refl e)
    have hcell := hm.cell he
    have hbound := (h.laid.holds he).1.bounds
    have hcount := Source.charCount_ofText text
    have hstart : (Place.ofSpan (e.span text)).span.start = (Source.ofText text).place e.start :=
      start_window hbound.1 (by omega)
    have hpos := e.item.cells_pos
    have hmodify : ∀ (t' : Tree Model Nat) (cursor : Position), Retains text e.start e.stop t'
        (t'.modify e.node fun n => n.finish (e.loadedParts text separator) cursor) := by
      refine fun t' cursor => .modify text _ _ t' e.node fun n => ⟨rfl, rfl, rfl, ?_⟩
      cases hp : n.place <;> simp [Node.span?, hp]
    cases hitem : e.item with
    | word w =>
      rw [Entry.cell, hitem] at hcell
      obtain ⟨t', hrun, hnodes, hretains⟩ := locateParts_word (locateWithin m depth) hascii h he hitem
        (Model.loudness_word hcell) hmarks ((Source.ofText text).place e.start)
      rw [← hstart] at hrun
      refine ⟨_, locateWithin_of_parts hnode rfl rfl hrun, hretains.trans (hmodify _ _),
        fun x hx => ?_, ⟨_, getElem?_modify_self _ (by rw [hnodes, hnode]), e.loaded_planted _⟩,
        fun c hc => ?_⟩
      · rw [getElem?_modify_of_ne _ _ (by omega), hnodes]
      · rw [Entry.items_word hitem] at hc
        cases hc
    | list bytes bracketed items =>
      obtain ⟨t', cursor, hrun, hretains, hother, hloaded⟩ := locateParts_list (locateWithin m depth)
        ⟨fun hd => hm.cell (he.trans hd)⟩ h he hitem
        (fun c hc u hu hcplanted hcmarks => locateWithin_visited hascii hm depth c u hu (he.item hc)
          hcplanted hcmarks (by have := Entry.cells_lt_of_mem_items hc; omega))
        hplanted hmarks
      rw [← hstart] at hrun
      refine ⟨_, locateWithin_of_parts hnode rfl rfl hrun, hretains.trans (hmodify _ _),
        fun x hx => ?_, ⟨_, getElem?_modify_self _ (by rw [hother _ (Or.inl (Nat.le_refl _)), hnode]),
          e.loaded_planted _⟩, fun c hc d hd => ?_⟩
      · rw [getElem?_modify_of_ne _ _ (by omega), hother x (by omega)]
      · have := hd.node_le
        have := Entry.mem_items hc
        rw [getElem?_modify_of_ne _ _ (by omega)]
        exact hloaded c hc hd

end Locate

/-! ## Documents -/

/-- The tree of a document after it was located. -/
structure Located (text separator : Text) (r : Entry) (t : Tree Model Nat) : Prop where
  seated : Seated text separator r t
  settings : t.settings = {}
  complete : t.complete = true
  loaded : ∀ {e : Entry}, r.Holds e →
    ∃ n, t.nodes[e.node]? = some n ∧ Loaded text separator e (e.lead text separator) n
  children : ∀ {e : Entry} {n : Node Model Nat}, r.Holds e → t.nodes[e.node]? = some n →
    n.children = e.itemNodes

theorem Planted.seated {text separator : Text} {item : Item} {t : Tree Model Nat}
    (h : readDocument text = .ok item) (ht : Planted text separator (.ofItem item) t) :
    Seated text separator (.ofItem item) t where
  laid := laid_ofItem h
  language := ht.language
  source := ht.source
  root := rfl
  top := rfl
  size := ht.size
  sits he := ⟨_, ht.node he, rfl, rfl, List.prefix_refl _, rfl⟩

/-- Locating a document that was not located yet succeeds. -/
theorem Unlocated.locate {text separator : Text} {item : Item} {t : Tree Model Nat}
    (h : readDocument text = .ok item) (ht : Unlocated text separator (.ofItem item) t) :
    ∃ t', Tree.locate (Model.ofItem item) t = .ok () t' ∧
      Located text separator (.ofItem item) t' := by
  have hincomplete : t.complete = false := by
    rcases ht with hplanted | ⟨_, _, _, hincomplete⟩
    · exact hplanted.incomplete
    · exact hincomplete
  obtain ⟨t₁, hplant, hplanted⟩ := ht.plant h
  have hseated := hplanted.seated h
  have hunmarked : Unmarked text t₁ (Entry.ofItem item).start (Entry.ofItem item).stop := by
    intro mark hmark
    rw [hplanted.marks] at hmark
    cases hmark
  have hdepth : item.cells ≤ t₁.depthBound (Model.ofItem item) := by
    have hsize : (Model.ofItem item).cells.size = item.cells := (Model.cells_ofItem item).2.1
    rw [depthBound, hplanted.language]
    show item.cells ≤ _ + (Model.ofItem item).cells.size + 1
    omega
  obtain ⟨t₂, hlocate, hvisited⟩ := locateWithin_visited (isAscii_of_readDocument h)
    (holding_ofItem item) _ (.ofItem item) t₁ hseated (.refl _) hplanted.node hunmarked hdepth
  have hrun : locateFrom (Model.ofItem item) Tree.root t₁ = .ok () t₂ := hlocate
  refine ⟨{ t₂ with complete := true }, ?_, ⟨?_, ?_, rfl, fun {e} he => ?_, fun {e n} he hn => ?_⟩⟩
  · rw [locate_of_incomplete hincomplete, hplant]
    dsimp only
    rw [hrun]
  · have hseated' := hseated.retain hvisited.retains
    exact ⟨hseated'.laid, hseated'.language, hseated'.source, rfl, rfl, hseated'.size,
      hseated'.sits⟩
  · show t₂.settings = {}
    rw [hvisited.retains.same]
    exact hplanted.settings
  · cases he with
    | refl => exact hvisited.self
    | step mem tail => exact hvisited.below _ mem tail
  · obtain ⟨n', hn', _, _, hchildren, _⟩ := hvisited.retains.node (hplanted.node he)
    have hsame : some n' = some n := hn'.symm.trans hn
    cases hsame
    exact hchildren

end Reprint.WordList
