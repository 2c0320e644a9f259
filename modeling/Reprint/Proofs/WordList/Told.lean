import Reprint.Proofs.Tree.Order
import Reprint.Proofs.Tree.Revises
import Reprint.Proofs.WordList.Edited
import Reprint.Proofs.WordList.Loaded

/-!
# The text of an entry for an edited model

`Entry.told` is the text that an entry has for an edited model: its source
text with as little changed as the model asks for.  It is defined without
trees and patches.

* `Entry.woven` weaves the items of a list that are still there with the
  objects that the model lists now.  What stands between the items of the
  source stays where it is, and text without source goes behind the item
  that was kept last.
* `Entry.rewritten` is the text of a list whose items are in a new order.
* When a list is not written anew, the items that are still there are
  aligned with the objects that the model lists (`aligned_of_not_reordered`).
-/

namespace Reprint.WordList

open Reprint.Tree

/-- The text of a cell made from the model alone. -/
def Model.shown (m : Model) (separator : Text) (a : Nat) : Text :=
  m.text separator m.cells.size a

/-- The literal in front of an item. -/
def leadAt (separator : Text) (index : Nat) : Text := if index = 0 then [] else separator

namespace Entry

/-- A text with the indentation of the line that the entry starts on in
front of its further lines. -/
def hung (text : Text) (e : Entry) (t : Text) : Text :=
  Text.hang ((Source.ofText text).indentationOf (e.span text).start.line) t

/-! ## Lists -/

/-- The text from an offset to another one without the given items and the
separators in front of them. -/
def stripped (text separator : Text) : Nat → List Entry → Nat → Text
  | a, [], b => text.piece a b
  | a, c :: rest, b =>
    text.piece a (c.cut text separator) ++ stripped text separator c.stop rest b

/-- What stands in front of an item that is kept. -/
def joint (text separator : Text) (c : Entry) (index : Nat) : Text :=
  if index = 0 then []
  else
    match c.lead text separator with
    | .present _ _ => text.piece (c.cut text separator) c.start
    | _ => separator

section Weave

variable (text separator : Text) (hang : Text → Text) (body : Nat → Text)

/-- The text from an offset on, for the items that are left and the objects
that are to come, the first of which has the given index. -/
def woven (stop : Nat) : Nat → Nat → List Entry → List Nat → Text
  | a, _, entries, [] => stripped text separator a entries stop
  | a, index, entries, x :: rest =>
    match entries.dropWhile fun c => c.address ≠ x with
    | [] =>
      hang (leadAt separator index ++ body x) ++ woven stop a (index + 1) entries rest
    | c :: more =>
      stripped text separator a (entries.takeWhile fun c => c.address ≠ x) (c.cut text separator) ++
        (c.joint text separator index ++ body x) ++ woven stop c.stop (index + 1) more rest

/-- The texts of all objects, the first of which has the given index. -/
def rewritten : Nat → List Nat → Text
  | _, [] => []
  | index, x :: rest => hang (leadAt separator index ++ body x) ++ rewritten (index + 1) rest

/-- The text between the brackets of a list that lists the given objects
now. -/
def toldItems (e : Entry) (current : List Nat) : Text :=
  match e.items with
  | [] => hang (joinedFrom separator 0 (current.map body)) ++ text.piece e.inner e.outer
  | first :: _ =>
    if (e.loadedList separator).isReordered current then
      text.piece e.inner first.start ++ rewritten separator hang body 0 current ++
        text.piece (rowStop e.inner e.items) e.outer
    else
      match e.items.dropWhile fun c => !current.contains c.address with
      | [] => woven text separator hang body e.outer e.inner 0 e.items current
      | c :: more =>
        stripped text separator e.inner
            (e.items.takeWhile fun c => !current.contains c.address) (c.cut text separator) ++
          woven text separator hang body e.outer (c.cut text separator) 0 (c :: more) current

end Weave

/-- The text of an entry for a model. -/
def told (text separator : Text) (m : Model) (e : Entry) : Text :=
  match e.item with
  | .word _ => m.name e.address ++ markText (m.loudness e.address)
  | .list .. =>
    let body (x : Nat) : Text :=
      match e.items.attach.find? fun c => c.1.address = x with
      | some c => told text separator m c.1
      | none => m.shown separator x
    text.piece e.start e.inner ++
      e.toldItems text separator (e.hung text) body (m.items e.address) ++
      text.piece e.outer e.stop
termination_by e.item.cells
decreasing_by exact cells_lt_of_mem_items c.2

/-- The text of an object below an entry. -/
def body (text separator : Text) (m : Model) (e : Entry) (x : Nat) : Text :=
  match e.items.find? fun c => c.address = x with
  | some c => c.told text separator m
  | none => m.shown separator x

variable {text separator : Text} {m : Model} {e c : Entry}

theorem told_word {w : Word} (h : e.item = .word w) :
    e.told text separator m = m.name e.address ++ markText (m.loudness e.address) := by
  rw [told, h]

theorem told_list {bytes : Nat × Nat} {bracketed : Bool} {items : List Item}
    (h : e.item = .list bytes bracketed items) :
    e.told text separator m = text.piece e.start e.inner ++
      e.toldItems text separator (e.hung text) (e.body text separator m) (m.items e.address) ++
      text.piece e.outer e.stop := by
  have hbody : (fun x => match e.items.attach.find? fun c => c.1.address = x with
      | some c => told text separator m c.1
      | none => m.shown separator x) = e.body text separator m := by
    funext x
    unfold body
    have hfind : e.items.find? (fun c => c.address = x) =
        (e.items.attach.find? fun c => c.1.address = x).map Subtype.val := by
      change _ = (e.items.attach.find?
        ((fun c : Entry => decide (c.address = x)) ∘ Subtype.val)).map Subtype.val
      rw [← List.find?_map, List.attach_map_subtype_val]
    rw [hfind]
    cases e.items.attach.find? fun c => c.1.address = x <;> rfl
  rw [told, h]
  simp only [hbody]

theorem body_item (hc : c ∈ e.items) :
    e.body text separator m c.address = c.told text separator m := by
  unfold body
  have hsome : (e.items.find? fun d => d.address = c.address).isSome = true :=
    List.find?_isSome.2 ⟨c, hc, by simp⟩
  obtain ⟨d, hd⟩ := Option.isSome_iff_exists.1 hsome
  have hmem := List.mem_of_find?_eq_some hd
  have haddress : d.address = c.address := by simpa using List.find?_some hd
  rw [hd, Holds.eq_of_address (.step hmem (.refl d)) (.step hc (.refl c)) haddress]

theorem body_other {x : Nat} (hx : ∀ c ∈ e.items, c.address ≠ x) :
    e.body text separator m x = m.shown separator x := by
  unfold body
  have hnone : e.items.find? (fun d => d.address = x) = none := by
    rw [List.find?_eq_none]
    intro c hc
    simpa using hx c hc
  rw [hnone]

section Weave

variable {hang : Text → Text} {body : Nat → Text} {stop a index : Nat}
  {entries gone more : List Entry} {rest : List Nat}

/-- An object that none of the items left has. -/
theorem woven_fresh {x : Nat} (h : ∀ c ∈ entries, c.address ≠ x) :
    woven text separator hang body stop a index entries (x :: rest) =
      hang (leadAt separator index ++ body x) ++
        woven text separator hang body stop a (index + 1) entries rest := by
  have hall : ∀ c ∈ entries, (fun c : Entry => decide (c.address ≠ x)) c = true :=
    fun c hc => by simpa using h c hc
  have hdrop := @List.dropWhile_append_of_pos _ _ _ [] hall
  rw [List.append_nil, List.dropWhile_nil] at hdrop
  rw [woven, hdrop]

/-- An object that one of the items left has, and no item in front of
it. -/
theorem woven_keep (h : ∀ d ∈ gone, d.address ≠ c.address) :
    woven text separator hang body stop a index (gone ++ c :: more) (c.address :: rest) =
      stripped text separator a gone (c.cut text separator) ++
        (c.joint text separator index ++ body c.address) ++
        woven text separator hang body stop c.stop (index + 1) more rest := by
  have hgone : ∀ d ∈ gone, (fun d : Entry => decide (d.address ≠ c.address)) d = true :=
    fun d hd => by simpa using h d hd
  have hdrop : (gone ++ c :: more).dropWhile (fun d => d.address ≠ c.address) = c :: more := by
    rw [List.dropWhile_append_of_pos hgone, List.dropWhile_cons_of_neg (by simp)]
  have htake : (gone ++ c :: more).takeWhile (fun d => d.address ≠ c.address) = gone := by
    rw [List.takeWhile_append_of_pos hgone, List.takeWhile_cons_of_neg (by simp), List.append_nil]
  rw [woven, hdrop, htake]

end Weave

/-- The items of an entry have different cells. -/
theorem nodup_itemCells (e : Entry) : e.itemCells.Nodup := by
  have hpairs := e.pairwise_items
  refine (List.pairwise_map.2 (hpairs.imp fun {c d} h => ?_) : e.itemCells.Pairwise (· ≠ ·))
  have := c.address_lt
  have := d.base_le_address
  omega

/-- The items that the list of an entry knows are those of the entry. -/
theorem item?_loadedList (x : Nat) :
    ((e.loadedList separator).item? x).isSome = e.itemCells.contains x := by
  unfold ItemList.item?
  rw [List.isSome_find?]
  simp [loadedList, itemCells, listing, List.any_eq, List.contains_eq_mem]

theorem item?_of_mem (hc : c ∈ e.items) :
    (e.loadedList separator).item? c.address = some (listing separator c) := by
  obtain ⟨first, second, hitems⟩ := List.append_of_mem hc
  have hnone : ∀ d ∈ first, decide (d.address = c.address) = false := by
    intro d hd
    have hlt := (lt_of_append hitems hd).2
    have := d.address_lt
    have := c.base_le_address
    rw [decide_eq_false_iff_not]
    omega
  unfold ItemList.item? loadedList
  rw [List.find?_map, hitems, List.find?_append, List.find?_eq_none.2 fun d hd => by
    simpa [listing] using hnone d hd, List.find?_cons_of_pos (by simp [listing])]
  rfl

/-- A list that is not reordered is aligned with its items, and also with
those that come behind some items that are gone. -/
theorem aligned_of_not_reordered {current : List Nat} {gone entries : List Entry}
    (h : (e.loadedList separator).isReordered current = false) (hitems : e.items = gone ++ entries)
    (habsent : ∀ d ∈ gone, d.address ∉ current) : Aligned address entries current := by
  have hcells : e.itemCells = gone.map address ++ entries.map address := by
    rw [itemCells, hitems, List.map_append]
  have hnodup := e.nodup_itemCells
  rw [hcells, List.nodup_append] at hnodup
  have horder : (e.loadedList separator).inModelOrder current =
      (e.loadedList separator).inSourceOrder current := by
    simpa [ItemList.isReordered] using h
  have hlisted : (e.loadedList separator).listed.map ListedItem.object = e.itemCells := by
    simp [loadedList, itemCells, listing]
  unfold ItemList.inModelOrder ItemList.inSourceOrder at horder
  simp only [hlisted, item?_loadedList] at horder
  refine aligned_of_order current entries hnodup.2.1 ?_
  calc current.eraseDups.filter (fun x => (entries.map address).contains x)
    _ = current.eraseDups.filter (fun x => e.itemCells.contains x) := by
      refine List.filter_congr fun x hx => ?_
      have hgone : x ∉ gone.map address := by
        intro hmem
        obtain ⟨d, hd, rfl⟩ := List.mem_map.1 hmem
        exact habsent d hd (List.mem_eraseDups.1 hx)
      simp only [List.contains_eq_mem, hcells, List.mem_append, hgone, false_or]
    _ = e.itemCells.filter (fun x => current.contains x) := horder
    _ = (entries.map address).filter (fun x => current.contains x) := by
      rw [hcells, List.filter_append, List.filter_eq_nil_iff.2, List.nil_append]
      intro x hx
      obtain ⟨d, hd, rfl⟩ := List.mem_map.1 hx
      simpa using habsent d hd

section ToldItems

variable {hang : Text → Text} {body : Nat → Text} {current : List Nat} {first : Entry}
  {gone more others : List Entry}

theorem toldItems_nil (hitems : e.items = []) :
    e.toldItems text separator hang body current =
      hang (joinedFrom separator 0 (current.map body)) ++ text.piece e.inner e.outer := by
  rw [toldItems, hitems]

/-- The items are in a new order. -/
theorem toldItems_rewritten (hitems : e.items = first :: others)
    (horder : (e.loadedList separator).isReordered current = true) :
    e.toldItems text separator hang body current =
      text.piece e.inner first.start ++ rewritten separator hang body 0 current ++
        text.piece (rowStop e.inner e.items) e.outer := by
  rw [toldItems, hitems]
  simp only [horder, if_true]

/-- None of the items is listed any more. -/
theorem toldItems_absent (hitems : e.items ≠ [])
    (horder : (e.loadedList separator).isReordered current = false)
    (habsent : ∀ c ∈ e.items, c.address ∉ current) :
    e.toldItems text separator hang body current =
      woven text separator hang body e.outer e.inner 0 e.items current := by
  have hall : ∀ c ∈ e.items, (fun c : Entry => !current.contains c.address) c = true :=
    fun c hc => by simpa using habsent c hc
  have hdrop := @List.dropWhile_append_of_pos _ _ _ [] hall
  rw [List.append_nil, List.dropWhile_nil] at hdrop
  unfold toldItems
  split
  · next hnil => exact absurd hnil hitems
  · rw [horder, if_neg Bool.false_ne_true, hdrop]

/-- The first item that is listed comes behind some items that are gone. -/
theorem toldItems_listed (hitems : e.items = gone ++ c :: more)
    (horder : (e.loadedList separator).isReordered current = false)
    (habsent : ∀ d ∈ gone, d.address ∉ current) (hlisted : c.address ∈ current) :
    e.toldItems text separator hang body current =
      stripped text separator e.inner gone (c.cut text separator) ++
        woven text separator hang body e.outer (c.cut text separator) 0 (c :: more) current := by
  have hgone : ∀ d ∈ gone, (fun d : Entry => !current.contains d.address) d = true :=
    fun d hd => by simpa using habsent d hd
  have hkept : ¬ (fun d : Entry => !current.contains d.address) c = true := by simpa using hlisted
  have hdrop : e.items.dropWhile (fun d => !current.contains d.address) = c :: more := by
    rw [hitems, List.dropWhile_append_of_pos hgone,
      List.dropWhile_cons_of_neg (p := fun d : Entry => !current.contains d.address) hkept]
  have htake : e.items.takeWhile (fun d => !current.contains d.address) = gone := by
    rw [hitems, List.takeWhile_append_of_pos hgone,
      List.takeWhile_cons_of_neg (p := fun d : Entry => !current.contains d.address) hkept,
      List.append_nil]
  unfold toldItems
  split
  · next hnil =>
    rw [hitems] at hnil
    cases gone <;> cases hnil
  · rw [horder, if_neg Bool.false_ne_true, hdrop, htake]

/-- Either no item is listed, or there is a first one that is. -/
theorem exists_first_listed (e : Entry) (current : List Nat) :
    (∀ c ∈ e.items, c.address ∉ current) ∨ ∃ gone c more, e.items = gone ++ c :: more ∧
      (∀ d ∈ gone, d.address ∉ current) ∧ c.address ∈ current := by
  generalize e.items = entries
  induction entries with
  | nil => exact Or.inl fun c hc => absurd hc List.not_mem_nil
  | cons c rest ih =>
    by_cases hc : c.address ∈ current
    · exact Or.inr ⟨[], c, rest, rfl, fun d hd => absurd hd List.not_mem_nil, hc⟩
    · rcases ih with habsent | ⟨gone, d, more, hitems, habsent, hlisted⟩
      · exact Or.inl fun d hd => by
          rcases List.mem_cons.1 hd with rfl | hd
          · exact hc
          · exact habsent d hd
      · refine Or.inr ⟨c :: gone, d, more, by rw [hitems]; rfl, fun x hx => ?_, hlisted⟩
        rcases List.mem_cons.1 hx with rfl | hx
        · exact hc
        · exact habsent x hx

end ToldItems

/-! ## Where the items and their delimiters stand -/

/-- The delimiter of an item stands in front of it, behind the item
before. -/
theorem cut_le_start (text separator : Text) (c : Entry) : c.cut text separator ≤ c.start := by
  rcases c.lead_cases text separator with ⟨_, hcut, _⟩ | ⟨_, _, hcut, _⟩ |
    ⟨_, p, _, hcut, _, _, _, hp, _⟩
  · exact Nat.le_of_eq hcut
  · exact Nat.le_of_eq hcut
  · omega

theorem le_cut (text separator : Text) (c : Entry) (h : ∀ a, c.before = some a → a ≤ c.start) :
    c.before.getD c.start ≤ c.cut text separator := by
  rcases c.lead_cases text separator with ⟨_, hcut, _⟩ | ⟨a, _, hcut, ha, _⟩ |
    ⟨a, p, _, hcut, ha, _, hap, hp, _⟩ <;> rw [hcut]
  · cases ha : c.before with
    | none => exact Nat.le_refl _
    | some a => exact h a ha
  · rw [ha]
    exact h a ha
  · rw [ha]
    exact hap

/-- Items stand one behind the other between two offsets, each with its
delimiter in front. -/
def Spread (text separator : Text) : Nat → List Entry → Nat → Prop
  | a, [], b => a ≤ b ∧ b ≤ text.length
  | a, c :: rest, b => a ≤ c.cut text separator ∧ c.cut text separator ≤ c.start ∧
    c.start < c.stop ∧ Spread text separator c.stop rest b

theorem spread_of_chain {first : Bool} {entries : List Entry} {a b : Nat}
    (h : Chain text first entries a b) : Spread text separator a entries b := by
  induction entries generalizing first a with
  | nil => exact h.le
  | cons c rest ih =>
    rw [Chain] at h
    obtain ⟨hahead, hfits, hbefore, htail⟩ := h
    have hle := hahead.le
    have hlt : c.start < c.stop ∧ c.stop ≤ text.length := hfits.lt
    have hbounds := c.le_cut text separator fun x hx => by
      rw [hbefore] at hx
      cases first
      · cases hx
        exact hle.1
      · cases hx
    refine ⟨?_, c.cut_le_start text separator, hlt.1, ih htail⟩
    rw [hbefore] at hbounds
    cases first
    · exact hbounds
    · exact Nat.le_trans hle.1 hbounds

namespace Spread

variable {gone more entries : List Entry} {a b x : Nat}

theorem le (h : Spread text separator a entries b) : a ≤ b ∧ b ≤ text.length := by
  induction entries generalizing a with
  | nil => exact h
  | cons c rest ih =>
    obtain ⟨hcut, hstart, hstop, htail⟩ := h
    have hrest := ih htail
    omega

/-- The items in front of an item and those behind it. -/
theorem split (h : Spread text separator a (gone ++ c :: more) b) :
    Spread text separator a gone (c.cut text separator) ∧ c.cut text separator ≤ c.start ∧
      c.start < c.stop ∧ Spread text separator c.stop more b := by
  induction gone generalizing a with
  | nil =>
    obtain ⟨hcut, hstart, hstop, htail⟩ := h
    have hle := htail.le
    exact ⟨⟨hcut, by omega⟩, hstart, hstop, htail⟩
  | cons d gone ih =>
    obtain ⟨hcut, hstart, hstop, htail⟩ := h
    obtain ⟨hgone, hrest⟩ := ih htail
    exact ⟨⟨hcut, hstart, hstop, hgone⟩, hrest⟩

end Spread

/-! ## Edits -/

/-- The removal of an item together with its delimiter. -/
def removal (text separator : Text) (c : Entry) : Edit :=
  ⟨.remove, window (.ofText text) (c.cut text separator) c.stop, []⟩

/-- The removals of the items that are not listed. -/
def removals (text separator : Text) (current : List Nat) (entries : List Entry) : List Edit :=
  (entries.filter fun c => !current.contains c.address).map (removal text separator)

theorem removals_of_absent {current : List Nat} {entries : List Entry}
    (h : ∀ c ∈ entries, c.address ∉ current) :
    removals text separator current entries = entries.map (removal text separator) := by
  unfold removals
  rw [List.filter_eq_self.2 fun c hc => by simpa using h c hc]

theorem removals_append (current : List Nat) (first second : List Entry) :
    removals text separator current (first ++ second) =
      removals text separator current first ++ removals text separator current second := by
  unfold removals
  rw [List.filter_append, List.map_append]

theorem removals_cons_of_mem {current : List Nat} {entries : List Entry} (h : c.address ∈ current) :
    removals text separator current (c :: entries) = removals text separator current entries := by
  unfold removals
  rw [List.filter_cons, if_neg (by simpa using h)]

/-- The text without some items.  Each removal starts within the text. -/
theorem stripped_splices {a b : Nat} : ∀ {entries : List Entry},
    Spread text separator a entries b →
    (Patch.Splices (.ofText text) a b (entries.map (removal text separator))
      (stripped text separator a entries b)) ∧
      ∀ edit ∈ entries.map (removal text separator),
        edit.target.start < (Source.ofText text).place b
  | entries, h => by
    induction entries generalizing a with
    | nil =>
      have hcount := Source.charCount_ofText text
      have hnil := Patch.Splices.nil (s := .ofText text) h.1 (by rw [hcount]; exact h.2)
      rw [Source.text_ofText] at hnil
      exact ⟨hnil, fun _ hmem => absurd hmem List.not_mem_nil⟩
    | cons c rest ih =>
      have hcount := Source.charCount_ofText text
      obtain ⟨hcut, hstart, hstop, htail⟩ := h
      obtain ⟨hrest, hstarts⟩ := ih htail
      have hle := htail.le
      have hsingle := Patch.Splices.single (s := .ofText text) (removal text separator c) hcut
        (show c.cut text separator ≤ c.stop by omega) (Nat.le_refl c.stop) (by omega) rfl
      refine ⟨?_, fun edit hmem => ?_⟩
      · rw [Source.text_ofText, Text.piece_self, List.append_nil] at hsingle
        have happend := hsingle.append hrest
        rw [show (removal text separator c).text = [] from rfl, List.append_nil] at happend
        exact happend
      · rcases List.mem_cons.1 hmem with rfl | hmem
        · rw [removal, start_window (by omega) (by omega)]
          exact (Source.place_lt_place (by omega) (by omega)).2 (by omega)
        · exact hstarts edit hmem

/-- A replacement of a piece of the text. -/
theorem replaced_splices {a b : Nat} (hab : a ≤ b) (hb : b ≤ text.length) (t : Text) :
    Patch.Splices (.ofText text) a b
      (replacement (window (.ofText text) a b) (text.piece a b) t) t := by
  have hreplace := replacement_splices (s := .ofText text) hab
    (by rw [Source.charCount_ofText]; exact hb) t
  rwa [Source.text_ofText] at hreplace

/-- The edits of an item that is kept, with its delimiter. -/
theorem item_splices (hstop : c.start < c.stop) (hbound : c.stop ≤ text.length) (index : Nat)
    (t : Text) :
    Patch.Splices (.ofText text) (c.cut text separator) c.stop
      (delimiterEdits (c.lead text separator) (leadAt separator index)
          ((Source.ofText text).place c.start) ++
        replacement (c.span text) (text.piece c.start c.stop) t)
      (c.joint text separator index ++ t) := by
  have hcount := Source.charCount_ofText text
  have hreplace := replaced_splices (Nat.le_of_lt hstop) hbound t
  rcases c.lead_cases text separator with ⟨hlead, hcut, _⟩ | ⟨a, hlead, hcut, _⟩ |
    ⟨a, p, hlead, hcut, _, hne, _, hp, _⟩
  · have hjoint : c.joint text separator index = leadAt separator index := by
      rw [joint, hlead, leadAt]
    rw [hcut, hjoint, hlead]
    exact insertion_splices hreplace _
  · have hjoint : c.joint text separator index = leadAt separator index := by
      rw [joint, hlead, leadAt]
    rw [hcut, hjoint, hlead]
    exact insertion_splices hreplace _
  · have hlength : 0 < separator.length := List.length_pos_iff.2 hne
    have hlt : p < c.start := by omega
    rw [hcut, hlead, delimiterEdits]
    by_cases hindex : index = 0
    · have hdelete := Patch.Splices.single (s := .ofText text)
        ⟨.replace, window (.ofText text) p c.start, []⟩ (Nat.le_refl p) (Nat.le_of_lt hlt)
        (Nat.le_refl c.start) (by omega) rfl
      simp only [Text.piece_self, List.append_nil] at hdelete
      rw [joint, if_pos hindex, leadAt, if_pos hindex, if_neg hne]
      exact hdelete.append hreplace
    · have hnil := Patch.Splices.nil (s := .ofText text) (Nat.le_of_lt hlt) (by omega)
      rw [Source.text_ofText] at hnil
      rw [joint, if_neg hindex, hlead, hcut, leadAt, if_neg hindex, if_pos rfl]
      exact hnil.append hreplace

end Entry

end Reprint.WordList
