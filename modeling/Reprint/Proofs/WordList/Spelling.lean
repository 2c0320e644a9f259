import Reprint.WordList.Item
import Reprint.Proofs.Source.Bytes

/-!
# Where the reader finds what it reads

`Item.Fits` and `Item.FitAll` say of items with bytes that they stand in a
text: names and marks are where the bytes say, brackets are around lists,
and between two items there are one separator and spaces.

`readDocument_fits` is the soundness of the reader: what it reads fits the
text.  So every text that it accepts is ASCII (`isAscii_of_readDocument`), and
its byte offsets count characters.
-/

namespace Reprint.WordList

/-- How the mark of a word is written. -/
def markText : Option Bool → Text
  | some true => ['!']
  | some false => ['?']
  | none => []

/-! ## The text around items -/

/-- The text between two offsets is made of spaces. -/
structure Spaces (t : Text) (a b : Nat) : Prop where
  order : a ≤ b
  bound : b ≤ t.length
  chars : ∀ c ∈ t.piece a b, isSpace c = true

/-- The text between two offsets is one separator with spaces around it. -/
def Gap (t : Text) (a b : Nat) : Prop :=
  ∃ k, Spaces t a k ∧ (∃ c, t[k]? = some c ∧ isSeparator c = true) ∧ Spaces t (k + 1) b

/-- The text in front of an item, where the first item of a list needs no
separator. -/
def Ahead (t : Text) (first : Bool) (a b : Nat) : Prop :=
  if first then Spaces t a b else Gap t a b

/-- The text behind the last item, where one separator may stand, unless
there is no item at all. -/
def Behind (t : Text) (first : Bool) (a b : Nat) : Prop :=
  Spaces t a b ∨ first = false ∧ Gap t a b

namespace Spaces

variable {t : Text} {a b c : Nat}

theorem refl (h : a ≤ t.length) : Spaces t a a := ⟨Nat.le_refl a, h, by simp⟩

end Spaces

theorem Gap.lt {t : Text} {a b : Nat} (h : Gap t a b) : a < b ∧ b ≤ t.length := by
  obtain ⟨k, hbefore, _, hbehind⟩ := h
  have := hbefore.order
  have := hbehind.order
  exact ⟨by omega, hbehind.bound⟩

theorem Ahead.le {t : Text} {first : Bool} {a b : Nat} (h : Ahead t first a b) :
    a ≤ b ∧ b ≤ t.length := by
  unfold Ahead at h
  split at h
  · exact ⟨h.order, h.bound⟩
  · exact ⟨Nat.le_of_lt h.lt.1, h.lt.2⟩

theorem Behind.le {t : Text} {first : Bool} {a b : Nat} (h : Behind t first a b) :
    a ≤ b ∧ b ≤ t.length := by
  rcases h with h | ⟨_, h⟩
  · exact ⟨h.order, h.bound⟩
  · exact ⟨Nat.le_of_lt h.lt.1, h.lt.2⟩

/-- A gap holds spaces and a separator. -/
theorem Gap.chars {t : Text} {a b : Nat} (h : Gap t a b) :
    ∀ c ∈ t.piece a b, isSpace c = true ∨ isSeparator c = true := by
  obtain ⟨k, hbefore, ⟨d, hd, hsep⟩, hbehind⟩ := h
  have horder := hbefore.order
  have horder' := hbehind.order
  intro c hc
  rw [← Text.piece_append horder (show k ≤ b by omega),
    ← Text.piece_append (Nat.le_succ k) horder', Text.piece_succ hd] at hc
  rcases List.mem_append.1 hc with hc | hc
  · exact Or.inl (hbefore.chars c hc)
  · rcases List.mem_append.1 hc with hc | hc
    · rw [List.mem_singleton.1 hc]
      exact Or.inr hsep
    · exact Or.inl (hbehind.chars c hc)

/-- A gap is not made of white space alone. -/
theorem Gap.not_isBlank {t : Text} {a b : Nat} (h : Gap t a b) : Text.isBlank (t.piece a b) = false := by
  obtain ⟨k, hbefore, ⟨d, hd, hsep⟩, hbehind⟩ := h
  have hmem : d ∈ t.piece a b := by
    rw [← Text.piece_append hbefore.order (show k ≤ b by have := hbehind.order; omega),
      ← Text.piece_append (Nat.le_succ k) hbehind.order, Text.piece_succ hd]
    simp
  have hblank : Text.isBlankChar d = false := by
    rcases Bool.or_eq_true_iff.1 hsep with hd | hd <;> rw [of_decide_eq_true hd] <;> decide
  rw [Text.isBlank, List.all_eq_false]
  exact ⟨d, hmem, by simp [hblank]⟩

/-- No bracket stands between the last item and the end of its list. -/
theorem Behind.ne_bracket {t : Text} {first : Bool} {a b : Nat} (h : Behind t first a b) {j : Nat}
    (haj : a ≤ j) (hjb : j < b) : t.piece j (j + 1) ≠ [']'] := by
  intro hpiece
  have hmem : ']' ∈ t.piece a b := by
    rw [← Text.piece_append haj (Nat.le_of_lt hjb), ← Text.piece_append (Nat.le_succ j) hjb, hpiece]
    simp
  rcases h with h | ⟨_, h⟩
  · exact absurd (h.chars _ hmem) (by decide)
  · rcases h.chars _ hmem with hspace | hsep
    · exact absurd hspace (by decide)
    · exact absurd hsep (by decide)

/-! ## Items in a text -/

/-- A word stands where its bytes say. -/
structure Word.Fits (t : Text) (w : Word) : Prop where
  start : w.bytes.1 = w.nameBytes.1
  order : w.nameBytes.1 < w.nameBytes.2
  stop : w.bytes.2 = w.nameBytes.2 + (markText w.loudness).length
  bound : w.bytes.2 ≤ t.length
  name : t.piece w.nameBytes.1 w.nameBytes.2 = w.name
  chars : ∀ c ∈ w.name, isWordChar c = true
  mark : t.piece w.nameBytes.2 w.bytes.2 = markText w.loudness

mutual

/-- An item of a list stands where its bytes say. -/
def Item.Fits (t : Text) : Item → Prop
  | .word w => w.Fits t
  | .list bytes bracketed items =>
    bracketed = true ∧ bytes.1 + 2 ≤ bytes.2 ∧ bytes.2 ≤ t.length ∧
      t.piece bytes.1 (bytes.1 + 1) = ['['] ∧ t.piece (bytes.2 - 1) bytes.2 = [']'] ∧
      Item.FitAll t true items (bytes.1 + 1) (bytes.2 - 1)
termination_by structural item => item

/-- The items stand between two offsets.  The flag says that they are the
first of their list. -/
def Item.FitAll (t : Text) : Bool → List Item → Nat → Nat → Prop
  | first, [], a, b => Behind t first a b
  | first, item :: rest, a, b =>
    Ahead t first a item.bytes.1 ∧ Item.Fits t item ∧ Item.FitAll t false rest item.bytes.2 b
termination_by structural _ items => items

end

theorem Item.Fits.lt {t : Text} : ∀ {item : Item}, item.Fits t →
    item.bytes.1 < item.bytes.2 ∧ item.bytes.2 ≤ t.length
  | .word w, h => by
    rw [Item.Fits] at h
    have hstart := h.start
    have horder := h.order
    have hstop := h.stop
    exact ⟨by simp only [Item.bytes]; omega, h.bound⟩
  | .list bytes bracketed items, h => by
    rw [Item.Fits] at h
    exact ⟨by simp only [Item.bytes]; omega, h.2.2.1⟩

theorem Item.FitAll.le {t : Text} : ∀ {first : Bool} {items : List Item} {a b : Nat},
    Item.FitAll t first items a b → a ≤ b ∧ b ≤ t.length
  | _, [], _, _, h => Behind.le h
  | _, item :: rest, a, b, h => by
    rw [Item.FitAll] at h
    have hahead := h.1.le
    have hitem := h.2.1.lt
    have hrest := h.2.2.le
    omega

/-- An item of a list that stands between two offsets. -/
theorem Item.FitAll.mem {t : Text} : ∀ {first : Bool} {items : List Item} {a b : Nat},
    Item.FitAll t first items a b → ∀ item ∈ items,
      item.Fits t ∧ a ≤ item.bytes.1 ∧ item.bytes.1 < item.bytes.2 ∧ item.bytes.2 ≤ b
  | _, [], _, _, _ => fun _ hmem => by cases hmem
  | _, first :: rest, a, b, h => by
    rw [Item.FitAll] at h
    obtain ⟨hahead, hfits, htail⟩ := h
    have hle := hahead.le
    have hlt := hfits.lt
    have hrest := htail.le
    intro item hmem
    rcases List.mem_cons.1 hmem with rfl | hmem
    · exact ⟨hfits, hle.1, hlt.1, hrest.1⟩
    · obtain ⟨hfits', hstart, hlt', hstop⟩ := htail.mem item hmem
      exact ⟨hfits', by omega, hlt', hstop⟩

/-- The items of a list follow each other. -/
theorem Item.FitAll.pairwise {t : Text} : ∀ {first : Bool} {items : List Item} {a b : Nat},
    Item.FitAll t first items a b → items.Pairwise fun c d => c.bytes.2 ≤ d.bytes.1
  | _, [], _, _, _ => .nil
  | _, first :: rest, a, b, h => by
    rw [Item.FitAll] at h
    exact List.pairwise_cons.2 ⟨fun item hmem => (h.2.2.mem item hmem).2.1, h.2.2.pairwise⟩

/-! ## The reader -/

/-- The reader has read the text up to its offset. -/
structure Reader.On (t : Text) (r : Reader) : Prop where
  bound : r.byte ≤ t.length
  rest : r.rest = t.drop r.byte

namespace Reader.On

variable {t : Text} {r : Reader}

theorem start (t : Text) : Reader.On t ⟨0, t⟩ := ⟨Nat.zero_le _, rfl⟩

/-- Reading a number of characters. -/
theorem drop (h : Reader.On t r) {n : Nat} (hn : n ≤ r.rest.length) :
    Reader.On t ⟨r.byte + n, r.rest.drop n⟩ ∧ t.piece r.byte (r.byte + n) = r.rest.take n := by
  have hlength : r.rest.length = t.length - r.byte := by rw [h.rest, List.length_drop]
  have hbound := h.bound
  refine ⟨⟨by simp only; omega, by rw [h.rest, List.drop_drop]⟩, ?_⟩
  rw [Text.piece, h.rest, List.drop_take, Nat.add_sub_cancel_left]

/-- Reading one character. -/
theorem step (h : Reader.On t r) {c : Char} {rest : Text} (hrest : r.rest = c :: rest) :
    Reader.On t ⟨r.byte + 1, rest⟩ ∧ t.piece r.byte (r.byte + 1) = [c] ∧ t[r.byte]? = some c := by
  have hdrop := h.drop (show 1 ≤ r.rest.length by rw [hrest]; simp)
  rw [hrest] at hdrop
  refine ⟨hdrop.1, hdrop.2, ?_⟩
  have hhead : (t.drop r.byte)[0]? = some c := by rw [← h.rest, hrest]; rfl
  simpa using hhead

/-- Reading a run of characters of a class. -/
theorem takeWhile (h : Reader.On t r) (p : Char → Bool) :
    Reader.On t (r.takeWhile p).2 ∧ r.byte ≤ (r.takeWhile p).2.byte ∧
      t.piece r.byte (r.takeWhile p).2.byte = (r.takeWhile p).1 ∧
      ∀ c ∈ (r.takeWhile p).1, p c = true := by
  obtain ⟨run, rest, hrun, hdropped, hsplit⟩ : ∃ run rest, r.rest.takeWhile p = run ∧
      r.rest.dropWhile p = rest ∧ r.rest = run ++ rest :=
    ⟨_, _, rfl, rfl, List.takeWhile_append_dropWhile.symm⟩
  have hdrop := h.drop (show run.length ≤ r.rest.length by rw [hsplit]; simp)
  rw [hsplit, List.drop_left, List.take_left] at hdrop
  unfold Reader.takeWhile
  rw [hrun, hdropped]
  refine ⟨hdrop.1, Nat.le_add_right _ _, hdrop.2, fun c hc => ?_⟩
  rw [← hrun] at hc
  exact List.all_eq_true.1 List.all_takeWhile c hc

theorem skipSpaces (h : Reader.On t r) :
    Reader.On t r.skipSpaces ∧ Spaces t r.byte r.skipSpaces.byte := by
  obtain ⟨hon, hle, hpiece, hchars⟩ := h.takeWhile isSpace
  exact ⟨hon, hle, hon.bound, fun c hc => hchars c (hpiece ▸ hc)⟩

end Reader.On

/-- The mark that a text begins with is written at its start. -/
theorem markText_markOf (t : Text) : t.take (if (markOf t).isSome then 1 else 0) = markText (markOf t) := by
  unfold markOf
  split <;> rfl

theorem length_markText (loudness : Option Bool) :
    (markText loudness).length = if loudness.isSome then 1 else 0 := by
  rcases loudness with _ | _ | _ <;> rfl

/-- The word that the reader reads stands in the text. -/
theorem readWord_fits {t : Text} {r s : Reader} {w : Word} (hr : Reader.On t r)
    (h : readWord r = .ok (w, s)) :
    Reader.On t s ∧ w.Fits t ∧ w.bytes = (r.byte, s.byte) := by
  obtain ⟨hname, hle, hpiece, hchars⟩ := hr.takeWhile isWordChar
  unfold readWord at h
  generalize hread : r.takeWhile isWordChar = read at h hname hle hpiece hchars
  obtain ⟨name, u⟩ := read
  dsimp only at h hname hle hpiece hchars
  split at h
  · cases h
  next hempty =>
  have hlength : (markText (markOf u.rest)).length ≤ u.rest.length := by
    rw [← markText_markOf, List.length_take]
    omega
  have hmark := hname.drop hlength
  rw [length_markText, markText_markOf] at hmark
  cases h
  refine ⟨hmark.1, ?_, rfl⟩
  have hlt : r.byte < u.byte := by
    have hne : name ≠ [] := by simpa using hempty
    have hlen := congrArg List.length hpiece
    rw [Text.length_piece hname.bound] at hlen
    have := List.length_pos_iff.2 hne
    omega
  exact {
    start := rfl
    order := hlt
    stop := by rw [length_markText]
    bound := hmark.1.bound
    name := hpiece
    chars := hchars
    mark := hmark.2 }

/-- What is needed of the two readers of items for one bound on the depth. -/
def ReadsFit (t : Text) (depth : Nat) : Prop :=
  (∀ {r s : Reader} {item : Item}, Reader.On t r → readItem depth r = .ok (item, s) →
    Reader.On t s ∧ item.Fits t ∧ item.bytes = (r.byte, s.byte)) ∧
  ∀ (first : Bool) {bracketed : Bool} {r s : Reader} {items : List Item} {a : Nat}, Reader.On t r →
    Ahead t first a r.byte → readItems depth bracketed r = .ok (items, s) →
    Reader.On t s ∧ Item.FitAll t first items a s.byte

/-- No item. -/
theorem behind_of_ahead {t : Text} {first : Bool} {a b : Nat} (h : Ahead t first a b) :
    Behind t first a b := by
  cases first with
  | true => exact Or.inl h
  | false => exact Or.inr ⟨rfl, h⟩

/-- The step for an item. -/
theorem ReadsFit.item_step {t : Text} {depth : Nat} (ih : ReadsFit t depth) {r s : Reader} {item : Item}
    (hr : Reader.On t r) (h : readItem (depth + 1) r = .ok (item, s)) :
    Reader.On t s ∧ item.Fits t ∧ item.bytes = (r.byte, s.byte) := by
  rw [readItem] at h
  split at h
  · next rest hrest =>
    obtain ⟨hopen, hbracket, _⟩ := hr.step hrest
    obtain ⟨hskip, hspaces⟩ := hopen.skipSpaces
    cases hread : readItems depth true (Reader.skipSpaces ⟨r.byte + 1, rest⟩) with
    | error e =>
      rw [hread] at h
      cases h
    | ok read =>
      obtain ⟨items, u⟩ := read
      rw [hread] at h
      simp only [bind, Except.bind] at h
      obtain ⟨hu, hfit⟩ := ih.2 true hskip hspaces hread
      split at h
      · next rest' hclose =>
        cases h
        obtain ⟨hs, hbracket', _⟩ := hu.step hclose
        have hle : r.byte + 1 ≤ u.byte := hfit.le.1
        refine ⟨hs, ?_, rfl⟩
        rw [Item.Fits]
        exact ⟨rfl, by simp only; omega, hs.bound, hbracket, hbracket', hfit⟩
      · cases h
  · cases hread : readWord r with
    | error e =>
      rw [hread] at h
      cases h
    | ok read =>
      obtain ⟨word, u⟩ := read
      rw [hread] at h
      cases h
      exact readWord_fits hr hread

/-- The step for the items of a list. -/
theorem ReadsFit.items_step {t : Text} {depth : Nat} (ih : ReadsFit t depth) {first bracketed : Bool}
    {r s : Reader} {items : List Item} {a : Nat} (hr : Reader.On t r) (hahead : Ahead t first a r.byte)
    (h : readItems (depth + 1) bracketed r = .ok (items, s)) :
    Reader.On t s ∧ Item.FitAll t first items a s.byte := by
  rw [readItems] at h
  split at h
  · cases h
    exact ⟨hr, behind_of_ahead hahead⟩
  next c rest hrest =>
  split at h
  · cases h
    exact ⟨hr, behind_of_ahead hahead⟩
  cases hread : readItem depth r with
  | error e =>
    rw [hread] at h
    cases h
  | ok read =>
    obtain ⟨item, u⟩ := read
    obtain ⟨hu, hfit, hbytes⟩ := ih.1 hr hread
    obtain ⟨hskip, hspaces⟩ := hu.skipSpaces
    have hstart : item.bytes.1 = r.byte := by rw [hbytes]
    have hstop : item.bytes.2 = u.byte := by rw [hbytes]
    have hlast : Item.FitAll t first [item] a u.skipSpaces.byte := by
      rw [Item.FitAll, hstart, hstop]
      exact ⟨hahead, hfit, Or.inl hspaces⟩
    rw [hread] at h
    simp only [bind, Except.bind] at h
    split at h
    · next c' rest' hseparator =>
      split at h
      · next hsep =>
        obtain ⟨hnext, _, hchar⟩ := hskip.step hseparator
        obtain ⟨hskip', hspaces'⟩ := hnext.skipSpaces
        cases hmore : readItems depth bracketed (Reader.skipSpaces ⟨u.skipSpaces.byte + 1, rest'⟩) with
        | error e =>
          rw [hmore] at h
          cases h
        | ok read =>
          obtain ⟨others, v⟩ := read
          rw [hmore] at h
          cases h
          obtain ⟨hv, hothers⟩ := ih.2 false hskip'
            ⟨_, hspaces, ⟨c', hchar, hsep⟩, hspaces'⟩ hmore
          refine ⟨hv, ?_⟩
          rw [Item.FitAll, hstart, hstop]
          exact ⟨hahead, hfit, hothers⟩
      · cases h
        exact ⟨hskip, hlast⟩
    · cases h
      exact ⟨hskip, hlast⟩

/-- What the reader reads stands in the text, by induction on the depth. -/
theorem reads_fit (t : Text) : ∀ depth, ReadsFit t depth
  | 0 => by
    constructor
    · intro r s item _ h
      cases h
    · intro first bracketed r s items a _ _ h
      cases h
  | depth + 1 => ⟨(reads_fit t depth).item_step, fun _ => (reads_fit t depth).items_step⟩

/-- A document that is read fits the text. -/
theorem readDocument_fits {t : Text} {item : Item} (h : readDocument t = .ok item) :
    ∃ items, item = .list (bytesOfItems t.length items) false items ∧
      Item.FitAll t true items 0 t.length := by
  obtain ⟨hskip, hspaces⟩ := (Reader.On.start t).skipSpaces
  unfold readDocument at h
  cases hread : readItems (2 * t.length + 2) false (Reader.skipSpaces ⟨0, t⟩) with
  | error e =>
    rw [hread] at h
    cases h
  | ok read =>
    obtain ⟨items, s⟩ := read
    obtain ⟨hs, hfit⟩ := (reads_fit t _).2 true hskip hspaces hread
    rw [hread] at h
    simp only [bind, Except.bind] at h
    split at h
    · next hempty =>
      cases h
      have hend : s.byte = t.length := by
        have hrest : s.rest = [] := List.isEmpty_iff.1 hempty
        have hlength : s.rest.length = t.length - s.byte := by rw [hs.rest, List.length_drop]
        have := hs.bound
        rw [hrest] at hlength
        simp only [List.length_nil] at hlength
        omega
      rw [hend] at hfit
      exact ⟨items, by rw [hend], hfit⟩
    · cases h

/-! ## The characters of a document -/

theorem utf8Size_of_le {c : Char} (h : c.toNat ≤ 127) : c.utf8Size = 1 := by
  unfold Char.utf8Size
  exact if_pos h

theorem utf8Size_of_isSpace {c : Char} (h : isSpace c = true) : c.utf8Size = 1 := by
  simp only [isSpace, Bool.or_eq_true, decide_eq_true_eq] at h
  rcases h with ((rfl | rfl) | rfl) | rfl <;> rfl

theorem utf8Size_of_isSeparator {c : Char} (h : isSeparator c = true) : c.utf8Size = 1 := by
  simp only [isSeparator, Bool.or_eq_true, decide_eq_true_eq] at h
  rcases h with rfl | rfl <;> rfl

theorem utf8Size_of_isWordChar {c : Char} (h : isWordChar c = true) : c.utf8Size = 1 := by
  refine utf8Size_of_le ?_
  have hval : c.toNat = c.val.toNat := rfl
  -- `Char.isAlphanum` is a test of ranges of codes.
  have hranges : isWordChar c =
      ((decide (c.val ≥ 65 ∧ c.val ≤ 90) || (decide (c.val ≥ 97) && decide (c.val ≤ 122))) ||
        (decide (c.val ≥ 48) && decide (c.val ≤ 57)) || decide (c = '_')) := rfl
  rw [hranges] at h
  simp only [Bool.or_eq_true, Bool.and_eq_true, decide_eq_true_eq] at h
  rcases h with h | rfl
  · simp only [ge_iff_le, UInt32.le_iff_toNat_le] at h
    simp at h
    omega
  · decide

/-- A piece of ASCII characters. -/
def AsciiBetween (t : Text) (a b : Nat) : Prop := (t.piece a b).IsAscii

theorem AsciiBetween.append {t : Text} {a b c : Nat} (hab : a ≤ b) (hbc : b ≤ c)
    (h : AsciiBetween t a b) (h' : AsciiBetween t b c) : AsciiBetween t a c := by
  intro ch hch
  rw [← Text.piece_append hab hbc, List.mem_append] at hch
  rcases hch with hch | hch
  · exact h ch hch
  · exact h' ch hch

theorem Spaces.ascii {t : Text} {a b : Nat} (h : Spaces t a b) : AsciiBetween t a b :=
  fun c hc => utf8Size_of_isSpace (h.chars c hc)

theorem Gap.ascii {t : Text} {a b : Nat} (h : Gap t a b) : AsciiBetween t a b := by
  obtain ⟨k, hbefore, ⟨c, hc, hsep⟩, hbehind⟩ := h
  have hseparator : AsciiBetween t k (k + 1) := by
    intro d hd
    rw [Text.piece_succ hc, List.mem_singleton] at hd
    rw [hd]
    exact utf8Size_of_isSeparator hsep
  have := hbefore.order
  have := hbehind.order
  exact .append hbefore.order (by omega) hbefore.ascii
    (.append (by omega) hbehind.order hseparator hbehind.ascii)

theorem Ahead.ascii {t : Text} {first : Bool} {a b : Nat} (h : Ahead t first a b) :
    AsciiBetween t a b := by
  unfold Ahead at h
  split at h
  · exact h.ascii
  · exact h.ascii

theorem Behind.ascii {t : Text} {first : Bool} {a b : Nat} (h : Behind t first a b) :
    AsciiBetween t a b := by
  rcases h with h | ⟨_, h⟩
  · exact h.ascii
  · exact h.ascii

theorem Word.Fits.ascii {t : Text} {w : Word} (h : w.Fits t) :
    AsciiBetween t w.bytes.1 w.bytes.2 := by
  have hstop := h.stop
  have horder := h.order
  rw [h.start]
  refine .append (Nat.le_of_lt horder) (by omega) ?_ ?_
  · intro c hc
    rw [h.name] at hc
    exact utf8Size_of_isWordChar (h.chars c hc)
  · intro c hc
    rw [h.mark] at hc
    generalize w.loudness = loudness at hc
    rcases loudness with _ | _ | _ <;> simp only [markText, List.mem_singleton] at hc
    · cases hc
    · rw [hc]
      rfl
    · rw [hc]
      rfl

mutual

theorem Item.Fits.ascii {t : Text} : ∀ item : Item, item.Fits t →
    AsciiBetween t item.bytes.1 item.bytes.2
  | .word w, h => by
    rw [Item.Fits] at h
    exact h.ascii
  | .list bytes bracketed items, h => by
    rw [Item.Fits] at h
    obtain ⟨_, hlt, _, hopen, hclose, hitems⟩ := h
    have hle := hitems.le
    refine .append (b := bytes.1 + 1) (by simp only [Item.bytes]; omega) (by simp only [Item.bytes]; omega) ?_
      (.append (b := bytes.2 - 1) (by omega) (by simp only [Item.bytes]; omega)
        (Item.FitAll.ascii true items hitems) ?_)
    · intro c hc
      rw [Item.bytes, hopen, List.mem_singleton] at hc
      rw [hc]
      rfl
    · intro c hc
      rw [Item.bytes, hclose, List.mem_singleton] at hc
      rw [hc]
      rfl
termination_by structural item => item

theorem Item.FitAll.ascii {t : Text} : ∀ (first : Bool) (items : List Item) {a b : Nat},
    Item.FitAll t first items a b → AsciiBetween t a b
  | first, [], a, b, h => Behind.ascii h
  | first, item :: rest, a, b, h => by
    rw [Item.FitAll] at h
    have hahead := h.1.le
    have hitem := h.2.1.lt
    have hrest := h.2.2.le
    exact .append hahead.1 (by omega) h.1.ascii
      (.append (Nat.le_of_lt hitem.1) (by omega) (Item.Fits.ascii item h.2.1)
        (Item.FitAll.ascii false rest h.2.2))
termination_by structural _ items => items

end

/-- A document is an ASCII text. -/
theorem isAscii_of_readDocument {t : Text} {item : Item} (h : readDocument t = .ok item) :
    t.IsAscii := by
  obtain ⟨items, _, hfit⟩ := readDocument_fits h
  have hascii := Item.FitAll.ascii true items hfit
  unfold AsciiBetween at hascii
  rwa [Text.piece_zero_length] at hascii

end Reprint.WordList
