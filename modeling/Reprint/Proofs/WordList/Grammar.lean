import Reprint.Proofs.WordList.Spelling

/-!
# The grammar of word lists

A document is an item list without brackets:

    document = body
    body     = space* [row] space*
    row      = item (space* separator space* item)* [space* separator]
    item     = word | '[' body ']'
    word     = (letter | digit | '_')+ ['!' | '?']

`Grammar.IsItem`, `IsBody`, `IsRow` and `IsMore` are the derivations of this
grammar.  Each one has the offset where its text begins and what the text is
read as, so the derivation of a document is the item that stands for it.

* `readDocument_of_isDocument` is the completeness of the reader.  The
  derivation is taken apart as the reader goes, by induction on the depth.
* `isDocument_of_readDocument` is its soundness, from the offsets that
  `readDocument_fits` gives.
* `readDocument_ne_tooDeep` says that the reader always comes to an end: the
  bound on its depth is never used up.
-/

namespace Reprint.WordList

/-! ## The derivations -/

/-- A text of spaces. -/
def Blank (t : Text) : Prop := ∀ c ∈ t, isSpace c = true

/-- One separator with spaces around it. -/
def Parting (t : Text) : Prop :=
  ∃ before c behind, t = before ++ c :: behind ∧ Blank before ∧ isSeparator c = true ∧ Blank behind

/-- What may stand behind the last item, or in a list without any. -/
def Trailing (empty : Bool) (t : Text) : Prop := Blank t ∨ empty = false ∧ Parting t

namespace Grammar

/-- Letters, digits and `_`. -/
def IsNameChar (c : Char) : Prop :=
  'A' ≤ c ∧ c ≤ 'Z' ∨ 'a' ≤ c ∧ c ≤ 'z' ∨ '0' ≤ c ∧ c ≤ '9' ∨ c = '_'

mutual

/-- The text from an offset on is an item. -/
inductive IsItem : Nat → Text → Item → Prop
  | word {start : Nat} {name : Text} {loudness : Option Bool} (nonempty : name ≠ [])
      (chars : ∀ c ∈ name, IsNameChar c) :
      IsItem start (name ++ markText loudness)
        (.word ⟨(start, start + (name ++ markText loudness).length), name,
          (start, start + name.length), loudness⟩)
  | list {start : Nat} {body : Text} {items : List Item} (inner : IsBody (start + 1) body items) :
      IsItem start ('[' :: (body ++ [']'])) (.list (start, start + body.length + 2) true items)

/-- The text from an offset on is what may stand in brackets. -/
inductive IsBody : Nat → Text → List Item → Prop
  | empty {start : Nat} {ahead behind : Text} (spaces : Blank ahead) (spaces' : Blank behind) :
      IsBody start (ahead ++ behind) []
  | row {start : Nat} {ahead row behind : Text} {items : List Item} (spaces : Blank ahead)
      (inner : IsRow (start + ahead.length) row items) (spaces' : Blank behind) :
      IsBody start (ahead ++ (row ++ behind)) items

/-- The text from an offset on is a row of items. -/
inductive IsRow : Nat → Text → List Item → Prop
  | plain {start : Nat} {first more : Text} {item : Item} {items : List Item}
      (head : IsItem start first item) (tail : IsMore (start + first.length) more items) :
      IsRow start (first ++ more) (item :: items)
  | ended {start : Nat} {first more spaces : Text} {c : Char} {item : Item} {items : List Item}
      (head : IsItem start first item) (tail : IsMore (start + first.length) more items)
      (blank : Blank spaces) (separator : isSeparator c = true) :
      IsRow start (first ++ (more ++ (spaces ++ [c]))) (item :: items)

/-- The text from an offset on is the items of a row behind its first one. -/
inductive IsMore : Nat → Text → List Item → Prop
  | nil {start : Nat} : IsMore start [] []
  | cons {start : Nat} {before behind first more : Text} {c : Char} {item : Item}
      {items : List Item} (blank : Blank before) (separator : isSeparator c = true)
      (blank' : Blank behind) (head : IsItem (start + before.length + 1 + behind.length) first item)
      (tail : IsMore (start + before.length + 1 + behind.length + first.length) more items) :
      IsMore start (before ++ c :: (behind ++ (first ++ more))) (item :: items)

end

/-- A text is a document.  Its bytes are those from its first item to its last. -/
def IsDocument (t : Text) (root : Item) : Prop :=
  ∃ items, IsBody 0 t items ∧ root = .list (bytesOfItems t.length items) false items

end Grammar

theorem Blank.nil : Blank [] := fun _ h => absurd h List.not_mem_nil

theorem Blank.append {t u : Text} (ht : Blank t) (hu : Blank u) : Blank (t ++ u) := by
  intro c hc
  rcases List.mem_append.1 hc with hc | hc
  · exact ht c hc
  · exact hu c hc

theorem Parting.append {t u : Text} (ht : Blank t) (hu : Parting u) : Parting (t ++ u) := by
  obtain ⟨before, c, behind, rfl, hbefore, hc, hbehind⟩ := hu
  exact ⟨t ++ before, c, behind, (List.append_assoc _ _ _).symm, ht.append hbefore, hc, hbehind⟩

theorem Trailing.append {empty : Bool} {t u : Text} (ht : Blank t) (hu : Trailing empty u) :
    Trailing empty (t ++ u) := by
  rcases hu with hu | ⟨hempty, hu⟩
  · exact Or.inl (ht.append hu)
  · exact Or.inr ⟨hempty, .append ht hu⟩

namespace Grammar

theorem isNameChar_iff {c : Char} : IsNameChar c ↔ isWordChar c = true := by
  unfold IsNameChar isWordChar Char.isAlphanum Char.isAlpha Char.isUpper Char.isLower Char.isDigit
  simp only [Bool.or_eq_true, Bool.and_eq_true, decide_eq_true_eq, ge_iff_le, or_assoc]
  exact Iff.rfl

theorem isBody_nil_iff {start : Nat} {t : Text} : IsBody start t [] ↔ Blank t := by
  constructor
  · intro h
    cases h with
    | empty spaces spaces' => exact spaces.append spaces'
    | row spaces inner spaces' => nomatch inner
  · intro h
    have hempty := @IsBody.empty start t [] h .nil
    rwa [List.append_nil] at hempty

/-- A row with spaces around it, as an item with what stands before and
behind it. -/
theorem isBody_cons_iff {start : Nat} {t : Text} {item : Item} {items : List Item} :
    IsBody start t (item :: items) ↔ ∃ ahead first more behind,
      t = ahead ++ (first ++ (more ++ behind)) ∧ Blank ahead ∧
        IsItem (start + ahead.length) first item ∧
        IsMore (start + ahead.length + first.length) more items ∧ Trailing false behind := by
  constructor
  · intro h
    cases h with
    | @row _ ahead _ behind _ spaces inner spaces' =>
      cases inner with
      | @plain _ first more _ _ head tail =>
        refine ⟨ahead, first, more, behind, ?_, spaces, head, tail, Or.inl spaces'⟩
        simp only [List.append_assoc]
      | @ended _ first more before c _ _ head tail blank separator =>
        refine ⟨ahead, first, more, before ++ c :: behind, ?_, spaces, head, tail,
          Or.inr ⟨rfl, before, c, behind, rfl, blank, separator, spaces'⟩⟩
        simp only [List.append_assoc, List.cons_append, List.nil_append]
  · rintro ⟨ahead, first, more, behind, rfl, hahead, head, tail, hbehind | ⟨_, hbehind⟩⟩
    · have hrow := IsBody.row hahead (.plain head tail) hbehind
      simp only [List.append_assoc] at hrow
      exact hrow
    · obtain ⟨before, c, rest, rfl, hbefore, hc, hrest⟩ := hbehind
      have hrow := IsBody.row hahead (.ended head tail hbefore hc) hrest
      simp only [List.append_assoc, List.cons_append, List.nil_append] at hrow
      exact hrow

/-- An item starts with neither a space nor a closing bracket. -/
theorem IsItem.head {start : Nat} {t : Text} {item : Item} (h : IsItem start t item) :
    ∃ c rest, t = c :: rest ∧ isSpace c = false ∧ c ≠ ']' := by
  cases h with
  | @word _ name loudness nonempty chars =>
    obtain ⟨c, rest, rfl⟩ := List.exists_cons_of_ne_nil nonempty
    have hc := isNameChar_iff.1 (chars c List.mem_cons_self)
    refine ⟨c, rest ++ markText loudness, rfl, ?_, ?_⟩
    · cases hspace : isSpace c with
      | false => rfl
      | true =>
        simp only [isSpace, Bool.or_eq_true, decide_eq_true_eq] at hspace
        rcases hspace with ((rfl | rfl) | rfl) | rfl <;> exact absurd hc (by decide)
    · rintro rfl
      exact absurd hc (by decide)
  | list => exact ⟨'[', _, rfl, by decide, by decide⟩

/-- What stands behind an item of a list: spaces up to the end of the list,
or a separator with the rest of the list behind. -/
theorem IsMore.split {start : Nat} {t behind : Text} {items : List Item} (h : IsMore start t items)
    (hbehind : Trailing false behind) :
    (items = [] ∧ Blank (t ++ behind)) ∨
      ∃ before c body, t ++ behind = before ++ c :: body ∧ Blank before ∧ isSeparator c = true ∧
        IsBody (start + before.length + 1) body items := by
  cases h with
  | nil =>
    rcases hbehind with hblank | ⟨_, before, c, rest, rfl, hbefore, hc, hrest⟩
    · exact Or.inl ⟨rfl, hblank⟩
    · exact Or.inr ⟨before, c, rest, rfl, hbefore, hc, isBody_nil_iff.2 hrest⟩
  | @cons _ before ahead first more c item items blank separator blank' head tail =>
    refine Or.inr ⟨before, c, ahead ++ (first ++ (more ++ behind)), ?_, blank, separator,
      isBody_cons_iff.2 ⟨ahead, first, more, behind, rfl, blank', head, tail, hbehind⟩⟩
    simp only [List.append_assoc, List.cons_append]

end Grammar

/-! ## The reader on a derivation -/

/-- A text at whose start a word and its mark end. -/
def Ends (t : Text) : Prop :=
  ∀ c rest, t = c :: rest → isWordChar c = false ∧ c ≠ '!' ∧ c ≠ '?'

theorem Ends.nil : Ends [] := fun _ _ h => by cases h

theorem Ends.space {c : Char} {t : Text} (hc : isSpace c = true) : Ends (c :: t) := by
  rintro c' rest h
  cases h
  unfold isSpace at hc
  simp only [Bool.or_eq_true, decide_eq_true_eq] at hc
  rcases hc with ((rfl | rfl) | rfl) | rfl <;> decide

theorem Ends.separator {c : Char} {t : Text} (hc : isSeparator c = true) : Ends (c :: t) := by
  rintro c' rest h
  cases h
  unfold isSeparator at hc
  simp only [Bool.or_eq_true, decide_eq_true_eq] at hc
  rcases hc with rfl | rfl <;> decide

theorem Ends.bracket {t : Text} : Ends (']' :: t) := by
  rintro c rest h
  cases h
  decide

theorem isSpace_of_isSeparator {c : Char} (hc : isSeparator c = true) : isSpace c = false := by
  unfold isSeparator at hc
  simp only [Bool.or_eq_true, decide_eq_true_eq] at hc
  rcases hc with rfl | rfl <;> decide

/-- Spaces do not belong to a word. -/
theorem Ends.blank {t u : Text} (ht : Blank t) (hu : Ends u) : Ends (t ++ u) := by
  cases t with
  | nil => exact hu
  | cons c rest => exact .space (ht c List.mem_cons_self)

/-- A run of characters of a class is read as a whole. -/
theorem Reader.takeWhile_append (p : Char → Bool) {t u : Text} (byte : Nat)
    (ht : ∀ c ∈ t, p c = true) (hu : ∀ c rest, u = c :: rest → p c = false) :
    Reader.takeWhile p ⟨byte, t ++ u⟩ = (t, ⟨byte + t.length, u⟩) := by
  have htake : (t ++ u).takeWhile p = t := by
    rw [List.takeWhile_append_of_pos ht]
    cases u with
    | nil => simp
    | cons c rest => rw [List.takeWhile_cons_of_neg (by simp [hu c rest rfl]), List.append_nil]
  have hdrop : (t ++ u).dropWhile p = u := by
    rw [List.dropWhile_append_of_pos ht]
    cases u with
    | nil => rfl
    | cons c rest => rw [List.dropWhile_cons_of_neg (by simp [hu c rest rfl])]
  simp only [Reader.takeWhile, htake, hdrop]

theorem Reader.skipSpaces_append {t u : Text} (byte : Nat) (ht : Blank t)
    (hu : ∀ c rest, u = c :: rest → isSpace c = false) :
    Reader.skipSpaces ⟨byte, t ++ u⟩ = ⟨byte + t.length, u⟩ := by
  rw [Reader.skipSpaces, Reader.takeWhile_append isSpace byte ht hu]

/-- A word that ends where the text behind it starts. -/
theorem readWord_append {name rest : Text} {loudness : Option Bool} (byte : Nat) (hname : name ≠ [])
    (hchars : ∀ c ∈ name, isWordChar c = true) (hrest : Ends rest) :
    readWord ⟨byte, name ++ (markText loudness ++ rest)⟩ =
      .ok (⟨(byte, byte + (name ++ markText loudness).length), name, (byte, byte + name.length),
        loudness⟩, ⟨byte + (name ++ markText loudness).length, rest⟩) := by
  have hmark : ∀ c tail, markText loudness ++ rest = c :: tail → isWordChar c = false := by
    intro c tail h
    rcases loudness with _ | _ | _
    · exact (hrest c tail h).1
    · cases h
      decide
    · cases h
      decide
  have hloudness : markOf (markText loudness ++ rest) = loudness := by
    rcases loudness with _ | _ | _
    · unfold markOf
      split
      · next tail htail => exact absurd rfl (hrest _ _ htail).2.1
      · next tail htail => exact absurd rfl (hrest _ _ htail).2.2
      · rfl
    · rfl
    · rfl
  have hdrop : (markText loudness ++ rest).drop (markText loudness).length = rest := List.drop_left
  rw [length_markText] at hdrop
  unfold readWord
  rw [Reader.takeWhile_append isWordChar byte hchars hmark]
  dsimp only
  rw [if_neg (by simpa using hname), hloudness, hdrop, List.length_append, length_markText,
    Nat.add_assoc]

/-- What may stand behind a list: nothing, or its bracket. -/
def Closes (bracketed : Bool) (t : Text) : Prop :=
  if bracketed then ∃ rest, t = ']' :: rest else t = []

theorem Closes.ends {bracketed : Bool} {t : Text} (h : Closes bracketed t) : Ends t := by
  cases bracketed with
  | false =>
    obtain rfl : t = [] := h
    exact .nil
  | true =>
    obtain ⟨rest, rfl⟩ := h
    exact .bracket

theorem Closes.head {bracketed : Bool} {t : Text} (h : Closes bracketed t) :
    ∀ c rest, t = c :: rest → isSpace c = false ∧ isSeparator c = false := by
  intro c rest hc
  cases bracketed with
  | false =>
    obtain rfl : t = [] := h
    cases hc
  | true =>
    obtain ⟨rest', rfl⟩ := h
    cases hc
    decide

/-- No item is read at the end of a list. -/
theorem readItems_closes {bracketed : Bool} {t : Text} (h : Closes bracketed t) (depth byte : Nat) :
    readItems (depth + 1) bracketed ⟨byte, t⟩ = .ok ([], ⟨byte, t⟩) := by
  cases bracketed with
  | false =>
    obtain rfl : t = [] := h
    rw [readItems]
  | true =>
    obtain ⟨rest, rfl⟩ := h
    rw [readItems]
    simp

/-- The last item of a list. -/
theorem readItems_last {bracketed : Bool} {depth byte : Nat} {r s : Reader} {c : Char}
    {chars rest : Text} {item : Item} (hr : r.rest = c :: chars) (hbracket : c ≠ ']')
    (hread : readItem depth r = .ok (item, s)) (hskip : s.skipSpaces = ⟨byte, rest⟩)
    (hrest : ∀ d others, rest = d :: others → isSeparator d = false) :
    readItems (depth + 1) bracketed r = .ok ([item], ⟨byte, rest⟩) := by
  rw [readItems]
  simp only [hr, hbracket, decide_false, Bool.and_false, Bool.false_eq_true, if_false, hread, bind,
    Except.bind, hskip]
  cases rest with
  | nil => rfl
  | cons d others =>
    simp only [hrest d others rfl, Bool.false_eq_true, if_false]
    rfl

/-- An item with a separator behind it. -/
theorem readItems_more {bracketed : Bool} {depth byte : Nat} {r s u : Reader} {c d : Char}
    {chars rest : Text} {item : Item} {items : List Item} (hr : r.rest = c :: chars)
    (hbracket : c ≠ ']') (hread : readItem depth r = .ok (item, s))
    (hskip : s.skipSpaces = ⟨byte, d :: rest⟩) (hd : isSeparator d = true)
    (hitems : readItems depth bracketed (Reader.skipSpaces ⟨byte + 1, rest⟩) = .ok (items, u)) :
    readItems (depth + 1) bracketed r = .ok (item :: items, u) := by
  rw [readItems]
  simp only [hr, hbracket, decide_false, Bool.and_false, Bool.false_eq_true, if_false, hread, bind,
    Except.bind, hskip, hd, if_true, hitems]
  rfl

/-- What is needed of the two readers of items for one bound on the depth. -/
def ReadsBack (depth : Nat) : Prop :=
  (∀ {start : Nat} {t rest : Text} {item : Item}, Grammar.IsItem start t item → Ends rest →
    2 * t.length ≤ depth →
    readItem depth ⟨start, t ++ rest⟩ = .ok (item, ⟨start + t.length, rest⟩)) ∧
  ∀ {start : Nat} {t rest : Text} {items : List Item} {bracketed : Bool},
    Grammar.IsBody start t items → Closes bracketed rest → 2 * t.length + 1 ≤ depth →
    readItems depth bracketed (Reader.skipSpaces ⟨start, t ++ rest⟩) =
      .ok (items, ⟨start + t.length, rest⟩)

/-- The step for an item. -/
theorem ReadsBack.item_step {depth : Nat} (ih : ReadsBack depth) {start : Nat} {t rest : Text}
    {item : Item} (h : Grammar.IsItem start t item) (hrest : Ends rest)
    (hdepth : 2 * t.length ≤ depth + 1) :
    readItem (depth + 1) ⟨start, t ++ rest⟩ = .ok (item, ⟨start + t.length, rest⟩) := by
  cases h with
  | @word _ name loudness nonempty chars =>
    have hchars : ∀ c ∈ name, isWordChar c = true :=
      fun c hc => Grammar.isNameChar_iff.1 (chars c hc)
    obtain ⟨c, tail, rfl⟩ := List.exists_cons_of_ne_nil nonempty
    rw [readItem, List.append_assoc]
    split
    · next hbracket =>
      have hc := hchars c List.mem_cons_self
      cases hbracket
      exact absurd hc (by decide)
    · rw [readWord_append start nonempty hchars hrest]
      rfl
  | @list _ body items inner =>
    have hlength : ('[' :: (body ++ [']'])).length = body.length + 2 := by
      simp only [List.length_cons, List.length_append, List.length_nil]
    have hread := ih.2 inner (show Closes true (']' :: rest) from ⟨rest, rfl⟩) (by omega)
    have htext : '[' :: (body ++ [']']) ++ rest = '[' :: (body ++ ']' :: rest) := by
      simp only [List.cons_append, List.append_assoc, List.nil_append]
    have hstop : start + (body.length + 2) = start + 1 + body.length + 1 := by omega
    rw [htext, readItem, hlength, Nat.add_assoc start body.length 2, hstop]
    simp only [hread, bind, Except.bind]
    rfl

/-- The step for the items of a list. -/
theorem ReadsBack.items_step {depth : Nat} (ih : ReadsBack depth) {start : Nat} {t rest : Text}
    {items : List Item} {bracketed : Bool} (h : Grammar.IsBody start t items)
    (hrest : Closes bracketed rest) (hdepth : 2 * t.length + 1 ≤ depth + 1) :
    readItems (depth + 1) bracketed (Reader.skipSpaces ⟨start, t ++ rest⟩) =
      .ok (items, ⟨start + t.length, rest⟩) := by
  cases items with
  | nil =>
    have hblank := Grammar.isBody_nil_iff.1 h
    rw [Reader.skipSpaces_append start hblank fun c tail hc => (hrest.head c tail hc).1,
      readItems_closes hrest]
  | cons item items =>
    obtain ⟨ahead, first, more, behind, rfl, hahead, hfirst, hmore, hbehind⟩ :=
      Grammar.isBody_cons_iff.1 h
    obtain ⟨c, chars, hhead, hspace, hbracket⟩ := hfirst.head
    have hpos : 0 < first.length := by
      rw [hhead]
      exact Nat.succ_pos _
    have hskip : Reader.skipSpaces ⟨start, ahead ++ (first ++ (more ++ behind)) ++ rest⟩ =
        ⟨start + ahead.length, first ++ (more ++ behind ++ rest)⟩ := by
      rw [List.append_assoc, List.append_assoc]
      refine Reader.skipSpaces_append start hahead fun d others hd => ?_
      rw [hhead] at hd
      cases hd
      exact hspace
    have hsplit := hmore.split hbehind
    have hends : Ends (more ++ behind ++ rest) := by
      rcases hsplit with ⟨_, hblank⟩ | ⟨before, sep, body, hjoint, hbefore, hsep, _⟩
      · exact .blank hblank hrest.ends
      · rw [hjoint, List.append_assoc]
        exact .blank hbefore (.separator hsep)
    simp only [List.length_append] at hdepth
    have hread := ih.1 hfirst hends (by omega)
    rw [hskip]
    rcases hsplit with ⟨rfl, hblank⟩ | ⟨before, sep, body, hjoint, hbefore, hsep, hbody⟩
    · have hskip' := Reader.skipSpaces_append (start + ahead.length + first.length) hblank
        fun d others hd => (hrest.head d others hd).1
      rw [readItems_last (by rw [hhead]; rfl) hbracket hread hskip'
        fun d others hd => (hrest.head d others hd).2]
      simp only [List.length_append, Nat.add_assoc]
    · have hlength := congrArg List.length hjoint
      rw [List.length_append, List.length_append, List.length_cons] at hlength
      have hskip' : Reader.skipSpaces ⟨start + ahead.length + first.length, more ++ behind ++ rest⟩ =
          ⟨start + ahead.length + first.length + before.length, sep :: (body ++ rest)⟩ := by
        rw [hjoint, List.append_assoc]
        exact Reader.skipSpaces_append _ hbefore fun d others hd => by
          cases hd
          exact isSpace_of_isSeparator hsep
      rw [readItems_more (by rw [hhead]; rfl) hbracket hread hskip' hsep
        (ih.2 hbody hrest (by omega))]
      congr 3
      simp only [List.length_append]
      omega

/-- A derivation is read as what it stands for, by induction on the depth. -/
theorem reads_back : ∀ depth, ReadsBack depth
  | 0 => by
    refine ⟨fun h _ hdepth => ?_, fun _ _ hdepth => absurd hdepth (by omega)⟩
    obtain ⟨c, rest, rfl, _⟩ := h.head
    exact absurd hdepth (by rw [List.length_cons]; omega)
  | depth + 1 => ⟨(reads_back depth).item_step, (reads_back depth).items_step⟩

/-- The reader reads every document. -/
theorem readDocument_of_isDocument {t : Text} {root : Item} (h : Grammar.IsDocument t root) :
    readDocument t = .ok root := by
  obtain ⟨items, hbody, rfl⟩ := h
  have hread := (reads_back (2 * t.length + 2)).2 hbody (show Closes false [] from rfl) (by omega)
  rw [List.append_nil, Nat.zero_add] at hread
  unfold readDocument
  rw [hread]
  rfl

/-! ## What the reader reads -/

/-- The text between two offsets that separates two items, put together from
its three pieces. -/
theorem Gap.exists_parting {t : Text} {a b : Nat} (h : Gap t a b) :
    ∃ before c behind, t.piece a b = before ++ c :: behind ∧ Blank before ∧ isSeparator c = true ∧
      Blank behind ∧ a + before.length + 1 + behind.length = b := by
  obtain ⟨k, hbefore, ⟨c, hc, hsep⟩, hbehind⟩ := h
  have horder := hbefore.order
  have horder' := hbehind.order
  refine ⟨t.piece a k, c, t.piece (k + 1) b, ?_, hbefore.chars, hsep, hbehind.chars, ?_⟩
  · rw [← Text.piece_append horder (by omega : k ≤ b), ← Text.piece_append (Nat.le_succ k) horder',
      Text.piece_succ hc, List.singleton_append]
  · rw [Text.length_piece hbefore.bound, Text.length_piece hbehind.bound]
    omega

theorem Gap.parting {t : Text} {a b : Nat} (h : Gap t a b) : Parting (t.piece a b) := by
  obtain ⟨before, c, behind, htext, hbefore, hsep, hbehind, _⟩ := h.exists_parting
  exact ⟨before, c, behind, htext, hbefore, hsep, hbehind⟩

theorem Behind.trailing {t : Text} {first : Bool} {a b : Nat} (h : Behind t first a b) :
    Trailing first (t.piece a b) := by
  rcases h with h | ⟨hfirst, h⟩
  · exact Or.inl h.chars
  · exact Or.inr ⟨hfirst, h.parting⟩

theorem Word.Fits.isItem {t : Text} {w : Word} (h : w.Fits t) :
    Grammar.IsItem w.bytes.1 (t.piece w.bytes.1 w.bytes.2) (.word w) := by
  obtain ⟨⟨start, stop⟩, name, ⟨start', middle⟩, loudness⟩ := w
  obtain ⟨hstart, horder, hstop, hbound, hname, hchars, hmark⟩ := h
  dsimp only at *
  subst hstart
  have hlength : name.length = middle - start := by
    rw [← hname, Text.length_piece (by omega)]
  have hmiddle : start + name.length = middle := by omega
  have hend : start + (name ++ markText loudness).length = stop := by
    rw [List.length_append]
    omega
  have hne : name ≠ [] := by
    rintro rfl
    rw [List.length_nil] at hlength
    omega
  have htext : t.piece start stop = name ++ markText loudness := by
    rw [← Text.piece_append (Nat.le_of_lt horder) (by omega : middle ≤ stop), hname, hmark]
  have hword := @Grammar.IsItem.word start name loudness hne
    fun c hc => Grammar.isNameChar_iff.2 (hchars c hc)
  rwa [hend, hmiddle, ← htext] at hword

mutual

/-- An item that stands in a text is derived from its piece of it. -/
theorem Item.Fits.isItem {t : Text} : ∀ (item : Item), item.Fits t →
    Grammar.IsItem item.bytes.1 (t.piece item.bytes.1 item.bytes.2) item
  | .word w, h => by
    rw [Item.Fits] at h
    exact h.isItem
  | .list (start, stop) bracketed items, h => by
    rw [Item.Fits] at h
    obtain ⟨rfl, horder, hbound, hopen, hclose, hitems⟩ := h
    dsimp only at horder hbound hopen hclose hitems
    have hlist := Grammar.IsItem.list (Item.FitAll.isBody items hitems)
    have hlength := Text.length_piece (t := t) (a := start + 1) (b := stop - 1) (by omega)
    have hstop : start + (t.piece (start + 1) (stop - 1)).length + 2 = stop := by omega
    have htext : t.piece start stop = '[' :: (t.piece (start + 1) (stop - 1) ++ [']']) := by
      rw [← Text.piece_append (Nat.le_succ start) (by omega : start + 1 ≤ stop),
        ← Text.piece_append (by omega : start + 1 ≤ stop - 1) (Nat.sub_le stop 1), hopen, hclose,
        List.singleton_append]
    rw [hstop, ← htext] at hlist
    exact hlist
termination_by structural item => item

theorem Item.FitAll.isBody {t : Text} : ∀ (items : List Item) {a b : Nat},
    Item.FitAll t true items a b → Grammar.IsBody a (t.piece a b) items
  | [], a, b, h => Grammar.isBody_nil_iff.2 (h.resolve_right fun h => by cases h.1).chars
  | item :: rest, a, b, h => by
    rw [Item.FitAll] at h
    obtain ⟨hahead, hitem, hrest⟩ := h
    have hlt := hitem.lt
    have hle := hrest.le
    have hspaces : Spaces t a item.bytes.1 := hahead
    have horder := hspaces.order
    have hlength := Text.length_piece hspaces.bound (a := a)
    have hlength' := Text.length_piece hlt.2 (a := item.bytes.1)
    obtain ⟨more, behind, htext, hmore, hbehind⟩ := Item.FitAll.isMore rest hrest
    refine Grammar.isBody_cons_iff.2 ⟨t.piece a item.bytes.1, t.piece item.bytes.1 item.bytes.2,
      more, behind, ?_, hspaces.chars, ?_, ?_, hbehind⟩
    · rw [← htext, Text.piece_append (Nat.le_of_lt hlt.1) hle.1, Text.piece_append horder (by omega)]
    · rw [show a + (t.piece a item.bytes.1).length = item.bytes.1 by omega]
      exact Item.Fits.isItem item hitem
    · rwa [show a + (t.piece a item.bytes.1).length + (t.piece item.bytes.1 item.bytes.2).length =
        item.bytes.2 by omega]
termination_by structural items => items

theorem Item.FitAll.isMore {t : Text} : ∀ (items : List Item) {a b : Nat},
    Item.FitAll t false items a b → ∃ more behind, t.piece a b = more ++ behind ∧
      Grammar.IsMore a more items ∧ Trailing false behind
  | [], a, b, h => ⟨[], t.piece a b, rfl, .nil, Behind.trailing h⟩
  | item :: rest, a, b, h => by
    rw [Item.FitAll] at h
    obtain ⟨hahead, hitem, hrest⟩ := h
    have hlt := hitem.lt
    have hle := hrest.le
    have hgap : Gap t a item.bytes.1 := hahead
    obtain ⟨before, c, ahead, hjoint, hbefore, hsep, hahead, hstart⟩ := hgap.exists_parting
    have hlength := Text.length_piece hlt.2 (a := item.bytes.1)
    obtain ⟨more, behind, htext, hmore, hbehind⟩ := Item.FitAll.isMore rest hrest
    refine ⟨before ++ c :: (ahead ++ (t.piece item.bytes.1 item.bytes.2 ++ more)), behind, ?_,
      .cons hbefore hsep hahead ?_ ?_, hbehind⟩
    · rw [← Text.piece_append (Nat.le_of_lt hgap.lt.1) (by omega : item.bytes.1 ≤ b), hjoint,
        ← Text.piece_append (Nat.le_of_lt hlt.1) hle.1, htext]
      simp only [List.append_assoc, List.cons_append]
    · rw [hstart]
      exact Item.Fits.isItem item hitem
    · rwa [hstart, show item.bytes.1 + (t.piece item.bytes.1 item.bytes.2).length = item.bytes.2 by
        omega]
termination_by structural items => items

end

/-- What the reader reads is a document. -/
theorem isDocument_of_readDocument {t : Text} {root : Item} (h : readDocument t = .ok root) :
    Grammar.IsDocument t root := by
  obtain ⟨items, hroot, hfit⟩ := readDocument_fits h
  have hbody := Item.FitAll.isBody items hfit
  rw [Text.piece_zero_length] at hbody
  exact ⟨items, hbody, hroot⟩

/-! ## The bound on the depth -/

/-- What is left of the text bounds how deep the two readers of items go. -/
def EndsWithin (t : Text) (depth : Nat) : Prop :=
  (∀ {r : Reader}, Reader.On t r → 2 * (t.length - r.byte) + 1 ≤ depth →
    ∀ byte, readItem depth r ≠ .error (.tooDeep byte)) ∧
  ∀ {r : Reader} {bracketed : Bool}, Reader.On t r → 2 * (t.length - r.byte) + 2 ≤ depth →
    ∀ byte, readItems depth bracketed r ≠ .error (.tooDeep byte)

theorem readWord_ne_tooDeep (r : Reader) (byte : Nat) : readWord r ≠ .error (.tooDeep byte) := by
  unfold readWord
  dsimp only
  split <;> simp

/-- An error of a sequence of two steps is the error of one of them. -/
theorem bind_ne_error {ε α β : Type} {x : Except ε α} {f : α → Except ε β} {e : ε}
    (hx : x ≠ .error e) (hf : ∀ a, x = .ok a → f a ≠ .error e) : (x >>= f) ≠ .error e := by
  cases x with
  | error e' => exact fun h => hx (by cases h; rfl)
  | ok a => exact hf a rfl

/-- The step for an item: its bracket is read before its items. -/
theorem EndsWithin.item_step {t : Text} {depth : Nat} (ih : EndsWithin t depth) {r : Reader}
    (hr : Reader.On t r) (hdepth : 2 * (t.length - r.byte) + 1 ≤ depth + 1) (byte : Nat) :
    readItem (depth + 1) r ≠ .error (.tooDeep byte) := by
  rw [readItem]
  split
  · next rest hrest =>
    obtain ⟨hopen, _, _⟩ := hr.step hrest
    obtain ⟨hskip, hspaces⟩ := hopen.skipSpaces
    have hbound := hopen.bound
    have horder := hspaces.order
    dsimp only at hbound horder
    refine bind_ne_error (ih.2 hskip (by omega) byte) fun read _ => ?_
    dsimp only
    split
    · exact fun h => by cases h
    · exact fun h => by cases h
  · exact bind_ne_error (readWord_ne_tooDeep r byte) fun read _ h => by cases h

/-- The step for the items of a list: an item and a separator are read before
the rest of them. -/
theorem EndsWithin.items_step {t : Text} {depth : Nat} (ih : EndsWithin t depth) {r : Reader}
    {bracketed : Bool} (hr : Reader.On t r) (hdepth : 2 * (t.length - r.byte) + 2 ≤ depth + 1)
    (byte : Nat) : readItems (depth + 1) bracketed r ≠ .error (.tooDeep byte) := by
  rw [readItems]
  split
  · exact fun h => by cases h
  split
  · exact fun h => by cases h
  refine bind_ne_error (ih.1 hr (by omega) byte) fun read hread => ?_
  obtain ⟨item, u⟩ := read
  obtain ⟨hu, hfit, hbytes⟩ := (reads_fit t depth).1 hr hread
  have hlt := hfit.lt
  rw [hbytes] at hlt
  obtain ⟨hskip, hspaces⟩ := hu.skipSpaces
  have horder := hspaces.order
  dsimp only
  split
  · next c rest hrest =>
    split
    · obtain ⟨hnext, _, _⟩ := hskip.step hrest
      obtain ⟨hskip', hspaces'⟩ := hnext.skipSpaces
      have horder' := hspaces'.order
      have hbound := hnext.bound
      dsimp only at horder' hbound hlt
      exact bind_ne_error (ih.2 hskip' (by omega) byte) fun read _ h => by cases h
    · exact fun h => by cases h
  · exact fun h => by cases h

theorem ends_within (t : Text) : ∀ depth, EndsWithin t depth
  | 0 => ⟨fun _ h => absurd h (by omega), fun _ h => absurd h (by omega)⟩
  | depth + 1 => ⟨(ends_within t depth).item_step, (ends_within t depth).items_step⟩

/-- The reader comes to an end on every text. -/
theorem readDocument_ne_tooDeep (t : Text) (byte : Nat) : readDocument t ≠ .error (.tooDeep byte) := by
  obtain ⟨hskip, _⟩ := (Reader.On.start t).skipSpaces
  refine bind_ne_error ((ends_within t _).2 hskip (by omega) byte) fun read _ => ?_
  dsimp only
  split
  · exact fun h => by cases h
  · exact fun h => by cases h

end Reprint.WordList
