import Mathlib.Data.Nat.Count
import Mathlib.Order.Bounds.Defs
import Reprint.Source.Bytes
import Reprint.Proofs.Source.Past

/-!
# Byte offsets and positions

`Text.byteAt` is the byte offset at which a character begins, and `Text.startsBefore`
counts the characters that begin in front of a byte offset.

* `Text.lt_startsBefore_iff` ties the two to each other, so `startsBefore` finds the
  next beginning of a character (`Text.isLeast_byteAt`) and undoes `byteAt`
  (`Text.startsBefore_byteAt`).
* `Text.positionOfByte_eq_place` and `Text.byteOfPosition_place` say that the two
  readers of a text, which go over it character by character, compute `startsBefore`
  and `byteAt`, with the positions of a source as `Source.place` numbers them.
* `Text.BytesAgree` is what follows for byte offsets and the spans between them, and
  `Text.bytesAgree` proves it of every text.
* In a text of ASCII characters byte offsets are character offsets
  (`Text.positionOfByte_eq`).

Bytes are those of a string, and the places between characters are its valid positions
(`Text.isBoundary_iff`).
-/

namespace Reprint.Text

variable {t : Text} {i j k : Nat}

/-! ## Where characters begin -/

/-- The UTF-8 form of a text. -/
def utf8 (t : Text) : ByteArray := (String.ofList t).toByteArray

/-- The byte offset at which the character with the given number begins.  The first one
has number zero, and behind the last one the text ends. -/
def byteAt (t : Text) (i : Nat) : Nat := (utf8 (t.take i)).size

/-- The number of characters that begin in front of a byte offset. -/
def startsBefore (t : Text) (k : Nat) : Nat := Nat.count (fun i => t.byteAt i < k) t.length

/-- Whether a byte offset lies between two characters, or at an end of the text. -/
def IsBoundary (t : Text) (k : Nat) : Prop := (String.Pos.Raw.mk k).IsValid (String.ofList t)

theorem utf8_append (t u : Text) : (t ++ u).utf8 = t.utf8 ++ u.utf8 := List.utf8Encode_append

@[simp] theorem utf8_nil : utf8 [] = ByteArray.empty := List.utf8Encode_nil

theorem size_utf8_cons (c : Char) (t : Text) : (utf8 (c :: t)).size = c.utf8Size + t.utf8.size := by
  have hhead : (utf8 [c]).size = c.utf8Size := by
    rw [utf8, String.toByteArray_ofList, List.utf8Encode_singleton, List.size_toByteArray,
      String.length_utf8EncodeChar]
  rw [← List.singleton_append, utf8_append, ByteArray.size_append, hhead]

@[simp] theorem byteAt_zero (t : Text) : t.byteAt 0 = 0 := by
  rw [byteAt, List.take_zero, utf8_nil, ByteArray.size_empty]

@[simp] theorem byteAt_succ_cons (c : Char) (t : Text) (i : Nat) :
    byteAt (c :: t) (i + 1) = c.utf8Size + t.byteAt i :=
  size_utf8_cons c (t.take i)

theorem byteAt_length (t : Text) : t.byteAt t.length = t.utf8.size := by
  rw [byteAt, List.take_length]

/-- The bytes of a piece of the text lie between the beginnings of its characters. -/
theorem byteAt_add_size (hij : i ≤ j) : t.byteAt i + (t.piece i j).utf8.size = t.byteAt j := by
  have htake : t.take i ++ t.piece i j = t.take j := piece_append (Nat.zero_le i) hij
  rw [byteAt, byteAt, ← ByteArray.size_append, ← utf8_append, htake]

theorem byteAt_mono (hij : i ≤ j) : t.byteAt i ≤ t.byteAt j := by
  rw [← byteAt_add_size hij]
  exact Nat.le_add_right _ _

/-- A further character begins at a further byte. -/
theorem byteAt_lt_byteAt (hij : i < j) (hj : j ≤ t.length) : t.byteAt i < t.byteAt j := by
  have hpiece : t.piece i j ≠ [] := by
    rw [← List.length_pos_iff, length_piece hj]
    omega
  obtain ⟨c, rest, hcons⟩ := List.exists_cons_of_ne_nil hpiece
  have hsize := c.utf8Size_pos
  rw [← byteAt_add_size (Nat.le_of_lt hij), hcons, size_utf8_cons]
  omega

theorem byteAt_lt_byteAt_iff (hj : j ≤ t.length) : t.byteAt i < t.byteAt j ↔ i < j :=
  ⟨fun h => Nat.not_le.1 fun hji => Nat.not_lt.2 (byteAt_mono hji) h,
    fun h => byteAt_lt_byteAt h hj⟩

/-- The boundaries are where characters begin and where the text ends. -/
theorem isBoundary_iff : t.IsBoundary k ↔ ∃ i ≤ t.length, t.byteAt i = k := by
  rw [IsBoundary, String.Pos.Raw.isValid_ofList]
  constructor
  · rintro ⟨i, hi⟩
    refine ⟨min i t.length, Nat.min_le_right _ _, ?_⟩
    rw [byteAt, ← List.take_eq_take_min]
    exact hi.symm
  · rintro ⟨i, _, rfl⟩
    exact ⟨i, rfl⟩

/-- The bytes between the beginnings of two characters are those of the piece between
them. -/
theorem extract_utf8 (hij : i ≤ j) :
    t.utf8.extract (t.byteAt i) (t.byteAt j) = (t.piece i j).utf8 := by
  let front := utf8 (t.take i)
  let between := (t.piece i j).utf8
  let back := utf8 (t.drop j)
  have hsplit : t.utf8 = front ++ (between ++ back) := by
    have htake : t.take i ++ t.piece i j = t.take j := piece_append (Nat.zero_le i) hij
    rw [← utf8_append, ← utf8_append, ← List.append_assoc, htake, List.take_append_drop]
  calc t.utf8.extract (t.byteAt i) (t.byteAt j)
      = (front ++ (between ++ back)).extract (front.size + 0) (front.size + between.size) := by
        rw [← hsplit, ← byteAt_add_size hij]
        rfl
    _ = (between ++ back).extract 0 between.size := ByteArray.extract_append_size_add
    _ = between := ByteArray.extract_append_eq_left rfl

/-! ## Characters in front of a byte offset -/

@[simp] theorem startsBefore_nil (k : Nat) : startsBefore [] k = 0 := rfl

@[simp] theorem startsBefore_zero (t : Text) : t.startsBefore 0 = 0 := by
  simp [startsBefore, Nat.count_eq_card_filter_range]

theorem startsBefore_cons (c : Char) (t : Text) (hk : k ≠ 0) :
    startsBefore (c :: t) k = t.startsBefore (k - c.utf8Size) + 1 := by
  have hshift : (fun i => byteAt (c :: t) (i + 1) < k) = fun i => t.byteAt i < k - c.utf8Size := by
    funext i
    rw [byteAt_succ_cons]
    exact propext (by omega)
  rw [startsBefore, List.length_cons, Nat.count_succ', byteAt_zero, if_pos (Nat.pos_of_ne_zero hk)]
  simp only [hshift]
  rfl

theorem startsBefore_le (t : Text) (k : Nat) : t.startsBefore k ≤ t.length := Nat.count_le _

/-- The characters in front of a byte offset are the ones that begin there. -/
theorem lt_startsBefore_iff : i < t.startsBefore k ↔ i < t.length ∧ t.byteAt i < k := by
  induction t generalizing i k with
  | nil => simp
  | cons c rest ih =>
    by_cases hk : k = 0
    · simp [hk]
    · rw [startsBefore_cons c rest hk]
      cases i with
      | zero => simp [Nat.pos_of_ne_zero hk]
      | succ i =>
        rw [Nat.add_lt_add_iff_right, ih, byteAt_succ_cons, List.length_cons]
        omega

theorem startsBefore_mono (h : j ≤ k) : t.startsBefore j ≤ t.startsBefore k := by
  refine Nat.le_of_not_lt fun hlt => ?_
  obtain ⟨hlength, hbyte⟩ := lt_startsBefore_iff.1 hlt
  exact Nat.lt_irrefl _ (lt_startsBefore_iff.2 ⟨hlength, Nat.lt_of_lt_of_le hbyte h⟩)

/-- In front of the beginning of a character are the characters before it. -/
theorem startsBefore_byteAt (hi : i ≤ t.length) : t.startsBefore (t.byteAt i) = i := by
  refine eq_of_forall_lt_iff fun j => ?_
  rw [lt_startsBefore_iff, byteAt_lt_byteAt_iff hi]
  exact ⟨And.right, fun hji => ⟨Nat.lt_of_lt_of_le hji hi, hji⟩⟩

/-- A byte offset is rounded up to the next boundary, and one past the end to the end. -/
theorem isLeast_byteAt (t : Text) (k : Nat) :
    IsLeast {b | t.IsBoundary b ∧ min k t.utf8.size ≤ b} (t.byteAt (t.startsBefore k)) := by
  have hle := t.startsBefore_le k
  refine ⟨⟨isBoundary_iff.2 ⟨_, hle, rfl⟩, ?_⟩, ?_⟩
  · -- The character behind them, if there is one, does not begin in front of the offset.
    have hnot := (lt_startsBefore_iff (t := t) (k := k)).not.1 (Nat.lt_irrefl _)
    rcases Nat.lt_or_eq_of_le hle with hlt | heq
    · exact Nat.le_trans (Nat.min_le_left _ _) (Nat.not_lt.1 fun hbyte => hnot ⟨hlt, hbyte⟩)
    · rw [heq, byteAt_length]
      exact Nat.min_le_right _ _
  · rintro b ⟨hb, hmin⟩
    obtain ⟨i, hi, rfl⟩ := isBoundary_iff.1 hb
    refine byteAt_mono (Nat.le_of_not_lt fun hlt => ?_)
    obtain ⟨hlength, hbyte⟩ := lt_startsBefore_iff.1 hlt
    have hend := byteAt_lt_byteAt hlength (Nat.le_refl _)
    rw [byteAt_length] at hend
    exact Nat.not_le.2 (Nat.lt_min.2 ⟨hbyte, hend⟩) hmin

/-! ## Reading a text -/

/-- Reading up to a byte offset passes the characters that begin in front of it. -/
theorem positionOfByteFrom_eq_pastText (p : Position) (t : Text) (k : Nat) :
    positionOfByteFrom p t k = p.pastText (t.take (t.startsBefore k)) := by
  induction t generalizing p k with
  | nil => rfl
  | cons c rest ih =>
    rw [positionOfByteFrom]
    by_cases hk : k = 0
    · rw [if_pos hk, hk, startsBefore_zero, List.take_zero, Position.pastText_nil]
    · rw [if_neg hk, ih, startsBefore_cons c rest hk, List.take_succ_cons, Position.pastText_cons]

theorem positionOfByte_eq_place (t : Text) (k : Nat) :
    t.positionOfByte k = (Source.ofText t).place (t.startsBefore k) := by
  rw [positionOfByte, positionOfByteFrom_eq_pastText, Source.place_ofText (t.startsBefore_le k)]

/-- Reading up to a place behind so many characters counts their bytes. -/
theorem byteOfPositionFrom_pastText (p : Position) (hi : i ≤ t.length) :
    byteOfPositionFrom (p.pastText (t.take i)) p t = t.byteAt i := by
  induction t generalizing p i with
  | nil =>
    obtain rfl : i = 0 := by simpa using hi
    rw [byteAt_zero]
    rfl
  | cons c rest ih =>
    rw [byteOfPositionFrom]
    cases i with
    | zero => rw [byteAt_zero, List.take_zero, Position.pastText_nil, if_pos rfl]
    | succ i =>
      have hne : p ≠ p.pastText (List.take (i + 1) (c :: rest)) := fun heq => by
        have hlt := p.lt_pastText (t := List.take (i + 1) (c :: rest)) (by simp)
        rw [← heq, Position.lt_def] at hlt
        omega
      rw [if_neg hne, byteAt_succ_cons, List.take_succ_cons, Position.pastText_cons,
        ih (p.past c) (Nat.le_of_succ_le_succ hi)]

theorem byteOfPosition_place (hi : i ≤ t.length) :
    t.byteOfPosition ((Source.ofText t).place i) = t.byteAt i := by
  rw [byteOfPosition, Source.place_ofText hi, byteOfPositionFrom_pastText _ hi]

/-! ## Bytes, positions and spans -/

/-- What byte offsets and positions of a text say about each other. -/
structure BytesAgree (t : Text) : Prop where
  /-- A byte offset stands for the place behind the characters that begin in front of
  it. -/
  position (k : Nat) : (Source.ofText t).positionAt (t.startsBefore k) = .ok (t.positionOfByte k)
  /-- An offset within a character is rounded up, and one past the end is the end. -/
  rounded (k : Nat) : IsLeast {b | t.IsBoundary b ∧ min k t.utf8.size ≤ b}
    (t.byteOfPosition (t.positionOfByte k))
  inverse {p : Position} (valid : (Source.ofText t).validate p = .ok ()) :
    t.positionOfByte (t.byteOfPosition p) = p
  /-- Two offsets in order are the ends of a span. -/
  span {a b : Nat} (ordered : a ≤ b) : ∃ span, t.spanOfBytes a b = .ok span ∧
    span.toBounds = ⟨t.positionOfByte a, t.positionOfByte b⟩
  /-- The span between two boundaries has the bytes between them. -/
  slice {a b : Nat} (ordered : a ≤ b) (first : t.IsBoundary a) (second : t.IsBoundary b) :
    ∃ span raw, t.spanOfBytes a b = .ok span ∧
      (Source.ofText t).extract span.toBounds = .ok raw ∧ raw.utf8 = t.utf8.extract a b

theorem spanOfBytes_of_le {a b : Nat} (hab : a ≤ b) : ∃ span, t.spanOfBytes a b = .ok span ∧
    span.toBounds = ⟨t.positionOfByte a, t.positionOfByte b⟩ := by
  have hle : ∀ k, t.startsBefore k ≤ (Source.ofText t).charCount := fun k => by
    rw [Source.charCount_ofText]
    exact t.startsBefore_le k
  have horder : t.positionOfByte a ≤ t.positionOfByte b := by
    rw [positionOfByte_eq_place, positionOfByte_eq_place, Source.place_le_place (hle a) (hle b)]
    exact startsBefore_mono hab
  exact ⟨⟨_, horder⟩, Bounds.toSpan_eq_ok.2 rfl, rfl⟩

/-- Byte offsets and positions agree in every text. -/
theorem bytesAgree (t : Text) : t.BytesAgree := by
  have hcount := Source.charCount_ofText t
  constructor
  · intro k
    rw [positionOfByte_eq_place]
    exact if_pos (by rw [hcount]; exact t.startsBefore_le k)
  · intro k
    rw [positionOfByte_eq_place, byteOfPosition_place (t.startsBefore_le k)]
    exact t.isLeast_byteAt k
  · intro p valid
    obtain ⟨i, hi, rfl⟩ := Source.exists_place_of_isValid (Source.isValid_of_validate valid)
    rw [hcount] at hi
    rw [byteOfPosition_place hi, positionOfByte_eq_place, startsBefore_byteAt hi]
  · exact spanOfBytes_of_le
  · intro a b ordered first second
    obtain ⟨i, hi, rfl⟩ := isBoundary_iff.1 first
    obtain ⟨j, hj, rfl⟩ := isBoundary_iff.1 second
    obtain ⟨span, hspan, hbounds⟩ := spanOfBytes_of_le (t := t) ordered
    have hij : i ≤ j := Nat.le_of_not_lt fun hlt =>
      Nat.not_lt.2 ordered (byteAt_lt_byteAt hlt hi)
    refine ⟨span, t.piece i j, hspan, ?_, (extract_utf8 hij).symm⟩
    rw [hbounds, positionOfByte_eq_place, positionOfByte_eq_place, startsBefore_byteAt hi,
      startsBefore_byteAt hj, Source.extract_place hij (by rw [hcount]; exact hj),
      Source.text_ofText]

/-- The second byte of a character stands for the place behind it. -/
example : positionOfByte ['a', 'é', '\n'] 2 = ⟨1, 2⟩ := by decide

/-! ## ASCII texts -/

/-- Every character takes one byte. -/
def IsAscii (t : Text) : Prop := ∀ c ∈ t, c.utf8Size = 1

theorem IsAscii.byteAt (h : t.IsAscii) (hi : i ≤ t.length) : t.byteAt i = i := by
  induction t generalizing i with
  | nil =>
    obtain rfl : i = 0 := by simpa using hi
    exact byteAt_zero []
  | cons c rest ih =>
    cases i with
    | zero => exact byteAt_zero (c :: rest)
    | succ i =>
      rw [byteAt_succ_cons, h c List.mem_cons_self,
        ih (fun d hd => h d (List.mem_cons_of_mem _ hd)) (Nat.le_of_succ_le_succ hi), Nat.add_comm]

theorem IsAscii.startsBefore (h : t.IsAscii) (hk : k ≤ t.length) : t.startsBefore k = k := by
  have hstarts := startsBefore_byteAt hk
  rwa [h.byteAt hk] at hstarts

/-- In an ASCII text a byte offset is the number of characters before it. -/
theorem positionOfByte_eq (h : t.IsAscii) (hk : k ≤ t.length) :
    t.positionOfByte k = (Source.ofText t).place k := by
  rw [positionOfByte_eq_place, h.startsBefore hk]

/-- The span of some bytes of an ASCII text. -/
theorem spanOfBytes_eq (h : t.IsAscii) {a b : Nat} (hab : a ≤ b) (hb : b ≤ t.length) :
    t.spanOfBytes a b = .ok (Tree.window (Source.ofText t) a b) := by
  have hcount := Source.charCount_ofText t
  unfold spanOfBytes
  rw [Bounds.toSpan_eq_ok, Tree.toBounds_window hab (by omega), positionOfByte_eq h (by omega),
    positionOfByte_eq h hb]

end Reprint.Text
