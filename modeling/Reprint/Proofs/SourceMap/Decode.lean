import Mathlib.Data.List.Destutter
import Mathlib.Data.List.Nodup
import Reprint.SourceMap.Basic

/-!
# Reading mappings back

`SourceMap.decode` reads the field `mappings` of a source map character by
character.  A `SourceMap.Reader` holds the tokens that are complete, the fields
of the present segment and the digits of the present field.

The reader has its own Base64 table, `Vlq.alphabet`.  That the characters of
the writer are read as the digits that they were written for, and no others as
these digits, is `Vlq.digit?_eq_some_iff`.

If no token stands on an earlier line than the one before it, then reading what
was written gives all tokens but the repeated ones
(`SourceMap.decode_mappings`).  No lookup can tell the difference
(`SourceMap.lookup_destutter`).
-/

namespace Reprint

namespace Vlq

/-- The characters of the Base64 alphabet, in the order of their digits. -/
def alphabet : Text := "ABCDEFGHIJKLMNOPQRSTUVWXYZabcdefghijklmnopqrstuvwxyz0123456789+/".toList

/-- The digit of a character. -/
def digit? (c : Char) : Option Nat := alphabet.idxOf? c

/-- The integer of a number with the sign in the lowest bit. -/
def unsigned (n : Nat) : Int := if n % 2 = 0 then (n / 2 : Nat) else -(n / 2 : Nat)

theorem alphabet_eq_map : alphabet = (List.range 64).map digitChar := by decide

theorem nodup_alphabet : alphabet.Nodup := by decide

theorem getElem_alphabet {d : Nat} (h : d < alphabet.length) : alphabet[d] = digitChar d := by
  simp only [alphabet_eq_map, List.getElem_map, List.getElem_range]

/-- A character is read as the digit that it is written for, and every other
character is no digit. -/
theorem digit?_eq_some_iff {c : Char} {d : Nat} : digit? c = some d ↔ d < 64 ∧ digitChar d = c := by
  rw [digit?, List.idxOf?_eq_some_iff]
  constructor
  · rintro ⟨h, hc, _⟩
    exact ⟨h, (getElem_alphabet h).symm.trans hc⟩
  · rintro ⟨h, rfl⟩
    refine ⟨h, getElem_alphabet h, fun e he heq => ?_⟩
    exact Nat.ne_of_lt he (nodup_alphabet.getElem_inj_iff.1 (heq.trans (getElem_alphabet h).symm))

theorem digitChar_ne {d : Nat} (h : d < 64) : digitChar d ≠ ',' ∧ digitChar d ≠ ';' := by
  have hall : ∀ d < 64, digitChar d ≠ ',' ∧ digitChar d ≠ ';' := by decide
  exact hall d h

theorem unsigned_signed (n : Int) : unsigned (signed n) = n := by
  unfold unsigned
  cases n with
  | ofNat n =>
    rw [signed, if_pos (by omega), Nat.mul_div_cancel_left n Nat.two_pos]
    rfl
  | negSucc n =>
    rw [signed, if_neg (by omega)]
    omega

end Vlq

namespace SourceMap

/-- How far mappings have been read. -/
structure Reader where
  /-- The complete tokens. -/
  tokens : List Token
  /-- The line of the generated text. -/
  line : Nat
  /-- The complete fields of the present segment. -/
  fields : List Int
  /-- The number that the digits of the present field make so far. -/
  number : Nat
  /-- What the next digit is worth. -/
  weight : Nat

namespace Reader

/-- Between two segments. -/
def between (tokens : List Token) (line : Nat) : Reader := ⟨tokens, line, [], 0, 1⟩

/-- The token that the next one is relative to. -/
def previous (r : Reader) : Token := r.tokens.getLastD ⟨0, 0, 0, 0⟩

/-- Reads one digit. -/
def digit (r : Reader) (d : Nat) : Reader :=
  if d < 32 then
    { r with
      fields := r.fields ++ [Vlq.unsigned (r.number + d * r.weight)]
      number := 0
      weight := 1 }
  else { r with number := r.number + (d - 32) * r.weight, weight := r.weight * 32 }

/-- Ends the present segment, if there is one. -/
def close (r : Reader) : Option Reader :=
  match r.weight, r.fields with
  | 1, [] => some r
  | 1, [column, 0, sourceLine, sourceColumn] =>
    let base := if r.line = r.previous.line then r.previous.column else 0
    some <| between (r.tokens ++ [{
      line := r.line
      column := (base + column).toNat
      sourceLine := (r.previous.sourceLine + sourceLine).toNat
      sourceColumn := (r.previous.sourceColumn + sourceColumn).toNat }]) r.line
  | _, _ => none

/-- Reads one character. -/
def step (r : Reader) (c : Char) : Option Reader :=
  if c = ',' then r.close
  else if c = ';' then r.close.map fun r => { r with line := r.line + 1 }
  else (Vlq.digit? c).map r.digit

end Reader

/-- The tokens of mappings. -/
def decode (mappings : Text) : Option (List Token) := do
  let r ← mappings.foldlM Reader.step (.between [] 0)
  return (← r.close).tokens

/-- The last token on a line that is not behind a column. -/
def lookup (tokens : List Token) (line column : Nat) : Option Token :=
  (tokens.filter fun t => t.line = line && t.column ≤ column).getLast?

/-! ## Fields -/

namespace Reader

theorem step_digitChar (r : Reader) {d : Nat} (h : d < 64) :
    r.step (Vlq.digitChar d) = some (r.digit d) := by
  obtain ⟨hcomma, hsemicolon⟩ := Vlq.digitChar_ne h
  have hdigit : Vlq.digit? (Vlq.digitChar d) = some d := Vlq.digit?_eq_some_iff.2 ⟨h, rfl⟩
  rw [step, if_neg hcomma, if_neg hsemicolon, hdigit, Option.map_some]

/-- The digits of a number complete the present field. -/
theorem foldlM_digits (r : Reader) (n : Nat) :
    (Vlq.digits n).foldlM step r = some { r with
      fields := r.fields ++ [Vlq.unsigned (r.number + n * r.weight)]
      number := 0
      weight := 1 } := by
  induction n using Vlq.digits.induct generalizing r with
  | case1 n hlt =>
    rw [Vlq.digits, dif_pos hlt, List.foldlM_cons, step_digitChar r (by omega), digit, if_pos hlt]
    rfl
  | case2 n hge ih =>
    have hnumber : r.number + (n % 32 + 32 - 32) * r.weight + n / 32 * (r.weight * 32) =
        r.number + n * r.weight := by
      rw [Nat.add_sub_cancel, Nat.add_assoc, ← Nat.mul_assoc, Nat.mul_right_comm, ← Nat.add_mul,
        Nat.mod_add_div']
    rw [Vlq.digits, dif_neg hge, List.foldlM_cons, step_digitChar r (by omega), digit,
      if_neg (by omega), Option.bind_eq_bind, Option.bind_some, ih]
    dsimp only
    rw [hnumber]

/-- A written integer is one field. -/
theorem foldlM_encode (tokens : List Token) (line : Nat) (fields : List Int) (n : Int) :
    (Vlq.encode n).foldlM step ⟨tokens, line, fields, 0, 1⟩ =
      some ⟨tokens, line, fields ++ [n], 0, 1⟩ := by
  rw [Vlq.encode, foldlM_digits]
  simp [Vlq.unsigned_signed]

/-! ## Segments -/

/-- At the end of the segment of a token. -/
def AtEnd (r : Reader) (tokens : List Token) (t : Token) : Prop :=
  r.close = some (.between (tokens ++ [t]) t.line)

/-- The segment of a token. -/
theorem foldlM_segment (tokens : List Token) (t : Token) :
    ∃ r, (Token.segment (tokens.getLastD ⟨0, 0, 0, 0⟩) t).foldlM step (between tokens t.line) =
      some r ∧ r.AtEnd tokens t := by
  generalize hprevious : tokens.getLastD ⟨0, 0, 0, 0⟩ = previous
  let base := if t.line = previous.line then previous.column else 0
  refine ⟨⟨tokens, t.line, [(t.column : Int) - base, 0, (t.sourceLine : Int) - previous.sourceLine,
    (t.sourceColumn : Int) - previous.sourceColumn], 0, 1⟩, ?_, ?_⟩
  · unfold Token.segment between
    simp only [List.foldlM_append, foldlM_encode, Option.bind_eq_bind, Option.bind_some]
    rfl
  · unfold AtEnd close
    have hrestored (a b : Nat) : ((a : Int) + ((b : Int) - a)).toNat = b := by omega
    simp only [Reader.previous, hprevious, hrestored]
    rw [show (if t.line = previous.line then previous.column else 0) = base from rfl, hrestored]

/-- A semicolon ends the segment and the line. -/
theorem step_semicolon {r c : Reader} (h : r.close = some c) :
    r.step ';' = some { c with line := c.line + 1 } := by
  rw [step, if_neg (by decide), if_pos rfl, h, Option.map_some]

theorem foldlM_semicolons (tokens : List Token) (line k : Nat) :
    (List.replicate k ';').foldlM step (between tokens line) = some (between tokens (line + k)) := by
  induction k generalizing line with
  | zero => rfl
  | succ k ih =>
    have hnext : (between tokens line).step ';' = some (between tokens (line + 1)) := rfl
    rw [List.replicate_succ, List.foldlM_cons, hnext, Option.bind_eq_bind, Option.bind_some, ih,
      show line + 1 + k = line + (k + 1) by omega]

/-- The segment of a token on a later line. -/
theorem AtEnd.next_line {r : Reader} {tokens : List Token} {previous : Token}
    (h : r.AtEnd tokens previous) {t : Token} (hline : previous.line < t.line) :
    ∃ r', (List.replicate (t.line - previous.line) ';' ++ Token.segment previous t).foldlM step r =
      some r' ∧ r'.AtEnd (tokens ++ [previous]) t := by
  obtain ⟨k, hk⟩ : ∃ k, t.line = previous.line + 1 + k := ⟨t.line - previous.line - 1, by omega⟩
  obtain ⟨r', hr', hend⟩ := foldlM_segment (tokens ++ [previous]) t
  refine ⟨r', ?_, hend⟩
  have hfirst : r.step ';' = some (between (tokens ++ [previous]) (previous.line + 1)) :=
    step_semicolon h
  rw [List.getLastD_concat, hk] at hr'
  rw [show t.line - previous.line = k + 1 by omega, List.replicate_succ, List.cons_append,
    List.foldlM_cons, hfirst, Option.bind_eq_bind, Option.bind_some, List.foldlM_append,
    foldlM_semicolons]
  exact hr'

/-- The segment of a token on the same line. -/
theorem AtEnd.next {r : Reader} {tokens : List Token} {previous : Token}
    (h : r.AtEnd tokens previous) {t : Token} (hline : t.line = previous.line) :
    ∃ r', (',' :: Token.segment previous t).foldlM step r = some r' ∧
      r'.AtEnd (tokens ++ [previous]) t := by
  obtain ⟨r', hr', hend⟩ := foldlM_segment (tokens ++ [previous]) t
  refine ⟨r', ?_, hend⟩
  have hcomma : r.step ',' = some (between (tokens ++ [previous]) previous.line) := h
  rw [List.getLastD_concat, hline] at hr'
  rw [List.foldlM_cons, hcomma]
  exact hr'

/-- The segments of further tokens. -/
theorem AtEnd.writeAfter {r : Reader} {tokens : List Token} {previous : Token}
    (h : r.AtEnd tokens previous) {rest : List Token}
    (hlines : (previous :: rest).Pairwise fun t u => t.line ≤ u.line) :
    ∃ r' c, (Token.writeAfter previous rest).foldlM step r = some r' ∧ r'.close = some c ∧
      c.tokens = tokens ++ rest.destutter' (· ≠ ·) previous := by
  induction rest generalizing r tokens previous with
  | nil => exact ⟨r, _, rfl, h, rfl⟩
  | cons t rest ih =>
    have hline : previous.line ≤ t.line := List.rel_of_pairwise_cons hlines List.mem_cons_self
    have hrest := List.Pairwise.of_cons hlines
    rw [Token.writeAfter]
    by_cases hsame : t = previous
    · subst hsame
      rw [if_pos rfl, if_pos rfl, List.destutter'_cons_neg _ (by simp)]
      exact ih h hrest
    · rw [List.destutter'_cons_pos _ (Ne.symm hsame)]
      have hnext : ∃ r', (if t.line = previous.line then ',' :: Token.segment previous t
          else List.replicate (t.line - previous.line) ';' ++ Token.segment previous t).foldlM step r =
            some r' ∧ r'.AtEnd (tokens ++ [previous]) t := by
        split
        · next heq => exact h.next heq
        · next hne => exact h.next_line (by omega)
      obtain ⟨r', hr', hend⟩ := hnext
      obtain ⟨r'', c, hr'', hclose, htokens⟩ := ih hend hrest
      refine ⟨r'', c, ?_, hclose, ?_⟩
      · rw [if_neg hsame, ← apply_ite (· ++ Token.writeAfter t rest), List.foldlM_append, hr']
        exact hr''
      · rw [htokens, List.append_assoc]
        rfl

end Reader

/-- Reading mappings gives the tokens that were written, a token that repeats
the one before it only once. -/
theorem decode_mappings (m : SourceMap) (h : m.tokens.Pairwise fun t u => t.line ≤ u.line) :
    decode m.mappings = some (m.tokens.destutter (· ≠ ·)) := by
  unfold mappings decode
  cases htokens : m.tokens with
  | nil => rfl
  | cons t rest =>
    rw [htokens] at h
    obtain ⟨r, hr, hend⟩ := Reader.foldlM_segment [] t
    obtain ⟨r', c, hr', hclose, hread⟩ := hend.writeAfter h
    have hlines := Reader.foldlM_semicolons [] 0 t.line
    rw [Nat.zero_add] at hlines
    dsimp only
    rw [List.foldlM_append, List.foldlM_append, hlines]
    simp only [Option.bind_eq_bind, Option.bind_some]
    rw [show Token.segment ⟨0, 0, 0, 0⟩ t = Token.segment (List.getLastD [] ⟨0, 0, 0, 0⟩) t from rfl,
      hr, Option.bind_some, hr', Option.bind_some, hclose, Option.bind_some, hread]
    rfl

/-- Two lines, the second one pinned at its third column. -/
example : decode "AAAA;EACC".toList = some [⟨0, 0, 0, 0⟩, ⟨1, 2, 1, 1⟩] := by decide

/-! ## Lookup -/

theorem lookup_of_last {before after : List Token} {t : Token} {line column : Nat}
    (hit : t.line = line ∧ t.column ≤ column)
    (hafter : ∀ u ∈ after, ¬ (u.line = line ∧ u.column ≤ column)) :
    lookup (before ++ t :: after) line column = some t := by
  have hnone : after.filter (fun u => u.line = line && u.column ≤ column) = [] :=
    List.filter_eq_nil_iff.2 fun u hu => by simpa using hafter u hu
  rw [lookup, List.filter_append, List.filter_cons_of_pos (by simpa using hit), hnone]
  exact List.getLast?_concat

/-- A token that repeats the one before it makes no difference. -/
theorem lookup_destutter (tokens : List Token) :
    lookup (tokens.destutter (· ≠ ·)) = lookup tokens := by
  funext line column
  unfold lookup
  cases tokens with
  | nil => rfl
  | cons t rest =>
    rw [List.destutter_cons']
    induction rest generalizing t with
    | nil => rfl
    | cons u rest ih =>
      by_cases hsame : t = u
      · subst hsame
        rw [List.destutter'_cons_neg _ (by simp), ih, List.filter_cons,
          @List.filter_cons _ t (t :: rest), List.filter_cons]
        split
        · rw [List.getLast?_cons_cons]
        · rfl
      · rw [List.destutter'_cons_pos _ hsame, List.filter_cons, List.filter_cons]
        split
        · rw [List.getLast?_cons, List.getLast?_cons, ih]
        · exact ih u

end SourceMap

end Reprint
