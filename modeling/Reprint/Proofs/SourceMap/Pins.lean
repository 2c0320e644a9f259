import Mathlib.Data.List.Induction
import Reprint.Proofs.Source.Past
import Reprint.Proofs.SourceMap.Decode

/-!
# The pins of a copied text

A source map pins a text that is copied from the source at its start and at
every line that begins within it (`SourceMap.copyPins`).  No line feed lies
between a character of the copy and the last pin before it, so both places of
the character are equally far behind that pin, and all pins that follow lie
behind the character (`SourceMap.exists_last_copyPins`).
-/

namespace Reprint

/-- So many columns further on the same line. -/
def Position.along (p : Position) (n : Nat) : Position := ⟨p.line, p.column + n⟩

namespace SourceMap

/-- A place of the generated text and the place of the source it comes from. -/
structure Pin where
  generated : Position
  source : Position

/-- The token for two places, with all bits of its numbers. -/
def Token.exact (generated source : Position) : Token :=
  ⟨generated.line - 1, generated.column, source.line - 1, source.column⟩

/-- The token of a pin. -/
def Pin.token (pin : Pin) : Token := .ofPositions pin.generated pin.source

/-- The numbers of a pin have no more than 32 bits if the places are not further
into a text than that. -/
theorem Pin.token_eq_exact {pin : Pin} {generated source : Source} {j k : Nat}
    (hgenerated : generated.charCount < UInt32.size) (hsource : source.charCount < UInt32.size)
    (hj : j ≤ generated.charCount) (hk : k ≤ source.charCount)
    (hpin : pin = ⟨generated.place j, source.place k⟩) :
    pin.token = .exact pin.generated pin.source := by
  have hfits := Source.place_fits hj
  have hfits' := Source.place_fits hk
  subst hpin
  unfold Pin.token Token.ofPositions Token.exact low32
  congr 1 <;> exact Nat.mod_eq_of_lt (by dsimp only; omega)

/-! ## The pins of a copied text -/

/-- Where the further lines of a copied text begin. -/
def lineStarts (here source : Position) : Text → List Pin
  | [] => []
  | c :: rest =>
    let starts := lineStarts (here.past c) (source.past c) rest
    if c = '\n' then ⟨here.past c, source.past c⟩ :: starts else starts

/-- The pins of a copied text. -/
def copyPins (here source : Position) (t : Text) : List Pin :=
  if t = [] then [] else ⟨here, source⟩ :: lineStarts here source t

section Pins

variable {here source : Position} {t u : Text} {pin : Pin}

theorem lineStarts_append (here source : Position) (t u : Text) :
    lineStarts here source (t ++ u) =
      lineStarts here source t ++ lineStarts (here.pastText t) (source.pastText t) u := by
  induction t generalizing here source with
  | nil => rfl
  | cons c rest ih =>
    simp only [List.cons_append, lineStarts, ih, Position.pastText_cons]
    split <;> rfl

theorem lineStarts_of_row (h : '\n' ∉ t) : lineStarts here source t = [] := by
  induction t generalizing here source with
  | nil => rfl
  | cons c rest ih =>
    rw [List.mem_cons, not_or] at h
    rw [lineStarts, if_neg (Ne.symm h.1)]
    exact ih h.2

/-- A line begins behind a line feed. -/
theorem exists_of_mem_lineStarts (h : pin ∈ lineStarts here source t) :
    ∃ y z, t = y ++ ['\n'] ++ z ∧
      pin = ⟨here.pastText (y ++ ['\n']), source.pastText (y ++ ['\n'])⟩ := by
  induction t generalizing here source with
  | nil => cases h
  | cons c rest ih =>
    have hlater : pin ∈ lineStarts (here.past c) (source.past c) rest →
        ∃ y z, c :: rest = y ++ ['\n'] ++ z ∧
          pin = ⟨here.pastText (y ++ ['\n']), source.pastText (y ++ ['\n'])⟩ := by
      intro hin
      obtain ⟨y, z, hrest, hpin⟩ := ih hin
      exact ⟨c :: y, z, congrArg (c :: ·) hrest, hpin⟩
    rw [lineStarts] at h
    split at h
    · next hc =>
      rcases List.mem_cons.1 h with hpin | hin
      · subst hc
        exact ⟨[], rest, rfl, hpin⟩
      · exact hlater hin
    · exact hlater h

theorem lineStarts_bounds (h : pin ∈ lineStarts here source t) :
    here < pin.generated ∧ pin.generated ≤ here.pastText t := by
  obtain ⟨y, z, rfl, rfl⟩ := exists_of_mem_lineStarts h
  refine ⟨Position.lt_pastText here (by simp), ?_⟩
  rw [Position.pastText_append _ (y ++ ['\n']) z]
  exact Position.le_pastText _ z

/-- A copied text is pinned behind a part of it that is empty or ends a line. -/
theorem exists_of_mem_copyPins (h : pin ∈ copyPins here source t) :
    t ≠ [] ∧ ∃ y z, t = y ++ z ∧ (y = [] ∨ y ≠ [] ∧ (source.pastText y).column = 0) ∧
      pin = ⟨here.pastText y, source.pastText y⟩ := by
  unfold copyPins at h
  split at h
  · cases h
  · next hne =>
    refine ⟨hne, ?_⟩
    rcases List.mem_cons.1 h with hpin | hin
    · exact ⟨[], t, rfl, Or.inl rfl, hpin⟩
    · obtain ⟨y, z, htext, hpin⟩ := exists_of_mem_lineStarts hin
      refine ⟨y ++ ['\n'], z, htext, Or.inr ⟨by simp, ?_⟩, hpin⟩
      rw [Position.pastText_append]
      rfl

/-- The pins of a copied text lie between its start and its end. -/
theorem copyPins_bounds (h : pin ∈ copyPins here source t) :
    here ≤ pin.generated ∧ pin.generated ≤ here.pastText t := by
  unfold copyPins at h
  split at h
  · cases h
  · rcases List.mem_cons.1 h with rfl | hin
    · exact ⟨Position.le_refl _, Position.le_pastText _ t⟩
    · obtain ⟨hlt, hle⟩ := lineStarts_bounds hin
      exact ⟨Position.le_of_lt hlt, hle⟩

theorem pairwise_lineStarts (here source : Position) (t : Text) :
    (lineStarts here source t).Pairwise fun x y => x.generated ≤ y.generated := by
  induction t generalizing here source with
  | nil => exact List.Pairwise.nil
  | cons c rest ih =>
    rw [lineStarts]
    split
    · refine List.pairwise_cons.2 ⟨fun pin hpin => ?_, ih _ _⟩
      exact Position.le_of_lt (lineStarts_bounds hpin).1
    · exact ih _ _

theorem pairwise_copyPins (here source : Position) (t : Text) :
    (copyPins here source t).Pairwise fun x y => x.generated ≤ y.generated := by
  unfold copyPins
  split
  · exact List.Pairwise.nil
  · refine List.pairwise_cons.2 ⟨fun pin hpin => ?_, pairwise_lineStarts _ _ _⟩
    exact Position.le_of_lt (lineStarts_bounds hpin).1

/-- Past a copied text, both places lie equally far behind the last pin, by
induction from its end. -/
theorem exists_last_lineStart (here source : Position) (t : Text) :
    ∃ before pin n, ⟨here, source⟩ :: lineStarts here source t = before ++ [pin] ∧
      here.pastText t = pin.generated.along n ∧ source.pastText t = pin.source.along n := by
  induction t using List.reverseRecOn with
  | nil => exact ⟨[], ⟨here, source⟩, 0, rfl, rfl, rfl⟩
  | append_singleton t c ih =>
    obtain ⟨before, pin, n, hpins, hhere, hsource⟩ := ih
    have hstep : ⟨here, source⟩ :: lineStarts here source (t ++ [c]) =
        before ++ [pin] ++ lineStarts (here.pastText t) (source.pastText t) [c] := by
      rw [lineStarts_append, ← List.cons_append, hpins]
    by_cases hc : c = '\n'
    · subst hc
      exact ⟨before ++ [pin], ⟨here.pastText (t ++ ['\n']), source.pastText (t ++ ['\n'])⟩, 0,
        by rw [hstep]; simp [lineStarts], rfl, rfl⟩
    · refine ⟨before, pin, n + 1, ?_, ?_, ?_⟩
      · rw [hstep, lineStarts_of_row (by simpa using Ne.symm hc), List.append_nil]
      · rw [Position.pastText_append, hhere, Position.pastText_of_row (by simpa using Ne.symm hc)]
        rfl
      · rw [Position.pastText_append, hsource, Position.pastText_of_row (by simpa using Ne.symm hc)]
        rfl

/-- A place within a copied text: the last pin before it, and pins that all lie
behind it. -/
theorem exists_last_copyPins (here source : Position) (t : Text) {u : Text} (hu : u ≠ []) :
    ∃ before pin after n, copyPins here source (t ++ u) = before ++ pin :: after ∧
      here.pastText t = pin.generated.along n ∧ source.pastText t = pin.source.along n ∧
      ∀ x ∈ after, here.pastText t < x.generated := by
  obtain ⟨before, pin, n, hpins, hhere, hsource⟩ := exists_last_lineStart here source t
  refine ⟨before, pin, lineStarts (here.pastText t) (source.pastText t) u, n, ?_, hhere, hsource,
    fun x hx => (lineStarts_bounds hx).1⟩
  rw [copyPins, if_neg (by simp [hu]), lineStarts_append, ← List.cons_append, hpins, List.append_assoc]
  rfl

end Pins

/-! ## Looking pins up -/

/-- Looking up a place of the generated text leads to a place of the source: the
token that is found is on the same line, and as many columns before the one place
as before the other. -/
def LeadsTo (tokens : List Token) (generated source : Position) : Prop :=
  ∃ t, lookup tokens (generated.line - 1) generated.column = some t ∧
    t.column ≤ generated.column ∧ t.sourceLine = source.line - 1 ∧
    source.column = t.sourceColumn + (generated.column - t.column)

/-- The last pin that is not behind a place is found there. -/
theorem leadsTo_of_last {before after : List Pin} {pin : Pin} {q source : Position} {n : Nat}
    (hlines : ∀ x ∈ before ++ pin :: after, 1 ≤ x.generated.line)
    (hq : q = pin.generated.along n) (hsource : source = pin.source.along n)
    (hafter : ∀ x ∈ after, q < x.generated) :
    LeadsTo ((before ++ pin :: after).map fun x => .exact x.generated x.source) q source := by
  subst hq hsource
  refine ⟨.exact pin.generated pin.source, ?_, Nat.le_add_right _ _, rfl, ?_⟩
  · rw [List.map_append, List.map_cons]
    refine lookup_of_last ⟨rfl, Nat.le_add_right _ _⟩ fun t ht => ?_
    obtain ⟨x, hx, rfl⟩ := List.mem_map.1 ht
    have hlt := hafter x hx
    have hline := hlines pin (by simp)
    have hline' := hlines x (by simp [hx])
    rw [Position.lt_def] at hlt
    unfold Position.along Token.exact at *
    dsimp only at *
    omega
  · show pin.source.column + n = pin.source.column + (pin.generated.column + n - pin.generated.column)
    rw [Nat.add_sub_cancel_left]

/-! ## Following a text -/

/-- Appends a text to the generated text, with pins in it. -/
def follow (m : SourceMap) (pins : List Pin) (t : Text) : SourceMap :=
  { m with tokens := m.tokens ++ pins.map Pin.token, here := m.here.pastText t }

theorem follow_follow (m : SourceMap) (pins more : List Pin) (t u : Text) :
    (m.follow pins t).follow more u = m.follow (pins ++ more) (t ++ u) := by
  simp [follow]

end SourceMap

end Reprint
