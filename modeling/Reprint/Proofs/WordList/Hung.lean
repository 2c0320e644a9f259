import Reprint.Proofs.WordList.Shape
import Reprint.Margin

/-!
# Spellings with another indentation

`Text.hang` puts an indentation in front of the lines of a text.  `Hung` says
that one text is made from another one by putting in spaces behind line
ends.  There are no line ends within words, so what spells a shape still
does then (`Shape.Spells.hung`).
-/

namespace Reprint.WordList

/-- A text with spaces put in behind some of its line ends. -/
inductive Hung : Text → Text → Prop
  | nil : Hung [] []
  | char (c : Char) {t u : Text} (tail : Hung t u) : Hung (c :: t) (c :: u)
  | line {blank t u : Text} (spaces : Blank blank) (tail : Hung t u) :
      Hung ('\n' :: t) ('\n' :: (blank ++ u))

namespace Hung

variable {t u v w : Text}

theorem refl : ∀ t : Text, Hung t t
  | [] => .nil
  | c :: rest => .char c (refl rest)

theorem append (ht : Hung t u) (hv : Hung v w) : Hung (t ++ v) (u ++ w) := by
  induction ht with
  | nil => exact hv
  | char c _ ih => exact .char c ih
  | line spaces _ ih =>
    rw [List.cons_append, List.cons_append, List.append_assoc]
    exact .line spaces ih

/-- What is put in between two texts belongs to the first one. -/
theorem split (h : Hung (t ++ v) u) :
    ∃ first second, u = first ++ second ∧ Hung t first ∧ Hung v second := by
  induction t generalizing u with
  | nil => exact ⟨[], u, rfl, .nil, h⟩
  | cons c t ih =>
    cases h with
    | char _ tail =>
      obtain ⟨first, second, rfl, hfirst, hsecond⟩ := ih tail
      exact ⟨c :: first, second, rfl, .char c hfirst, hsecond⟩
    | line spaces tail =>
      obtain ⟨first, second, rfl, hfirst, hsecond⟩ := ih tail
      refine ⟨_, second, ?_, .line spaces hfirst, hsecond⟩
      rw [List.cons_append, List.append_assoc]

/-- Nothing is put in where there is no line end. -/
theorem eq_self (h : Hung t u) (hline : '\n' ∉ t) : u = t := by
  induction h with
  | nil => rfl
  | char c _ ih => rw [ih fun hmem => hline (List.mem_cons_of_mem c hmem)]
  | line => exact absurd List.mem_cons_self hline

theorem blank (h : Hung t u) (ht : Blank t) : Blank u := by
  induction h with
  | nil => exact .nil
  | char c _ ih =>
    intro d hd
    rcases List.mem_cons.1 hd with rfl | hd
    · exact ht d List.mem_cons_self
    · exact ih (fun x hx => ht x (List.mem_cons_of_mem c hx)) d hd
  | line spaces _ ih =>
    intro d hd
    rcases List.mem_cons.1 hd with rfl | hd
    · decide
    · rcases List.mem_append.1 hd with hd | hd
      · exact spaces d hd
      · exact ih (fun x hx => ht x (List.mem_cons_of_mem _ hx)) d hd

end Hung

/-- Putting an indentation in front of the lines of a text. -/
theorem hung_hang {indentation : Text} (hindentation : Blank indentation) (t : Text) :
    Hung t (Text.hang indentation t) := by
  have hrows : ∀ (rest : List Text) (first : Text), Hung (Text.unlines (first :: rest))
      (Text.unlines (first :: rest.map fun row =>
        if Text.isBlank row then row else indentation ++ row)) := by
    intro rest
    induction rest with
    | nil => exact fun first => .refl _
    | cons row more ih =>
      intro first
      have hrow := ih row
      rw [List.map_cons, Text.unlines_cons_of_ne_nil (List.cons_ne_nil _ _),
        Text.unlines_cons_of_ne_nil (List.cons_ne_nil _ _)]
      refine (Hung.refl first).append ?_
      split
      · exact .char _ hrow
      · have happend : ∀ rows : List Text, Text.unlines ((indentation ++ row) :: rows) =
            indentation ++ Text.unlines (row :: rows) := by
          intro rows
          cases rows with
          | nil => simp [Text.unlines, List.intercalate]
          | cons next others =>
            rw [Text.unlines_cons_of_ne_nil (List.cons_ne_nil _ _),
              Text.unlines_cons_of_ne_nil (List.cons_ne_nil _ _), List.append_assoc]
        rw [happend]
        exact .line hindentation hrow
  have hlines := Text.unlines_lines t
  unfold Text.hang
  cases hrest : t.lines with
  | nil => exact .refl t
  | cons first rest =>
    rw [hrest] at hlines
    conv => arg 1; rw [← hlines]
    exact hrows rest first

/-! ## Spellings -/

theorem Parting.hung {t u : Text} (ht : Parting t) (h : Hung t u) : Parting u := by
  obtain ⟨before, c, behind, rfl, hbefore, hc, hbehind⟩ := ht
  obtain ⟨before', rest, rfl, hbefore', hrest⟩ := h.split
  cases hrest with
  | char _ tail =>
    exact ⟨before', c, _, rfl, hbefore'.blank hbefore, hc, tail.blank hbehind⟩
  | line spaces _ => exact absurd hc (by decide)

theorem Leading.hung {first : Bool} {t u : Text} (ht : Leading first t) (h : Hung t u) :
    Leading first u := by
  cases first with
  | true => exact h.blank ht
  | false => exact Parting.hung ht h

theorem Trailing.hung {empty : Bool} {t u : Text} (ht : Trailing empty t) (h : Hung t u) :
    Trailing empty u := by
  rcases ht with ht | ⟨hempty, ht⟩
  · exact Or.inl (h.blank ht)
  · exact Or.inr ⟨hempty, ht.hung h⟩

mutual

/-- An indentation does not change what a text spells. -/
theorem Shape.Spells.hung : ∀ {shape : Shape} {t u : Text}, shape.Spells t → Hung t u → shape.Spells u
  | .word name loudness, t, u, ht, h => by
    obtain ⟨hname, hchars, rfl⟩ := ht
    have hline : '\n' ∉ name ++ markText loudness := by
      intro hmem
      rcases List.mem_append.1 hmem with hmem | hmem
      · exact absurd (hchars _ hmem) (by decide)
      · rcases loudness with _ | _ | _
        · cases hmem
        · exact absurd (List.mem_singleton.1 hmem) (by decide)
        · exact absurd (List.mem_singleton.1 hmem) (by decide)
    exact ⟨hname, hchars, h.eq_self hline⟩
  | .list items, t, u, ht, h => by
    obtain ⟨row, behind, rfl, hrow, hbehind⟩ := ht
    cases h with
    | char _ tail =>
      obtain ⟨inside, bracket, rfl, hinside, hbracket⟩ := tail.split
      obtain ⟨row', behind', rfl, hrow', hbehind'⟩ := hinside.split
      have hclose : bracket = [']'] := hbracket.eq_self (by decide)
      refine ⟨row', behind', ?_, Shape.SpellRow.hung hrow hrow', hbehind.hung hbehind'⟩
      rw [hclose, List.cons_append]
termination_by structural shape => shape

theorem Shape.SpellRow.hung : ∀ {first : Bool} {shapes : List Shape} {t u : Text},
    Shape.SpellRow first shapes t → Hung t u → Shape.SpellRow first shapes u
  | _, [], t, u, ht, h => by
    obtain rfl : t = [] := ht
    cases h
    rfl
  | first, shape :: rest, t, u, ht, h => by
    obtain ⟨ahead, body, tail, rfl, hahead, hbody, htail⟩ := ht
    obtain ⟨ahead', behind, rfl, hahead', hbehind⟩ := h.split
    obtain ⟨body', tail', rfl, hbody', htail'⟩ := hbehind.split
    exact ⟨ahead', body', tail', rfl, hahead.hung hahead', hbody.hung hbody',
      Shape.SpellRow.hung htail htail'⟩
termination_by structural _ shapes => shapes

end

end Reprint.WordList
