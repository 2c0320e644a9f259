import Reprint.Text

/-!
# Margins

A margin is a number of levels and the text that one level puts in front
of a line.  `Margin.apply` moves every line of a text in that far; blank
lines come out empty.  `Text.hang` gives the lines behind the first one
an indentation of their own.
-/

namespace Reprint

/-- How the margin of a part lies to the margin around it. -/
inductive Indent where
  /-- The same level. -/
  | keep
  /-- That many levels deeper. -/
  | nest (levels : Nat)
  /-- Level zero. -/
  | reset
deriving DecidableEq, Repr

instance : Inhabited Indent := ⟨.keep⟩

/-- Zero keeps the level, a positive number nests that deep, and a
negative number resets. -/
def Indent.ofInt (n : Int) : Indent :=
  if n = 0 then .keep else if n < 0 then .reset else .nest n.toNat

/-- Levels of indentation, each of them one unit. -/
structure Margin where
  level : Nat
  unit : Text
deriving DecidableEq, Repr

namespace Margin

/-- The margin at level zero. -/
def ofUnit (unit : Text) : Margin := ⟨0, unit⟩

/-- The margin of a part within this margin. -/
def within (m : Margin) : Indent → Margin
  | .keep => m
  | .nest n => { m with level := m.level + n }
  | .reset => { m with level := 0 }

/-- The same unit at level zero. -/
def flush (m : Margin) : Margin := { m with level := 0 }

/-- The text in front of an indented line.  An empty unit makes none at
any level, however high. -/
def text (m : Margin) : Text :=
  if m.unit.isEmpty then [] else (List.replicate m.level m.unit).flatten

theorem text_eq_flatten (m : Margin) : m.text = (List.replicate m.level m.unit).flatten := by
  unfold text
  split
  · next h => simp [List.isEmpty_iff.1 h]
  · rfl

/-- Puts the margin in front of a line, and empties a blank one. -/
def applyRow (m : Margin) (row : Text) : Text :=
  if Text.isBlank row then [] else m.text ++ row

/-- Puts the margin in front of every line.  At level zero the text stays
as it is, its blank lines too. -/
def apply (m : Margin) (t : Text) : Text :=
  if m.level = 0 then t else Text.unlines (t.lines.map m.applyRow)

end Margin

/-- Puts the indentation in front of every line but the first.  Blank
lines stay as they are. -/
def Text.hang (indentation t : Text) : Text :=
  match t.lines with
  | [] => t
  | first :: rest =>
    Text.unlines
      (first :: rest.map fun row => if Text.isBlank row then row else indentation ++ row)

end Reprint
