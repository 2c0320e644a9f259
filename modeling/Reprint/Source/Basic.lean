import Reprint.Source.Error

/-!
# Sources

A source is a text as a table of its lines.  The lines hold no line feed
and there is at least one, so a source and its text determine each other:
`Source.text_ofText` is one half of that.

The valid positions of a source are the places before, between and after
the characters of its lines.  `Source.offset` numbers them from zero, a
line break counting as one character, and `Source.positionAt` reads such
a number back.  The text of a span is cut out of the line table by
`Source.slice`.
-/

namespace Reprint

/-- A text as a table of lines. -/
structure Source where
  lines : List Text
  lines_ne_nil : lines ≠ []
  not_mem_of_mem : ∀ row ∈ lines, '\n' ∉ row
deriving DecidableEq

namespace Source

/-- The source of a text. -/
def ofText (t : Text) : Source :=
  ⟨t.lines, Text.lines_ne_nil t, fun _ => Text.not_mem_of_mem_lines⟩

/-- The text of a source. -/
def text (s : Source) : Text := Text.unlines s.lines

theorem text_ofText (t : Text) : (ofText t).text = t := Text.unlines_lines t

/-- The number of lines. -/
def size (s : Source) : Nat := s.lines.length

/-- The line with the given number, counted from one. -/
def line? (s : Source) : Nat → Option Text
  | 0 => none
  | line + 1 => s.lines[line]?

/-- The number of characters of a line. -/
def lineLength? (s : Source) (line : Nat) : Option Nat :=
  (s.line? line).map List.length

/-- The spaces and tabs that a line begins with, and nothing where there
is no such line. -/
def indentationOf (s : Source) (line : Nat) : Text :=
  match s.line? line with
  | some row => Text.indentation row
  | none => []

/-- The number of characters, a line break counting as one. -/
def charCount (s : Source) : Nat := s.text.length

/-! ## Positions -/

/-- The first position. -/
def start (_ : Source) : Position := Position.origin

/-- The last position. -/
def stop (s : Source) : Position :=
  ⟨s.size, (s.lines.getLast s.lines_ne_nil).length⟩

/-- The span of the whole source. -/
def fullSpan (s : Source) : Span := Span.between s.start s.stop

/-- Whether the position is a place of the source. -/
def isValid (s : Source) (p : Position) : Bool :=
  match s.lineLength? p.line with
  | some length => p.column ≤ length
  | none => false

/-- Refuses a position that is not a place of the source. -/
def validate (s : Source) (p : Position) : Except Error Unit :=
  if s.isValid p then .ok () else .error (.outOfBounds p s.size)

/-- Refuses bounds with an end outside the source, the start first. -/
def validateBounds (s : Source) (b : Bounds) : Except Error Unit := do
  s.validate b.start
  s.validate b.stop

/-! ## Offsets -/

/-- The number of characters before a line. -/
def lineStart (s : Source) (line : Nat) : Nat :=
  (s.lines.take (line - 1)).foldr (fun row n => row.length + 1 + n) 0

/-- The number of characters before a position. -/
def offset (s : Source) (p : Position) : Except Error Nat := do
  s.validate p
  return s.lineStart p.line + p.column

/-- The place that many characters into the given lines, which are
numbered from `line` on. -/
def locate (line : Nat) : List Text → Nat → Position
  | [], k => ⟨line, k⟩
  | row :: rest, k =>
    if k ≤ row.length || rest.isEmpty then ⟨line, k⟩
    else locate (line + 1) rest (k - (row.length + 1))

/-- The position with the given number of characters before it. -/
def positionAt (s : Source) (k : Nat) : Except Error Position :=
  if k ≤ s.charCount then .ok (locate 1 s.lines k)
  else .error (.outOfBounds ⟨s.size + 1, 0⟩ s.size)

/-! ## The text of a span -/

/-- The lines up to a position. -/
def rowsBefore (rows : List Text) (p : Position) : List Text :=
  rows.take (p.line - 1) ++ ((rows.drop (p.line - 1)).take 1).map (List.take p.column)

/-- The lines from a position on. -/
def rowsAfter (rows : List Text) (p : Position) : List Text :=
  match rows.drop (p.line - 1) with
  | [] => []
  | row :: rest => row.drop p.column :: rest

/-- The text between two places of the source, the first not after the
second. -/
def slice (s : Source) (b : Bounds) : Text :=
  Text.unlines (rowsAfter (rowsBefore s.lines b.stop) b.start)

/-- The text within the bounds, with all that can be wrong with them
refused. -/
def extract (s : Source) (b : Bounds) : Except Error Text := do
  s.validateBounds b
  if b.start ≤ b.stop then .ok (s.slice b) else .error (.reversed b.start b.stop)

/-- The number of characters within a span. -/
def spanLength (s : Source) (a : Span) : Except Error Nat := do
  let stop ← s.offset a.stop
  let start ← s.offset a.start
  return stop - start

end Source

end Reprint
