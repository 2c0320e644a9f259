import Reprint.Span

/-!
# Delimiters

A delimiter is what became of a literal in front of something or behind
it when the source was searched: there was none to search for, it was
found, or it is missing and has to be inserted.

A `LiteralPlace` holds what was found of a literal: where it is, and the
delimiters around it.
-/

namespace Reprint

/-- What became of a literal that delimits something. -/
inductive Delimiter where
  /-- There is no literal. -/
  | empty
  /-- The literal is in the source.  The span also covers the gap between
  the literal and what it delimits. -/
  | present (literal : Text) (span : Span)
  /-- The literal is not in the source and has to be inserted. -/
  | missing (literal : Text)
deriving DecidableEq

namespace Delimiter

instance : Inhabited Delimiter := ⟨empty⟩

/-- The piece of the source that the delimiter owns. -/
def span? : Delimiter → Option Span
  | present _ span => some span
  | _ => none

/-- The literal itself. -/
def literal : Delimiter → Text
  | empty => []
  | present literal _ => literal
  | missing literal => literal

/-- The text that has to be inserted because the source lacks it. -/
def toInsert : Delimiter → Text
  | missing literal => literal
  | _ => []

/-- The end of a span with the delimiter behind it. -/
def stopBehind (d : Delimiter) (span : Span) : Position :=
  (d.span?.map fun s => s.stop).getD span.stop

end Delimiter

/-- Where a literal and the delimiters around it are in the source. -/
structure LiteralPlace where
  span? : Option Span := none
  before : Delimiter := .empty
  behind : Delimiter := .empty
deriving DecidableEq

/-- The literal together with the delimiters around it. -/
def LiteralPlace.extent (p : LiteralPlace) : Option Span :=
  Span.join (Span.join p.span? p.before.span?) p.behind.span?

end Reprint
