import Reprint.Margin
import Reprint.Span

/-!
# Frames

A frame is what every part of a text has, whatever its kind: a literal in
front of it, a literal behind it, its indentation, and its extent, the
piece of the source that it covers.  `Frame.wrap` puts the literals and
the indentation around a text.
-/

namespace Reprint

/-- What every part of a text has. -/
structure Frame where
  /-- The literal in front. -/
  lead : Option Text := none
  /-- The literal behind. -/
  trail : Option Text := none
  indent : Indent := .keep
  /-- The piece of the source that the part covers, with the literals in
  front of it and behind it. -/
  extent : Option Span := none
deriving DecidableEq

namespace Frame

/-- The literal in front, empty if there is none. -/
def leadText (f : Frame) : Text := f.lead.getD []

/-- The literal behind, empty if there is none. -/
def trailText (f : Frame) : Text := f.trail.getD []

/-- A text with the literals around it, moved in by the indentation. -/
def wrap (f : Frame) (unit : Margin) (body : Text) : Text :=
  (unit.within f.indent).apply (f.leadText ++ body ++ f.trailText)

end Frame

end Reprint
