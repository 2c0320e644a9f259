import Reprint.Source.Error

/-!
# Byte offsets

Parsers report byte offsets into the UTF-8 form of a text.  The functions
here turn such an offset into a position and back by reading the text
once, without a line table.

An offset inside a character stands for the place after it, and an offset
past the end for the end.
-/

namespace Reprint

/-- The place after one more character. -/
def Position.past (p : Position) (c : Char) : Position :=
  if c = '\n' then ⟨p.line + 1, 0⟩ else ⟨p.line, p.column + 1⟩

namespace Text

/-- The place that is `bytes` bytes into a text that begins at `p`. -/
def positionOfByteFrom (p : Position) : Text → Nat → Position
  | [], _ => p
  | c :: rest, bytes =>
    if bytes = 0 then p else positionOfByteFrom (p.past c) rest (bytes - c.utf8Size)

/-- The position of a byte offset. -/
def positionOfByte (t : Text) (bytes : Nat) : Position :=
  positionOfByteFrom Position.origin t bytes

/-- The number of bytes up to `target` in a text that begins at `p`. -/
def byteOfPositionFrom (target p : Position) : Text → Nat
  | [] => 0
  | c :: rest =>
    if p = target then 0 else c.utf8Size + byteOfPositionFrom target (p.past c) rest

/-- The byte offset of a position.  Any other position stands for the
end of the text. -/
def byteOfPosition (t : Text) (target : Position) : Nat :=
  byteOfPositionFrom target Position.origin t

/-- The span between two byte offsets. -/
def spanOfBytes (t : Text) (start stop : Nat) : Except Source.Error Span :=
  Bounds.toSpan ⟨t.positionOfByte start, t.positionOfByte stop⟩

end Text

end Reprint
