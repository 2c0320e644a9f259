import Reprint.Patch.Basic
import Reprint.SourceMap.Basic

/-!
# The source map of a patch

The map follows the segments of the patch.  A kept piece is pinned at its
start and at the start of each further line of it; the text of an edit is
not pinned at all.
-/

namespace Reprint.Patch

/-- Follows the further lines of a kept piece, the first of which has the
given number in the source. -/
def mapRows (m : SourceMap) (line : Nat) : List Text → SourceMap
  | [] => m
  | row :: rest =>
    mapRows (((m.write ['\n']).pin ⟨line, 0⟩).write row) (line + 1) rest

/-- Follows one segment. -/
def mapSegment (source : Source) (m : SourceMap) : Segment → Except Source.Error SourceMap
  | .fresh text => .ok (m.write text)
  | .kept bounds =>
    if bounds.isEmpty then .ok m
    else do
      match (← source.extract bounds).lines with
      | [] => return m
      | row :: rest =>
        return mapRows ((m.pin bounds.start).write row) (bounds.start.line + 1) rest

/-- The map from the text of the patch to its source. -/
def toSourceMap (p : Patch) (file : Text) : Except Source.Error SourceMap :=
  p.segments.foldlM (mapSegment p.source) (SourceMap.new file p.source.text)

end Reprint.Patch
