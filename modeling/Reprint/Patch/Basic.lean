import Reprint.Source.Basic

/-!
# Patches

A patch is a set of edits of one piece of a source, its base.  Every
edit names its target in the coordinates of the source, so the edits can
be added in any order.  The text of a patch is the base with every
target replaced; what no edit covers is kept as it is.

* `Patch.add` accepts an edit whose target is valid, lies in the
  base and intersects no target accepted before.
* `Patch.ordered` is the order in which the edits apply: by start, then
  by stop, then in the order of addition.
* `Patch.segments` is the result as a sequence of kept pieces and new
  texts.  `Patch.text` reads it as a text.
-/

namespace Reprint

/-- What an edit was asked for as. -/
inductive Edit.Kind where
  | replace
  | insert
  | remove
deriving DecidableEq, Repr

/-- A new text for a piece of the source.  The target of an insertion is
empty, and so is the text of a removal. -/
structure Edit where
  kind : Edit.Kind
  target : Span
  text : Text
deriving DecidableEq

/-- A piece of a source and the edits of it, in the order in which they
were added. -/
structure Patch where
  source : Source
  base : Span
  edits : List Edit
deriving DecidableEq

/-- A piece of the text that a patch makes. -/
inductive Segment where
  /-- The text of the source between two places. -/
  | kept (bounds : Bounds)
  /-- The text of an edit. -/
  | fresh (text : Text)
deriving DecidableEq

namespace Edit

/-- Whether the first edit applies strictly before the second, whatever
the order of addition. -/
def before (a b : Edit) : Bool :=
  a.target.start < b.target.start ||
    a.target.start = b.target.start && a.target.stop < b.target.stop

/-- Puts an edit behind all edits that it does not apply before. -/
def place (e : Edit) : List Edit → List Edit
  | [] => [e]
  | next :: rest => if e.before next then e :: next :: rest else next :: place e rest

end Edit

namespace Patch

/-- The patch of a piece of the source, without edits so far. -/
def ofBase (source : Source) (base : Span) : Except Source.Error Patch := do
  source.validateBounds base.toBounds
  return ⟨source, base, []⟩

/-- Whether there is no edit. -/
def isEmpty (p : Patch) : Bool := p.edits.isEmpty

/-! ## Edits -/

/-- Adds an edit, or says why it does not fit. -/
def add (p : Patch) (e : Edit) : Except Source.Error Patch := do
  p.source.validateBounds e.target.toBounds
  if !p.base.contains e.target then
    throw (.outsideBase e.target p.base)
  match p.edits.find? fun earlier => earlier.target.intersects e.target with
  | some earlier => throw (.conflict earlier.target e.target)
  | none => return { p with edits := p.edits ++ [e] }

/-- Replaces a span by a text. -/
def replace (p : Patch) (target : Span) (text : Text) : Except Source.Error Patch :=
  p.add ⟨.replace, target, text⟩

/-- Inserts a text at a position.  Nothing has to be done for the empty
text, wherever the position is. -/
def insert (p : Patch) (position : Position) (text : Text) : Except Source.Error Patch :=
  if text.isEmpty then .ok p else p.add ⟨.insert, Span.point position, text⟩

/-- Removes a span.  Nothing has to be done for an empty span, wherever
it is. -/
def remove (p : Patch) (target : Span) : Except Source.Error Patch :=
  if target.isEmpty then .ok p else p.add ⟨.remove, target, []⟩

/-! ## The text of a patch -/

/-- The edits in the order in which they apply. -/
def ordered (p : Patch) : List Edit :=
  p.edits.foldl (fun placed e => e.place placed) []

/-- The segments from a place on to the end of the base. -/
def segmentsFrom (stop : Position) (cursor : Position) : List Edit → List Segment
  | [] => [.kept ⟨cursor, stop⟩]
  | e :: rest =>
    .kept ⟨cursor, e.target.start⟩ :: .fresh e.text :: segmentsFrom stop e.target.stop rest

/-- The pieces of the result, in order. -/
def segments (p : Patch) : List Segment :=
  segmentsFrom p.base.stop p.base.start p.ordered

/-- The text of a segment. -/
def segmentText (source : Source) : Segment → Except Source.Error Text
  | .kept bounds => source.extract bounds
  | .fresh text => .ok text

/-- The text that the patch makes of its base. -/
def text (p : Patch) : Except Source.Error Text := do
  return (← p.segments.mapM (segmentText p.source)).flatten

end Patch

end Reprint
