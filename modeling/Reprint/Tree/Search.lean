import Reprint.Tree.Ownership

/-!
# Searches

A search for a literal tries windows of the length of the literal at
growing distance from a boundary.  It ends at the first window that runs
into text which belongs elsewhere, at the first window with the text of
the literal, or when the next window would leave the source.  Only the
second is a success.

`Tree.findForward` and `Tree.findBackward` are the two directions.  Both
number the windows by their distance and share `Tree.firstWindow`.
-/

namespace Reprint.Tree

variable {M O : Type}

/-- The span between two offsets. -/
def window (s : Source) (start stop : Nat) : Span :=
  Span.between (Source.locate 1 s.lines start) (Source.locate 1 s.lines stop)

/-- The first of `count` windows, from distance `d` on, that has the text
of the literal, if no window up to it is blocked. -/
def firstWindow (t : Tree M O) (enclosing : List Nat) (literal : Text) (windowAt : Nat → Span) :
    Nat → Nat → Option Span
  | 0, _ => none
  | count + 1, d =>
    if t.blocks enclosing (windowAt d) then none
    else if t.source.slice (windowAt d).toBounds = literal then some (windowAt d)
    else firstWindow t enclosing literal windowAt count (d + 1)

/-- Tries `count` windows for a searcher.  Nobody has to be there if there
is no window. -/
def search (t : Tree M O) (searcher : Nat) (literal : Text) (windowAt : Nat → Span)
    (count : Nat) : Except Error (Option Span) := do
  if count = 0 then return none
  let _ ← t.node searcher
  return t.firstWindow (t.lineage searcher) literal windowAt count 0

/-- The closest piece at or behind the boundary that has the text of the
literal. -/
def findForward (t : Tree M O) (searcher : Nat) (boundary : Position) (literal : Text) :
    Except Error (Option Span) := do
  let start ← Error.ofSource (t.source.offset boundary)
  let count := t.source.charCount + 1 - (start + literal.length)
  t.search searcher literal
    (fun d => window t.source (start + d) (start + d + literal.length)) count

/-- The closest piece at or in front of the boundary that has the text of
the literal. -/
def findBackward (t : Tree M O) (searcher : Nat) (boundary : Position) (literal : Text) :
    Except Error (Option Span) := do
  let stop ← Error.ofSource (t.source.offset boundary)
  let count := stop + 1 - literal.length
  t.search searcher literal
    (fun d => window t.source (stop - d - literal.length) (stop - d)) count

end Reprint.Tree
