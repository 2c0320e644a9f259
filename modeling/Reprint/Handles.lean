import Reprint.Text

/-!
# Handles

A handle refers to a cell that holds a value.  Several handles may refer
to one cell, and two handles are the same only if they do, whatever the
values are.  The handles of a table are numbered from zero in the order
in which they were made.
-/

namespace Reprint

/-- Cells and the handles to them. -/
structure Handles (α : Type) where
  /-- The values of the cells. -/
  cells : List α
  /-- The cell of each handle. -/
  handles : List Nat

namespace Handles

variable {α : Type}

/-- A table without handles. -/
def empty : Handles α := ⟨[], []⟩

/-- Adds a handle to a new cell. -/
def new (t : Handles α) (value : α) : Handles α :=
  ⟨t.cells ++ [value], t.handles ++ [t.cells.length]⟩

/-- Adds a handle to the cell of another one. -/
def share (t : Handles α) (handle : Nat) : Handles α :=
  { t with handles := t.handles ++ (t.handles[handle]?).toList }

/-- The value that a handle refers to. -/
def get? (t : Handles α) (handle : Nat) : Option α := do
  t.cells[← t.handles[handle]?]?

/-- Changes the value that a handle refers to. -/
def set (t : Handles α) (handle : Nat) (value : α) : Handles α :=
  match t.handles[handle]? with
  | some cell => { t with cells := t.cells.set cell value }
  | none => t

/-- The value of every handle. -/
def values (t : Handles α) : List α := t.handles.filterMap (t.cells[·]?)

/-- The number of cells that handles refer to. -/
def distinct (t : Handles α) : Nat := t.handles.eraseDups.length

/-- Whether two handles refer to one cell. -/
def same (t : Handles α) (a b : Nat) : Bool := t.handles[a]? = t.handles[b]?

/-- Whether two handles refer to equal values. -/
def sameValue [DecidableEq α] (t : Handles α) (a b : Nat) : Bool := t.get? a = t.get? b

end Handles

end Reprint
