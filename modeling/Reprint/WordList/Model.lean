import Reprint.WordList.Item

/-!
# Word lists as a model

The words and lists of a model live in cells, and lists refer to their
items by the number of the cell.  So an item keeps its identity while its
list is edited, and it may be listed more than once.

A cell that was read from a text keeps what was read; the edits below
change the model and leave that as it is.
-/

namespace Reprint.WordList

/-- A word or a list of a model. -/
inductive Cell where
  | word (name : Text) (loudness : Option Bool) (read : Option Word)
  | list (bracketed : Bool) (items : List Nat) (read : Option Item)

/-- Words and lists with one of them as the root. -/
structure Model where
  cells : Array Cell := #[]
  root : Nat := 0

namespace Model

/-- Puts a new cell behind all others. -/
def alloc (m : Model) (cell : Cell) : Nat × Model :=
  (m.cells.size, { m with cells := m.cells.push cell })

/-! ## Construction -/

mutual

/-- Adds the cells of an item that was read. -/
def enter (m : Model) : Item → Nat × Model
  | .word w => m.alloc (.word w.name w.loudness (some w))
  | .list bytes bracketed items =>
    let (addresses, m) := enterAll m items
    m.alloc (.list bracketed addresses (some (.list bytes bracketed items)))
termination_by structural item => item

/-- Adds the cells of several items that were read. -/
def enterAll (m : Model) : List Item → List Nat × Model
  | [] => ([], m)
  | item :: rest =>
    let (address, m) := enter m item
    let (addresses, m) := enterAll m rest
    (address :: addresses, m)
termination_by structural items => items

end

/-- The model of a document. -/
def ofItem (item : Item) : Model :=
  let (root, m) := enter {} item
  { m with root := root }

/-- An item to be put into a model: a new one, or a cell that is there. -/
inductive Draft where
  | word (name : Text) (loudness : Option Bool)
  | list (items : List Draft)
  | cell (address : Nat)

mutual

/-- Adds the cells of a draft.  New lists have brackets. -/
def add (m : Model) : Draft → Nat × Model
  | .word name loudness => m.alloc (.word name loudness none)
  | .list items =>
    let (addresses, m) := addAll m items
    m.alloc (.list true addresses none)
  | .cell address => (address, m)
termination_by structural draft => draft

/-- Adds the cells of several drafts. -/
def addAll (m : Model) : List Draft → List Nat × Model
  | [] => ([], m)
  | draft :: rest =>
    let (address, m) := add m draft
    let (addresses, m) := addAll m rest
    (address :: addresses, m)
termination_by structural drafts => drafts

end

/-- The model of a draft. -/
def ofDraft (draft : Draft) : Model :=
  let (root, m) := add {} draft
  { m with root := root }

/-! ## Look-up -/

/-- The name of a word. -/
def name (m : Model) (address : Nat) : Text :=
  match m.cells[address]? with
  | some (.word name _ _) => name
  | _ => []

/-- The loudness of a word. -/
def loudness (m : Model) (address : Nat) : Option Bool :=
  match m.cells[address]? with
  | some (.word _ loudness _) => loudness
  | _ => none

/-- The items of a list. -/
def items (m : Model) (address : Nat) : List Nat :=
  match m.cells[address]? with
  | some (.list _ items _) => items
  | _ => []

/-- The cell at the end of a path of item numbers from a cell on. -/
def follow (m : Model) (address : Nat) : List Nat → Option Nat
  | [] => some address
  | index :: rest => do m.follow (← (m.items address)[index]?) rest

/-- The cell at the end of a path of item numbers from the root on. -/
def at? (m : Model) (path : List Nat) : Option Nat := m.follow m.root path

/-! ## Edits -/

/-- Changes a cell. -/
def edit (m : Model) (address : Nat) (change : Cell → Cell) : Model :=
  { m with cells := m.cells.modify address change }

/-- Gives a word another name. -/
def rename (m : Model) (address : Nat) (name : Text) : Model :=
  m.edit address fun
    | .word _ loudness read => .word name loudness read
    | cell => cell

/-- Changes the loudness of a word. -/
def setLoudness (m : Model) (address : Nat) (loudness : Option Bool) : Model :=
  m.edit address fun
    | .word name _ read => .word name loudness read
    | cell => cell

/-- Changes whether a list has brackets. -/
def setBracketed (m : Model) (address : Nat) (bracketed : Bool) : Model :=
  m.edit address fun
    | .list _ items read => .list bracketed items read
    | cell => cell

/-- Changes the items of a list. -/
def editItems (m : Model) (address : Nat) (change : List Nat → List Nat) : Model :=
  m.edit address fun
    | .list bracketed items read => .list bracketed (change items) read
    | cell => cell

/-- Moves an item of a list to another index.  The item is taken out
before it is put in. -/
def moveItem (items : List Nat) (source target : Nat) : List Nat :=
  match items[source]? with
  | some item => (items.eraseIdx source).insertIdx target item
  | none => items

end Model

end Reprint.WordList
