import Reprint.Part.Frame

/-!
# Lists of items

An item list is a part that stands for the objects of a list in the
model.  The frame gives the literals around every item; the first and
the last item may have others.

The list remembers which items were found in the source.  The model may
list them in another order later on: `ItemList.isReordered` compares the
order of the objects that both have.
-/

namespace Reprint

/-- An item of a list as it was found in the source. -/
structure ListedItem (O : Type) where
  object : O
  node : Nat
  /-- The literals around the item at that time. -/
  lead : Text
  trail : Text

/-- A list of objects of the model. -/
structure ItemList (M O : Type) where
  supply : M → List O
  /-- The literal in front of the first item, where that is special. -/
  firstLead : Option Text := none
  /-- The literal behind the last item, where that is special. -/
  lastTrail : Option Text := none
  /-- The items found in the source, in their order there. -/
  listed : List (ListedItem O) := []
  /-- The objects that were listed again at that time.  The text of such a
  repetition stays as it is. -/
  repeats : List O := []

namespace ItemList

variable {M O : Type}

/-- The literals in front of and behind item `index` of `count`. -/
def around (l : ItemList M O) (f : Frame) (index count : Nat) : Text × Text :=
  (if index = 0 then l.firstLead.getD f.leadText else f.leadText,
   if index + 1 = count then l.lastTrail.getD f.trailText else f.trailText)

variable [DecidableEq O]

/-- The listed item of an object. -/
def item? (l : ItemList M O) (object : O) : Option (ListedItem O) :=
  l.listed.find? fun item => item.object = object

/-- The objects found in the source that the model still lists, in the
order of the model. -/
def inModelOrder (l : ItemList M O) (current : List O) : List O :=
  current.eraseDups.filter fun object => (l.item? object).isSome

/-- The objects found in the source that the model still lists, in the
order of the source. -/
def inSourceOrder (l : ItemList M O) (current : List O) : List O :=
  (l.listed.map ListedItem.object).filter current.contains

/-- Whether the model lists the objects found in the source in another
order than the source does. -/
def isReordered (l : ItemList M O) (current : List O) : Bool :=
  l.inModelOrder current ≠ l.inSourceOrder current

end ItemList

end Reprint
