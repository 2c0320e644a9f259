import Reprint.Tree.Draft
import Reprint.Tree.Normal

/-!
# Revising source text

The text of a node with a place is a patch of its span.  Each part of the
node adds the edits that the present model needs; a part whose model is
unchanged adds none, so its text is kept as it is.

* A part without source text goes in as normal text at the cursor.
* A literal is replaced where its wording has changed.
* An object that was found in the source is printed by `print` and
  replaced where that text differs.  An object that is new is printed
  afresh, and one that is gone is removed.
* A list whose items are in a new order is written anew as a whole.
* A choice that now selects its other part replaces the one in the
  source.

`Tree.revisePart` does that for one part, and `Tree.patchOf` for a node.
Nothing here changes a part, so a revision can be repeated.
-/

namespace Reprint.Tree

variable {M O : Type}

open Revision

/-- Gives text that is put into the source of a node the indentation of
the line that the node starts on.  The first line stays as it is, and so
does text that resets its indentation. -/
def aligned (t : Tree M O) (owner : Nat) (indent : Indent) (text : Text) : Text :=
  if !t.settings.alignInsertions || indent = .reset then text
  else
    match (t.nodes[owner]?).bind Node.span? with
    | some span => Text.hang (t.source.indentationOf span.start.line) text
    | none => text

/-- The text within a span of the source. -/
def sourceText (t : Tree M O) (span : Span) : Except Error Text :=
  Error.ofSource (t.source.extract span.toBounds)

/-! ## Literals and delimiters -/

/-- Brings a delimiter in line with the literal that is needed now. -/
def reviseDelimiter (delimiter : Delimiter) (literal : Text) (anchor : Position) :
    Revision M O Unit :=
  match delimiter with
  | .present found span =>
    if found = literal then pure () else edit fun p => p.replace span literal
  | .empty => edit fun p => p.insert anchor literal
  | .missing _ => edit fun p => p.insert anchor literal

/-- Brings a literal with a place up to date. -/
def reviseLiteral (span : Span) (place : LiteralPlace) (text : Text) : Revision M O Unit := do
  edit fun p => p.insert span.start place.before.toInsert
  let present ← read fun t => t.sourceText span
  if present ≠ text then
    edit fun p => p.replace span text
  edit fun p => p.insert span.stop place.behind.toInsert
  moveTo (place.behind.stopBehind span)

/-! ## Objects -/

/-- The place of a node that was found in the source. -/
def placeOfNode (t : Tree M O) (id : Nat) : Except Error Place := do
  match (← t.node id).place with
  | some place => return place
  | none => throw (.language s!"parsed node #{id} has no span")

/-- Brings an object that was found in the source up to date, together
with the delimiters around it.  Without `literals` these stay the ones
that were looked for. -/
def reviseItem (print : Nat → Margin → Job M O Text) (unit : Margin) (id : Nat)
    (literals : Option (Text × Text)) : Revision M O Unit := do
  let place ← read fun t => t.placeOfNode id
  let (lead, trail) := literals.getD (place.before.literal, place.behind.literal)
  reviseDelimiter place.before lead place.span.start
  let text ← onTree (print id unit)
  let present ← read fun t => t.sourceText place.span
  if text ≠ present then
    edit fun p => p.replace place.span text
  reviseDelimiter place.behind trail place.span.stop
  moveTo (place.behind.stopBehind place.span)

section Parts

variable [DecidableEq O]

/-- Inserts a part without source text. -/
def insertPart (print : Nat → Margin → Job M O Text) (m : M) (owner : Nat) (unit : Margin)
    (part : Part M O) : Revision M O Unit := do
  let text ← onTree (normalPart print m owner unit part)
  insertHere ((← get).tree.aligned owner part.frame.indent text)

/-- The text of an object that has no source text where it is needed,
with the given literals around it. -/
def freshText (print : Nat → Margin → Job M O Text) (m : M) (owner : Nat) (unit : Margin)
    (indent : Indent) (lead trail : Text) (object : O) : Revision M O Text := do
  match ← onTree (printBelow print m owner object unit) with
  | none => return []
  | some body =>
    let text := (unit.within indent).apply (lead ++ body ++ trail)
    return (← get).tree.aligned owner indent text

/-- Brings a slot up to date in which a node was found. -/
def reviseSlot (print : Nat → Margin → Job M O Text) (m : M) (owner : Nat) (unit : Margin)
    (frame : Frame) (current : Option O) (listed : Nat) : Revision M O Unit := do
  let n ← read fun t => t.node listed
  if current = some n.object then
    reviseItem print unit listed none
  else
    let text ← match current with
      | some object =>
        freshText print m owner unit frame.indent frame.leadText frame.trailText object
      | none => pure []
    overwrite frame.extent text

/-! ## Lists -/

/-- The texts of all items of a list, the first of which has the given
index among `count`. -/
def freshItems (print : Nat → Margin → Job M O Text) (m : M) (owner : Nat) (unit : Margin)
    (frame : Frame) (list : ItemList M O) (count : Nat) : Nat → List O → Revision M O Text
  | _, [] => return []
  | index, object :: rest => do
    let (lead, trail) := list.around frame index count
    let text ← freshText print m owner unit frame.indent lead trail object
    return text ++ (← freshItems print m owner unit frame list count (index + 1) rest)

/-- Brings the items up to date that the model lists now, the first of
which has the given index among `count`.  `done` holds the objects that
were found in the source and have been brought up to date.  Each of
`spare` is a repetition whose text is still in the source. -/
def reviseListed (print : Nat → Margin → Job M O Text) (m : M) (owner : Nat) (unit : Margin)
    (frame : Frame) (list : ItemList M O) (count : Nat) :
    Nat → List O → List O → List O → Revision M O Unit
  | _, [], _, _ => pure ()
  | index, object :: rest, done, spare => do
    let (lead, trail) := list.around frame index count
    match list.item? object with
    | some item =>
      if !done.contains object then
        reviseItem print unit item.node (some (lead, trail))
        reviseListed print m owner unit frame list count (index + 1) rest (object :: done) spare
      else if spare.contains object then
        reviseListed print m owner unit frame list count (index + 1) rest done
          (spare.erase object)
      else
        insertHere (← freshText print m owner unit frame.indent lead trail object)
        reviseListed print m owner unit frame list count (index + 1) rest done spare
    | none =>
      insertHere (← freshText print m owner unit frame.indent lead trail object)
      reviseListed print m owner unit frame list count (index + 1) rest done spare

/-- The piece to remove with an item that is gone: the extent of its
node, and the blank gap to the item before it, unless the delimiter in
front owns that gap. -/
def gonePiece (t : Tree M O) (previous : Option Nat) (id : Nat) : Except Error (Option Span) := do
  let n ← t.node id
  match n.extent with
  | none => return none
  | some extent =>
    match n.before.span?, previous with
    | none, some previous =>
      match (← t.node previous).extent with
      | none => return some extent
      | some before =>
        if before.stop < extent.start then
          let gap := Span.between before.stop extent.start
          if Text.isBlank (← t.sourceText gap) then return some (gap.union extent)
          else return some extent
        else return some extent
    | _, _ => return some extent

/-- Removes the items that the model does not list any more.  `previous`
is the node of the item before. -/
def removeGone (current : List O) : Option Nat → List (ListedItem O) → Revision M O Unit
  | _, [] => pure ()
  | previous, item :: rest => do
    if !current.contains item.object then
      match ← read fun t => t.gonePiece previous item.node with
      | some piece => edit fun p => p.remove piece
      | none => pure ()
    removeGone current (some item.node) rest

/-- Moves the cursor to the first item that the model still lists. -/
def moveToFirst (list : ItemList M O) (current : List O) : Revision M O Unit := do
  match list.listed.find? fun item => current.contains item.object with
  | none => pure ()
  | some item =>
    let n ← read fun t => t.node item.node
    match (n.before.span?.map fun s => s.start).or (n.span?.map fun s => s.start) with
    | some start => moveTo start
    | none => pure ()

/-- Brings a list up to date of which items were found in the source. -/
def reviseItems (print : Nat → Margin → Job M O Text) (m : M) (owner : Nat) (unit : Margin)
    (frame : Frame) (list : ItemList M O) : Revision M O Unit := do
  let current := list.supply m
  let count := current.length
  if list.isReordered current && frame.extent.isSome then
    overwrite frame.extent (← freshItems print m owner unit frame list count 0 current)
  else
    moveToFirst list current
    reviseListed print m owner unit frame list count 0 current [] list.repeats
    removeGone current none list.listed

/-! ## Parts -/

/-- Replaces the part of a choice that is in the source by the one that
is selected now. -/
def switchTo (print : Nat → Margin → Job M O Text) (m : M) (owner : Nat) (unit : Margin)
    (frame : Frame) (selected : Option (Part M O)) : Revision M O Unit := do
  let text ← match selected with
    | none => pure []
    | some part => do
      let text ← onTree (normalPart print m owner unit part)
      pure ((← get).tree.aligned owner part.frame.indent text)
  overwrite frame.extent text

mutual

/-- Brings a part up to date.  A group as such has no text to insert; its
members decide one by one whether they have source text. -/
def revisePart (print : Nat → Margin → Job M O Text) (m : M) (owner : Nat) (unit : Margin) :
    Part M O → Revision M O Unit
  | .literal frame wording place =>
    match place.span? with
    | some span => reviseLiteral span place (wording.text m)
    | none => insertPart print m owner unit (.literal frame wording place)
  | .slot frame supply listed =>
    match listed with
    | some id => reviseSlot print m owner unit frame (supply m) id
    | none => insertPart print m owner unit (.slot frame supply none)
  | .items frame list =>
    if list.listed.isEmpty then insertPart print m owner unit (.items frame list)
    else reviseItems print m owner unit frame list
  | .choice frame test yes no taken =>
    match taken, test m with
    | none, _ => insertPart print m owner unit (.choice frame test yes no none)
    | some true, true => revisePart print m owner unit yes
    | some false, true => switchTo print m owner unit frame (some yes)
    | some true, false => switchTo print m owner unit frame no
    | some false, false =>
      match no with
      | some other => revisePart print m owner unit other
      | none => pure ()
  | .group _ members _ => reviseParts print m owner unit members
termination_by structural p => p

/-- Brings several parts up to date. -/
def reviseParts (print : Nat → Margin → Job M O Text) (m : M) (owner : Nat) (unit : Margin) :
    List (Part M O) → Revision M O Unit
  | [] => pure ()
  | p :: rest => do
    revisePart print m owner unit p
    reviseParts print m owner unit rest
termination_by structural ps => ps

end

/-- The patch that brings the text of a node up to date which has a place.
The node keeps the place where the revision ended, also when it failed. -/
def patchOf (print : Nat → Margin → Job M O Text) (m : M) (id : Nat) (parts : List (Part M O))
    (place : Place) : Job M O Patch := fun t =>
  match Patch.ofBase t.source place.span with
  | .error e => .error (.source e) t
  | .ok patch =>
    let keepEnd (d : Draft M O) : Tree M O :=
      d.tree.modify id fun n => n.mapPlace fun p => { p with insertion := d.cursor }
    match reviseParts print m id t.settings.margin parts ⟨t, patch, place.span.start⟩ with
    | .ok _ d => .ok d.patch (keepEnd d)
    | .error e d => .error e (keepEnd d)

end Parts

end Reprint.Tree
