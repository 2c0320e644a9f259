import Reprint.Tree.Plant

/-!
# Normal text

The normal text of a part is made from the model alone: the literals
around the part and the text of what is in it, with the margin of the
part in front of every line.  Objects inside are printed by `print`,
which decides for each of them between its normal text and the text that it
has in the source.

An object without a layout prints as nothing, and so do the delimiters
around it; it still counts as an item of its list.
-/

namespace Reprint.Tree

variable {M O : Type} [DecidableEq O]

/-- The text of an object below a node, or nothing if the object has no
layout. -/
def printBelow (print : Nat → Margin → Job M O Text) (m : M) (owner : Nat) (object : O)
    (margin : Margin) : Job M O (Option Text) := do
  match (← get).getNode m owner object with
  | .ok (id, t) =>
    set t
    return some (← print id margin)
  | .error e => if e.isLocal then return none else throw e

/-- The normal text of the items of a list, the first of which has the
given index among `count`. -/
def normalItems (print : Nat → Margin → Job M O Text) (m : M) (owner : Nat) (unit : Margin)
    (frame : Frame) (list : ItemList M O) (count : Nat) : Nat → List O → Job M O Text
  | _, [] => return []
  | index, object :: rest => do
    let text ← match ← printBelow print m owner object unit with
      | none => pure []
      | some body =>
        let (lead, trail) := list.around frame index count
        pure (lead ++ body ++ trail)
    return text ++ (← normalItems print m owner unit frame list count (index + 1) rest)

mutual

/-- The normal text of a part, with its margin measured from level zero. -/
def normalPart (print : Nat → Margin → Job M O Text) (m : M) (owner : Nat) (unit : Margin) :
    Part M O → Job M O Text
  | .literal frame wording _ => return frame.wrap unit (wording.text m)
  | .slot frame supply _ =>
    match supply m with
    | none => return []
    | some object => do
      match ← printBelow print m owner object unit with
      | none => return []
      | some body => return frame.wrap unit body
  | .items frame list => do
    let objects := list.supply m
    let text ← normalItems print m owner unit frame list objects.length 0 objects
    return (unit.within frame.indent).apply text
  | .choice frame test yes no _ =>
    if test m then do
      return frame.wrap unit (← normalPart print m owner unit yes)
    else
      match no with
      | none => return []
      | some other => do
        return frame.wrap unit (← normalPart print m owner unit other)
  | .group frame members _ => do
    return frame.wrap unit (← normalParts print m owner unit members)
termination_by structural p => p

/-- The normal text of several parts. -/
def normalParts (print : Nat → Margin → Job M O Text) (m : M) (owner : Nat) (unit : Margin) :
    List (Part M O) → Job M O Text
  | [] => return []
  | p :: rest => do
    let text ← normalPart print m owner unit p
    return text ++ (← normalParts print m owner unit rest)
termination_by structural ps => ps

end

/-- The normal text of a node: its parts at level zero, then moved in as a
whole. -/
def normalNode (print : Nat → Margin → Job M O Text) (m : M) (id : Nat) (margin : Margin) :
    Job M O Text := do
  match (← get).node id with
  | .error e => throw e
  | .ok n => return margin.apply (← normalParts print m id margin.flush n.parts)

end Reprint.Tree
