import Reprint.Tree.Basic

/-!
# Making the nodes of a tree

The nodes below a node are those of the objects that its parts refer to.
`Tree.plant` makes them all, so that the spans of all objects are known
before anything is searched for.

A `Job` is an operation that changes the tree and may fail; what it has
changed by then stays.
-/

namespace Reprint.Tree

variable {M O : Type}

/-- An operation that changes the tree and may fail.  The changes stay
when it fails. -/
abbrev Job (M O : Type) := EStateM Error (Tree M O)

variable [DecidableEq O]

/-- Makes the nodes of several objects.  A new node is handed on to
`descend`.  An object without a layout is passed over. -/
def plantObjects (descend : Nat → Job M O Unit) (m : M) (parent : Nat) : List O → Job M O Unit
  | [] => pure ()
  | object :: rest => do
    let t ← get
    match t.getNode m parent object with
    | .ok (child, grown) =>
      set grown
      if t.nodes.size ≤ child then descend child
    | .error e => if e.isLocal then pure () else throw e
    plantObjects descend m parent rest

/-- Makes the nodes below a node.  The first number bounds the depth. -/
def plantWithin (m : M) : Nat → Nat → Job M O Unit
  | 0, _ => throw .cyclicModel
  | depth + 1, id => do
    let t ← get
    match t.node id with
    | .ok n => plantObjects (plantWithin m depth) m id (Part.selectedAll m n.parts)
    | .error e => throw e

/-- Makes all nodes below a node. -/
def plant (m : M) (id : Nat) : Job M O Unit :=
  fun t => plantWithin m (t.depthBound m) id t

end Reprint.Tree
