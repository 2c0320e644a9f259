import Reprint.Tree.Node
import Reprint.Settings
import Reprint.Source.Basic

/-!
# Trees

A tree ties the objects of a model to the source that they were read
from.  It has one node for each object below each parent that refers to
it, and nodes are made when they are needed.  The nodes are numbered in
the order in which they were made; the root is node zero.

* `Tree.getNode` looks a node up or makes it.
* `Tree.mark` records a piece of the source as found for a node.
-/

namespace Reprint

/-- A model's objects tied to the source that they were read from. -/
structure Tree (M O : Type) where
  language : Language M O
  source : Source
  settings : Settings := {}
  nodes : Array (Node M O) := #[]
  /-- The pieces of the source that were found, in the order of finding. -/
  marks : List Mark := []
  /-- Whether the source was searched successfully. -/
  complete : Bool := false

namespace Tree

variable {M O : Type}

/-- The number of the root. -/
def root : Nat := 0

/-- The node with a number. -/
def node (t : Tree M O) (id : Nat) : Except Error (Node M O) :=
  match t.nodes[id]? with
  | some n => .ok n
  | none => .error (.unknownNode id)

/-- Changes a node. -/
def modify (t : Tree M O) (id : Nat) (g : Node M O → Node M O) : Tree M O :=
  { t with nodes := t.nodes.modify id g }

/-- Whether a node is printed from its source text. -/
def isLocated (t : Tree M O) (id : Nat) : Bool :=
  match t.nodes[id]? with
  | some n => n.isLocated
  | none => false

/-- The node and its ancestors up to the root. -/
def lineage (t : Tree M O) (id : Nat) : List Nat :=
  match t.nodes[id]? with
  | some n => id :: n.ancestors
  | none => []

/-- The first node that was made for an object. -/
def find? [DecidableEq O] (t : Tree M O) (object : O) : Option Nat :=
  t.nodes.findIdx? fun n => n.object = object

/-- The node below `n` for an object. -/
def below? [DecidableEq O] (t : Tree M O) (n : Node M O) (object : O) : Option Nat :=
  n.children.find? fun id => (t.nodes[id]?).any fun c => c.object = object

/-! ## Growth -/

/-- Grows the spans of a node and of its ancestors so that they cover a
span.  Nodes without a place have none to grow. -/
def grow (t : Tree M O) (id : Nat) (span : Span) : Tree M O :=
  (t.lineage id).foldl (fun t a => t.modify a fun n => n.mapPlace fun p => p.grow span) t

/-- Records a piece of the source as found for a node. -/
def mark (t : Tree M O) (owner : Nat) (role : Role) (span : Span) : Except Error (Tree M O) := do
  Error.ofSource (t.source.validateBounds span.toBounds)
  let marked : Tree M O := { t with marks := t.marks ++ [⟨owner, role, span⟩] }
  return marked.grow owner span

/-- The place of a new node, after its origin. -/
def placeOf (s : Source) : Option (Except Error Span) → Except Error (Option Place)
  | none => .ok none
  | some origin => do
    let span ← origin
    Error.ofSource (s.validateBounds span.toBounds)
    return some (Place.ofSpan span)

/-- Puts a node for an object behind all others. -/
def addNode (t : Tree M O) (parent : Option Nat) (object : O) (place : Option Place)
    (parts : List (Part M O)) : Tree M O :=
  let id := t.nodes.size
  let ancestors := (parent.map t.lineage).getD []
  let t := { t with nodes := t.nodes.push ⟨object, ancestors, [], place, parts⟩ }
  match parent with
  | none => t
  | some parent =>
    let t := t.modify parent fun n => { n with children := n.children ++ [id] }
    match place with
    | some place => t.grow parent place.span
    | none => t

/-- Makes a node for an object.  A failure leaves no trace. -/
def newNode (m : M) (t : Tree M O) (parent : Option Nat) (object : O) :
    Except Error (Tree M O) := do
  match t.language.layout m object with
  | none => throw (.noLayout (t.language.describe m object))
  | some layout =>
    return t.addNode parent object (← placeOf t.source layout.origin) layout.parts

/-- The node below `parent` for an object, which is made if there is none
yet. -/
def getNode [DecidableEq O] (m : M) (t : Tree M O) (parent : Nat) (object : O) :
    Except Error (Nat × Tree M O) := do
  match t.below? (← t.node parent) object with
  | some id => return (id, t)
  | none => return (t.nodes.size, ← t.newNode m (some parent) object)

/-- Changes the parts of a node. -/
def editParts (t : Tree M O) (id : Nat)
    (change : List (Part M O) → Except Error (List (Part M O))) : Except Error (Tree M O) := do
  let parts ← change (← t.node id).parts
  return t.modify id fun n => { n with parts := parts }

/-- Adds a member to a group among the parts of a node. -/
def appendTo (t : Tree M O) (id index : Nat) (member : Part M O) : Except Error (Tree M O) :=
  t.editParts id fun parts =>
    match parts[index]? with
    | some p => do return parts.set index (← p.addMember member)
    | none => .error .notGroup

/-- Brings the extents of the parts of a node up to date. -/
def settleParts (t : Tree M O) (id : Nat) : Except Error (Tree M O) :=
  t.editParts id fun parts => .ok (Part.settleAll parts)

/-- The tree of a model that was read from a source, with the root as its
only node. -/
def ofRoot (language : Language M O) (m : M) (source : Text) (object : O) :
    Except Error (Tree M O) :=
  newNode m { language := language, source := Source.ofText source } none object

/-- The tree of a model without a source. -/
def ofModel (language : Language M O) (m : M) (object : O) : Except Error (Tree M O) :=
  ofRoot language m [] object

/-- A bound on the length of a chain of nodes, each below the one before:
first nodes that are there, then nodes still to be made. -/
def depthBound (m : M) (t : Tree M O) : Nat := t.nodes.size + t.language.size m + 1

end Tree

end Reprint
