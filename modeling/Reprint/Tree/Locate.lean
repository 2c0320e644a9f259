import Reprint.Tree.Plant
import Reprint.Tree.Search

/-!
# Locating the parts of a tree in its source

Locating visits the nodes from the root down.  It gives every literal its
place, every item the delimiters around it, and every node the position
where new text goes.  A delimiter is looked for from the boundary of what
it delimits outward, and a literal from the end of what was located last.

A failure ends the visit, and what was located before it stays.  A
`Survey` therefore carries the failure along, and a part that was left
half done is kept as far as it got.

* `Tree.locatePart` locates one part, where `descend` locates a node
  below.
* `Tree.locateWithin` locates the parts of a node.
* `Tree.locate` makes all nodes and then locates the root, unless that
  has been done.
-/

namespace Reprint.Tree

variable {M O : Type}

/-- The state of a visit of the parts of a node. -/
structure Survey (M O : Type) where
  tree : Tree M O
  /-- The end of what was located last. -/
  cursor : Position
  failure : Option Error := none

namespace Survey

/-- Whether the survey goes on. -/
def isRunning (s : Survey M O) : Bool := s.failure.isNone

/-- Ends the survey. -/
def fail (s : Survey M O) (e : Error) : Survey M O := { s with failure := some e }

end Survey

/-! ## Literals and delimiters -/

/-- Searches for a delimiter from a boundary on.  The delimiter owns the
gap between its literal and the boundary. -/
def locateDelimiter (t : Tree M O) (owner : Nat) (boundary : Position) (literal : Text)
    (role : Role) : Except Error (Delimiter × Tree M O) := do
  if literal.isEmpty then return (.empty, t)
  let window ← match role with
    | .lead => t.findBackward owner boundary literal
    | _ => t.findForward owner boundary literal
  match window with
  | none => return (.missing literal, t)
  | some window =>
    let span := match role with
      | .lead => Span.between window.start boundary
      | _ => Span.between boundary window.stop
    return (.present literal span, ← t.mark owner role span)

/-- Searches for the delimiters on both sides of a span. -/
def locateAround (t : Tree M O) (owner : Nat) (span : Span) (lead trail : Text) :
    Except Error (Delimiter × Delimiter × Tree M O) := do
  let (before, t) ← t.locateDelimiter owner span.start lead .lead
  let (behind, t) ← t.locateDelimiter owner span.stop trail .trail
  return (before, behind, t)

/-- Gives a literal its place.  A pinned literal has one; any other is
searched for from the cursor on. -/
def locateLiteral (s : Survey M O) (owner : Nat) (frame : Frame) (text : Text)
    (place : LiteralPlace) : Except Error (LiteralPlace × Survey M O) := do
  let span ← match place.span? with
    | some span => pure (some span)
    | none => if text.isEmpty then pure none else s.tree.findForward owner s.cursor text
  match span with
  | none => return (place, s)
  | some span =>
    let t ← if span.isEmpty then pure s.tree else s.tree.mark owner .literal span
    let (before, behind, t) ← t.locateAround owner span frame.leadText frame.trailText
    return (⟨some span, before, behind⟩, { s with tree := t, cursor := behind.stopBehind span })

section Parts

variable [DecidableEq O]

/-! ## Items -/

/-- Locates the node of an object and the delimiters around it.  There is
no answer for an object without a layout, for one that is located
already, and for one without source text. -/
def locateItem (descend : Nat → Job M O Unit) (m : M) (owner : Nat) (object : O)
    (lead trail : Text) (s : Survey M O) : Option Nat × Survey M O :=
  match s.tree.getNode m owner object with
  | .error e => (none, if e.isLocal then s else s.fail e)
  | .ok (id, t) =>
    if t.isLocated id then (none, { s with tree := t })
    else
      match descend id t with
      | .error e t => (none, { s with tree := t, failure := some e })
      | .ok _ t =>
        match (t.nodes[id]?).bind Node.span? with
        | none => (none, { s with tree := t })
        | some span =>
          match t.locateAround owner span lead trail with
          | .error e => (none, { s with tree := t, failure := some e })
          | .ok (before, behind, t) =>
            let t := t.modify id fun n =>
              n.mapPlace fun p => { p with before := before, behind := behind }
            (some id, { s with tree := t, cursor := behind.stopBehind span })

/-- The piece that a node covers with the delimiters around it. -/
def extentOfNode (t : Tree M O) (id : Nat) : Option Span := (t.nodes[id]?).bind Node.extent

/-- Locates the items of a list, the first of which has the given index
among `count`.  `extent` is the piece covered so far.  An object that was
located in this list before is only counted. -/
def locateItems (descend : Nat → Job M O Unit) (m : M) (owner : Nat) (frame : Frame)
    (count : Nat) : Nat → List O → ItemList M O → Option Span → Survey M O →
      ItemList M O × Option Span × Survey M O
  | _, [], list, extent, s => (list, extent, s)
  | index, object :: rest, list, extent, s =>
    if (list.item? object).isSome then
      locateItems descend m owner frame count (index + 1) rest
        { list with repeats := list.repeats ++ [object] } extent s
    else
      let (lead, trail) := list.around frame index count
      match locateItem descend m owner object lead trail s with
      | (none, s) =>
        if s.isRunning then
          locateItems descend m owner frame count (index + 1) rest list extent s
        else (list, extent, s)
      | (some id, s) =>
        locateItems descend m owner frame count (index + 1) rest
          { list with listed := list.listed ++ [⟨object, id, lead, trail⟩] }
          (Span.join extent (s.tree.extentOfNode id)) s

/-! ## Parts -/

mutual

/-- Locates a part. -/
def locatePart (descend : Nat → Job M O Unit) (m : M) (owner : Nat) :
    Part M O → Survey M O → Part M O × Survey M O
  | .literal frame wording place, s =>
    match locateLiteral s owner frame (wording.text m) place with
    | .error e => (.literal frame wording place, s.fail e)
    | .ok (place, s) => (.literal { frame with extent := place.extent } wording place, s)
  | .slot frame supply listed, s =>
    match supply m with
    | none => (.slot frame supply listed, s)
    | some object =>
      match locateItem descend m owner object frame.leadText frame.trailText s with
      | (none, s) => (.slot frame supply listed, s)
      | (some id, s) =>
        (.slot { frame with extent := s.tree.extentOfNode id } supply (some id), s)
  | .items frame list, s =>
    let objects := list.supply m
    match locateItems descend m owner frame objects.length 0 objects list none s with
    | (list, extent, s) =>
      if s.isRunning then (.items { frame with extent := extent } list, s)
      else (.items frame list, s)
  | .choice frame test yes no taken, s =>
    if test m then
      match locatePart descend m owner yes s with
      | (yes, s) =>
        if s.isRunning then
          (.choice { frame with extent := yes.settle.frame.extent } test yes.settle no
            (some true), s)
        else (.choice frame test yes no taken, s)
    else
      match no with
      | none => (.choice frame test yes none taken, s)
      | some other =>
        match locatePart descend m owner other s with
        | (other, s) =>
          if s.isRunning then
            (.choice { frame with extent := other.settle.frame.extent } test yes
              (some other.settle) (some false), s)
          else (.choice frame test yes (some other) taken, s)
  | .group frame members stale, s =>
    match locateParts descend m owner members s with
    | (members, s) =>
      let part := Part.group frame members stale
      (if s.isRunning then part.settle else part, s)
termination_by structural p => p

/-- Locates several parts, up to the first failure. -/
def locateParts (descend : Nat → Job M O Unit) (m : M) (owner : Nat) :
    List (Part M O) → Survey M O → List (Part M O) × Survey M O
  | [], s => ([], s)
  | p :: rest, s =>
    match locatePart descend m owner p s with
    | (p, s) =>
      if s.isRunning then
        match locateParts descend m owner rest s with
        | (rest, s) => (p :: rest, s)
      else (p :: rest, s)
termination_by structural ps => ps

end

/-! ## Nodes -/

/-- Locates the parts of a node that has source text, unless that has
been tried before.  The first number bounds the depth. -/
def locateWithin (m : M) : Nat → Nat → Job M O Unit
  | 0, _ => throw .cyclicModel
  | depth + 1, id => fun t =>
    match t.node id with
    | .error e => .error e t
    | .ok n =>
      match n.place with
      | none => .ok () t
      | some place =>
        if place.located then .ok () t
        else
          match locateParts (locateWithin m depth) m id n.parts ⟨t, place.span.start, none⟩ with
          | (parts, s) =>
            let t := s.tree.modify id fun n =>
              { n with parts := parts }.mapPlace fun p =>
                { p with located := true, insertion := s.cursor }
            match s.failure with
            | none => .ok () t
            | some e => .error e t

/-- Locates a node and the nodes below it. -/
def locateFrom (m : M) (id : Nat) : Job M O Unit :=
  fun t => locateWithin m (t.depthBound m) id t

/-- Locates the whole tree in its source, unless that has been done. -/
def locate (m : M) : Job M O Unit := do
  if (← get).complete then return
  plant m root
  locateFrom m root
  set { ← get with complete := true }

/-- The tree of a model that was read from a source, located in it. -/
def ofSource (language : Language M O) (m : M) (source : Text) (object : O) :
    Except Error (Tree M O) := do
  let t ← ofRoot language m source object
  match locate m t with
  | .ok _ t => return t
  | .error e _ => throw e

end Parts

end Reprint.Tree
