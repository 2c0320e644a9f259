import Reprint.Patch.Mapping
import Reprint.Tree.Revise

/-!
# Printing a tree

A node that was located in the source is printed by revising its source
text, every other node by its normal text.

* `Tree.print` and `Tree.printNormal` print one node.
* `Tree.printRoot` prints the root, `Tree.printSource` prints it with the
  source around it, and `Tree.printMapped` prints it together with a
  source map.
-/

namespace Reprint.Tree

variable {M O : Type} [DecidableEq O]

/-- The text of a node.  The first number bounds the depth. -/
def printWithin (m : M) : Nat → Nat → Margin → Job M O Text
  | 0, _, _ => throw .cyclicModel
  | depth + 1, id, margin => fun t =>
    match t.node id with
    | .error e => .error e t
    | .ok n =>
      match n.located? with
      | none => normalNode (printWithin m depth) m id margin t
      | some place =>
        match patchOf (printWithin m depth) m id n.parts place t with
        | .error e t => .error e t
        | .ok patch t =>
          match patch.text with
          | .ok text => .ok text t
          | .error e => .error (.source e) t

/-- The text of a node for the present model.  The margin counts only for
a node that has no source text. -/
def print (m : M) (id : Nat) (margin : Margin) : Job M O Text :=
  fun t => printWithin m (t.depthBound m) id margin t

/-- The text of a node made from the model. -/
def printNormal (m : M) (id : Nat) (margin : Margin) : Job M O Text :=
  fun t => normalNode (printWithin m (t.depthBound m)) m id margin t

/-- The text of the root. -/
def printRoot (m : M) : Job M O Text := do
  print m root (← get).settings.margin

/-- The text of the root with the source in front of it and behind it. -/
def printSource (m : M) : Job M O Text := do
  let text ← printRoot m
  let t ← get
  match t.node root with
  | .error e => throw e
  | .ok n =>
    match n.located? with
    | none => return text
    | some place =>
      match t.source.extract ⟨t.source.start, place.span.start⟩,
        t.source.extract ⟨place.span.stop, t.source.stop⟩ with
      | .ok before, .ok behind => return before ++ text ++ behind
      | .error e, _ => throw (.source e)
      | _, .error e => throw (.source e)

/-- The text of the root with a map from it to the source.  A root without
source text has nothing to map. -/
def printMapped (m : M) (file : Text) : Job M O (Text × SourceMap) := fun t =>
  match t.node root with
  | .error e => .error e t
  | .ok n =>
    match n.located? with
    | none =>
      match printNormal m root t.settings.margin t with
      | .error e t => .error e t
      | .ok text t => .ok (text, (SourceMap.new file t.source.text).write text) t
    | some place =>
      match patchOf (printWithin m (t.depthBound m)) m root n.parts place t with
      | .error e t => .error e t
      | .ok patch t =>
        match patch.text, patch.toSourceMap file with
        | .ok text, .ok map => .ok (text, map) t
        | .error e, _ => .error (.source e) t
        | _, .error e => .error (.source e) t

end Reprint.Tree
