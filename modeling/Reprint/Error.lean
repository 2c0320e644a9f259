import Reprint.Source.Error

/-!
# What can go wrong with a tree

`Error` lists the causes of failure of the operations on trees, and
`Error.message` words them.  Only a missing layout is local: it makes
the part that refers to the object empty, and the rest of the text is
printed all the same.
-/

namespace Reprint

/-- The causes of failure of an operation on a tree. -/
inductive Error where
  /-- Positions or spans do not fit the source. -/
  | source (cause : Source.Error)
  /-- The language has no layout for the object, which is described. -/
  | noLayout (object : String)
  /-- The language refuses something for a reason of its own. -/
  | language (reason : String)
  /-- Two spans below a node overlap. -/
  | overlap (node : Nat) (first second : Span)
  /-- A member was added to a part that is not a group. -/
  | notGroup
  /-- There is no node with this number. -/
  | unknownNode (node : Nat)
  /-- The model is deeper than it has objects, so it contains itself. -/
  | cyclicModel
deriving DecidableEq

namespace Error

/-- The wording of a failure. -/
def message : Error → String
  | source cause => s!"Source error: {cause.message}"
  | noLayout object => s!"No node can be made for model object {object}"
  | language reason => s!"Binding error: {reason}"
  | overlap node first second =>
    s!"Fragments {first} and {second} under node #{node} overlap"
  | notGroup => "Contents is not sequential"
  | unknownNode node => s!"Unknown node #{node}"
  | cyclicModel => "The model contains itself"

/-- Whether the failure leaves the rest of the text printable. -/
def isLocal : Error → Bool
  | noLayout _ => true
  | _ => false

/-- A result about positions and spans as one about trees. -/
def ofSource {α : Type} : Except Source.Error α → Except Error α
  | .ok a => .ok a
  | .error cause => .error (.source cause)

end Error

end Reprint
