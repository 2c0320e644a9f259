import Reprint.Language
import Reprint.Source.Bytes

/-!
# Templates

A template is a language that is given as data.  Its objects are pieces,
which go by their names.  A piece has a list of shapes, one for each part
of its text, and the shapes refer to variables, flags, slots and lists of
the model by name.  A name that the model lacks stands for the empty
text, for false, for no object, and for no objects.
-/

namespace Reprint

namespace Template

/-- Where a piece or a literal was read from. -/
inductive Origin where
  /-- Two byte offsets. -/
  | bytes (start stop : Nat)
  | coordinates (bounds : Bounds)
  /-- Something that is not a span. -/
  | unknown
deriving DecidableEq

/-- What a shape asks for around its part.  What is missing is left as it
is. -/
structure Trim where
  separator : Option Text := none
  lead : Option Text := none
  trail : Option Text := none
  firstLead : Option Text := none
  lastTrail : Option Text := none
  indent : Option Indent := none
  origin : Option Origin := none

/-- The description of a part. -/
inductive Shape where
  | constant (trim : Trim) (text : Text)
  | variable (trim : Trim) (name : Text)
  | slot (trim : Trim) (name : Text)
  | list (trim : Trim) (name : Text)
  | choice (trim : Trim) (flag : Text) (yes : Shape) (no : Option Shape)
  | group (trim : Trim) (members : List Shape)

/-- The description of an object. -/
structure Piece where
  /-- Where the piece was read from, if it was read at all. -/
  origin : Option Origin
  /-- The shapes of its parts.  A piece without them has no layout. -/
  shapes : Option (List Shape)

/-- Sets the entry of a name. -/
def put {α : Type} (name : Text) (value : α) : List (Text × α) → List (Text × α)
  | [] => [(name, value)]
  | entry :: rest =>
    if entry.1 = name then (name, value) :: rest else entry :: put name value rest

/-- Sets the entries of several names. -/
def putAll {α : Type} (entries table : List (Text × α)) : List (Text × α) :=
  entries.foldl (fun table entry => put entry.1 entry.2 table) table

end Template

open Template

/-- The pieces of a template with the values that they refer to. -/
structure Template where
  /-- The text that byte offsets count in. -/
  text : Text
  pieces : List (Text × Piece) := []
  /-- The values of the variables. -/
  texts : List (Text × Text) := []
  flags : List (Text × Bool) := []
  slots : List (Text × Option Text) := []
  lists : List (Text × List Text) := []

namespace Template

/-- The value of a variable. -/
def variableText (m : Template) (name : Text) : Text := (m.texts.lookup name).getD []

/-- The value of a flag. -/
def flag (m : Template) (name : Text) : Bool := (m.flags.lookup name).getD false

/-- The piece in a slot. -/
def slot (m : Template) (name : Text) : Option Text := (m.slots.lookup name).join

/-- The pieces of a list. -/
def list (m : Template) (name : Text) : List Text := (m.lists.lookup name).getD []

/-- The span that an origin stands for in a text. -/
def Origin.span (text : Text) : Origin → Except Error Span
  | bytes start stop => Error.ofSource (text.spanOfBytes start stop)
  | coordinates bounds => Error.ofSource bounds.toSpan
  | unknown => .error (.language "no span")

/-- Applies a change if there is a value for it. -/
def applyTo {α β : Type} (change : β → α → β) (value : Option α) (b : β) : β :=
  match value with
  | some a => change b a
  | none => b

/-- Puts what a shape asks for around its part. -/
def Trim.apply {M O : Type} (trim : Trim) (text : Text) (p : Part M O) : Part M O :=
  let p := applyTo Part.joinedBy trim.separator p
  let p := applyTo Part.setLead trim.lead p
  let p := applyTo Part.setTrail trim.trail p
  let p := applyTo Part.setFirstLead trim.firstLead p
  let p := applyTo Part.setLastTrail trim.lastTrail p
  let p := applyTo Part.setIndent trim.indent p
  match trim.origin.map (Origin.span text) with
  | some (.ok span) => p.pinned span
  | _ => p

mutual

/-- The part that a shape describes. -/
def Shape.toPart (text : Text) : Shape → Part Template Text
  | .constant trim t => trim.apply text (.constant t)
  | .variable trim name => trim.apply text (.computed fun m => m.variableText name)
  | .slot trim name => trim.apply text (.object fun m => m.slot name)
  | .list trim name => trim.apply text (.objects fun m => m.list name)
  | .choice trim name yes no =>
    trim.apply text (.either (fun m => m.flag name) (yes.toPart text)
      (match no with
        | some other => some (other.toPart text)
        | none => none))
  | .group trim members => trim.apply text (.ofMembers (Shape.toParts text members))
termination_by structural s => s

/-- The parts that several shapes describe. -/
def Shape.toParts (text : Text) : List Shape → List (Part Template Text)
  | [] => []
  | s :: rest => s.toPart text :: Shape.toParts text rest
termination_by structural ss => ss

end

/-- The layout of a piece. -/
def layout (m : Template) (name : Text) : Option (Layout Template Text) := do
  let piece ← m.pieces.lookup name
  let shapes ← piece.shapes
  return ⟨piece.origin.map (Origin.span m.text), Shape.toParts m.text shapes⟩

/-- The language of templates. -/
def language : Language Template Text where
  layout := layout
  describe _ name := "Piece(" ++ String.ofList name ++ ")"
  size m := m.pieces.length

end Template

end Reprint
