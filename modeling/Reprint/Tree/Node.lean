import Reprint.Language

/-!
# Nodes

A node ties an object of the model to its place in the source.  A node of
an object that was read from the source has a place: the span that it was
read from, the span grown by everything that was found for the node and
the nodes below it, the delimiters around it, and the position where new
text goes.  A node of an object that was made later has none.

A `Mark` records a piece of the source that was found for a node.
-/

namespace Reprint

/-- What a recorded piece of the source is: a literal of a part, or a
delimiter in front of something or behind it. -/
inductive Role where
  | literal
  | lead
  | trail
deriving DecidableEq, Repr

/-- A piece of the source that was found for a node. -/
structure Mark where
  owner : Nat
  role : Role
  span : Span
deriving DecidableEq

/-- The place of a node in the source. -/
structure Place where
  /-- The span that the object was read from. -/
  parsed : Span
  /-- That span with everything that was found for the node and the nodes
  below it. -/
  span : Span
  /-- The delimiters that the parent found around the node. -/
  before : Delimiter := .empty
  behind : Delimiter := .empty
  /-- Where text that is not in the source goes. -/
  insertion : Position
  /-- Whether the parts of the node were searched for. -/
  located : Bool := false
deriving DecidableEq

namespace Place

/-- The place of an object that was read from a span. -/
def ofSpan (span : Span) : Place where
  parsed := span
  span := span
  insertion := span.start

/-- Grows the place so that it covers a span. -/
def grow (p : Place) (span : Span) : Place := { p with span := p.span.union span }

/-- The place with the delimiters around it. -/
def extent (p : Place) : Option Span :=
  Span.join (Span.join (some p.span) p.before.span?) p.behind.span?

end Place

/-- A node of a tree. -/
structure Node (M O : Type) where
  object : O
  /-- The parent, its parent and so on up to the root. -/
  ancestors : List Nat
  /-- The nodes below, in the order in which they were made. -/
  children : List Nat := []
  /-- The place in the source, for an object that was read from it. -/
  place : Option Place
  parts : List (Part M O)

namespace Node

variable {M O : Type}

/-- The parent. -/
def parent (n : Node M O) : Option Nat := n.ancestors.head?

/-- The place of a node that is printed from its source text. -/
def located? (n : Node M O) : Option Place := n.place.filter Place.located

/-- Whether the node is printed from its source text. -/
def isLocated (n : Node M O) : Bool := n.located?.isSome

/-- The span of the node, with all that was found for it. -/
def span? (n : Node M O) : Option Span := n.place.map Place.span

/-- The delimiter in front of the node. -/
def before (n : Node M O) : Delimiter := (n.place.map Place.before).getD .empty

/-- The delimiter behind the node. -/
def behind (n : Node M O) : Delimiter := (n.place.map Place.behind).getD .empty

/-- The span of the node with the delimiters around it. -/
def extent (n : Node M O) : Option Span := n.place.bind Place.extent

/-- Changes the place of a node that has one. -/
def mapPlace (n : Node M O) (g : Place → Place) : Node M O := { n with place := n.place.map g }

end Node

end Reprint
