import Reprint.Part.Extent

/-!
# Languages

A language says how the objects of its models are laid out as text.  The
layout of an object is a list of parts, and for an object that was read
from a source also the span that it was read from.
-/

namespace Reprint

/-- The text of one object. -/
structure Layout (M O : Type) where
  /-- Where the object was read from.  It is missing for an object that
  was made later, and it may turn out not to be a span. -/
  origin : Option (Except Error Span)
  parts : List (Part M O)

/-- How the objects of a model are laid out as text. -/
structure Language (M O : Type) where
  /-- The layout of an object, if the language knows one. -/
  layout : M → O → Option (Layout M O)
  /-- A short description of an object, for messages. -/
  describe : M → O → String
  /-- The number of objects with a layout.  A chain of objects, each of
  which refers to the next, is no longer unless the model contains
  itself. -/
  size : M → Nat

end Reprint
