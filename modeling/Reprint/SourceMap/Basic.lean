import Reprint.SourceMap.Vlq
import Reprint.Source.Bytes

/-!
# Source maps

A source map relates places of a generated text to places of the source
that they were copied from.  It is built while the generated text is
written: `SourceMap.write` appends a piece of that text, and
`SourceMap.pin` ties the place reached so far to a place of the source.

`SourceMap.mappings` is the field `mappings` of a source map of version
3.  It counts lines from zero, keeps the low 32 bits of every number and
writes each token as the difference to the token before it.
-/

namespace Reprint

/-- Moves a place past a text. -/
def Position.pastText (p : Position) (t : Text) : Position := t.foldl Position.past p

namespace SourceMap

/-- A place of the generated text with the place of the source that it
comes from, counted from zero. -/
structure Token where
  line : Nat
  column : Nat
  sourceLine : Nat
  sourceColumn : Nat
deriving DecidableEq, Repr

/-- The low 32 bits of a number. -/
def low32 (n : Nat) : Nat := n % UInt32.size

/-- The token for two places whose lines are counted from one. -/
def Token.ofPositions (generated source : Position) : Token where
  line := low32 (generated.line - 1)
  column := low32 generated.column
  sourceLine := low32 (source.line - 1)
  sourceColumn := low32 source.column

end SourceMap

/-- A source map under construction. -/
structure SourceMap where
  /-- The name of the source. -/
  file : Text
  /-- The text of the source. -/
  content : Text
  /-- The tokens in the order in which they were pinned. -/
  tokens : List SourceMap.Token
  /-- The end of the generated text so far. -/
  here : Position
deriving DecidableEq

namespace SourceMap

/-- The map of a generated text that is still empty. -/
def new (file content : Text) : SourceMap := ⟨file, content, [], Position.origin⟩

/-- Appends a piece to the generated text. -/
def write (m : SourceMap) (t : Text) : SourceMap := { m with here := m.here.pastText t }

/-- Ties the place reached so far to a place of the source. -/
def pin (m : SourceMap) (source : Position) : SourceMap :=
  { m with tokens := m.tokens ++ [.ofPositions m.here source] }

/-! ## Mappings -/

namespace Token

/-- A token as differences to the one before it.  The generated column
starts again at zero on every line.  The second number is the index of
the source, and there is only one. -/
def segment (previous t : Token) : Text :=
  let column := if t.line = previous.line then previous.column else 0
  Vlq.encode ((t.column : Int) - column) ++ Vlq.encode 0 ++
    Vlq.encode ((t.sourceLine : Int) - previous.sourceLine) ++
    Vlq.encode ((t.sourceColumn : Int) - previous.sourceColumn)

/-- The tokens behind `previous`.  A token that repeats the one before it
is left out. -/
def writeAfter (previous : Token) : List Token → Text
  | [] => []
  | t :: rest =>
    if t.line = previous.line then
      if t = previous then writeAfter t rest
      else ',' :: segment previous t ++ writeAfter t rest
    else List.replicate (t.line - previous.line) ';' ++ segment previous t ++ writeAfter t rest

end Token

/-- The written form of all tokens. -/
def mappings (m : SourceMap) : Text :=
  match m.tokens with
  | [] => []
  | t :: rest =>
    List.replicate t.line ';' ++ Token.segment ⟨0, 0, 0, 0⟩ t ++ Token.writeAfter t rest

end SourceMap

end Reprint
