import Reprint.Span
import Reprint.Margin

/-!
# Dumps of values

A dump shows the inside of a value on one line, for messages and for
inspection.  Records are written with the names of their fields, optional
values as `Some` or `None`, and texts in quotes with five characters
escaped.
-/

namespace Reprint.Dump

/-- A record with its fields. -/
def record (name : String) (fields : List (String × String)) : String :=
  name ++ " \x7b " ++ String.intercalate ", " (fields.map fun f => f.1 ++ ": " ++ f.2) ++ " \x7d"

/-- A value that may be missing. -/
def option {α : Type} (f : α → String) : Option α → String
  | some a => "Some(" ++ f a ++ ")"
  | none => "None"

/-- A list of values that are dumped already. -/
def list (items : List String) : String := "[" ++ String.intercalate ", " items ++ "]"

/-- A truth value. -/
def bool (b : Bool) : String := if b then "true" else "false"

/-- The escaped form of a character in a quoted text. -/
def escape : Char → List Char
  | '\n' => ['\\', 'n']
  | '\t' => ['\\', 't']
  | '\r' => ['\\', 'r']
  | '"' => ['\\', '"']
  | '\\' => ['\\', '\\']
  | c => [c]

/-- A text in quotes. -/
def text (t : Text) : String := String.ofList ('"' :: t.flatMap escape ++ ['"'])

/-- A position. -/
def position (p : Position) : String :=
  record "RawSourcePosition" [("line", toString p.line), ("column", toString p.column)]

/-- A span. -/
def span (s : Span) : String :=
  record "RawSourceFragment" [("start", position s.start), ("end", position s.stop)]

/-- An indentation. -/
def indent : Indent → String
  | .keep => "Keep"
  | .nest n => "Nest(" ++ toString n ++ ")"
  | .reset => "Reset"

/-- The number of a node. -/
def node (id : Nat) : String := "NodeId(" ++ toString id ++ ")"

end Reprint.Dump
