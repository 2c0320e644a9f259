import Reprint.Json.Decode
import Reprint.Margin

/-!
# Settings

The settings of printing are the text of one level of indentation, and
whether inserted text is aligned with the text around it.  They are read
from JSON, where each of them may be missing.
-/

namespace Reprint

/-- The settings of printing. -/
structure Settings where
  /-- The text of one level of indentation. -/
  indentUnit : Text := ['\t']
  /-- Whether the further lines of inserted text take the indentation of
  the line that their owner starts on. -/
  alignInsertions : Bool := true
deriving DecidableEq, Repr

namespace Settings

instance : Inhabited Settings := ⟨{}⟩

/-- The margin at level zero. -/
def margin (s : Settings) : Margin := Margin.ofUnit s.indentUnit

/-- The value of a field, or a default where the field is missing. -/
def fieldOr {α : Type} (decode : Json → Option α) (default : α) :
    Option Json → Option α
  | none => some default
  | some value => decode value

/-- Reads settings.  A missing field has its default. -/
def read (t : Text) : Option Settings := do
  let [unit, align] ← (← Json.read t).fields
      ["indentUnit".toList, "alignInsertions".toList] | none
  return {
    indentUnit := ← fieldOr Json.toText ({} : Settings).indentUnit unit
    alignInsertions := ← fieldOr Json.toBool ({} : Settings).alignInsertions align }

end Settings

end Reprint
