import Reprint.Json.Basic
import Reprint.Span

/-!
# Values of JSON texts

The functions here interpret a value that was read.  What a record does
not ask for is never interpreted, so a string in it may hold escapes that
stand for no character.

* `Json.toText`, `Json.toBool` and `Json.toNat64` interpret a leaf.
* `Json.fields` reads a record with given field names, written as an
  object or as an array.
* `Position.ofJson` and `Bounds.ofJson` read positions and bounds.
-/

namespace Reprint

namespace Json

/-- The text that string units stand for.  A code unit of the first half
of a pair has to have one of the second half behind it, and no other code
unit may be of the second half. -/
def unitsToText : List JsonUnit → Option Text
  | [] => some []
  | .char c :: rest => do return c :: (← unitsToText rest)
  | .code high :: .code low :: rest =>
    if 0xD800 ≤ high && high < 0xDC00 then
      if 0xDC00 ≤ low && low < 0xE000 then do
        let c := Char.ofNat (0x10000 + (high - 0xD800) * 0x400 + (low - 0xDC00))
        return c :: (← unitsToText rest)
      else none
    else if 0xDC00 ≤ high && high < 0xE000 then none
    else do return Char.ofNat high :: (← unitsToText (.code low :: rest))
  | .code n :: rest =>
    if 0xD800 ≤ n && n < 0xE000 then none
    else do return Char.ofNat n :: (← unitsToText rest)

/-- The text of a string. -/
def toText : Json → Option Text
  | string units => unitsToText units
  | _ => none

/-- The value of a truth value. -/
def toBool : Json → Option Bool
  | bool value => some value
  | _ => none

/-- The value of a numeral in digits. -/
def digitsToNat (digits : Text) : Nat :=
  digits.foldl (fun n c => n * 10 + (c.toNat - '0'.toNat)) 0

/-- The value of a number below 2^64 that is written in digits only. -/
def toNat64 : Json → Option Nat
  | number numeral =>
    if numeral.all Char.isDigit && digitsToNat numeral < UInt64.size then
      some (digitsToNat numeral)
    else none
  | _ => none

/-- The values of the named entries of an object, each of which may be
there once.  Entries with other names are left out. -/
def entryValues (names : List Text) :
    List (List JsonUnit × Json) → Option (List (Option Json))
  | [] => some (names.map fun _ => none)
  | (key, value) :: rest => do
    let name ← unitsToText key
    let values ← entryValues names rest
    match names.idxOf? name with
    | none => return values
    | some i => if (values[i]?.join).isSome then none else return values.set i (some value)

/-- The fields of a record, written as an object or as an array in the
order of the names.  An array may end early but has no further items. -/
def fields (names : List Text) : Json → Option (List (Option Json))
  | object entries => entryValues names entries
  | array items =>
    if items.length ≤ names.length then
      some (items.map some ++ List.replicate (names.length - items.length) none)
    else none
  | _ => none

end Json

/-- A position of a JSON value.  Both fields are needed. -/
def Position.ofJson (value : Json) : Option Position := do
  let [some line, some column] ← value.fields ["line".toList, "column".toList] | none
  return ⟨← line.toNat64, ← column.toNat64⟩

/-- Bounds of a JSON value, in either order. -/
def Bounds.ofJson (value : Json) : Option Bounds := do
  let [some start, some stop] ← value.fields ["start".toList, "end".toList] | none
  return ⟨← Position.ofJson start, ← Position.ofJson stop⟩

end Reprint
