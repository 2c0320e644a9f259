import Reprint.Text

/-!
# JSON texts

A reader for JSON in its strict form: no trailing comma, no leading zero,
no control character in a string, and nothing but white space behind the
value.

The reader takes a text apart without interpreting it.  A string is kept
as the units that it was written with, because an escape such as
`\uD800` is allowed by the grammar and only stands for a character
together with the escape behind it.  A number is kept as its numeral.
`Json.read` reads a whole text.
-/

namespace Reprint

/-- One piece of a written string: a character, or the 16-bit code unit
of a `\u` escape. -/
inductive JsonUnit where
  | char (c : Char)
  | code (n : Nat)
deriving DecidableEq, Repr

/-- A JSON value.  Strings and numbers are kept as written. -/
inductive Json where
  | null
  | bool (value : Bool)
  | number (numeral : Text)
  | string (units : List JsonUnit)
  | array (items : List Json)
  | object (entries : List (List JsonUnit × Json))

namespace Json

/-! ## Leaves -/

/-- Drops white space. -/
def skipBlanks (t : Text) : Text :=
  t.dropWhile fun c => c = ' ' || c = '\t' || c = '\n' || c = '\r'

/-- The value of a hexadecimal digit. -/
def hexDigit? (c : Char) : Option Nat :=
  if '0' ≤ c && c ≤ '9' then some (c.toNat - '0'.toNat)
  else if 'a' ≤ c && c ≤ 'f' then some (c.toNat - 'a'.toNat + 10)
  else if 'A' ≤ c && c ≤ 'F' then some (c.toNat - 'A'.toNat + 10)
  else none

/-- Reads the four digits of a code unit. -/
def readCode : Text → Option (Nat × Text)
  | a :: b :: c :: d :: rest => do
    let a ← hexDigit? a
    let b ← hexDigit? b
    let c ← hexDigit? c
    let d ← hexDigit? d
    return (((a * 16 + b) * 16 + c) * 16 + d, rest)
  | _ => none

/-- The character of an escape with one letter. -/
def escape? : Char → Option Char
  | '"' => some '"'
  | '\\' => some '\\'
  | '/' => some '/'
  | 'b' => some '\x08'
  | 'f' => some '\x0c'
  | 'n' => some '\n'
  | 'r' => some '\r'
  | 't' => some '\t'
  | _ => none

/-- Reads the rest of a string behind its opening quote.  The first
argument is at least the length of the text. -/
def readUnits : Nat → Text → Option (List JsonUnit × Text)
  | 0, _ => none
  | _ + 1, [] => none
  | _ + 1, '"' :: rest => some ([], rest)
  | fuel + 1, '\\' :: 'u' :: rest => do
    let (n, rest) ← readCode rest
    let (units, rest) ← readUnits fuel rest
    return (.code n :: units, rest)
  | fuel + 1, '\\' :: c :: rest => do
    let c ← escape? c
    let (units, rest) ← readUnits fuel rest
    return (.char c :: units, rest)
  | fuel + 1, c :: rest => do
    if c.toNat < 0x20 || c = '\\' then none
    let (units, rest) ← readUnits fuel rest
    return (.char c :: units, rest)

/-- Takes the digits that a text begins with.  There has to be one. -/
def readDigits (t : Text) : Option (Text × Text) :=
  match t.span Char.isDigit with
  | ([], _) => none
  | (digits, rest) => some (digits, rest)

/-- Reads the whole part of a number.  A zero has no digit behind it. -/
def readWhole : Text → Option (Text × Text)
  | '0' :: rest => some (['0'], rest)
  | t => readDigits t

/-- Reads the fraction of a number, if there is one. -/
def readFraction : Text → Option (Text × Text)
  | '.' :: rest => do
    let (digits, rest) ← readDigits rest
    return ('.' :: digits, rest)
  | t => some ([], t)

/-- Reads the exponent of a number, if there is one. -/
def readExponent : Text → Option (Text × Text)
  | c :: rest =>
    if c = 'e' || c = 'E' then
      match rest with
      | sign :: more =>
        if sign = '+' || sign = '-' then do
          let (digits, rest) ← readDigits more
          return (c :: sign :: digits, rest)
        else do
          let (digits, rest) ← readDigits rest
          return (c :: digits, rest)
      | [] => none
    else some ([], c :: rest)
  | [] => some ([], [])

/-- Reads a number. -/
def readNumber (t : Text) : Option (Text × Text) := do
  let (sign, rest) := match t with
    | '-' :: rest => (['-'], rest)
    | _ => ([], t)
  let (whole, rest) ← readWhole rest
  let (fraction, rest) ← readFraction rest
  let (exponent, rest) ← readExponent rest
  return (sign ++ whole ++ fraction ++ exponent, rest)

/-- Reads a given word. -/
def readWord (word t : Text) : Option Text :=
  if word.isPrefixOf t then some (t.drop word.length) else none

/-! ## Values -/

mutual

/-- Reads a value, which may have white space before it. -/
def readValue : Nat → Text → Option (Json × Text)
  | 0, _ => none
  | fuel + 1, t =>
    match skipBlanks t with
    | '"' :: rest => do
      let (units, rest) ← readUnits rest.length rest
      return (.string units, rest)
    | '[' :: rest =>
      match skipBlanks rest with
      | ']' :: rest => some (.array [], rest)
      | rest => do
        let (items, rest) ← readItems fuel rest
        return (.array items, rest)
    | '\x7b' :: rest =>
      match skipBlanks rest with
      | '\x7d' :: rest => some (.object [], rest)
      | rest => do
        let (entries, rest) ← readEntries fuel rest
        return (.object entries, rest)
    | 'n' :: rest => do return (.null, ← readWord "ull".toList rest)
    | 't' :: rest => do return (.bool true, ← readWord "rue".toList rest)
    | 'f' :: rest => do return (.bool false, ← readWord "alse".toList rest)
    | rest => do
      let (numeral, rest) ← readNumber rest
      return (.number numeral, rest)

/-- Reads the items of an array up to its closing bracket. -/
def readItems : Nat → Text → Option (List Json × Text)
  | 0, _ => none
  | fuel + 1, t => do
    let (item, rest) ← readValue fuel t
    match skipBlanks rest with
    | ']' :: rest => return ([item], rest)
    | ',' :: rest =>
      let (items, rest) ← readItems fuel rest
      return (item :: items, rest)
    | _ => none

/-- Reads the entries of an object up to its closing brace. -/
def readEntries : Nat → Text → Option (List (List JsonUnit × Json) × Text)
  | 0, _ => none
  | fuel + 1, t => do
    let '"' :: rest := skipBlanks t | none
    let (key, rest) ← readUnits rest.length rest
    let ':' :: rest := skipBlanks rest | none
    let (value, rest) ← readValue fuel rest
    match skipBlanks rest with
    | '\x7d' :: rest => return ([(key, value)], rest)
    | ',' :: rest =>
      let (entries, rest) ← readEntries fuel rest
      return ((key, value) :: entries, rest)
    | _ => none

end

/-- Reads a whole text.  Every second step takes a character, so twice
the length bounds the depth. -/
def read (t : Text) : Option Json := do
  let (value, rest) ← readValue (2 * t.length + 2) t
  if (skipBlanks rest).isEmpty then some value else none

end Json

end Reprint
