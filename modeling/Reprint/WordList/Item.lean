import Reprint.Text

/-!
# Word lists as text

A document is a list of items without brackets.  An item is a word or a
list in brackets.  A word consists of ASCII letters, digits and `_` and
may have one mark behind it, `!` for loud or `?` for quiet.  Items are
separated by `,` or `;`, and one separator may stand behind the last
item.  Spaces, tabs and line ends may stand everywhere but inside a word.

`readDocument` reads a document.  Every item of the result keeps the bytes
that it was read from.  All characters of the language are ASCII, so the
reader counts one byte for each.
-/

namespace Reprint.WordList

/-- A word as it was read. -/
structure Word where
  /-- The bytes of the name and its mark. -/
  bytes : Nat × Nat
  name : Text
  /-- The bytes of the name alone. -/
  nameBytes : Nat × Nat
  /-- Loud, quiet, or neither. -/
  loudness : Option Bool
deriving DecidableEq, Repr

/-- An item as it was read. -/
inductive Item where
  | word (word : Word)
  | list (bytes : Nat × Nat) (bracketed : Bool) (items : List Item)

/-- The bytes of an item. -/
def Item.bytes : Item → Nat × Nat
  | word w => w.bytes
  | list bytes _ _ => bytes

/-- Why a text is not a document, with the byte where that shows. -/
inductive ReadError where
  | expectedBracket (byte : Nat)
  | expectedWord (byte : Nat)
  | unexpectedInput (byte : Nat)
  /-- The bound on the depth is used up, which happens in no document. -/
  | tooDeep (byte : Nat)
deriving DecidableEq, Repr

/-- The wording of a refusal. -/
def ReadError.message : ReadError → String
  | expectedBracket byte => s!"expected \x60]\x60 at byte {byte}"
  | expectedWord byte => s!"expected a word at byte {byte}"
  | unexpectedInput byte => s!"unexpected input at byte {byte}"
  | tooDeep byte => s!"items too deep at byte {byte}"

/-! ## The reader -/

/-- A text with the number of bytes that were read before it. -/
structure Reader where
  byte : Nat
  rest : Text
deriving DecidableEq, Repr

/-- The characters that may stand between items. -/
def isSpace (c : Char) : Bool := c = ' ' || c = '\t' || c = '\n' || c = '\r'

/-- The characters of a word. -/
def isWordChar (c : Char) : Bool := c.isAlphanum || c = '_'

/-- The characters between two items. -/
def isSeparator (c : Char) : Bool := c = ',' || c = ';'

namespace Reader

/-- Reads the longest run of characters of a class. -/
def takeWhile (p : Char → Bool) (r : Reader) : Text × Reader :=
  (r.rest.takeWhile p, ⟨r.byte + (r.rest.takeWhile p).length, r.rest.dropWhile p⟩)

/-- Reads what may stand between items. -/
def skipSpaces (r : Reader) : Reader := (r.takeWhile isSpace).2

end Reader

/-- The mark that a text begins with. -/
def markOf : Text → Option Bool
  | '!' :: _ => some true
  | '?' :: _ => some false
  | _ => none

/-- Reads a word. -/
def readWord (r : Reader) : Except ReadError (Word × Reader) :=
  let (name, s) := r.takeWhile isWordChar
  if name.isEmpty then .error (.expectedWord r.byte)
  else
    let loudness := markOf s.rest
    let marks := if loudness.isSome then 1 else 0
    let stop : Reader := ⟨s.byte + marks, s.rest.drop marks⟩
    .ok (⟨(r.byte, stop.byte), name, (r.byte, s.byte), loudness⟩, stop)

mutual

/-- Reads an item.  The first argument bounds the depth. -/
def readItem : Nat → Reader → Except ReadError (Item × Reader)
  | 0, r => .error (.tooDeep r.byte)
  | depth + 1, r =>
    match r.rest with
    | '[' :: rest => do
      let (items, s) ← readItems depth true (Reader.skipSpaces ⟨r.byte + 1, rest⟩)
      match s.rest with
      | ']' :: rest => return (.list (r.byte, s.byte + 1) true items, ⟨s.byte + 1, rest⟩)
      | _ => throw (.expectedBracket s.byte)
    | _ => do
      let (word, s) ← readWord r
      return (.word word, s)

/-- Reads items up to the end of the text, or up to a closing bracket
where there is an open one. -/
def readItems : Nat → Bool → Reader → Except ReadError (List Item × Reader)
  | 0, _, r => .error (.tooDeep r.byte)
  | depth + 1, bracketed, r =>
    match r.rest with
    | [] => .ok ([], r)
    | c :: _ =>
      if bracketed && c = ']' then .ok ([], r)
      else do
        let (item, s) ← readItem depth r
        let s := s.skipSpaces
        match s.rest with
        | c :: rest =>
          if isSeparator c then do
            let (items, s) ← readItems depth bracketed (Reader.skipSpaces ⟨s.byte + 1, rest⟩)
            return (item :: items, s)
          else return ([item], s)
        | [] => return ([item], s)

end

/-- The bytes from the first item to the last one, and none at the given
byte where there is no item. -/
def bytesOfItems (byte : Nat) (items : List Item) : Nat × Nat :=
  match items.head?, items.getLast? with
  | some first, some last => (first.bytes.1, last.bytes.2)
  | _, _ => (byte, byte)

/-- Reads a document.  Every second step of the reader takes a character,
so twice the length bounds the depth. -/
def readDocument (t : Text) : Except ReadError Item := do
  let (items, s) ← readItems (2 * t.length + 2) false (Reader.skipSpaces ⟨0, t⟩)
  if s.rest.isEmpty then return .list (bytesOfItems s.byte items) false items
  else throw (.unexpectedInput s.byte)

end Reprint.WordList
