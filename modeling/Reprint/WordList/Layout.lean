import Reprint.WordList.Model
import Reprint.Dump
import Reprint.Language
import Reprint.Source.Bytes

/-!
# The layout of word lists

A word is its name, pinned where it was read, and a choice of the mark.
A list is its items with a separator between them, in brackets if it has
them when its node is made.

`language` is the language of word lists whose byte spans count in the
given text and whose new items are separated by the given separator.
-/

namespace Reprint.WordList

/-- The span of some bytes of the text. -/
def spanOfBytes (text : Text) (bytes : Nat × Nat) : Except Error Span :=
  Error.ofSource (text.spanOfBytes bytes.1 bytes.2)

/-- The name of a word. -/
def namePart (text : Text) (address : Nat) (read : Option Word) : Part Model Nat :=
  let part := Part.computed fun m => m.name address
  match read.map fun w => spanOfBytes text w.nameBytes with
  | some (.ok span) => part.pinned span
  | _ => part

/-- The mark of a word. -/
def markPart (address : Nat) : Part Model Nat :=
  .either (fun m => m.loudness address = some true) (.constant ['!'])
    (some (.either (fun m => m.loudness address = some false) (.constant ['?'])
      (some (.constant []))))

/-- The items of a list. -/
def itemsPart (separator : Text) (address : Nat) : Part Model Nat :=
  (Part.objects fun m => m.items address).joinedBy separator

/-- The layout of a word or a list. -/
def layout (text separator : Text) (m : Model) (address : Nat) : Option (Layout Model Nat) :=
  (m.cells[address]?).map fun
    | .word _ _ read =>
      { origin := read.map fun w => spanOfBytes text w.bytes
        parts := [namePart text address read, markPart address] }
    | .list bracketed _ read =>
      { origin := read.map fun item => spanOfBytes text item.bytes
        parts :=
          if bracketed then [.constant ['['], itemsPart separator address, .constant [']']]
          else [itemsPart separator address] }

/-! ## Dumps -/

/-- The dump of a span of bytes. -/
def dumpBytes (bytes : Nat × Nat) : String :=
  "(" ++ toString bytes.1 ++ ", " ++ toString bytes.2 ++ ")"

/-- The dump of a word as it was read. -/
def Word.dump (w : Word) : String :=
  Dump.record "WordAst" [("span", dumpBytes w.bytes), ("name", Dump.text w.name),
    ("name_span", dumpBytes w.nameBytes), ("loudness", Dump.option Dump.bool w.loudness)]

mutual

/-- The dump of what an item was read as, without the kind of the item. -/
def Item.dumpInside : Item → String
  | .word w => w.dump
  | .list bytes bracketed items =>
    Dump.record "ListAst" [("span", dumpBytes bytes), ("bracketed", Dump.bool bracketed),
      ("items", Dump.list (Item.dumpAll items))]
termination_by structural item => item

/-- The dumps of several items, each with its kind. -/
def Item.dumpAll : List Item → List String
  | [] => []
  | item :: rest =>
    let kind := match item with
      | .word _ => "Word"
      | .list .. => "List"
    (kind ++ "(" ++ item.dumpInside ++ ")") :: Item.dumpAll rest
termination_by structural items => items

end

/-- The dump of a word or a list with all that is in it.  The first number
bounds the depth. -/
def Model.dump (m : Model) : Nat → Nat → String
  | 0, _ => "..."
  | depth + 1, address =>
    match m.cells[address]? with
    | none => "..."
    | some (.word name loudness read) =>
      "Word(" ++ Dump.record "Word" [("name", Dump.text name),
        ("loudness", Dump.option Dump.bool loudness),
        ("ast", Dump.option Word.dump read)] ++ ")"
    | some (.list bracketed items read) =>
      "List(" ++ Dump.record "List" [("bracketed", Dump.bool bracketed),
        ("items", Dump.list (items.map (m.dump depth))),
        ("ast", Dump.option Item.dumpInside read)] ++ ")"

/-- The language of word lists. -/
def language (text separator : Text) : Language Model Nat where
  layout := layout text separator
  describe m address := m.dump (m.cells.size + 1) address
  size m := m.cells.size

end Reprint.WordList
