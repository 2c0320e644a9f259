import Reprint.Error
import Reprint.Part.Delimiter
import Reprint.Part.ItemList

/-!
# Parts

The text of a model object is a list of parts.  There are five kinds of
them: a literal, whose wording is constant or computed from the model; a
slot for one object; a list of items; a choice between two parts; and a
group of parts.

Besides its frame, a part remembers what was found of it in the source.
That is filled in once, when the source is searched, and printing only
reads it.  The functions under "Construction" make parts of which nothing
has been found.
-/

namespace Reprint

/-- Where the text of a literal comes from. -/
inductive Wording (M : Type) where
  | constant (text : Text)
  | computed (supply : M → Text)

/-- The text of a literal for the present model. -/
def Wording.text {M : Type} (w : Wording M) (m : M) : Text :=
  match w with
  | constant text => text
  | computed supply => supply m

/-- A part of the text of an object.  `M` is the type of models and `O`
the type of references to their objects. -/
inductive Part (M O : Type) where
  | literal (frame : Frame) (wording : Wording M) (place : LiteralPlace)
  /-- One object, or none.  `listed` is the node that was found there. -/
  | slot (frame : Frame) (supply : M → Option O) (listed : Option Nat)
  | items (frame : Frame) (list : ItemList M O)
  /-- One of two parts.  `taken` is the answer of the test for the part
  that is in the source. -/
  | choice (frame : Frame) (test : M → Bool) (yes : Part M O) (no : Option (Part M O))
      (taken : Option Bool)
  /-- Several parts.  `stale` says that the extent is not up to date. -/
  | group (frame : Frame) (members : List (Part M O)) (stale : Bool)

namespace Part

variable {M O : Type}

/-- The frame of a part. -/
def frame : Part M O → Frame
  | literal f _ _ => f
  | slot f _ _ => f
  | items f _ => f
  | choice f _ _ _ _ => f
  | group f _ _ => f

/-- Changes the frame of a part. -/
def mapFrame (g : Frame → Frame) : Part M O → Part M O
  | literal f wording place => literal (g f) wording place
  | slot f supply listed => slot (g f) supply listed
  | items f list => items (g f) list
  | choice f test yes no taken => choice (g f) test yes no taken
  | group f members stale => group (g f) members stale

/-- The word for the kind of a part. -/
def kind : Part M O → String
  | literal _ (.constant _) _ => "static"
  | literal _ (.computed _) _ => "dynamic"
  | slot .. => "child"
  | items .. => "children"
  | choice .. => "conditional"
  | group .. => "sequential"

/-! ## Construction -/

/-- A literal with a constant text. -/
def constant (text : Text) : Part M O := literal {} (.constant text) {}

/-- A literal that is computed from the model. -/
def computed (supply : M → Text) : Part M O := literal {} (.computed supply) {}

/-- A slot for one object. -/
def object (supply : M → Option O) : Part M O := slot {} supply none

/-- A list of objects. -/
def objects (supply : M → List O) : Part M O := items {} { supply := supply }

/-- The first part where the test holds, else the second. -/
def either (test : M → Bool) (yes : Part M O) (no : Option (Part M O)) : Part M O :=
  choice {} test yes no none

/-- Several parts as one. -/
def ofMembers (members : List (Part M O)) : Part M O := group {} members true

/-- Sets the literal in front. -/
def setLead (p : Part M O) (t : Text) : Part M O :=
  p.mapFrame fun f => { f with lead := some t }

/-- Sets the literal behind. -/
def setTrail (p : Part M O) (t : Text) : Part M O :=
  p.mapFrame fun f => { f with trail := some t }

/-- Sets the literal in front of the first item of a list. -/
def setFirstLead (p : Part M O) (t : Text) : Part M O :=
  match p with
  | items f list => items f { list with firstLead := some t }
  | other => other

/-- Sets the literal behind the last item of a list. -/
def setLastTrail (p : Part M O) (t : Text) : Part M O :=
  match p with
  | items f list => items f { list with lastTrail := some t }
  | other => other

/-- Puts a separator in front of every item but the first. -/
def joinedBy (p : Part M O) (t : Text) : Part M O := (p.setLead t).setFirstLead []

/-- Sets the indentation. -/
def setIndent (p : Part M O) (i : Indent) : Part M O :=
  p.mapFrame fun f => { f with indent := i }

/-- Says where a literal is in the source, so that it need not be
searched for.  Other parts have no such place. -/
def pinned (p : Part M O) (span : Span) : Part M O :=
  match p with
  | literal f wording place => literal f wording { place with span? := some span }
  | other => other

/-- Adds a member to a group. -/
def addMember (p member : Part M O) : Except Error (Part M O) :=
  match p with
  | group f members _ => .ok (group f (members ++ [member]) true)
  | _ => .error .notGroup

/-! ## The objects of a part -/

mutual

/-- The objects that a part refers to, of a choice those of the part that
the test selects. -/
def selected (m : M) : Part M O → List O
  | literal .. => []
  | slot _ supply _ => (supply m).toList
  | items _ list => list.supply m
  | choice _ test yes no _ =>
    if test m then selected m yes
    else
      match no with
      | some other => selected m other
      | none => []
  | group _ members _ => selectedAll m members
termination_by structural p => p

/-- The objects that several parts refer to. -/
def selectedAll (m : M) : List (Part M O) → List O
  | [] => []
  | p :: rest => selected m p ++ selectedAll m rest
termination_by structural ps => ps

end

end Part

end Reprint
