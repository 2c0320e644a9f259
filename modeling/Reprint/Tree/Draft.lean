import Reprint.Patch.Basic
import Reprint.Tree.Plant

/-!
# Drafts

The new text of a node is made by a patch of its span.  A draft is such a
patch while its edits are being collected, with the tree in which nodes
may be made meanwhile and a cursor, the end of the part that was revised
last.

A `Revision` is an operation on a draft.  The functions here are the ones
that touch the patch; `Tree.revisePart` combines them.
-/

namespace Reprint.Tree

variable {M O : Type}

/-- The edits of a node while they are being collected. -/
structure Draft (M O : Type) where
  tree : Tree M O
  patch : Patch
  /-- The end of the part that was revised last. -/
  cursor : Position

/-- An operation on a draft.  The changes stay when it fails. -/
abbrev Revision (M O : Type) := EStateM Error (Draft M O)

namespace Revision

/-- Runs an operation on the tree of the draft. -/
def onTree {α : Type} (job : Job M O α) : Revision M O α := fun d =>
  match job d.tree with
  | .ok a t => .ok a { d with tree := t }
  | .error e t => .error e { d with tree := t }

/-- Reads something off the tree. -/
def read {α : Type} (f : Tree M O → Except Error α) : Revision M O α := fun d =>
  match f d.tree with
  | .ok a => .ok a d
  | .error e => .error e d

/-- Adds an edit to the patch. -/
def edit (change : Patch → Except Source.Error Patch) : Revision M O Unit := fun d =>
  match change d.patch with
  | .ok p => .ok () { d with patch := p }
  | .error e => .error (.source e) d

/-- Moves the cursor. -/
def moveTo (p : Position) : Revision M O Unit := fun d => .ok () { d with cursor := p }

/-- Inserts a text at the cursor, which stays where it is. -/
def insertHere (text : Text) : Revision M O Unit := fun d =>
  edit (fun p => p.insert d.cursor text) d

/-- Replaces the extent of a part, or inserts at the cursor where it has
none. -/
def overwrite (extent : Option Span) (text : Text) : Revision M O Unit :=
  match extent with
  | some span => do
    edit fun p => p.replace span text
    moveTo span.stop
  | none => insertHere text

end Revision

end Reprint.Tree
