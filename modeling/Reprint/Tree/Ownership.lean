import Reprint.Tree.Basic

/-!
# Who owns a piece of the source

A piece of the source may lie in the span of a node, in a delimiter of
one, or in a mark.  `Tree.owns` asks that of one node and the nodes below
it.  `Tree.blocks` asks it of everything that a search must not run
into: the spans of the searcher and of its ancestors enclose the search
and do not count.  `Tree.check` looks for siblings that overlap.
-/

namespace Reprint.Tree

variable {M O : Type}

/-- Whether a node has the span, or a delimiter, that a piece of the
source intersects. -/
def nodeOwns (n : Node M O) (span : Span) : Bool :=
  [n.span?, n.before.span?, n.behind.span?].any fun own =>
    own.any fun own => own.intersects span

/-- Whether a piece of the source intersects one that belongs to a node
or to a node below it. -/
def owns (t : Tree M O) (id : Nat) (span : Span) : Except Error Bool := do
  let _ ← t.node id
  let members := (List.range t.nodes.size).filter fun member => (t.lineage member).contains id
  return members.any (fun member => (t.nodes[member]?).any fun n => nodeOwns n span) ||
    t.marks.any fun mark => members.contains mark.owner && mark.span.intersects span

/-- Whether a window of a search intersects a mark, or the span of a node
that does not enclose the search. -/
def blocks (t : Tree M O) (enclosing : List Nat) (window : Span) : Bool :=
  (List.range t.nodes.size).any (fun id =>
    !enclosing.contains id &&
      (t.nodes[id]?).any fun n => n.span?.any fun span => span.intersects window) ||
    t.marks.any fun mark => mark.span.intersects window

/-- The first pair of spans that intersect. -/
def firstOverlap : List Span → Option (Span × Span)
  | [] => none
  | first :: rest =>
    match rest.find? fun other => other.intersects first with
    | some second => some (first, second)
    | none => firstOverlap rest

/-- The marks of a node, and the spans of the nodes right below it. -/
def siblings (t : Tree M O) (id : Nat) (n : Node M O) : List Span :=
  ((t.marks.filter fun mark => mark.owner = id).map Mark.span) ++
    n.children.filterMap fun child => (t.nodes[child]?).bind Node.span?

/-- Refuses siblings that overlap, at the first node that has such. -/
def check (t : Tree M O) : Except Error Unit :=
  (List.range t.nodes.size).forM fun id => do
    let n ← t.node id
    match firstOverlap (t.siblings id n) with
    | some (first, second) => throw (.overlap id first second)
    | none => return ()

end Reprint.Tree
