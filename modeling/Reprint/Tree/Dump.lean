import Reprint.Dump
import Reprint.Tree.Basic

/-!
# Dumps of parts and nodes

`Part.dump` and `Tree.dumpNode` show what is known of a part and of a
node, including what was found in the source.
-/

namespace Reprint

/-- The dump of a delimiter. -/
def Delimiter.dump : Delimiter → String
  | empty => "Absent"
  | present literal span =>
    Dump.record "Found" [("literal", Dump.text literal), ("fragment", Dump.span span)]
  | missing literal => Dump.record "Unresolved" [("literal", Dump.text literal)]

/-- The dump of the place of a literal. -/
def LiteralPlace.dump (p : LiteralPlace) : String :=
  Dump.record "LiteralState" [("literal", Dump.option Dump.span p.span?),
    ("prelude", p.before.dump), ("postlude", p.behind.dump)]

namespace Part

variable {M O : Type}

/-- A part with the fields that all parts have and some of its own. -/
def dumpWith (p : Part M O) (own : List (String × String)) : String :=
  Dump.record "Contents" ([("kind", Dump.text p.kind.toList),
    ("prelude", Dump.option Dump.text p.frame.lead),
    ("postlude", Dump.option Dump.text p.frame.trail),
    ("indentation", Dump.indent p.frame.indent),
    ("fragment", Dump.option Dump.span p.frame.extent)] ++ own)

mutual

/-- The dump of a part. -/
def dump : Part M O → String
  | .literal frame (.constant text) place =>
    dumpWith (.literal frame (.constant text) place : Part M O)
      [("text", Dump.text text), ("state", place.dump)]
  | .literal frame (.computed supply) place =>
    dumpWith (.literal frame (.computed supply) place : Part M O) [("state", place.dump)]
  | .slot frame supply listed =>
    dumpWith (.slot frame supply listed) [("parsed_child", Dump.option Dump.node listed)]
  | .items frame list =>
    dumpWith (.items frame list)
      [("last_parsed", Dump.list (list.listed.map fun item => Dump.node item.node)),
        ("repeated", toString list.repeats.length)]
  | .choice frame test yes no taken =>
    dumpWith (.choice frame test yes no taken)
      [("then", "Some(" ++ dump yes ++ ")"),
        ("else", match no with
          | some other => "Some(" ++ dump other ++ ")"
          | none => "None"),
        ("parsed_branch", Dump.option Dump.bool taken)]
  | .group frame members stale =>
    dumpWith (.group frame members stale) [("members", Dump.list (dumpAll members))]
termination_by structural p => p

/-- The dumps of several parts. -/
def dumpAll : List (Part M O) → List String
  | [] => []
  | p :: rest => dump p :: dumpAll rest
termination_by structural ps => ps

end

end Part

/-- The dump of a node, whose object is described for the present model. -/
def Tree.dumpNode {M O : Type} (m : M) (t : Tree M O) (n : Node M O) : String :=
  Dump.record "P2ppNode" [("object", t.language.describe m n.object),
    ("synthetic", Dump.bool n.place.isNone),
    ("parent", Dump.option Dump.node n.parent),
    ("children", Dump.list (n.children.map Dump.node)),
    ("span", Dump.option Dump.span n.span?),
    ("prelude", n.before.dump), ("postlude", n.behind.dump),
    ("contents", Dump.list (Part.dumpAll n.parts))]

end Reprint
