import Reprint.Part.Basic

/-!
# The extent of a group

A group covers what its members cover.  It keeps its extent and marks it
stale when a member is added.  `Part.settle` computes a stale extent
anew, the extents of the members first.
-/

namespace Reprint.Part

variable {M O : Type}

/-- The union of the extents of several parts. -/
def extentOf (parts : List (Part M O)) : Option Span :=
  parts.foldl (fun extent p => Span.join extent p.frame.extent) none

mutual

/-- Brings the extent of a group up to date where it is stale. -/
def settle : Part M O → Part M O
  | group f members true =>
    let members := settleAll members
    group { f with extent := extentOf members } members false
  | group f members false => group f members false
  | literal f wording place => literal f wording place
  | slot f supply listed => slot f supply listed
  | items f list => items f list
  | choice f test yes no taken => choice f test yes no taken
termination_by structural p => p

/-- Brings several parts up to date. -/
def settleAll : List (Part M O) → List (Part M O)
  | [] => []
  | p :: rest => settle p :: settleAll rest
termination_by structural ps => ps

end

/-- A part that has been settled stays as it is. -/
theorem settle_settle (p : Part M O) : p.settle.settle = p.settle := by
  cases p with
  | group f members stale => cases stale <;> simp [settle]
  | literal => simp [settle]
  | slot => simp [settle]
  | items => simp [settle]
  | choice => simp [settle]

end Reprint.Part
