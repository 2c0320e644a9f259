import Reprint.Span

/-!
# What can go wrong with positions and spans

Every failure here means that positions or spans do not fit the source
they are used with.  `Source.Error` lists the causes, and
`Source.Error.message` is the one place that words them.
-/

namespace Reprint.Source

/-- Why a step to a neighbouring position is refused. -/
inductive StepFault where
  | atEnd
  | atStart
  | pastLine
deriving DecidableEq, Repr

/-- The direction of the refused step. -/
def StepFault.direction : StepFault → String
  | atEnd => "forward"
  | atStart => "backward"
  | pastLine => "backward"

/-- The wording of the reason. -/
def StepFault.reason : StepFault → String
  | atEnd => "already at the end of the source"
  | atStart => "already at the start of the source"
  | pastLine => "column is past the end of its line"

/-- The causes of failure of positions, spans and edits. -/
inductive Error where
  /-- The position is not one of a source with this many lines. -/
  | outOfBounds (position : Position) (size : Nat)
  /-- There is no neighbouring position. -/
  | noStep (position : Position) (fault : StepFault)
  /-- The start is after the stop. -/
  | reversed (start stop : Position)
  /-- An edit overlaps one that was accepted before. -/
  | conflict (existing incoming : Span)
  /-- An edit does not lie within the base of its patch. -/
  | outsideBase (target base : Span)
deriving DecidableEq

/-- The wording of a failure. -/
def Error.message : Error → String
  | outOfBounds position size =>
    s!"Position {position} is outside the source ({size} lines)"
  | noStep position fault =>
    s!"Cannot step {fault.direction} from {position}: {fault.reason}"
  | reversed start stop => s!"Invalid fragment: start {start} is after end {stop}"
  | conflict existing incoming =>
    s!"Edit on {incoming} overlaps earlier edit on {existing}"
  | outsideBase target base => s!"Edit on {target} lies outside base fragment {base}"

end Reprint.Source

namespace Reprint.Bounds

/-- Bounds are a span when their start is not after their stop. -/
def toSpan (b : Bounds) : Except Source.Error Span :=
  if h : b.start ≤ b.stop then .ok ⟨b, h⟩ else .error (.reversed b.start b.stop)

theorem toSpan_eq_ok {b : Bounds} {s : Span} : b.toSpan = .ok s ↔ s.toBounds = b := by
  unfold toSpan
  split
  · constructor
    · rintro ⟨⟩
      rfl
    · rintro rfl
      rfl
  · next h =>
    constructor
    · simp
    · rintro rfl
      exact absurd s.start_le_stop h

end Reprint.Bounds
