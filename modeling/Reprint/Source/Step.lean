import Reprint.Source.Basic

/-!
# Steps between positions

`Source.next` and `Source.previous` move by one character, over a line
break too.  `Source.walk` repeats a step until it is refused.
-/

namespace Reprint.Source

/-- The position one character later. -/
def next (s : Source) (p : Position) : Except Error Position :=
  match s.lineLength? p.line with
  | none => .error (.outOfBounds p s.size)
  | some length =>
    if p.column < length then .ok ⟨p.line, p.column + 1⟩
    else if p.column = length && p.line < s.size then .ok ⟨p.line + 1, 0⟩
    else .error (.noStep p .atEnd)

/-- The position one character earlier. -/
def previous (s : Source) (p : Position) : Except Error Position :=
  match s.lineLength? p.line with
  | none => .error (.outOfBounds p s.size)
  | some length =>
    if length < p.column then .error (.noStep p .pastLine)
    else if 0 < p.column then .ok ⟨p.line, p.column - 1⟩
    else
      match s.lineLength? (p.line - 1) with
      | some before => .ok ⟨p.line - 1, before⟩
      | none => .error (.noStep p .atStart)

/-- The positions that repeated steps reach, at most `limit` of them, and
the refusal that ended the walk. -/
def walk (step : Position → Except Error Position) :
    Nat → Position → List Position × Option Error
  | 0, _ => ([], none)
  | limit + 1, p =>
    match step p with
    | .error e => ([], some e)
    | .ok q =>
      let (path, stop) := walk step limit q
      (q :: path, stop)

end Reprint.Source
