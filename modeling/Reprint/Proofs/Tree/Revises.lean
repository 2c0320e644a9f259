import Reprint.Proofs.Tree.Nodes
import Reprint.Proofs.Tree.Runs
import Reprint.Tree.Revise

/-!
# What a revision adds to a patch

`Revises P job a x edits b` says of an operation on a draft that it
succeeds in every tree with `P` from the cursor `a` on: it adds the edits
to any patch that they are compatible with, leaves the cursor at `b` and
a tree with `P`, and has the result `x`.

The lemmas chain such statements the way revisions are chained, so the
edits of a part follow from those of its pieces.  What text these edits
make of the source is said beside them.
-/

namespace Reprint.Tree

open Revision

variable {M O : Type} {α β : Type}

/-- An operation on a draft adds some edits. -/
def Revises (P : Tree M O → Prop) (job : Revision M O α) (a : Position) (x : α)
    (edits : List Edit) (b : Position) : Prop :=
  ∀ t patch, P t → patch.Compatible edits →
    ∃ t', job ⟨t, patch, a⟩ = .ok x ⟨t', patch.extend edits, b⟩ ∧ P t'

/-- The insertion of a text, which is no edit if the text is empty. -/
def insertion (p : Position) (text : Text) : List Edit :=
  if text.isEmpty then [] else [⟨.insert, Span.point p, text⟩]

/-- The replacement of a span, which is no edit if the text is there. -/
def replacement (span : Span) (present text : Text) : List Edit :=
  if text = present then [] else [⟨.replace, span, text⟩]

/-! ## The text that such edits make -/

section Splices

variable {s : Source} {p q : Nat}

/-- A replacement of a piece of the source. -/
theorem replacement_splices (hpq : p ≤ q) (hq : q ≤ s.charCount) (text : Text) :
    Patch.Splices s p q (replacement (window s p q) (s.text.piece p q) text) text := by
  unfold replacement
  split
  · next htext =>
    rw [htext]
    exact .nil hpq hq
  · have hsingle := Patch.Splices.single ⟨.replace, window s p q, text⟩ (Nat.le_refl p) hpq
      (Nat.le_refl q) hq rfl
    rwa [Text.piece_self, Text.piece_self, List.append_nil] at hsingle

/-- An insertion in front of a piece of the source whose edits are known. -/
theorem insertion_splices {edits : List Edit} {rest : Text} (h : Patch.Splices s p q edits rest)
    (text : Text) : Patch.Splices s p q (insertion (s.place p) text ++ edits) (text ++ rest) := by
  have hle := h.le
  unfold insertion
  split
  · next htext =>
    rw [List.isEmpty_iff.1 htext]
    exact h
  · exact h.insert _ (point_place (by omega))

end Splices

namespace Revises

variable {P : Tree M O → Prop} {job : Revision M O α} {a b c : Position} {x : α} {y : β}
  {edits more : List Edit}

theorem pure (a : Position) (x : α) : Revises P (Pure.pure x : Revision M O α) a x [] a := by
  intro t patch ht _
  refine ⟨t, ?_, ht⟩
  rw [Patch.extend_nil]
  rfl

theorem bind {next : α → Revision M O β} (hjob : Revises P job a x edits b)
    (hnext : Revises P (next x) b y more c) : Revises P (job >>= next) a y (edits ++ more) c := by
  intro t patch ht hcompatible
  obtain ⟨t', hrun, ht'⟩ := hjob t patch ht hcompatible.left
  obtain ⟨t'', hrun', ht''⟩ := hnext t' (patch.extend edits) ht' hcompatible.right
  refine ⟨t'', ?_, ht''⟩
  rw [bind_of_ok hrun, Patch.extend_append]
  exact hrun'

/-- An operation without edits first. -/
theorem bind_nil {next : α → Revision M O β} (hjob : Revises P job a x [] b)
    (hnext : Revises P (next x) b y edits c) : Revises P (job >>= next) a y edits c :=
  hjob.bind hnext

/-- An operation on the tree first. -/
theorem onTree {job : Job M O α} (h : Runs P job x P) (a : Position) :
    Revises P (onTree job) a x [] a := by
  intro t patch ht _
  obtain ⟨t', hrun, ht'⟩ := h t ht
  refine ⟨t', ?_, ht'⟩
  unfold Revision.onTree
  rw [hrun, Patch.extend_nil]

/-- Something is read off the tree first.  What is read may depend on the
tree, what is done with it may not. -/
theorem read {f : Tree M O → Except Error α} {next : α → Revision M O β}
    (h : ∀ t, P t → ∃ x, f t = .ok x ∧ Revises P (next x) a y edits b) :
    Revises P (Revision.read f >>= next) a y edits b := by
  intro t patch ht hcompatible
  obtain ⟨x, hread, hnext⟩ := h t ht
  obtain ⟨t', hrun, ht'⟩ := hnext t patch ht hcompatible
  refine ⟨t', ?_, ht'⟩
  show EStateM.bind (Revision.read f) next ⟨t, patch, a⟩ = _
  unfold EStateM.bind Revision.read
  rw [hread]
  exact hrun

/-- The draft is read first, which is done for its tree. -/
theorem get {next : Draft M O → Revision M O β}
    (h : ∀ t patch, P t → Revises P (next ⟨t, patch, a⟩) a y edits b) :
    Revises P (get >>= next) a y edits b := by
  intro t patch ht hcompatible
  exact h t patch ht t patch ht hcompatible

theorem moveTo (a b : Position) : Revises P (Revision.moveTo b : Revision M O Unit) a () [] b := by
  intro t patch ht _
  exact ⟨t, by rw [Patch.extend_nil]; rfl, ht⟩

/-- One edit. -/
theorem add {change : Patch → Except Source.Error Patch} (a : Position)
    (h : ∀ patch : Patch, patch.Compatible edits → change patch = .ok (patch.extend edits)) :
    Revises P (Revision.edit change : Revision M O Unit) a () edits a := by
  intro t patch ht hcompatible
  refine ⟨t, ?_, ht⟩
  unfold Revision.edit
  rw [h patch hcompatible]

theorem insert (a p : Position) (text : Text) :
    Revises P (Revision.edit (fun patch => patch.insert p text) : Revision M O Unit) a ()
      (insertion p text) a := by
  refine .add a fun patch hcompatible => ?_
  unfold Patch.insert
  unfold insertion at hcompatible ⊢
  split
  · rw [Patch.extend_nil]
  · next htext =>
    rw [if_neg htext] at hcompatible
    exact Patch.add_of_compatible hcompatible

theorem insertHere (a : Position) (text : Text) :
    Revises P (Revision.insertHere text : Revision M O Unit) a () (insertion a text) a :=
  fun t patch ht hcompatible => Revises.insert a a text t patch ht hcompatible

theorem replace (a : Position) (span : Span) (text : Text) :
    Revises P (Revision.edit (fun patch => patch.replace span text) : Revision M O Unit) a ()
      [⟨.replace, span, text⟩] a :=
  .add a fun _ => Patch.add_of_compatible

theorem remove (a : Position) {span : Span} (hspan : span.isEmpty = false) :
    Revises P (Revision.edit (fun patch => patch.remove span) : Revision M O Unit) a ()
      [⟨.remove, span, []⟩] a := by
  refine .add a fun patch hcompatible => ?_
  unfold Patch.remove
  rw [hspan, if_neg Bool.false_ne_true]
  exact Patch.add_of_compatible hcompatible

theorem overwrite (a : Position) (span : Span) (text : Text) :
    Revises P (Revision.overwrite (some span) text : Revision M O Unit) a ()
      [⟨.replace, span, text⟩] span.stop := by
  have h : Revises P (Revision.edit (fun patch => patch.replace span text) >>=
      fun _ => Revision.moveTo span.stop : Revision M O Unit) a ()
      ([⟨.replace, span, text⟩] ++ []) span.stop := .bind (.replace a span text) (.moveTo a span.stop)
  rwa [List.append_nil] at h

/-- A replacement where the text differs, and what follows in any case. -/
theorem replaceIf (span : Span) (present text : Text) {next : Unit → Revision M O β}
    (hnext : Revises P (next ()) a y edits b) :
    Revises P (if text ≠ present then (Revision.edit fun patch => patch.replace span text) >>= next
      else next ()) a y (replacement span present text ++ edits) b := by
  unfold replacement
  by_cases htext : text = present
  · rw [if_pos htext, if_neg (fun h => h htext)]
    exact hnext
  · rw [if_neg htext, if_pos htext]
    exact .bind (.replace a span text) hnext

end Revises

/-! ## From one tree to another -/

/-- An operation on a draft succeeds in one tree and leaves another one. -/
def Turns (t u : Tree M O) (job : Revision M O α) (a : Position) (x : α) (edits : List Edit)
    (b : Position) : Prop :=
  ∀ patch : Patch, patch.Compatible edits → job ⟨t, patch, a⟩ = .ok x ⟨u, patch.extend edits, b⟩

namespace Turns

variable {t u v : Tree M O} {job : Revision M O α} {a b c : Position} {x : α} {y : β}
  {edits more : List Edit}

/-- An operation that leaves the tree as it is. -/
theorem of_revises (h : Revises (· = t) job a x edits b) : Turns t t job a x edits b := by
  intro patch hcompatible
  obtain ⟨_, hrun, rfl⟩ := h t patch rfl hcompatible
  exact hrun

theorem bind {next : α → Revision M O β} (hjob : Turns t u job a x edits b)
    (hnext : Turns u v (next x) b y more c) : Turns t v (job >>= next) a y (edits ++ more) c := by
  intro patch hcompatible
  rw [bind_of_ok (hjob patch hcompatible.left), Patch.extend_append]
  exact hnext _ hcompatible.right

theorem bind_nil {next : α → Revision M O β} (hjob : Turns t u job a x [] b)
    (hnext : Turns u v (next x) b y edits c) : Turns t v (job >>= next) a y edits c :=
  hjob.bind hnext

theorem onTree {job : Job M O α} (h : job t = .ok x u) (a : Position) :
    Turns t u (Revision.onTree job) a x [] a := by
  intro patch _
  unfold Revision.onTree
  rw [h, Patch.extend_nil]

theorem read {f : Tree M O → Except Error α} {next : α → Revision M O β} (h : f t = .ok x)
    (hnext : Turns t u (next x) a y edits b) : Turns t u (Revision.read f >>= next) a y edits b := by
  intro patch hcompatible
  show EStateM.bind (Revision.read f) next ⟨t, patch, a⟩ = _
  unfold EStateM.bind Revision.read
  rw [h]
  exact hnext patch hcompatible

end Turns

/-! ## Literals and objects -/

theorem placeOfNode_eq_ok {t : Tree M O} {id : Nat} {p : Place} :
    t.placeOfNode id = .ok p ↔ ∃ n, t.nodes[id]? = some n ∧ n.place = some p := by
  unfold placeOfNode
  constructor
  · intro h
    cases hn : t.node id with
    | error e =>
      rw [hn] at h
      cases h
    | ok n =>
      rw [hn] at h
      simp only [bind, Except.bind] at h
      cases hp : n.place with
      | none =>
        rw [hp] at h
        cases h
      | some place =>
        rw [hp] at h
        cases h
        exact ⟨n, node_eq_ok.1 hn, hp⟩
  · rintro ⟨n, hn, hp⟩
    rw [node_eq_ok.2 hn]
    simp only [bind, Except.bind, hp]
    rfl

section Items

variable {P : Tree M O → Prop}

/-- A literal is replaced where its text differs, and what the source lacks
around it goes in. -/
theorem Revises.literalPlace {span : Span} {present : Text} (a : Position)
    (hpresent : ∀ t, P t → t.sourceText span = .ok present) (place : LiteralPlace) (text : Text) :
    Revises P (reviseLiteral span place text : Revision M O Unit) a ()
      (insertion span.start place.before.toInsert ++ (replacement span present text ++
        insertion span.stop place.behind.toInsert)) (place.behind.stopBehind span) := by
  unfold reviseLiteral
  refine .bind (Revises.insert a span.start _) (.read fun t ht => ⟨present, hpresent t ht, ?_⟩)
  let next (_ : Unit) : Revision M O Unit := do
    Revision.edit fun p => p.insert span.stop place.behind.toInsert
    Revision.moveTo (place.behind.stopBehind span)
  have hnext : Revises P (next ()) a () (insertion span.stop place.behind.toInsert ++ [])
      (place.behind.stopBehind span) :=
    .bind (Revises.insert a span.stop _) (.moveTo a _)
  have h := Revises.replaceIf span present text hnext
  rw [List.append_nil] at h
  by_cases htext : text = present
  · rw [if_neg (fun hne => hne htext.symm)]
    rwa [if_neg (fun hne => hne htext)] at h
  · rw [if_pos (Ne.symm htext)]
    rwa [if_pos htext] at h

/-- A literal with nothing to insert around it. -/
theorem Revises.literal {span : Span} {present : Text} (a : Position)
    (hpresent : ∀ t, P t → t.sourceText span = .ok present) (text : Text) :
    Revises P (reviseLiteral span { span? := some span } text : Revision M O Unit) a ()
      (replacement span present text) span.stop := by
  have h := Revises.literalPlace a hpresent { span? := some span } text
  unfold insertion at h
  simp only [Delimiter.toInsert, List.isEmpty_nil, if_true, List.nil_append, List.append_nil] at h
  exact h

/-- The delimiter in front of an item is brought in line with a literal.
One that is in the source has the text of the literal or is removed. -/
def delimiterEdits (delimiter : Delimiter) (literal : Text) (anchor : Position) : List Edit :=
  match delimiter with
  | .present found span => if found = literal then [] else [⟨.replace, span, literal⟩]
  | _ => insertion anchor literal

theorem Revises.delimiter (a : Position) (delimiter : Delimiter) (literal : Text) (anchor : Position) :
    Revises P (reviseDelimiter delimiter literal anchor : Revision M O Unit) a ()
      (delimiterEdits delimiter literal anchor) a := by
  unfold reviseDelimiter delimiterEdits
  cases delimiter with
  | empty => exact .insert a anchor literal
  | missing found => exact .insert a anchor literal
  | present found span =>
    dsimp only
    split
    · exact .pure a ()
    · exact .replace a span literal

/-- An item with a delimiter in front and none behind. -/
theorem Revises.item {print : Nat → Margin → Job M O Text} {unit : Margin} {id : Nat}
    {before : Delimiter} {span : Span} {present printed : Text} (a : Position) (lead : Text)
    (hplace : ∀ t, P t → ∃ p, t.placeOfNode id = .ok p ∧ p.span = span ∧ p.before = before ∧
      p.behind = .empty)
    (hpresent : ∀ t, P t → t.sourceText span = .ok present)
    (hprint : Runs P (print id unit) printed P) :
    Revises P (reviseItem print unit id (some (lead, []))) a ()
      (delimiterEdits before lead span.start ++ replacement span present printed) span.stop := by
  unfold reviseItem
  refine .read fun t ht => ?_
  obtain ⟨p, hp, rfl, rfl, hbehind⟩ := hplace t ht
  refine ⟨p, hp, ?_⟩
  dsimp only [Option.getD_some]
  rw [hbehind]
  refine .bind (.delimiter a p.before lead p.span.start) ?_
  refine .bind_nil (.onTree hprint a) (.read fun t ht => ⟨present, hpresent t ht, ?_⟩)
  let next (_ : Unit) : Revision M O Unit := do
    reviseDelimiter .empty [] p.span.stop
    Revision.moveTo p.span.stop
  have hnext : Revises P (next ()) a () [] p.span.stop :=
    .bind_nil (Revises.insert a p.span.stop []) (.moveTo a p.span.stop)
  have h := Revises.replaceIf p.span present printed hnext
  rwa [List.append_nil] at h

variable [DecidableEq O] {print : Nat → Margin → Job M O Text} {m : M} {owner : Nat}

/-- A part without source text. -/
theorem Revises.part {unit : Margin} {part : Part M O} {text inserted : Text} (a : Position)
    (hprint : Runs P (normalPart print m owner unit part) text P)
    (haligned : ∀ t, P t → t.aligned owner part.frame.indent text = inserted) :
    Revises P (insertPart print m owner unit part) a () (insertion a inserted) a := by
  unfold insertPart
  refine .bind_nil (.onTree hprint a) (.get fun t patch ht => ?_)
  rw [haligned t ht]
  exact .insertHere a inserted

/-- An object without source text. -/
theorem Revises.fresh {unit : Margin} {indent : Indent} {lead body inserted : Text} {x : O}
    (a : Position) (hprint : Runs P (printBelow print m owner x unit) (some body) P)
    (hlevel : (unit.within indent).level = 0)
    (haligned : ∀ t, P t → t.aligned owner indent (lead ++ body) = inserted) :
    Revises P (freshText print m owner unit indent lead [] x) a inserted [] a := by
  unfold freshText
  refine .bind_nil (.onTree hprint a) (.get fun t patch ht => ?_)
  rw [Margin.apply, if_pos hlevel, List.append_nil, haligned t ht]
  exact .pure a inserted

/-- The other part of a choice, where the choice has an extent or none. -/
theorem Revises.switch {unit : Margin} {frame : Frame} {part : Part M O} {text inserted : Text}
    (a : Position) (hprint : Runs P (normalPart print m owner unit part) text P)
    (haligned : ∀ t, P t → t.aligned owner part.frame.indent text = inserted) :
    Revises P (switchTo print m owner unit frame (some part)) a ()
      (match frame.extent with
        | some span => [⟨.replace, span, inserted⟩]
        | none => insertion a inserted)
      (match frame.extent with
        | some span => span.stop
        | none => a) := by
  have hover : Revises P (Revision.overwrite frame.extent inserted : Revision M O Unit) a ()
      (match frame.extent with
        | some span => [⟨.replace, span, inserted⟩]
        | none => insertion a inserted)
      (match frame.extent with
        | some span => span.stop
        | none => a) := by
    cases frame.extent with
    | none => exact .insertHere a inserted
    | some span => exact .overwrite a span inserted
  unfold switchTo
  refine .bind_nil (.onTree hprint a) (.get fun t patch ht => ?_)
  rw [haligned t ht]
  exact .bind_nil (.pure a inserted) hover

/-- A choice of two parts one of which is in the source. -/
theorem revisePart_choice {unit : Margin} {frame : Frame} {test : M → Bool} {yes other : Part M O}
    {taken : Bool} :
    revisePart print m owner unit (.choice frame test yes (some other) (some taken)) =
      if test m then
        if taken then revisePart print m owner unit yes
        else switchTo print m owner unit frame (some yes)
      else if taken then switchTo print m owner unit frame (some other)
      else revisePart print m owner unit other := by
  cases taken <;> cases htest : test m <;> simp [revisePart, htest]

end Items

/-! ## Lists -/

section Listed

variable [DecidableEq O] {print : Nat → Margin → Job M O Text} {m : M} {owner : Nat} {unit : Margin}
  {frame : Frame} {list : ItemList M O} {count index : Nat} {object : O} {rest done spare : List O}
  {item : ListedItem O}

theorem reviseListed_found (hitem : list.item? object = some item) (hdone : object ∉ done) :
    reviseListed print m owner unit frame list count index (object :: rest) done spare =
      (reviseItem print unit item.node (some (list.around frame index count)) >>= fun _ =>
        reviseListed print m owner unit frame list count (index + 1) rest (object :: done) spare) := by
  have hcontains : done.contains object = false := by simpa using hdone
  rw [reviseListed, hitem]
  simp only [hcontains, Bool.not_false, if_true]

theorem reviseListed_fresh (hitem : list.item? object = none) :
    reviseListed print m owner unit frame list count index (object :: rest) done spare =
      (freshText print m owner unit frame.indent (list.around frame index count).1
        (list.around frame index count).2 object >>= fun text => Revision.insertHere text >>= fun _ =>
        reviseListed print m owner unit frame list count (index + 1) rest done spare) := by
  rw [reviseListed, hitem]

end Listed

end Reprint.Tree
