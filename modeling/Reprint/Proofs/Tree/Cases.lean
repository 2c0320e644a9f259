import Reprint.Proofs.Tree.Keeping
import Reprint.Proofs.Tree.Nodes
import Reprint.Tree.Locate

/-!
# Locating, case by case

What it comes to when a delimiter, a literal, an item, a part or a node is
located is said here once.  The inductions over the visit of a tree go by these
cases, and none of them opens the functions again.

* `locateDelimiter_cases`, `locateAround_cases` and `locateLiteral_cases` are for a
  search that succeeds.
* `ItemVisit` has one constructor for each stage at which the search for an item
  can end (`locateItem_visit`).
* `locatePart_items`, `locatePart_yes` and the like say of a part what is located
  of it, and what is made of that.
* `locateWithin_cases` is the visit of a node.  `after_locateWithin` is the tree
  that it leaves behind.  `locateWithin_eq_ok` and `locateWithin_eq_error` are for
  a visit that succeeds, and for one that fails.
-/

namespace Reprint.Tree

variable {M O : Type}

/-! ## Delimiters -/

/-- The search for a delimiter, which goes outward from the boundary. -/
def findOutward (t : Tree M O) (owner : Nat) (boundary : Position) (literal : Text) :
    Role → Except Error (Option Span)
  | .lead => t.findBackward owner boundary literal
  | _ => t.findForward owner boundary literal

/-- The span of a delimiter: its literal and the gap to the boundary. -/
def outwardSpan (boundary : Position) (window : Span) : Role → Span
  | .lead => Span.between window.start boundary
  | _ => Span.between boundary window.stop

/-- What becomes of the result of a search for a delimiter, whichever span the
delimiter gets. -/
private theorem locateDelimiter_found (t : Tree M O) (owner : Nat) (literal : Text) (role : Role)
    (found : Except Error (Option Span)) (spanOf : Span → Span) :
    (do
      match ← found with
      | none => return (.missing literal, t)
      | some window =>
        return (.present literal (spanOf window), ← t.mark owner role (spanOf window)) :
      Except Error (Delimiter × Tree M O)) =
    match found with
    | .error e => .error e
    | .ok none => .ok (.missing literal, t)
    | .ok (some window) =>
      match t.mark owner role (spanOf window) with
      | .error e => .error e
      | .ok t' => .ok (.present literal (spanOf window), t') := by
  rcases found with e | _ | window
  · rfl
  · rfl
  · simp only [bind, Except.bind]
    generalize t.mark owner role (spanOf window) = marked
    cases marked <;> rfl

/-- The search for a delimiter, case by case. -/
theorem locateDelimiter_eq (t : Tree M O) (owner : Nat) (boundary : Position) (literal : Text)
    (role : Role) :
    t.locateDelimiter owner boundary literal role =
      if literal.isEmpty then .ok (.empty, t)
      else
        match t.findOutward owner boundary literal role with
        | .error e => .error e
        | .ok none => .ok (.missing literal, t)
        | .ok (some window) =>
          match t.mark owner role (outwardSpan boundary window role) with
          | .error e => .error e
          | .ok t' => .ok (.present literal (outwardSpan boundary window role), t') := by
  have key := t.locateDelimiter_found owner literal role
  unfold locateDelimiter
  split
  · rfl
  · cases role with
    | literal => exact key _ fun window => Span.between boundary window.stop
    | lead => exact key _ fun window => Span.between window.start boundary
    | trail => exact key _ fun window => Span.between boundary window.stop

/-- What a search for a delimiter does when it succeeds: nothing, or it
records what it found. -/
theorem locateDelimiter_cases {t t' : Tree M O} {owner : Nat} {boundary : Position} {literal : Text}
    {role : Role} {d : Delimiter} (h : t.locateDelimiter owner boundary literal role = .ok (d, t')) :
    t' = t ∧ (literal = [] ∧ d = .empty ∨ d = .missing literal) ∨
      ∃ window, literal ≠ [] ∧ t.findOutward owner boundary literal role = .ok (some window) ∧
        d = .present literal (outwardSpan boundary window role) ∧
        t.mark owner role (outwardSpan boundary window role) = .ok t' := by
  rw [locateDelimiter_eq] at h
  split at h
  · next hempty =>
    cases h
    exact Or.inl ⟨rfl, Or.inl ⟨List.isEmpty_iff.1 hempty, rfl⟩⟩
  · next hsome =>
    split at h
    · cases h
    · cases h
      exact Or.inl ⟨rfl, Or.inr rfl⟩
    · next window hfind =>
      split at h
      · cases h
      · next hmark =>
        cases h
        exact Or.inr ⟨window, by simpa using hsome, hfind, rfl, hmark⟩

/-- The delimiters on both sides are searched for one after the other. -/
theorem locateAround_cases {t t' : Tree M O} {owner : Nat} {span : Span} {lead trail : Text}
    {before behind : Delimiter} (h : t.locateAround owner span lead trail = .ok (before, behind, t')) :
    ∃ u, t.locateDelimiter owner span.start lead .lead = .ok (before, u) ∧
      u.locateDelimiter owner span.stop trail .trail = .ok (behind, t') := by
  unfold locateAround at h
  cases hbefore : t.locateDelimiter owner span.start lead .lead with
  | error e =>
    rw [hbefore] at h
    cases h
  | ok found =>
    obtain ⟨d, u⟩ := found
    rw [hbefore] at h
    simp only [bind, Except.bind] at h
    cases hbehind : u.locateDelimiter owner span.stop trail .trail with
    | error e =>
      rw [hbehind] at h
      cases h
    | ok found =>
      obtain ⟨d', u'⟩ := found
      rw [hbehind] at h
      cases h
      exact ⟨u, rfl, hbehind⟩

/-! ## Literals -/

/-- Where a literal is: where it is pinned, or where it is found. -/
def literalSpan? (s : Survey M O) (owner : Nat) (text : Text) (place : LiteralPlace) :
    Except Error (Option Span) :=
  match place.span? with
  | some span => .ok (some span)
  | none => if text.isEmpty then .ok none else s.tree.findForward owner s.cursor text

/-- The tree in which a literal is recorded that was found or pinned.  An
empty piece is not recorded. -/
def markLiteral (t : Tree M O) (owner : Nat) (span : Span) : Except Error (Tree M O) :=
  if span.isEmpty then .ok t else t.mark owner .literal span

theorem markLiteral_cases {t t' : Tree M O} {owner : Nat} {span : Span}
    (h : t.markLiteral owner span = .ok t') : t' = t ∨ t.mark owner .literal span = .ok t' := by
  unfold markLiteral at h
  split at h
  · cases h
    exact Or.inl rfl
  · exact Or.inr h

/-- What becomes of a literal whose span is known. -/
private theorem locateLiteral_at (s : Survey M O) (owner : Nat) (frame : Frame) (span : Span) :
    (do
      let t ← if span.isEmpty then pure s.tree else s.tree.mark owner .literal span
      let (before, behind, t) ← t.locateAround owner span frame.leadText frame.trailText
      return (⟨some span, before, behind⟩,
        { s with tree := t, cursor := behind.stopBehind span }) :
      Except Error (LiteralPlace × Survey M O)) =
    match if span.isEmpty then .ok s.tree else s.tree.mark owner .literal span with
    | .error e => .error e
    | .ok t =>
      match t.locateAround owner span frame.leadText frame.trailText with
      | .error e => .error e
      | .ok (before, behind, t) =>
        .ok (⟨some span, before, behind⟩,
          { s with tree := t, cursor := behind.stopBehind span }) := by
  split
  · simp only [pure, Except.pure, bind, Except.bind]
    generalize (s.tree.locateAround owner span _ _) = found
    rcases found with e | ⟨before, behind, t⟩ <;> rfl
  · simp only [bind, Except.bind]
    generalize (s.tree.mark owner _ _) = marked
    rcases marked with e | t
    · rfl
    · dsimp only
      generalize (t.locateAround owner span _ _) = found
      rcases found with e | ⟨before, behind, t⟩ <;> rfl

/-- The search for a literal, case by case. -/
theorem locateLiteral_eq (s : Survey M O) (owner : Nat) (frame : Frame) (text : Text)
    (place : LiteralPlace) :
    locateLiteral s owner frame text place =
      match literalSpan? s owner text place with
      | .error e => .error e
      | .ok none => .ok (place, s)
      | .ok (some span) =>
        match s.tree.markLiteral owner span with
        | .error e => .error e
        | .ok t =>
          match t.locateAround owner span frame.leadText frame.trailText with
          | .error e => .error e
          | .ok (before, behind, t) =>
            .ok (⟨some span, before, behind⟩,
              { s with tree := t, cursor := behind.stopBehind span }) := by
  have hmarked := locateLiteral_at s owner frame
  unfold locateLiteral literalSpan?
  cases place.span? with
  | some span => exact hmarked span
  | none =>
    dsimp only
    split
    · rfl
    · generalize (s.tree.findForward owner s.cursor text) = found
      rcases found with e | _ | span
      · rfl
      · rfl
      · exact hmarked span

/-- What locating a literal does when it succeeds. -/
theorem locateLiteral_cases {s s' : Survey M O} {owner : Nat} {frame : Frame} {text : Text}
    {place place' : LiteralPlace} (h : locateLiteral s owner frame text place = .ok (place', s')) :
    literalSpan? s owner text place = .ok none ∧ place' = place ∧ s' = s ∨
      ∃ span t u before behind, literalSpan? s owner text place = .ok (some span) ∧
        s.tree.markLiteral owner span = .ok t ∧
        t.locateAround owner span frame.leadText frame.trailText = .ok (before, behind, u) ∧
        place' = ⟨some span, before, behind⟩ ∧
        s' = { s with tree := u, cursor := behind.stopBehind span } := by
  rw [locateLiteral_eq] at h
  split at h
  · cases h
  · next hspan =>
    cases h
    exact Or.inl ⟨hspan, rfl, rfl⟩
  · next span hspan =>
    split at h
    · cases h
    · next t hmarked =>
      split at h
      · cases h
      · next before behind u haround =>
        cases h
        exact Or.inr ⟨span, t, u, before, behind, hspan, hmarked, haround, rfl, rfl⟩

/-! ## Parts, case by case

A part that is left half done is kept as far as it got, so a part that was
located is put together in one of two ways.  What was located of it and the visit
afterwards are the same in both. -/

section Parts

variable [DecidableEq O] {descend : Nat → Job M O Unit} {m : M} {owner : Nat}

theorem locatePart_items (frame : Frame) (list : ItemList M O) (s : Survey M O) :
    locatePart descend m owner (.items frame list) s =
      let located :=
        locateItems descend m owner frame (list.supply m).length 0 (list.supply m) list none s
      (.items (if located.2.2.isRunning then { frame with extent := located.2.1 } else frame)
        located.1, located.2.2) := by
  rw [locatePart]
  dsimp only
  split <;> rfl

/-- A choice of which the first part is selected. -/
theorem locatePart_yes {test : M → Bool} (htest : test m = true) (frame : Frame) (yes : Part M O)
    (no : Option (Part M O)) (taken : Option Bool) (s : Survey M O) :
    locatePart descend m owner (.choice frame test yes no taken) s =
      let located := locatePart descend m owner yes s
      (if located.2.isRunning then
          .choice { frame with extent := located.1.settle.frame.extent } test located.1.settle no
            (some true)
        else .choice frame test located.1 no taken, located.2) := by
  cases no <;> rw [locatePart, if_pos htest] <;> dsimp only <;> split <;> rfl

/-- A choice of which the second part is selected. -/
theorem locatePart_no {test : M → Bool} (htest : test m = false) (frame : Frame)
    (yes other : Part M O) (taken : Option Bool) (s : Survey M O) :
    locatePart descend m owner (.choice frame test yes (some other) taken) s =
      let located := locatePart descend m owner other s
      (if located.2.isRunning then
          .choice { frame with extent := located.1.settle.frame.extent } test yes
            (some located.1.settle) (some false)
        else .choice frame test yes (some located.1) taken, located.2) := by
  rw [locatePart, htest, if_neg Bool.false_ne_true]
  dsimp only
  split <;> rfl

/-- A choice of which no part is selected. -/
theorem locatePart_neither {test : M → Bool} (htest : test m = false) (frame : Frame)
    (yes : Part M O) (taken : Option Bool) (s : Survey M O) :
    locatePart descend m owner (.choice frame test yes none taken) s =
      (.choice frame test yes none taken, s) := by
  rw [locatePart, htest, if_neg Bool.false_ne_true]

theorem locatePart_group (frame : Frame) (members : List (Part M O)) (stale : Bool)
    (s : Survey M O) :
    locatePart descend m owner (.group frame members stale) s =
      let located := locateParts descend m owner members s
      (if located.2.isRunning then (Part.group frame located.1 stale).settle
        else .group frame located.1 stale, located.2) := by
  rw [locatePart]

theorem locateParts_cons (p : Part M O) (rest : List (Part M O)) (s : Survey M O) :
    locateParts descend m owner (p :: rest) s =
      let first := locatePart descend m owner p s
      if first.2.isRunning then
        let others := locateParts descend m owner rest first.2
        (first.1 :: others.1, others.2)
      else (first.1 :: rest, first.2) := by
  rw [locateParts]

/-! ## Items, case by case -/

/-- What comes of an object that a list or a slot names: the item that is found,
if any, and the visit afterwards.  The cases are in the order of the stages, and
each but the last one is a stage that is not passed. -/
inductive ItemVisit (descend : Nat → Job M O Unit) (m : M) (owner : Nat) (object : O)
    (lead trail : Text) (s : Survey M O) : Option Nat → Survey M O → Prop
  | skipped {e} (refused : s.tree.getNode m owner object = .error e) (harmless : e.isLocal = true) :
      ItemVisit descend m owner object lead trail s none s
  | refused {e} (refused : s.tree.getNode m owner object = .error e) (final : e.isLocal = false) :
      ItemVisit descend m owner object lead trail s none (s.fail e)
  | again {id t} (node : s.tree.getNode m owner object = .ok (id, t))
      (located : t.isLocated id = true) :
      ItemVisit descend m owner object lead trail s none { s with tree := t }
  | failed {id t u e} (node : s.tree.getNode m owner object = .ok (id, t))
      (fresh : t.isLocated id = false) (below : descend id t = .error e u) :
      ItemVisit descend m owner object lead trail s none { s with tree := u, failure := some e }
  | unread {id t u} (node : s.tree.getNode m owner object = .ok (id, t))
      (fresh : t.isLocated id = false) (below : descend id t = .ok () u)
      (unread : (u.nodes[id]?).bind Node.span? = none) :
      ItemVisit descend m owner object lead trail s none { s with tree := u }
  | blocked {id t u span e} (node : s.tree.getNode m owner object = .ok (id, t))
      (fresh : t.isLocated id = false) (below : descend id t = .ok () u)
      (read : (u.nodes[id]?).bind Node.span? = some span)
      (blocked : u.locateAround owner span lead trail = .error e) :
      ItemVisit descend m owner object lead trail s none { s with tree := u, failure := some e }
  | found {id t u v span before behind} (node : s.tree.getNode m owner object = .ok (id, t))
      (fresh : t.isLocated id = false) (below : descend id t = .ok () u)
      (read : (u.nodes[id]?).bind Node.span? = some span)
      (around : u.locateAround owner span lead trail = .ok (before, behind, v)) :
      ItemVisit descend m owner object lead trail s (some id)
        { s with
          tree := v.modify id fun n => n.mapPlace fun p =>
            { p with before := before, behind := behind }
          cursor := behind.stopBehind span }

theorem locateItem_visit {object : O} {lead trail : Text} {s s' : Survey M O} {found : Option Nat}
    (h : locateItem descend m owner object lead trail s = (found, s')) :
    ItemVisit descend m owner object lead trail s found s' := by
  unfold locateItem at h
  cases node : s.tree.getNode m owner object with
  | error e =>
    simp only [node] at h
    cases harmless : e.isLocal <;> rw [harmless] at h <;> cases h
    · exact .refused node harmless
    · exact .skipped node harmless
  | ok looked =>
    obtain ⟨id, t⟩ := looked
    simp only [node] at h
    cases fresh : t.isLocated id with
    | true =>
      rw [if_pos fresh] at h
      cases h
      exact .again node fresh
    | false =>
      rw [fresh, if_neg Bool.false_ne_true] at h
      cases below : descend id t with
      | error e u =>
        rw [below] at h
        cases h
        exact .failed node fresh below
      | ok _ u =>
        simp only [below] at h
        cases read : (u.nodes[id]?).bind Node.span? with
        | none =>
          rw [read] at h
          cases h
          exact .unread node fresh below read
        | some span =>
          simp only [read] at h
          cases around : u.locateAround owner span lead trail with
          | error e =>
            rw [around] at h
            cases h
            exact .blocked node fresh below read around
          | ok delimiters =>
            rw [around] at h
            cases h
            exact .found node fresh below read around

/-! ## Nodes, case by case -/

/-- The tree after the visit of a node. -/
def Survey.finish (s : Survey M O) (id : Nat) (parts : List (Part M O)) : Tree M O :=
  s.tree.modify id fun n => n.finish parts s.cursor

/-- A node is passed over if it has no source text or was visited before.  The
parts of any other one are located from the start of its source text on. -/
theorem locateWithin_cases (m : M) (depth id : Nat) (t : Tree M O) :
    (∃ e, t.node id = .error e ∧ locateWithin m (depth + 1) id t = .error e t) ∨
      (∃ n, t.nodes[id]? = some n ∧ (n.place = none ∨ n.isLocated = true) ∧
        locateWithin m (depth + 1) id t = .ok () t) ∨
      ∃ n place parts s, t.nodes[id]? = some n ∧ n.place = some place ∧ place.located = false ∧
        locateParts (locateWithin m depth) m id n.parts ⟨t, place.span.start, none⟩ = (parts, s) ∧
        locateWithin m (depth + 1) id t =
          match s.failure with
          | none => .ok () (s.finish id parts)
          | some e => .error e (s.finish id parts) := by
  rw [locateWithin]
  dsimp only
  cases hn : t.node id with
  | error e => exact Or.inl ⟨e, rfl, rfl⟩
  | ok n =>
    rw [node_eq_ok] at hn
    right
    dsimp only
    cases hplace : n.place with
    | none => exact Or.inl ⟨n, hn, Or.inl hplace, rfl⟩
    | some place =>
      cases hlocated : place.located with
      | true =>
        exact Or.inl ⟨n, hn, Or.inr ((Node.isLocated_of_place hplace).trans hlocated), if_pos hlocated⟩
      | false =>
        refine Or.inr ⟨n, place, _, _, hn, hplace, hlocated, rfl, ?_⟩
        simp only [hlocated, Bool.false_eq_true, if_false]
        rfl

/-- A node whose parts can be located. -/
theorem locateWithin_of_parts {m : M} {depth id : Nat} {t t' : Tree M O} {n : Node M O} {p : Place}
    {parts : List (Part M O)} {cursor : Position} (hn : t.nodes[id]? = some n)
    (hp : n.place = some p) (hnot : p.located = false)
    (hrun : locateParts (locateWithin m depth) m id n.parts ⟨t, p.span.start, none⟩ =
      (parts, ⟨t', cursor, none⟩)) :
    locateWithin m (depth + 1) id t = .ok () (t'.modify id fun n => n.finish parts cursor) := by
  simp only [locateWithin, node_eq_ok.2 hn, hp, hnot, hrun, Bool.false_eq_true, if_false]
  rfl

/-- A node that was visited before. -/
theorem locateWithin_of_located (m : M) (depth : Nat) {id : Nat} {t : Tree M O} {n : Node M O}
    (hn : t.nodes[id]? = some n) (hlocated : n.isLocated = true) :
    locateWithin m (depth + 1) id t = .ok () t := by
  obtain ⟨p, hp, hlocated⟩ := n.isLocated_iff.1 hlocated
  simp only [locateWithin, node_eq_ok.2 hn, hp, hlocated, if_true]

/-- What the visit of a node leaves behind, whether it fails or not. -/
theorem after_locateWithin (m : M) (depth id : Nat) (t : Tree M O) :
    (locateWithin m (depth + 1) id).after t = t ∨
      ∃ n place parts s, t.nodes[id]? = some n ∧ n.place = some place ∧ place.located = false ∧
        locateParts (locateWithin m depth) m id n.parts ⟨t, place.span.start, none⟩ = (parts, s) ∧
        (locateWithin m (depth + 1) id).after t = s.finish id parts := by
  rcases locateWithin_cases m depth id t with
    ⟨e, _, hrun⟩ | ⟨_, _, _, hrun⟩ | ⟨n, place, parts, s, hn, hplace, hlocated, hparts, hrun⟩
  · exact Or.inl (Job.after_of_error hrun)
  · exact Or.inl (Job.after_of_ok hrun)
  · refine Or.inr ⟨n, place, parts, s, hn, hplace, hlocated, hparts, ?_⟩
    rw [Job.after, hrun]
    cases s.failure <;> rfl

/-- What the visit of a node comes to if it succeeds. -/
theorem locateWithin_eq_ok {m : M} {depth id : Nat} {t t' : Tree M O}
    (h : locateWithin m (depth + 1) id t = .ok () t') :
    ∃ n, t.nodes[id]? = some n ∧
      ((n.place = none ∨ n.isLocated = true) ∧ t' = t ∨
        ∃ place parts s, n.place = some place ∧ place.located = false ∧
          locateParts (locateWithin m depth) m id n.parts ⟨t, place.span.start, none⟩ = (parts, s) ∧
          s.failure = none ∧ t' = s.finish id parts) := by
  rcases locateWithin_cases m depth id t with
    ⟨e, _, hrun⟩ | ⟨n, hn, hpassed, hrun⟩ | ⟨n, place, parts, s, hn, hplace, hlocated, hparts, hrun⟩
  · rw [h] at hrun
    cases hrun
  · rw [h] at hrun
    cases hrun
    exact ⟨n, hn, Or.inl ⟨hpassed, rfl⟩⟩
  · rw [h] at hrun
    refine ⟨n, hn, Or.inr ⟨place, parts, s, hplace, hlocated, hparts, ?_⟩⟩
    cases hfailure : s.failure with
    | none =>
      rw [hfailure] at hrun
      cases hrun
      exact ⟨rfl, rfl⟩
    | some e =>
      rw [hfailure] at hrun
      cases hrun

/-- What the visit of a node comes to if it fails. -/
theorem locateWithin_eq_error {m : M} {depth id : Nat} {t t' : Tree M O} {n : Node M O} {e : Error}
    (hn : t.nodes[id]? = some n) (h : locateWithin m (depth + 1) id t = .error e t') :
    ∃ place parts s, n.place = some place ∧ place.located = false ∧
      locateParts (locateWithin m depth) m id n.parts ⟨t, place.span.start, none⟩ = (parts, s) ∧
      s.failure = some e ∧ t' = s.finish id parts := by
  rcases locateWithin_cases m depth id t with
    ⟨_, hnone, _⟩ | ⟨_, _, _, hrun⟩ | ⟨k, place, parts, s, hk, hplace, hlocated, hparts, hrun⟩
  · rw [node_eq_ok.2 hn] at hnone
    cases hnone
  · rw [h] at hrun
    cases hrun
  · obtain rfl := Option.some.inj (hn.symm.trans hk)
    rw [h] at hrun
    refine ⟨place, parts, s, hplace, hlocated, hparts, ?_⟩
    cases hfailure : s.failure with
    | none =>
      rw [hfailure] at hrun
      cases hrun
    | some e' =>
      rw [hfailure] at hrun
      cases hrun
      exact ⟨rfl, rfl⟩

end Parts

end Reprint.Tree
