import Reprint.Proofs.Tree.Carried
import Reprint.Proofs.Tree.Unsearched

/-!
# Reached trees

A tree is made with its root alone (`Tree.ofRoot`).  `Operation` lists what
can be done with it from then on, in any order, and `Tree.Reached` the
trees that come out, whether the operations succeed or fail.  Between two
operations the model may change in any way, so every operation comes with a
model of its own.

Every reached tree is well-formed, and every operation only adds to it
(`Reached.wellFormed_extends`).
-/

namespace Reprint

variable {M O : Type}

/-- What can be done with a tree. -/
inductive Operation (M O : Type) where
  | getNode (m : M) (parent : Nat) (object : O)
  | locate (m : M)
  | editParts (id : Nat) (change : List (Part M O) → Except Error (List (Part M O)))
  | print (m : M) (id : Nat) (margin : Margin)
  | printNormal (m : M) (id : Nat) (margin : Margin)
  | printRoot (m : M)
  | printSource (m : M)
  | printMapped (m : M) (file : Text)

namespace Tree

/-- A step that leaves the tree as it is when it fails. -/
def Job.attempt (step : Tree M O → Except Error (Tree M O)) : Job M O Unit := fun t =>
  match step t with
  | .ok u => .ok () u
  | .error e => .error e t

namespace Job

variable {P : Tree M O → Prop} {step : Tree M O → Except Error (Tree M O)}

theorem Keeping.attempt (hstep : ∀ {t u : Tree M O}, P t → step t = .ok u → P u) :
    Job.Keeping P (Job.attempt step) := by
  intro t ht
  unfold Job.after Job.attempt
  cases hrun : step t with
  | ok u => exact hstep ht hrun
  | error e => exact ht

/-- An operation whose result is not used. -/
theorem after_discard {α : Type} (job : Job M O α) (t : Tree M O) :
    (do let _ ← job : Job M O Unit).after t = job.after t := by
  unfold Job.after
  simp only [bind, EStateM.bind]
  cases job t <;> rfl

/-- A failed attempt leaves no trace. -/
theorem after_attempt {t : Tree M O} {e : Error} (h : step t = .error e) :
    (Job.attempt step).after t = t := by
  unfold Job.after Job.attempt
  rw [h]

end Job

end Tree

namespace Operation

open Reprint.Tree

variable [DecidableEq O]

/-- Works on a tree. -/
def run : Operation M O → Job M O Unit
  | .getNode m parent object => Job.attempt fun t => (t.getNode m parent object).map Prod.snd
  | .locate m => Tree.locate m
  | .editParts id change => Job.attempt fun t => t.editParts id change
  | .print m id margin => do let _ ← Tree.print m id margin
  | .printNormal m id margin => do let _ ← Tree.printNormal m id margin
  | .printRoot m => do let _ ← Tree.printRoot m
  | .printSource m => do let _ ← Tree.printSource m
  | .printMapped m file => do let _ ← Tree.printMapped m file

/-- An operation keeps what looking nodes up, printing and locating keep, if a
change of parts does. -/
theorem kept {P : Tree M O → Prop} (hprints : ∀ m, Prints m P)
    (hlocate : ∀ m, Job.Keeping P (Tree.locate m)) (op : Operation M O) {t : Tree M O} (ht : P t)
    (hedit : ∀ {id : Nat} {change : List (Part M O) → Except Error (List (Part M O))}
      {n : Node M O} {parts : List (Part M O)}, op = .editParts id change →
      t.nodes[id]? = some n → change n.parts = .ok parts →
      P (t.modify id fun n => { n with parts := parts })) :
    P (op.run.after t) := by
  cases op with
  | getNode m parent object =>
    refine Job.Keeping.attempt (fun {u v} hu hrun => ?_) t ht
    cases hget : u.getNode m parent object with
    | error e =>
      rw [hget] at hrun
      cases hrun
    | ok found =>
      obtain ⟨id, v'⟩ := found
      rw [hget] at hrun
      cases hrun
      exact (hprints m).getNode hu hget
  | locate m => exact hlocate m t ht
  | editParts id change =>
    show P ((Job.attempt fun t => t.editParts id change).after t)
    unfold Job.after Job.attempt
    dsimp only
    cases hrun : t.editParts id change with
    | error e => exact ht
    | ok u =>
      obtain ⟨n, parts, hn, hparts, rfl⟩ := editParts_eq_ok hrun
      exact hedit rfl hn hparts
  | print m id margin =>
    exact Job.Keeping.bind ((hprints m).print id margin) (fun _ => .pure _) t ht
  | printNormal m id margin =>
    exact Job.Keeping.bind ((hprints m).printNormal id margin) (fun _ => .pure _) t ht
  | printRoot m => exact Job.Keeping.bind (hprints m).printRoot (fun _ => .pure _) t ht
  | printSource m => exact Job.Keeping.bind (hprints m).printSource (fun _ => .pure _) t ht
  | printMapped m file =>
    exact Job.Keeping.bind ((hprints m).printMapped file) (fun _ => .pure _) t ht

/-- A well-formed tree that has grown out of another one stays so. -/
theorem keeping (t : Tree M O) (op : Operation M O) :
    Job.Keeping (fun u => t.Extends u ∧ u.WellFormed) op.run := by
  have h := fun m => WellFormed.carried m t
  intro u hu
  refine op.kept (fun m => (h m).toPrints) (fun m => (h m).locate) hu fun {id _ _ parts} _ _ _ => ?_
  have hparts : ∀ n : Node M O, n.Retouched { n with parts := parts } := fun n => .parts n parts
  exact ⟨hu.1.trans (.modify u id hparts), hu.2.modify id hparts⟩

end Operation

namespace Tree

variable [DecidableEq O]

/-- A tree that was made from a source, with everything that was done with
it since. -/
inductive Reached (language : Language M O) (source : Text) : Tree M O → Prop where
  | made {m : M} {object : O} {t : Tree M O} :
      ofRoot language m source object = .ok t → Reached language source t
  | step {t : Tree M O} (op : Operation M O) :
      Reached language source t → Reached language source (op.run.after t)

/-- A tree with its root alone. -/
theorem wellFormed_ofRoot {language : Language M O} {m : M} {source : Text} {object : O}
    {t : Tree M O} (h : ofRoot language m source object = .ok t) : t.WellFormed := by
  obtain ⟨layout, place, _, hplace, rfl⟩ := newNode_eq_ok h
  rw [addNode_none]
  have hroot : ∀ {id : Nat} {n : Node M O},
      (#[].push ⟨object, [], [], place, layout.parts⟩ : Array (Node M O))[id]? = some n →
      id = root ∧ n = ⟨object, [], [], place, layout.parts⟩ := by
    intro id n hn
    obtain rfl : id = 0 := by
      have := (Array.getElem?_eq_some_iff.1 hn).1
      simp only [Array.size_push, List.size_toArray, List.length_nil] at this
      omega
    cases hn
    exact ⟨rfl, rfl⟩
  constructor
  · refine ⟨⟨_, rfl, rfl⟩, fun hn hid => absurd (hroot hn).1 hid, fun hn hc => ?_⟩
    obtain ⟨_, rfl⟩ := hroot hn
    cases hc
  · refine ⟨fun hn hr => ?_, fun hn hs => ?_, fun hn _ ha => ?_, fun hmark => ?_, fun hmark => ?_⟩
    · obtain ⟨_, rfl⟩ := hroot hn
      obtain ⟨p, rfl, rfl⟩ := Option.map_eq_some_iff.1 hr
      obtain ⟨hvalid, hfresh⟩ := placeOf_eq_ok hplace
      refine ⟨p.span, rfl, hvalid, ?_⟩
      rw [hfresh]
      exact Span.contains_self _
    · obtain ⟨_, rfl⟩ := hroot hn
      obtain ⟨p, rfl, _⟩ := Option.map_eq_some_iff.1 hs
      exact ⟨p.parsed, rfl⟩
    · obtain ⟨_, rfl⟩ := hroot hn
      cases ha
    · cases hmark
    · cases hmark

theorem Reached.wellFormed {language : Language M O} {source : Text} {t : Tree M O}
    (h : Reached language source t) : t.WellFormed := by
  induction h with
  | made h => exact wellFormed_ofRoot h
  | @step t op _ ih =>
    exact (op.keeping t t ⟨.refl t, ih⟩).2

/-- A tree that was loaded. -/
theorem Reached.loaded {language : Language M O} {m : M} {source : Text} {object : O}
    {t : Tree M O} (h : ofSource language m source object = .ok t) : Reached language source t := by
  cases hmade : ofRoot language m source object with
  | error e =>
    simp only [ofSource, bind, Except.bind, hmade, reduceCtorEq] at h
  | ok t₀ =>
    cases hlocate : locate m t₀ with
    | error e u =>
      simp only [ofSource, bind, Except.bind, hmade, hlocate, throw, throwThe,
        MonadExceptOf.throw, reduceCtorEq] at h
    | ok _ u =>
      simp only [ofSource, bind, Except.bind, hmade, hlocate, pure, Except.pure,
        Except.ok.injEq] at h
      have hreached : Reached language source ((locate m).after t₀) := .step (.locate m) (.made hmade)
      rw [Job.after_of_ok hlocate] at hreached
      exact h ▸ hreached

/-- A tree that was rendered. -/
theorem Reached.rendered {language : Language M O} {source : Text} {m : M} {t u : Tree M O}
    (h : Reached language source t) (hu : Rendered m t u) : Reached language source u := by
  induction hu with
  | refl => exact h
  | root _ ih =>
    rw [← Job.after_discard]
    exact .step (.printRoot m) ih
  | source _ ih =>
    rw [← Job.after_discard]
    exact .step (.printSource m) ih
  | mapped _ file ih =>
    rw [← Job.after_discard]
    exact .step (.printMapped m file) ih

/-- Every reached tree is well-formed, every operation on it adds nodes and
marks and grows spans only, and looking a node up in vain changes nothing. -/
theorem Reached.wellFormed_extends {language : Language M O} {source : Text} {t : Tree M O}
    (h : Reached language source t) :
    t.WellFormed ∧ (∀ op : Operation M O, t.Extends (op.run.after t)) ∧
      ∀ (m : M) (parent : Nat) (object : O) (e : Error), t.getNode m parent object = .error e →
        (Operation.getNode m parent object).run.after t = t := by
  refine ⟨h.wellFormed, fun op => ?_, fun m parent object e hget => ?_⟩
  · exact (op.keeping t t ⟨.refl t, h.wellFormed⟩).1
  · exact Job.after_attempt (e := e) (by rw [hget]; rfl)

/-- A list that ends with its one object, a word that was read from within
it. -/
def wordAtEnd : Language Unit Bool where
  layout _ isList := some <|
    if isList then
      { origin := some (.ok (.between ⟨1, 0⟩ ⟨1, 2⟩))
        parts := [Part.constant ['['], .object fun _ => some false] }
    else
      { origin := some (.ok (.between ⟨1, 1⟩ ⟨1, 2⟩)), parts := [Part.constant ['a']] }
  describe _ _ := ""
  size _ := 2

/-- The list with its word, after both were searched for and printed. -/
theorem wellFormed_wordAtEnd :
    ∃ t : Tree Unit Bool, Reached wordAtEnd ['[', 'a'] t ∧ t.nodes.size = 2 ∧ t.marks.length = 2 ∧
      t.WellFormed ∧ (∀ op : Operation Unit Bool, t.Extends (op.run.after t)) ∧
        ∀ m parent object e, t.getNode m parent object = .error e →
          (Operation.getNode m parent object).run.after t = t := by
  obtain ⟨t, made, size, marks⟩ : ∃ t, ofRoot wordAtEnd () ['[', 'a'] true = .ok t ∧
      ((Operation.locate ()).run.after t).nodes.size = 2 ∧
      ((Operation.locate ()).run.after t).marks.length = 2 := ⟨_, rfl, rfl, rfl⟩
  have reached := Reached.step (.locate ()) (.made made)
  exact ⟨_, reached, size, marks, reached.wellFormed_extends⟩

end Tree

end Reprint
