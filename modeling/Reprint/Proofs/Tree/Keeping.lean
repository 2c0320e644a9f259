import Reprint.Proofs.Tree.PrintVia
import Reprint.Proofs.Tree.Nodes

/-!
# Properties that operations on a tree keep

`Job.Keeping P job` says that an operation keeps a property of the tree,
whether it succeeds or fails.  Planting and normal text change a tree by
looking nodes up only, so they keep every property that looking nodes up
keeps (`Grows`).  Printing besides moves the positions where nodes take new
text (`Prints`).
-/

namespace Reprint

variable {M O : Type}

namespace Tree

/-! ## Operations that keep a property -/

theorem Job.get_eq (t : Tree M O) : (get : Job M O (Tree M O)) t = .ok t t := rfl

theorem Job.set_eq (u t : Tree M O) : (set u : Job M O PUnit) t = .ok ⟨⟩ u := rfl

/-- The tree that an operation leaves behind, whether it fails or not. -/
def Job.after {α : Type} (job : Job M O α) (t : Tree M O) : Tree M O :=
  match job t with
  | .ok _ t => t
  | .error _ t => t

theorem Job.after_of_ok {α : Type} {job : Job M O α} {t u : Tree M O} {a : α}
    (h : job t = .ok a u) : job.after t = u := by
  rw [Job.after, h]

theorem Job.after_of_error {α : Type} {job : Job M O α} {t u : Tree M O} {e : Error}
    (h : job t = .error e u) : job.after t = u := by
  rw [Job.after, h]

/-- The result of an operation, if it succeeds. -/
def Job.result? {α : Type} (job : Job M O α) (t : Tree M O) : Option α :=
  match job t with
  | .ok a _ => some a
  | .error .. => none

theorem Job.result?_eq_some {α : Type} {job : Job M O α} {t : Tree M O} {a : α}
    (h : job.result? t = some a) : ∃ u, job t = .ok a u := by
  unfold Job.result? at h
  cases hrun : job t with
  | ok b u =>
    rw [hrun] at h
    exact ⟨u, by rw [Option.some.inj h]⟩
  | error e u =>
    rw [hrun] at h
    cases h

/-- What an operation comes to, whatever tree it leaves behind. -/
def Job.outcome {α : Type} (job : Job M O α) (t : Tree M O) : Except Error α :=
  match job t with
  | .ok a _ => .ok a
  | .error e _ => .error e

theorem Job.outcome_ok {α : Type} {job : Job M O α} {t u : Tree M O} {a : α}
    (h : job t = .ok a u) : job.outcome t = .ok a := by
  rw [Job.outcome, h]

theorem Job.outcome_error {α : Type} {job : Job M O α} {t u : Tree M O} {e : Error}
    (h : job t = .error e u) : job.outcome t = .error e := by
  rw [Job.outcome, h]

/-- One operation after another. -/
theorem Job.outcome_bind {α β : Type} (job : Job M O α) (next : α → Job M O β) (t : Tree M O) :
    Job.outcome (job >>= next) t =
      match job t with
      | .ok a u => (next a).outcome u
      | .error e _ => .error e := by
  unfold Job.outcome
  show (match EStateM.bind job next t with
    | .ok b _ => Except.ok b
    | .error e _ => Except.error e) = _
  unfold EStateM.bind
  cases job t <;> rfl

/-- Something is made of the result of an operation. -/
theorem Job.outcome_bind_pure {α β : Type} (job : Job M O α) (f : α → β) (t : Tree M O) :
    Job.outcome (job >>= fun a => Pure.pure (f a)) t = (job.outcome t).map f := by
  rw [Job.outcome_bind]
  unfold Job.outcome
  cases job t <;> rfl

/-- An operation keeps a property of the tree, whether it fails or not. -/
def Job.Keeping {α : Type} (P : Tree M O → Prop) (job : Job M O α) : Prop :=
  ∀ t, P t → P (job.after t)

namespace Job.Keeping

variable {P : Tree M O → Prop} {α β : Type}

theorem of_ok {job : Job M O α} (h : Job.Keeping P job) {t u : Tree M O} (ht : P t) {a : α}
    (hrun : job t = .ok a u) : P u :=
  Job.after_of_ok hrun ▸ h t ht

theorem of_error {job : Job M O α} (h : Job.Keeping P job) {t u : Tree M O} (ht : P t) {e : Error}
    (hrun : job t = .error e u) : P u :=
  Job.after_of_error hrun ▸ h t ht

theorem pure (a : α) : Job.Keeping P (Pure.pure a : Job M O α) := fun _ h => h

theorem throw (e : Error) : Job.Keeping P (MonadExcept.throw e : Job M O α) := fun _ h => h

theorem bind {job : Job M O α} {next : α → Job M O β} (hjob : Job.Keeping P job)
    (hnext : ∀ a, Job.Keeping P (next a)) : Job.Keeping P (job >>= next) := by
  intro t ht
  unfold Job.after
  show P (match EStateM.bind job next t with
    | .ok _ t => t
    | .error _ t => t)
  unfold EStateM.bind
  cases hrun : job t with
  | ok a t' => exact hnext a t' (hjob.of_ok ht hrun)
  | error e t' => exact hjob.of_error ht hrun

/-- What is kept one by one is kept together. -/
theorem and {Q : Tree M O → Prop} {job : Job M O α} (hP : Job.Keeping P job)
    (hQ : Job.Keeping Q job) : Job.Keeping (fun t => P t ∧ Q t) job :=
  fun t ht => ⟨hP t ht.1, hQ t ht.2⟩

/-- An operation that first reads the tree. -/
theorem get_bind {next : Tree M O → Job M O β}
    (hnext : ∀ t, P t → P ((next t).after t)) : Job.Keeping P (get >>= next) := hnext

end Job.Keeping

/-- To keep a property is to mirror oneself. -/
theorem Job.Keeping.mirrors {P : Tree M O → Prop} {α : Type} {job : Job M O α}
    (h : Job.Keeping P job) : Mirrors (fun _ => False) P id job job := by
  intro t ht
  unfold MirrorsAt
  cases hrun : job t with
  | ok a u => exact ⟨h.of_ok ht hrun, hrun⟩
  | error e u => exact Or.inr ⟨h.of_error ht hrun, hrun⟩

theorem Job.Keeping.of_mirrors {P : Tree M O → Prop} {f : Tree M O → Tree M O} {α : Type}
    {job job' : Job M O α} (h : Mirrors (fun _ => False) P f job job') : Job.Keeping P job := by
  intro t ht
  have hrun := h t ht
  unfold MirrorsAt at hrun
  unfold Job.after
  cases hjob : job t with
  | ok a u =>
    rw [hjob] at hrun
    exact hrun.1
  | error e u =>
    rw [hjob] at hrun
    exact (hrun.resolve_left id).1

/-- Two operations that mirror each other also keep together what the first
one keeps. -/
theorem Job.Keeping.and_mirrors {α : Type} {escape : Error → Prop} {P Q : Tree M O → Prop}
    {f : Tree M O → Tree M O} {job job' : Job M O α} (hkeep : Job.Keeping Q job)
    (h : Mirrors escape P f job job') : Mirrors escape (fun t => P t ∧ Q t) f job job' := by
  intro t ht
  have hrun := h t ht.1
  unfold MirrorsAt at hrun ⊢
  cases hjob : job t with
  | ok a u =>
    rw [hjob] at hrun
    exact ⟨⟨hrun.1, hkeep.of_ok ht.2 hjob⟩, hrun.2⟩
  | error e u =>
    rw [hjob] at hrun
    exact hrun.imp_right fun hrun => ⟨⟨hrun.1, hkeep.of_error ht.2 hjob⟩, hrun.2⟩

/-- Making something of a node. -/
theorem Job.Keeping.printVia {P : Tree M O → Prop} {α : Type} {normal : Job M O α}
    {patch : List (Part M O) → Place → Job M O Patch} (hnormal : Job.Keeping P normal)
    (hpatch : ∀ parts place, Job.Keeping P (patch parts place))
    (finish : Patch → Except Source.Error α) (id : Nat) :
    Job.Keeping P (Tree.printVia normal patch finish id) :=
  .of_mirrors (.printVia finish (fun _ _ => rfl) (fun ht _ => hnormal.mirrors _ ht)
    fun ht _ => (hpatch _ _).mirrors _ ht)

/-- The same with the source around the text. -/
theorem Job.Keeping.framed {P : Tree M O → Prop} {text : Job M O Text} (h : Job.Keeping P text) :
    Job.Keeping P (Tree.framed text) := by
  refine .bind h fun text => .get_bind fun t ht => ?_
  split
  · next e _ => exact Job.Keeping.throw e t ht
  · split
    · exact ht
    · split <;> exact ht

theorem Job.Keeping.unmapped {P : Tree M O → Prop} {normal : Job M O Text}
    (h : Job.Keeping P normal) (file : Text) : Job.Keeping P (Tree.unmapped file normal) :=
  .bind h fun _ => .get_bind fun _ ht => ht

variable [DecidableEq O]

/-! ## Planting and normal text -/

/-- A property that is kept when a node is looked up or made. -/
structure Grows (m : M) (P : Tree M O → Prop) : Prop where
  getNode : ∀ {t t' : Tree M O} {parent id : Nat} {object : O}, P t →
    t.getNode m parent object = .ok (id, t') → P t'

namespace Grows

variable {m : M} {P : Tree M O → Prop} {print : Nat → Margin → Job M O Text}

/-- Making the nodes of several objects. -/
theorem plantObjects (h : Grows m P) {descend : Nat → Job M O Unit}
    (hdescend : ∀ id, Job.Keeping P (descend id)) (parent : Nat) :
    ∀ objects, Job.Keeping P (Tree.plantObjects descend m parent objects)
  | [] => .pure ()
  | object :: rest => by
    refine .get_bind fun t ht => ?_
    have hrest := plantObjects h hdescend parent rest
    split
    · next child grown hget =>
      have hgrown := h.getNode ht hget
      show P (Job.after (if t.nodes.size ≤ child then
          descend child >>= fun _ => Tree.plantObjects descend m parent rest
        else Tree.plantObjects descend m parent rest) grown)
      split
      · exact Job.Keeping.bind (hdescend child) (fun _ => hrest) grown hgrown
      · exact hrest grown hgrown
    · next e _ =>
      dsimp only
      split
      · exact hrest t ht
      · exact Job.Keeping.bind (.throw e) (fun _ => hrest) t ht

/-- Making all nodes below a node. -/
theorem plantWithin (h : Grows m P) :
    ∀ depth id, Job.Keeping P (Tree.plantWithin m depth id : Job M O Unit)
  | 0, _ => .throw _
  | depth + 1, id => by
    refine .get_bind fun t ht => ?_
    split
    · exact plantObjects h (plantWithin h depth) id _ t ht
    · next e _ => exact Job.Keeping.throw e t ht

theorem plant (h : Grows m P) (id : Nat) : Job.Keeping P (Tree.plant m id : Job M O Unit) :=
  fun t ht => plantWithin h _ id t ht

/-- A tree looks the same to itself. -/
theorem view (h : Grows m P) (owner : Nat) : View m owner P id fun _ => True where
  source _ := rfl
  settings _ := rfl
  node _ _ := rfl
  span _ := rfl
  getNode {t object} _ := by
    rw [id_eq]
    cases t.getNode m owner object <;> rfl
  grown ht hget := ⟨h.getNode ht hget, True.intro⟩

/-- The text of an object. -/
theorem printBelow (h : Grows m P) (hprint : ∀ id margin, Job.Keeping P (print id margin))
    (owner : Nat) (object : O) (margin : Margin) :
    Job.Keeping P (Tree.printBelow print m owner object margin) :=
  .of_mirrors ((h.view owner).printBelow (fun id _ margin => (hprint id margin).mirrors) object margin)

/-- The normal text of several parts. -/
theorem normalParts (h : Grows m P) (hprint : ∀ id margin, Job.Keeping P (print id margin))
    (owner : Nat) (unit : Margin) (parts : List (Part M O)) :
    Job.Keeping P (Tree.normalParts print m owner unit parts) :=
  .of_mirrors ((h.view owner).normalParts (fun id _ margin => (hprint id margin).mirrors) unit parts)

/-- The normal text of a node. -/
theorem normalNode (h : Grows m P) (hprint : ∀ id margin, Job.Keeping P (print id margin))
    (id : Nat) (margin : Margin) : Job.Keeping P (Tree.normalNode print m id margin) :=
  .of_mirrors ((h.view id).normalNode (fun id _ margin => (hprint id margin).mirrors)
    True.intro margin)

end Grows

/-! ## Printing -/

/-- A property that is also kept when the position moves where a node takes
new text. -/
structure Prints (m : M) (P : Tree M O → Prop) : Prop extends Grows m P where
  insertion : ∀ {t : Tree M O} (id : Nat) (q : Position), P t →
    P (t.modify id fun n => n.mapPlace fun p => { p with insertion := q })

namespace Prints

variable {m : M} {P : Tree M O → Prop}

/-- The patch of a node. -/
theorem patchOf (h : Prints m P) {print : Nat → Margin → Job M O Text}
    (hprint : ∀ id margin, Job.Keeping P (print id margin)) (id : Nat) (parts : List (Part M O))
    (place : Place) : Job.Keeping P (Tree.patchOf print m id parts place) :=
  .of_mirrors fun _ ht => (h.view id).patchAt (fun id _ margin => (hprint id margin).mirrors) parts
    (fun _ _ => True.intro) place (fun q hu => ⟨h.insertion id q hu, rfl⟩) ht

/-- The text of a node, by induction on the depth. -/
theorem printWithin (h : Prints m P) : ∀ depth id margin,
    Job.Keeping P (Tree.printWithin m depth id margin : Job M O Text)
  | 0, _, _ => .throw _
  | depth + 1, id, margin => by
    rw [printWithin_succ]
    have hbelow := printWithin h depth
    exact .printVia (h.normalNode hbelow id margin) (fun parts place => h.patchOf hbelow id parts place)
      _ id

theorem print (h : Prints m P) (id : Nat) (margin : Margin) :
    Job.Keeping P (Tree.print m id margin : Job M O Text) := by
  intro t ht
  have hprinted := h.printWithin (t.depthBound m) id margin t ht
  unfold Job.after at hprinted ⊢
  unfold Tree.print
  exact hprinted

theorem printNormal (h : Prints m P) (id : Nat) (margin : Margin) :
    Job.Keeping P (Tree.printNormal m id margin : Job M O Text) := by
  intro t ht
  have hnormal := h.normalNode (h.printWithin (t.depthBound m)) id margin t ht
  unfold Job.after at hnormal ⊢
  unfold Tree.printNormal
  exact hnormal

theorem printRoot (h : Prints m P) : Job.Keeping P (Tree.printRoot m : Job M O Text) :=
  .get_bind fun t ht => h.print root _ t ht

theorem printSource (h : Prints m P) : Job.Keeping P (Tree.printSource m : Job M O Text) := by
  rw [printSource_eq]
  exact h.printRoot.framed

theorem printMapped (h : Prints m P) (file : Text) :
    Job.Keeping P (Tree.printMapped m file : Job M O (Text × SourceMap)) := by
  intro t ht
  have hprinted := Job.Keeping.printVia
    ((h.normalNode (h.printWithin (t.depthBound m)) root t.settings.margin).unmapped file)
    (fun parts place => h.patchOf (h.printWithin (t.depthBound m)) root parts place)
    (Patch.textAndMap · file) root t ht
  rw [Job.after, printMapped_eq]
  exact hprinted

end Prints

end Tree

end Reprint
