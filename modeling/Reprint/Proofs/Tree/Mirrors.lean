import Reprint.Proofs.Tree.Abreast

/-!
# Two runs side by side

`Mirrors escape P f job job'` compares two operations.  Wherever `P` holds of
the state, `job'` does to its image under `f` what `job` does to the state
itself, and `P` holds again afterwards.  Only when the first one fails with an
error in `escape` nothing is said.  `MirrorsAt` says that of one state.

So the two operations go abreast, from states that `f` relates
(`mirrors_iff_abreast`).  What has to be known of `f` and of the printers below a
node so that its normal text and its patch mirror each other is a `Tree.View`.

With the identity for `f` and the same operation twice, this says that an
operation keeps a property (`Job.Keeping`).
-/

namespace Reprint

/-- The second operation does to the image of a state what the first one does
to the state, and leaves a state with a property behind. -/
def MirrorsAt {σ α : Type} (escape : Error → Prop) (P : σ → Prop) (f : σ → σ)
    (job job' : EStateM Error σ α) (s : σ) : Prop :=
  match job s with
  | .ok a s' => P s' ∧ job' (f s) = .ok a (f s')
  | .error e s' => escape e ∨ P s' ∧ job' (f s) = .error e (f s')

/-- That holds at every state with the property. -/
def Mirrors {σ α : Type} (escape : Error → Prop) (P : σ → Prop) (f : σ → σ)
    (job job' : EStateM Error σ α) : Prop :=
  ∀ s, P s → MirrorsAt escape P f job job' s

/-- A state with a property and its image. -/
def Imaged {σ : Type} (P : σ → Prop) (f : σ → σ) (s r : σ) : Prop := P s ∧ r = f s

/-- To mirror is to go abreast, from a state to its image. -/
theorem mirrorsAt_iff {σ α : Type} {escape : Error → Prop} {P : σ → Prop} {f : σ → σ}
    {job job' : EStateM Error σ α} {s : σ} :
    MirrorsAt escape P f job job' s ↔ AbreastAt escape (Imaged P f) job job' s (f s) := by
  unfold MirrorsAt AbreastAt
  cases job s with
  | ok a s' =>
    constructor
    · exact fun hrun => ⟨f s', ⟨hrun.1, rfl⟩, hrun.2⟩
    · rintro ⟨_, ⟨hs', rfl⟩, hrun⟩
      exact ⟨hs', hrun⟩
  | error e s' =>
    refine or_congr_right ⟨?_, ?_⟩
    · exact fun hrun => ⟨f s', ⟨hrun.1, rfl⟩, hrun.2⟩
    · rintro ⟨_, ⟨hs', rfl⟩, hrun⟩
      exact ⟨hs', hrun⟩

theorem mirrors_iff_abreast {σ α : Type} {escape : Error → Prop} {P : σ → Prop} {f : σ → σ}
    {job job' : EStateM Error σ α} :
    Mirrors escape P f job job' ↔ Abreast escape (Imaged P f) job job' := by
  constructor
  · rintro h s _ ⟨hs, rfl⟩
    exact mirrorsAt_iff.1 (h s hs)
  · exact fun h s hs => mirrorsAt_iff.2 (h s (f s) ⟨hs, rfl⟩)

namespace Mirrors

variable {σ α β : Type} {escape : Error → Prop} {P : σ → Prop} {f : σ → σ}

theorem pure (a : α) :
    Mirrors escape P f (Pure.pure a : EStateM Error σ α) (Pure.pure a) :=
  mirrors_iff_abreast.2 (.pure a)

theorem throw (e : Error) :
    Mirrors escape P f (MonadExcept.throw e : EStateM Error σ α) (MonadExcept.throw e) :=
  mirrors_iff_abreast.2 (.throw e)

theorem bind {job job' : EStateM Error σ α} {next next' : α → EStateM Error σ β}
    (hjob : Mirrors escape P f job job') (hnext : ∀ a, Mirrors escape P f (next a) (next' a)) :
    Mirrors escape P f (job >>= next) (job' >>= next') :=
  mirrors_iff_abreast.2 (.bind (mirrors_iff_abreast.1 hjob) fun a => mirrors_iff_abreast.1 (hnext a))

/-- Operations that first read the state. -/
theorem get_bind {next next' : σ → EStateM Error σ β}
    (h : ∀ s, P s → Mirrors escape P f (next s) (next' (f s))) :
    Mirrors escape P f (get >>= next) (get >>= next') := fun s hs => h s hs s hs

/-- Operations that put another state in place of the present one. -/
theorem set {s : σ} (hs : P s) :
    Mirrors escape P f (MonadStateOf.set s : EStateM Error σ PUnit) (MonadStateOf.set (f s)) :=
  fun _ _ => ⟨hs, rfl⟩

/-- A step that is taken under a condition. -/
theorem ite {c : Prop} [Decidable c] {job job' other other' : EStateM Error σ α}
    (h : Mirrors escape P f job job') (hother : Mirrors escape P f other other') :
    Mirrors escape P f (if c then job else other) (if c then job' else other') := by
  split
  · exact h
  · exact hother

end Mirrors

namespace Tree

variable {M O : Type} [DecidableEq O]

/-- What is asked of a change of trees so that the text of a node is made of
the changed tree in the same way.  `V` are the nodes whose printers are
compared. -/
structure View (m : M) (owner : Nat) (P : Tree M O → Prop) (f : Tree M O → Tree M O)
    (V : Nat → Prop) : Prop where
  source : ∀ t, (f t).source = t.source
  settings : ∀ t, (f t).settings = t.settings
  node : ∀ {t : Tree M O} {id : Nat}, P t → V id → (f t).nodes[id]? = t.nodes[id]?
  span : ∀ {t : Tree M O}, P t →
    ((f t).nodes[owner]?).bind Node.span? = (t.nodes[owner]?).bind Node.span?
  getNode : ∀ {t : Tree M O} {object : O}, P t → (f t).getNode m owner object =
    (t.getNode m owner object).map fun found => (found.1, f found.2)
  grown : ∀ {t u : Tree M O} {object : O} {id : Nat}, P t →
    t.getNode m owner object = .ok (id, u) → P u ∧ V id

omit [DecidableEq O] in
/-- Two printers whose texts of the nodes in `V` mirror each other. -/
def MirrorsOn (escape : Error → Prop) (P : Tree M O → Prop) (f : Tree M O → Tree M O)
    (V : Nat → Prop) (print print' : Nat → Margin → Job M O Text) : Prop :=
  ∀ id, V id → ∀ margin, Mirrors escape P f (print id margin) (print' id margin)

namespace View

variable {m : M} {owner : Nat} {escape : Error → Prop} {P : Tree M O → Prop}
  {K : Patch → Prop} {f : Tree M O → Tree M O} {V : Nat → Prop}
  {print print' : Nat → Margin → Job M O Text}

/-- The text of an object. -/
theorem printBelow (h : View m owner P f V) (hprint : MirrorsOn escape P f V print print')
    (object : O) (margin : Margin) :
    Mirrors escape P f (printBelow print m owner object margin)
      (printBelow print' m owner object margin) := by
  refine .get_bind fun t ht => ?_
  rw [h.getNode ht]
  cases hget : t.getNode m owner object with
  | ok found =>
    obtain ⟨id, u⟩ := found
    obtain ⟨hu, hid⟩ := h.grown ht hget
    exact .bind (.set hu) fun _ => .bind (hprint id hid margin) fun _ => .pure _
  | error e => exact .ite (.pure _) (.throw _)

/-- The normal text of several parts. -/
theorem normalParts (h : View m owner P f V) (hprint : MirrorsOn escape P f V print print')
    (unit : Margin) (parts : List (Part M O)) :
    Mirrors escape P f (normalParts print m owner unit parts)
      (normalParts print' m owner unit parts) :=
  mirrors_iff_abreast.2 (.normalParts_id unit
    (fun object margin => mirrors_iff_abreast.1 (h.printBelow hprint object margin)) parts)

/-- The normal text of a node that is the same in both trees. -/
theorem normalNode (h : View m owner P f V) (hprint : MirrorsOn escape P f V print print')
    (howner : V owner) (margin : Margin) : Mirrors escape P f (normalNode print m owner margin)
      (normalNode print' m owner margin) := by
  refine .get_bind fun t ht => ?_
  have hnode : (f t).node owner = t.node owner := by
    unfold Tree.node
    rw [h.node ht howner]
  rw [hnode]
  split
  · exact .throw _
  · exact .bind (h.normalParts hprint margin.flush _) fun _ => .pure _

/-- Seen so, a tree and its image are revised abreast. -/
theorem outlook (h : View m owner P f V) (hprint : MirrorsOn escape P f V print print') :
    Outlook escape (Imaged P f) m owner owner print print' V where
  source := by
    rintro t _ ⟨_, rfl⟩
    exact h.source t
  aligned := by
    rintro t _ ⟨ht, rfl⟩ indent text
    unfold Tree.aligned
    rw [h.settings, h.source, h.span ht]
  face := by
    rintro t _ id ⟨ht, rfl⟩ hid
    rw [Tree.face, Tree.face, h.node ht hid]
  listed hid margin := mirrors_iff_abreast.1 (hprint _ hid margin)
  below object margin := mirrors_iff_abreast.1 (h.printBelow hprint object margin)

/-- The patch of a node.  What is known of a patch without edits is known of
the one that comes out. -/
theorem patchOf (h : View m owner P f V) (hK : Patch.Lasting K)
    (hprint : MirrorsOn escape P f V print print') (parts : List (Part M O))
    (hlisted : ∀ id ∈ Part.listedAll parts, V id) (place : Place)
    (hmoved : ∀ {t : Tree M O} (q : Position), P t →
      P (t.modify owner fun n => n.mapPlace fun p => { p with insertion := q }) ∧
      (f t).modify owner (fun n => n.mapPlace fun p => { p with insertion := q }) =
        f (t.modify owner fun n => n.mapPlace fun p => { p with insertion := q }))
    {t : Tree M O} (ht : P t) (hbase : ∀ p, Patch.ofBase t.source place.span = .ok p → K p) :
    match patchOf print m owner parts place t with
    | .ok p u => (P u ∧ K p) ∧ patchOf print' m owner parts place (f t) = .ok p (f u)
    | .error e u => escape e ∨ P u ∧ patchOf print' m owner parts place (f t) = .error e (f u) := by
  have hlook := h.outlook hprint
  have hrun := hlook.patchOf hK place
    (by
      rintro t _ q ⟨ht, rfl⟩
      exact ⟨(hmoved q ht).1, (hmoved q ht).2⟩)
    ⟨ht, rfl⟩ (h.settings t) hbase parts hlisted
    (fun frame list _ => .normalPart_items _ hlook.below frame (id list))
    fun frame list _ hitems => hlook.revisePart_items _ hK frame (id list) hitems
  rw [Part.mapAllLists_id] at hrun
  cases hpatch : Tree.patchOf print m owner parts place t with
  | ok p u =>
    rw [hpatch] at hrun
    obtain ⟨hp, _, ⟨hu, rfl⟩, hrun⟩ := hrun
    exact ⟨⟨hu, hp⟩, hrun⟩
  | error e u =>
    rw [hpatch] at hrun
    refine hrun.imp_right ?_
    rintro ⟨_, ⟨hu, rfl⟩, hrun⟩
    exact ⟨hu, hrun⟩

/-- The patch of a node, of which nothing need be known. -/
theorem patchAt (h : View m owner P f V) (hprint : MirrorsOn escape P f V print print')
    (parts : List (Part M O)) (hlisted : ∀ id ∈ Part.listedAll parts, V id) (place : Place)
    (hmoved : ∀ {t : Tree M O} (q : Position), P t →
      P (t.modify owner fun n => n.mapPlace fun p => { p with insertion := q }) ∧
      (f t).modify owner (fun n => n.mapPlace fun p => { p with insertion := q }) =
        f (t.modify owner fun n => n.mapPlace fun p => { p with insertion := q }))
    {t : Tree M O} (ht : P t) :
    MirrorsAt escape P f (Tree.patchOf print m owner parts place)
      (Tree.patchOf print' m owner parts place) t := by
  have hrun := h.patchOf .trivial hprint parts hlisted place hmoved ht fun _ _ => True.intro
  unfold MirrorsAt
  cases hpatch : Tree.patchOf print m owner parts place t with
  | ok p u =>
    rw [hpatch] at hrun
    exact ⟨hrun.1.1, hrun.2⟩
  | error e u =>
    rw [hpatch] at hrun
    exact hrun

end View

end Tree

end Reprint
