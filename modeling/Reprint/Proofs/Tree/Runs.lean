import Reprint.Proofs.Patch.Splice
import Reprint.Tree.Print

/-!
# Runs of operations on a tree

`Runs P job a Q` says that an operation succeeds in every state with `P`,
with the result `a` and in a state with `Q`.  `Fails P job e` says that it
fails in every such state, with the error `e`.  The lemmas here chain such
statements the way the operations are chained.
-/

namespace Reprint

/-- If two operations one after the other succeed, then both do. -/
theorem bind_eq_ok {σ α β : Type} {job : EStateM Error σ α} {next : α → EStateM Error σ β} {b : β}
    {s s'' : σ} (h : (job >>= next) s = .ok b s'') :
    ∃ a s', job s = .ok a s' ∧ next a s' = .ok b s'' := by
  change EStateM.bind job next s = _ at h
  unfold EStateM.bind at h
  cases hrun : job s with
  | error e s' =>
    rw [hrun] at h
    cases h
  | ok a s' =>
    rw [hrun] at h
    exact ⟨a, s', rfl, h⟩

/-- An operation that succeeds leads to the next one. -/
theorem bind_of_ok {σ α β : Type} {job : EStateM Error σ α} {a : α} {s s' : σ}
    (h : job s = .ok a s') (next : α → EStateM Error σ β) : (job >>= next) s = next a s' := by
  show EStateM.bind job next s = _
  unfold EStateM.bind
  rw [h]

/-- An operation succeeds with a result, from one kind of state to
another. -/
def Runs {σ α : Type} (P : σ → Prop) (job : EStateM Error σ α) (a : α) (Q : σ → Prop) : Prop :=
  ∀ s, P s → ∃ s', job s = .ok a s' ∧ Q s'

namespace Runs

variable {σ α β : Type} {P Q R : σ → Prop} {job : EStateM Error σ α} {a : α} {b : β}

theorem pure (h : ∀ s, P s → Q s) (a : α) : Runs P (Pure.pure a : EStateM Error σ α) a Q :=
  fun s hs => ⟨s, rfl, h s hs⟩

theorem bind {next : α → EStateM Error σ β} (hjob : Runs P job a Q) (hnext : Runs Q (next a) b R) :
    Runs P (job >>= next) b R := by
  intro s hs
  obtain ⟨s', hrun, hs'⟩ := hjob s hs
  obtain ⟨s'', hrun', hs''⟩ := hnext s' hs'
  exact ⟨s'', (bind_of_ok hrun next).trans hrun', hs''⟩

theorem weaken {P' Q' : σ → Prop} (h : Runs P job a Q) (hP : ∀ s, P' s → P s)
    (hQ : ∀ s, Q s → Q' s) : Runs P' job a Q' := by
  intro s hs
  obtain ⟨s', hrun, hs'⟩ := h s (hP s hs)
  exact ⟨s', hrun, hQ s' hs'⟩

/-- An operation that leaves the state as it is. -/
theorem unchanged (h : ∀ s, P s → job s = .ok a s) : Runs P job a P :=
  fun s hs => ⟨s, h s hs, hs⟩

theorem congr {a' : α} (h : Runs P job a Q) (ha : a = a') : Runs P job a' Q := ha ▸ h

end Runs

/-- An operation fails with an error in one kind of state. -/
def Fails {σ α : Type} (P : σ → Prop) (job : EStateM Error σ α) (e : Error) : Prop :=
  ∀ s, P s → ∃ s', job s = .error e s'

namespace Fails

variable {σ α β : Type} {P Q : σ → Prop} {job : EStateM Error σ α} {a : α} {e : Error}

/-- The first operation fails. -/
theorem head (h : Fails P job e) (next : α → EStateM Error σ β) : Fails P (job >>= next) e := by
  intro s hs
  obtain ⟨s', hrun⟩ := h s hs
  refine ⟨s', ?_⟩
  show EStateM.bind job next s = _
  unfold EStateM.bind
  rw [hrun]

/-- The first operation succeeds and the next one fails. -/
theorem bind {next : α → EStateM Error σ β} (hjob : Runs P job a Q) (hnext : Fails Q (next a) e) :
    Fails P (job >>= next) e := by
  intro s hs
  obtain ⟨s', hrun, hs'⟩ := hjob s hs
  obtain ⟨s'', hrun'⟩ := hnext s' hs'
  exact ⟨s'', (bind_of_ok hrun next).trans hrun'⟩

end Fails

end Reprint
