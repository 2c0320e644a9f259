import Reprint.Proofs.Tree.Unchanged

/-!
# Nodes that an edit leaves alone

After a tree was located the model may change.  Two models agree on a part if
they give it the same wording, the same objects and the same choice
(`Part.Agrees`), so what is known of the part for one model is known of it for
the other.  A node is `Unedited` if the models agree on all parts that printing
it visits.  Such a node keeps its text from the source, however much of the
model is edited elsewhere (`Unedited.print_faithful`).
-/

namespace Reprint

open Reprint.Tree

variable {M O : Type}

namespace Part

mutual

/-- Two models agree on what a part stands for, of a choice on the part that the
test selects. -/
def Agrees (m m' : M) : Part M O → Prop
  | .literal _ wording _ => wording.text m' = wording.text m
  | .slot _ supply _ => supply m' = supply m
  | .items _ list => list.supply m' = list.supply m
  | .choice _ test yes no _ =>
    test m' = test m ∧
      if test m then Agrees m m' yes
      else
        match no with
        | none => True
        | some other => Agrees m m' other
  | .group _ members _ => AllAgree m m' members
termination_by structural p => p

/-- Two models agree on several parts. -/
def AllAgree (m m' : M) : List (Part M O) → Prop
  | [] => True
  | p :: rest => Agrees m m' p ∧ AllAgree m m' rest
termination_by structural parts => parts

end

variable {m m' : M} {t : Tree M O} {owner : Nat}

mutual

theorem Surveyed.agree : ∀ p : Part M O, p.Agrees m m' → p.Surveyed m t owner →
    p.Surveyed m' t owner
  | .literal .., _, h => h
  | .slot _ supply listed, hagree, h => by
    simp only [Agrees] at hagree
    simp only [Surveyed] at h ⊢
    rwa [hagree]
  | .items frame list, hagree, h => by
    simp only [Agrees] at hagree
    simp only [Surveyed] at h ⊢
    rwa [hagree]
  | .choice _ test yes none _, hagree, h => by
    simp only [Agrees] at hagree
    simp only [Surveyed] at h ⊢
    rw [hagree.1]
    split at h
    · next htest =>
      rw [if_pos htest] at hagree ⊢
      exact ⟨h.1, Surveyed.agree yes hagree.2 h.2⟩
    · next htest => rwa [if_neg htest]
  | .choice _ test yes (some other) _, hagree, h => by
    simp only [Agrees] at hagree
    simp only [Surveyed] at h ⊢
    rw [hagree.1]
    split at h
    · next htest =>
      rw [if_pos htest] at hagree ⊢
      exact ⟨h.1, Surveyed.agree yes hagree.2 h.2⟩
    · next htest =>
      rw [if_neg htest] at hagree ⊢
      exact ⟨h.1, Surveyed.agree other hagree.2 h.2⟩
  | .group _ members _, hagree, h => by
    simp only [Agrees] at hagree
    simp only [Surveyed] at h ⊢
    exact SurveyedAll.agree members hagree h
termination_by structural p => p

/-- What is known of parts for one model is known of them for the other. -/
theorem SurveyedAll.agree : ∀ parts : List (Part M O), AllAgree m m' parts →
    SurveyedAll m t owner parts → SurveyedAll m' t owner parts
  | [], _, _ => trivial
  | p :: rest, hagree, h => by
    simp only [AllAgree] at hagree
    simp only [SurveyedAll] at h ⊢
    exact ⟨Surveyed.agree p hagree.1 h.1, SurveyedAll.agree rest hagree.2 h.2⟩
termination_by structural parts => parts

end

mutual

theorem Settled.agree [DecidableEq O] : ∀ p : Part M O, p.Agrees m m' → p.Settled m t →
    p.Settled m' t
  | .literal _ wording place, hagree, h => by
    simp only [Agrees] at hagree
    simp only [Settled] at h ⊢
    rwa [hagree]
  | .slot _ supply _, hagree, h => by
    simp only [Agrees] at hagree
    simp only [Settled] at h ⊢
    rwa [hagree]
  | .items _ list, hagree, h => by
    simp only [Agrees] at hagree
    simp only [Settled] at h ⊢
    rwa [hagree]
  | .choice _ test yes none _, hagree, h => by
    simp only [Agrees] at hagree
    simp only [Settled] at h ⊢
    rw [hagree.1]
    split at h
    · next htest =>
      rw [if_pos htest] at hagree ⊢
      exact Settled.agree yes hagree.2 h
    · next htest => rw [if_neg htest]; trivial
  | .choice _ test yes (some other) _, hagree, h => by
    simp only [Agrees] at hagree
    simp only [Settled] at h ⊢
    rw [hagree.1]
    split at h
    · next htest =>
      rw [if_pos htest] at hagree ⊢
      exact Settled.agree yes hagree.2 h
    · next htest =>
      rw [if_neg htest] at hagree ⊢
      exact Settled.agree other hagree.2 h
  | .group _ members _, hagree, h => by
    simp only [Agrees] at hagree
    simp only [Settled] at h ⊢
    exact SettledAll.agree members hagree h
termination_by structural p => p

/-- Parts that are settled for one model are settled for the other. -/
theorem SettledAll.agree [DecidableEq O] : ∀ parts : List (Part M O), AllAgree m m' parts →
    SettledAll m t parts → SettledAll m' t parts
  | [], _, _ => trivial
  | p :: rest, hagree, h => by
    simp only [AllAgree] at hagree
    simp only [SettledAll] at h ⊢
    exact ⟨Settled.agree p hagree.1 h.1, SettledAll.agree rest hagree.2 h.2⟩
termination_by structural parts => parts

end

mutual

theorem Finds.agree {id : Nat} : ∀ p : Part M O, p.Agrees m m' → p.Finds m' id → p.Finds m id
  | .literal .., _, h => h
  | .slot .., _, h => h
  | .items .., _, h => h
  | .choice _ test yes none _, hagree, h => by
    simp only [Agrees] at hagree
    simp only [Finds] at h ⊢
    rw [hagree.1] at h
    split at h
    · next htest =>
      rw [if_pos htest] at hagree ⊢
      exact Finds.agree yes hagree.2 h
    · exact h.elim
  | .choice _ test yes (some other) _, hagree, h => by
    simp only [Agrees] at hagree
    simp only [Finds] at h ⊢
    rw [hagree.1] at h
    split at h
    · next htest =>
      rw [if_pos htest] at hagree ⊢
      exact Finds.agree yes hagree.2 h
    · next htest =>
      rw [if_neg htest] at hagree ⊢
      exact Finds.agree other hagree.2 h
  | .group _ members _, hagree, h => by
    simp only [Agrees] at hagree
    simp only [Finds] at h ⊢
    exact FindsAny.agree members hagree h
termination_by structural p => p

/-- What parts find for one model they find for the other. -/
theorem FindsAny.agree {id : Nat} : ∀ parts : List (Part M O), AllAgree m m' parts →
    FindsAny m' id parts → FindsAny m id parts
  | [], _, h => h
  | p :: rest, hagree, h => by
    simp only [AllAgree] at hagree
    simp only [FindsAny] at h ⊢
    exact h.imp (Finds.agree p hagree.1) (FindsAny.agree rest hagree.2)
termination_by structural parts => parts

end

end Part

namespace Tree

/-- The models agree on all that printing visits from a node on. -/
def Unedited (m m' : M) (t : Tree M O) (start : Nat) : Prop :=
  ∀ {id : Nat} {n : Node M O}, Reaches m t start id → t.nodes[id]? = some n →
    Part.AllAgree m m' n.parts

namespace Unedited

variable {m m' : M} {t : Tree M O} {start : Nat}

/-- Printing visits the same nodes for both models. -/
theorem reaches (h : Unedited m m' t start) {id : Nat} (hid : Reaches m' t start id) :
    Reaches m t start id := by
  induction hid with
  | refl => exact .refl
  | step _ node found ih => exact .step ih node (Part.FindsAny.agree _ (h ih node) found)

/-- A node that was not edited gives the text of its span, if the source had all
that was needed for it before. -/
theorem print_faithful [DecidableEq O] (h : Unedited m m' t start) (ready : Ready m t)
    (hsettled : ∀ {id : Nat} {n : Node M O}, Reaches m t start id → t.nodes[id]? = some n →
      Part.SettledAll m t n.parts)
    (hlocated : t.isLocated start = true) {depth : Nat} (hdepth : t.nodes.size ≤ start + depth) :
    Faithful t (printWithin m' depth) start := by
  refine print_faithful_of_reaches ready (fun hid hn hloc => ?_) (fun hid hn => ?_) .refl hlocated
    hdepth
  · exact Part.SurveyedAll.agree _ (h (h.reaches hid) hn) (ready.surveyed hn hloc)
  · exact Part.SettledAll.agree _ (h (h.reaches hid) hn) (hsettled (h.reaches hid) hn)

end Unedited

end Tree

end Reprint
