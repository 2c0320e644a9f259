import Reprint.Part.Extent

/-!
# What holds of everything in a part

A part may be a choice or a group and have other parts in it
(`Part.StandsIn`).  `Part.Every` says that something holds of a part and of all
parts in it, `every_choice` and `every_group` take it apart, and `Every.settle`
and `Every.addMember` are about the two things that are done with a part.
-/

namespace Reprint.Part

variable {M O : Type}

/-- A part is another one or stands somewhere in it. -/
inductive StandsIn (q : Part M O) : Part M O → Prop
  | self : StandsIn q q
  | yes {frame : Frame} {test : M → Bool} {yes : Part M O} {no : Option (Part M O)}
      {taken : Option Bool} : StandsIn q yes → StandsIn q (.choice frame test yes no taken)
  | no {frame : Frame} {test : M → Bool} {yes other : Part M O} {taken : Option Bool} :
      StandsIn q other → StandsIn q (.choice frame test yes (some other) taken)
  | member {frame : Frame} {members : List (Part M O)} {stale : Bool} {p : Part M O} :
      p ∈ members → StandsIn q p → StandsIn q (.group frame members stale)

/-- Something holds of a part and of everything in it. -/
def Every (P : Part M O → Prop) (p : Part M O) : Prop := ∀ q : Part M O, q.StandsIn p → P q

variable {P : Part M O → Prop}

theorem Every.self {p : Part M O} (h : p.Every P) : P p := h p .self

theorem Every.imp {Q : Part M O → Prop} {p : Part M O} (h : p.Every P) (himp : ∀ q, P q → Q q) :
    p.Every Q := fun q hq => himp q (h q hq)

theorem every_literal {frame : Frame} {wording : Wording M} {place : LiteralPlace} :
    (literal frame wording place : Part M O).Every P ↔ P (.literal frame wording place) := by
  refine ⟨Every.self, fun h q hq => ?_⟩
  cases hq with
  | self => exact h

theorem every_slot {frame : Frame} {supply : M → Option O} {listed : Option Nat} :
    (slot frame supply listed).Every P ↔ P (.slot frame supply listed) := by
  refine ⟨Every.self, fun h q hq => ?_⟩
  cases hq with
  | self => exact h

theorem every_items {frame : Frame} {list : ItemList M O} :
    (items frame list).Every P ↔ P (.items frame list) := by
  refine ⟨Every.self, fun h q hq => ?_⟩
  cases hq with
  | self => exact h

theorem every_choice {frame : Frame} {test : M → Bool} {yes : Part M O} {no : Option (Part M O)}
    {taken : Option Bool} : (choice frame test yes no taken).Every P ↔
      P (.choice frame test yes no taken) ∧ yes.Every P ∧
        ∀ other, no = some other → other.Every P := by
  constructor
  · intro h
    exact ⟨h.self, fun q hq => h q hq.yes, fun _ hno q hq => h q (hno ▸ hq.no)⟩
  · rintro ⟨hself, hyes, hno⟩ q hq
    cases hq with
    | self => exact hself
    | yes hq => exact hyes q hq
    | no hq => exact hno _ rfl q hq

theorem every_group {frame : Frame} {members : List (Part M O)} {stale : Bool} :
    (group frame members stale).Every P ↔
      P (.group frame members stale) ∧ ∀ p ∈ members, p.Every P := by
  constructor
  · intro h
    exact ⟨h.self, fun p hp q hq => h q (.member hp hq)⟩
  · rintro ⟨hself, hmembers⟩ q hq
    cases hq with
    | self => exact hself
    | member hp hq => exact hmembers _ hp q hq

mutual

/-- Settling keeps what it keeps of each stale group. -/
theorem Every.settle (hgroup : ∀ frame members, P (.group frame members true) →
      P (Part.group frame members true).settle) : ∀ {p : Part M O}, p.Every P → p.settle.Every P
  | .literal .., h => h
  | .slot .., h => h
  | .items .., h => h
  | .choice .., h => by rwa [Part.settle]
  | .group _ _ false, h => by rwa [Part.settle]
  | .group frame members true, h => by
    obtain ⟨hself, hmembers⟩ := every_group.1 h
    have hsettled := hgroup frame members hself
    rw [Part.settle] at hsettled ⊢
    exact every_group.2 ⟨hsettled, Every.settleAll hgroup hmembers⟩
termination_by structural p => p

theorem Every.settleAll (hgroup : ∀ frame members, P (.group frame members true) →
      P (Part.group frame members true).settle) : ∀ {parts : List (Part M O)},
      (∀ p ∈ parts, p.Every P) → ∀ p ∈ Part.settleAll parts, p.Every P
  | [], _ => by simp [Part.settleAll]
  | p :: rest, h => by
    rw [List.forall_mem_cons] at h
    rw [Part.settleAll, List.forall_mem_cons]
    exact ⟨Every.settle hgroup h.1, Every.settleAll hgroup h.2⟩
termination_by structural parts => parts

end

/-- A group with one more member is stale. -/
theorem Every.addMember (hgroup : ∀ frame members, P (.group frame members true))
    {p member q : Part M O} (hp : p.Every P) (hmember : member.Every P)
    (h : p.addMember member = .ok q) : q.Every P := by
  cases p with
  | group frame members stale =>
    cases h
    refine every_group.2 ⟨hgroup _ _, ?_⟩
    rw [List.forall_mem_append, List.forall_mem_singleton]
    exact ⟨(every_group.1 hp).2, hmember⟩
  | _ => cases h

theorem StandsIn.trans {p q r : Part M O} (hpq : p.StandsIn q) (hqr : q.StandsIn r) :
    p.StandsIn r := by
  induction hqr with
  | self => exact hpq
  | yes _ ih => exact ih.yes
  | no _ ih => exact ih.no
  | member hp _ ih => exact .member hp ih

end Reprint.Part
