import Reprint.Proofs.Tree.Budded
import Reprint.Proofs.Source.Place

/-!
# Printing an unchanged model

If all parts that printing visits are settled after a tree was located,
printing with the same model registers no edit and gives the source back:
no choice flips, so a node has no piece that is written anew
(`patchOf_quiet`); `print_faithful` is the statement for one node, and
`printSource_unchanged` the result for any sequence of renders.

`printSource_pinnedNothing` shows why a literal that renders to nothing must
not be pinned to text of the source.
-/

namespace Reprint

open Reprint.Tree

variable {M O : Type}

namespace Tree

/-! ## Nodes -/

/-- A print of a node that gives the text of its span. -/
def Faithful (t : Tree M O) (print : Nat → Margin → Job M O Text) (id : Nat) : Prop :=
  ∀ (n : Node M O) (p : Place), t.nodes[id]? = some n → n.place = some p →
    ∀ margin t', Alike t t' → ∃ t'', print id margin t' = .ok (t.source.slice p.span.toBounds) t'' ∧
      Alike t t''

section Parts

/- A tree that was located for the model `m₀` is printed for the model `m`, which
may be another one. -/
variable [DecidableEq O] {m₀ m : M} {t : Tree M O} {print : Nat → Margin → Job M O Text}

/-- A revision does not tell trees that are alike from each other. -/
theorem Alike.looksLike (ready : Ready m₀ t) : LooksLike t (Alike t) where
  source h := h.source
  settings h := h.settings
  node h hn := by
    obtain ⟨q, hq⟩ := h.node hn
    exact ⟨q, [], by rw [List.append_nil]; exact hq⟩
  foreign h hn hforeign print m margin :=
    (Budded.of_alike m h).printBelow_of_isForeign ready hn hforeign
  insertion h id q := h.trans (.modify _ id q)

/-- The patch of a node with settled parts has no edits. -/
theorem patchOf_quiet {n : Node M O} {p : Place} {id : Nat} (ready : Ready m₀ t)
    (hsurveyed : Part.SurveyedAll m t id n.parts) (hsettled : Part.SettledAll m t n.parts)
    (hn : t.nodes[id]? = some n) (hp : n.place = some p)
    (hprint : ∀ child, Part.FindsAny m child n.parts → Faithful t print child) {q : Place}
    (hq : q.span = p.span) {t' : Tree M O} (ht' : Alike t t') :
    ∃ t'', patchOf print m id n.parts q t' = .ok ⟨t.source, p.span, []⟩ t'' ∧ Alike t t'' := by
  have hwrites : ∀ x ∈ Part.allPieces m m n.parts,
      Writes (Alike t) print t m id t.settings.margin x [] := by
    intro x hx
    cases x with
    | flipped covered other => exact absurd hx (Part.flipped_not_mem_allPieces _)
    | kept child =>
      have hfinds := Part.findsAny_of_kept _ hx
      obtain ⟨_, hchild⟩ := hsurveyed.of_finds _ hfinds
      obtain ⟨c, hc⟩ := exists_node_of_isLocated hchild
      obtain ⟨r, hr, _⟩ := (c.isLocated_iff).1 (isLocated_eq hc ▸ hchild)
      exact ⟨c, r, _, hc, hr, hprint child hfinds c r hc hr _, (if_pos rfl).symm⟩
  have hnone : ((Part.allPieces m m n.parts).flatMap fun _ => ([] : List Edit)) = [] :=
    List.flatMap_eq_nil_iff.2 fun _ _ => rfl
  have hfits : (⟨t.source, p.span, []⟩ : Patch).Compatible
      ((Part.allPieces m m n.parts).flatMap fun _ => ([] : List Edit)) := by
    rw [hnone]
    exact ⟨fun _ he => absurd he List.not_mem_nil, .nil⟩
  have h := patchOf_pieces ready (Alike.looksLike ready) hn hp hsurveyed hsettled
    (Part.AllOnlyFlip.refl n.parts) hwrites hfits hq ht'
  rwa [hnone] at h

/-- The patch of a visited node has no edits. -/
theorem patchOf_unchanged {n : Node M O} {p : Place} {id : Nat} (ready : Ready m t)
    (hsettled : Part.SettledAll m t n.parts) (hn : t.nodes[id]? = some n) (hp : n.place = some p)
    (hlocated : n.isLocated = true)
    (hprint : ∀ child, Part.FindsAny m child n.parts → Faithful t print child) {q : Place}
    (hq : q.span = p.span) {t' : Tree M O} (ht' : Alike t t') :
    ∃ t'', patchOf print m id n.parts q t' = .ok ⟨t.source, p.span, []⟩ t'' ∧ Alike t t'' :=
  patchOf_quiet ready (ready.surveyed hn hlocated) hsettled hn hp hprint hq ht'

/-- Printing a node gives the text of its span if the parts of all nodes are
settled that printing it visits, by induction on the depth. -/
theorem print_faithful_of_reaches (ready : Ready m₀ t) {start : Nat}
    (hsurveyed : ∀ {id : Nat} {n : Node M O}, Reaches m t start id → t.nodes[id]? = some n →
      n.isLocated = true → Part.SurveyedAll m t id n.parts)
    (hsettled : ∀ {id : Nat} {n : Node M O}, Reaches m t start id → t.nodes[id]? = some n →
      Part.SettledAll m t n.parts) :
    ∀ {depth id : Nat}, Reaches m t start id → t.isLocated id = true → t.nodes.size ≤ id + depth →
      Faithful t (printWithin m depth) id :=
  fun hreaches hlocated hdepth _ _ hn hp => runs_print_of_reaches ready (Alike.looksLike ready)
    hsurveyed hsettled hdepth hreaches hlocated hn hp

/-- Printing a visited node gives the text of its span. -/
theorem print_faithful (ready : Ready m t) (hsettled : AllSettled m t) {depth id : Nat}
    (hvisited : Visited m t id) (hlocated : t.isLocated id = true)
    (hdepth : t.nodes.size ≤ id + depth) : Faithful t (printWithin m depth) id :=
  print_faithful_of_reaches ready (fun _ => ready.surveyed) (fun h => hsettled h.visited)
    hvisited.reaches hlocated hdepth

/-! ## Renders -/

variable {n : Node M O} {p : Place}

theorem printRoot_alike (ready : Ready m t) (hsettled : AllSettled m t)
    (hn : t.nodes[root]? = some n) (hp : n.place = some p) (hlocated : n.isLocated = true)
    {u : Tree M O} (hu : Alike t u) :
    ∃ v, printRoot m u = .ok (t.source.slice p.span.toBounds) v ∧ Alike t v :=
  runs_printRoot_settled ready (Alike.looksLike ready) hsettled hn hp
    (by rw [isLocated_eq hn, hlocated]) u hu

theorem printSource_alike (ready : Ready m t) (hsettled : AllSettled m t)
    (hn : t.nodes[root]? = some n) (hp : n.place = some p) (hlocated : n.isLocated = true)
    {u : Tree M O} (hu : Alike t u) :
    ∃ v, printSource m u = .ok t.source.text v ∧ Alike t v :=
  runs_printSource_settled ready (Alike.looksLike ready) hsettled hn hp
    (by rw [isLocated_eq hn, hlocated]) u hu

theorem printMapped_alike (ready : Ready m t) (hsettled : AllSettled m t)
    (hn : t.nodes[root]? = some n) (hp : n.place = some p) (hlocated : n.isLocated = true)
    {u : Tree M O} (hu : Alike t u) (file : Text) : Alike t ((printMapped m file).after u) := by
  have hsize := hu.size
  obtain ⟨i, hi⟩ := hu.node hn
  obtain ⟨p', hp', hloc⟩ := (n.isLocated_iff).1 hlocated
  rw [hp] at hp'
  cases hp'
  have hplace : (n.moved i).located? = some { p with insertion := i } :=
    Node.located?_eq_some.2 ⟨by simp [Node.moved, hp], hloc⟩
  have hchild : ∀ child, Part.FindsAny m child n.parts →
      Faithful t (printWithin m (u.depthBound m)) child := by
    intro child hfinds
    obtain ⟨hlt, hchild⟩ := (ready.surveyed hn hlocated).of_finds _ hfinds
    refine print_faithful ready hsettled (.step .root hn hfinds) hchild ?_
    unfold depthBound
    omega
  obtain ⟨v, hpatch, hv⟩ := patchOf_unchanged ready (hsettled .root hn) hn hp hlocated hchild
    (show ({ p with insertion := i } : Place).span = p.span from rfl) hu
  unfold Job.after printMapped
  simp only [node_eq_ok.2 hi, hplace]
  change patchOf (printWithin m (u.depthBound m)) m root (n.moved i).parts
    { p with insertion := i } u = _ at hpatch
  rw [hpatch]
  dsimp only
  split <;> next h => split at h <;> cases h <;> exact hv

/-- Renders of an unchanged model leave the tree alike. -/
theorem Rendered.alike (ready : Ready m t) (hsettled : AllSettled m t)
    (hn : t.nodes[Tree.root]? = some n) (hp : n.place = some p) (hlocated : n.isLocated = true)
    {u : Tree M O} (h : Rendered m t u) : Alike t u := by
  induction h with
  | refl => exact .refl t
  | root _ ih =>
    obtain ⟨v, hrun, hv⟩ := printRoot_alike ready hsettled hn hp hlocated ih
    rw [Job.after, hrun]
    exact hv
  | source _ ih =>
    obtain ⟨v, hrun, hv⟩ := printSource_alike ready hsettled hn hp hlocated ih
    rw [Job.after, hrun]
    exact hv
  | mapped _ file ih => exact printMapped_alike ready hsettled hn hp hlocated ih file

end Parts

/-- If all parts that printing visits are settled after a tree was located
for the first time, then every render of the same model gives the source
back, and the patches that it makes have no edits. -/
theorem printSource_unchanged [DecidableEq O] {language : Language M O} {source : Text} {m : M}
    {t₀ t u : Tree M O}
    (layouts : ∀ {m object layout}, language.layout m object = some layout →
      Part.AllNew layout.parts)
    (prepared : Prepared language source t₀) (located : locate m t₀ = .ok () t)
    (parsed : ∀ {n : Node M O}, t.nodes[root]? = some n → n.place.isSome = true)
    (settled : AllSettled m t) (rendered : Rendered m t u) :
    (∃ v, printSource m u = .ok source v) ∧
      ∀ {id depth : Nat} {n : Node M O} {p : Place}, Visited m t id → u.nodes[id]? = some n →
        n.located? = some p → u.nodes.size ≤ id + (depth + 1) →
        ∃ patch v, patchOf (printWithin m depth) m id n.parts p u = .ok patch v ∧
          patch.edits = [] := by
  obtain ⟨ready, _, hsource, n, hn, hroot⟩ := (prepared.unsearched layouts).locate located
  obtain ⟨p, hp⟩ := Option.isSome_iff_exists.1 (parsed hn)
  have hlocated := hroot (parsed hn)
  have halike := rendered.alike ready settled hn hp hlocated
  constructor
  · obtain ⟨v, hrun, _⟩ := printSource_alike ready settled hn hp hlocated halike
    refine ⟨v, ?_⟩
    rw [hrun, hsource, Source.text_ofText]
  · intro id depth k' q hvisited hk' hq hdepth
    obtain ⟨k, i, hk, rfl⟩ := halike.node' hk'
    have hsize := halike.size
    obtain ⟨hqplace, hqlocated⟩ := Node.located?_eq_some.1 hq
    obtain ⟨r, hr, rfl⟩ := Option.map_eq_some_iff.1 hqplace
    have hklocated : k.isLocated = true := (k.isLocated_iff).2 ⟨r, hr, hqlocated⟩
    have hchild : ∀ child, Part.FindsAny m child k.parts →
        Faithful t (printWithin m depth) child := by
      intro child hfinds
      obtain ⟨hlt, hchild⟩ := (ready.surveyed hk hklocated).of_finds _ hfinds
      exact print_faithful ready settled (.step hvisited hk hfinds) hchild (by omega)
    obtain ⟨v, hpatch, _⟩ := patchOf_unchanged ready (settled hvisited hk) hk hr hklocated hchild
      (show ({ r with insertion := i } : Place).span = r.span from rfl) halike
    exact ⟨_, v, hpatch, rfl⟩

/-- A list with brackets around its one object, which is a word. -/
def bracketedWord : Language Unit Bool where
  layout _ isList := some <|
    if isList then
      { origin := some (.ok (.between ⟨1, 0⟩ ⟨1, 4⟩))
        parts := [(Part.constant ['[']).pinned (.between ⟨1, 0⟩ ⟨1, 1⟩),
          .object fun _ => some false, (Part.constant [']']).pinned (.between ⟨1, 3⟩ ⟨1, 4⟩)] }
    else
      { origin := some (.ok (.between ⟨1, 1⟩ ⟨1, 3⟩))
        parts := [(Part.constant ['a', 'b']).pinned (.between ⟨1, 1⟩ ⟨1, 3⟩)] }
  describe _ _ := ""
  size _ := 2

/-- A list and its word that are as they were read. -/
theorem printSource_bracketedWord :
    ∃ t₀ t, Prepared bracketedWord ['[', 'a', 'b', ']'] t₀ ∧ locate () t₀ = .ok () t ∧
      AllSettled () t ∧ ∃ v, printSource () t = .ok ['[', 'a', 'b', ']'] v := by
  obtain ⟨t₀, t, prepared, located, parsed, settled⟩ : ∃ t₀ t,
      Prepared bracketedWord ['[', 'a', 'b', ']'] t₀ ∧ locate () t₀ = .ok () t ∧
        (∀ {n}, t.nodes[root]? = some n → n.place.isSome = true) ∧ AllSettled () t := by
    have made : ∃ t₀, ofRoot bracketedWord () ['[', 'a', 'b', ']'] true = .ok t₀ := ⟨_, rfl⟩
    obtain ⟨t₀, made⟩ := made
    refine ⟨t₀, _, .root made, by cases made; rfl, fun hn => by cases hn; rfl, ?_⟩
    intro id n visited
    have hid : id = 0 ∨ id = 1 := by
      induction visited with
      | root => exact Or.inl rfl
      | step _ node found ih =>
        rcases ih with rfl | rfl
        · cases node
          rcases found with h | h | h | h
          · exact h.elim
          · cases h
            exact Or.inr rfl
          · exact h.elim
          · exact h.elim
        · cases node
          rcases found with h | h
          · exact h.elim
          · exact h.elim
    intro hn
    rcases hid with rfl | rfl
    · cases hn
      refine And.intro (And.intro rfl ⟨trivial, trivial⟩) (And.intro ?_ (And.intro
        (And.intro rfl ⟨trivial, trivial⟩) trivial))
      intro object hobject
      cases hobject
      exact Or.inr ⟨1, rfl, _, rfl, rfl, trivial, trivial⟩
    · cases hn
      exact And.intro (And.intro rfl ⟨trivial, trivial⟩) trivial
  have layouts : ∀ {m object layout}, bracketedWord.layout m object = some layout →
      Part.AllNew layout.parts := by
    intro m object layout h
    cases object <;> cases h <;> simp [Part.AllNew, Part.IsNew, Part.pinned, Part.constant,
      Part.object]
  exact ⟨t₀, t, prepared, located, settled,
    (printSource_unchanged layouts prepared located parsed settled .refl).1⟩

/-- An object of one literal, the empty one, that is pinned to the whole
source. -/
def pinnedNothing : Language Unit Unit where
  layout _ _ := some
    { origin := some (.ok (.between ⟨1, 0⟩ ⟨1, 3⟩))
      parts := [(Part.constant []).pinned (.between ⟨1, 0⟩ ⟨1, 3⟩)] }
  describe _ _ := ""
  size _ := 1

/-- A literal that renders to nothing is settled only if it is nowhere.
Pinned to text, it takes that text away although nothing has changed. -/
theorem printSource_pinnedNothing :
    ∃ t₀ t v, Prepared pinnedNothing ['a', 'b', 'c'] t₀ ∧ locate () t₀ = .ok () t ∧
      (∀ {n}, t.nodes[root]? = some n → n.place.isSome = true) ∧
      (∀ {id n}, Visited () t id → t.nodes[id]? = some n → ∀ part ∈ n.parts,
        ∃ frame wording place, part = .literal frame wording place ∧
          frame.wrap t.settings.margin (wording.text ()) = []) ∧
      printSource () t = .ok [] v := by
  refine ⟨_, _, _, @Prepared.root _ _ _ _ _ () () _ rfl, rfl, fun hn => by cases hn; rfl, ?_, rfl⟩
  intro id n visited
  have hid : id = 0 := by
    induction visited with
    | root => rfl
    | step _ node found ih =>
      cases ih
      cases node
      rcases found with h | h
      · exact h.elim
      · exact h.elim
  intro hn
  subst hid
  cases hn
  intro part hpart
  cases hpart with
  | head => exact ⟨_, _, _, rfl, rfl⟩
  | tail _ h => cases h

end Tree

end Reprint
