import Reprint.Tree.Print

/-!
# Two runs on related trees

`Abreast escape R job job'` compares two operations.  From states that are
related by `R`, the second one comes to the same result as the first one, and
the states that they leave are related again.  Only when the first one fails
with an error in `escape` nothing is said.

The normal text of a part depends on the tree through `printBelow` only.  So
if two ways to print an object below a node go abreast, then so do the normal
texts that are made with them (`Abreast.normalPart`).  Revising the source text
also looks at the nodes that the parts have found, and at the line on which the
owner starts: what has to agree there is an `Outlook`, and `Outlook.revisePart` is
the induction over parts.

In both, the lists of the second part may be others than those of the first one
(`Part.mapLists`), as long as their items go abreast.
-/

namespace Reprint

/-- From two states the second operation comes to the same result as the first
one, and they leave related states. -/
def AbreastAt {σ τ α : Type} (escape : Error → Prop) (R : σ → τ → Prop) (job : EStateM Error σ α)
    (job' : EStateM Error τ α) (s : σ) (r : τ) : Prop :=
  match job s with
  | .ok a s' => ∃ r', R s' r' ∧ job' r = .ok a r'
  | .error e s' => escape e ∨ ∃ r', R s' r' ∧ job' r = .error e r'

/-- That holds from all related states. -/
def Abreast {σ τ α : Type} (escape : Error → Prop) (R : σ → τ → Prop) (job : EStateM Error σ α)
    (job' : EStateM Error τ α) : Prop :=
  ∀ s r, R s r → AbreastAt escape R job job' s r

/-- What is known of related states may be forgotten. -/
theorem AbreastAt.weaken {σ τ α : Type} {escape : Error → Prop} {R R' : σ → τ → Prop}
    {job : EStateM Error σ α} {job' : EStateM Error τ α} {s : σ} {r : τ}
    (h : AbreastAt escape R job job' s r) (hR : ∀ {s r}, R s r → R' s r) :
    AbreastAt escape R' job job' s r := by
  unfold AbreastAt at h ⊢
  cases hjob : job s with
  | ok a s' =>
    rw [hjob] at h
    obtain ⟨r', hr', hrun⟩ := h
    exact ⟨r', hR hr', hrun⟩
  | error e s' =>
    rw [hjob] at h
    exact h.imp_right fun ⟨r', hr', hrun⟩ => ⟨r', hR hr', hrun⟩

namespace Abreast

variable {σ τ α β : Type} {escape : Error → Prop} {R : σ → τ → Prop}

theorem pure (a : α) :
    Abreast escape R (Pure.pure a : EStateM Error σ α) (Pure.pure a : EStateM Error τ α) :=
  fun _ r hr => ⟨r, hr, rfl⟩

theorem throw (e : Error) :
    Abreast escape R (MonadExcept.throw e : EStateM Error σ α)
      (MonadExcept.throw e : EStateM Error τ α) :=
  fun _ r hr => Or.inr ⟨r, hr, rfl⟩

theorem bind {job : EStateM Error σ α} {job' : EStateM Error τ α}
    {next : α → EStateM Error σ β} {next' : α → EStateM Error τ β}
    (hjob : Abreast escape R job job') (hnext : ∀ a, Abreast escape R (next a) (next' a)) :
    Abreast escape R (job >>= next) (job' >>= next') := by
  intro s r hr
  have hrun := hjob s r hr
  unfold AbreastAt at hrun
  show match EStateM.bind job next s with
    | .ok b s' => ∃ r', R s' r' ∧ EStateM.bind job' next' r = .ok b r'
    | .error e s' => escape e ∨ ∃ r', R s' r' ∧ EStateM.bind job' next' r = .error e r'
  unfold EStateM.bind
  cases hjobs : job s with
  | ok a s' =>
    rw [hjobs] at hrun
    obtain ⟨r', hr', hrun⟩ := hrun
    rw [hrun]
    exact hnext a s' r' hr'
  | error e s' =>
    rw [hjobs] at hrun
    rcases hrun with hescape | ⟨r', hr', hrun⟩
    · exact Or.inl hescape
    · rw [hrun]
      exact Or.inr ⟨r', hr', rfl⟩

/-- Operations that first read the state. -/
theorem get_bind {next : σ → EStateM Error σ β} {next' : τ → EStateM Error τ β}
    (h : ∀ s r, R s r → Abreast escape R (next s) (next' r)) :
    Abreast escape R (get >>= next) (get >>= next') := fun s r hr => h s r hr s r hr

/-- Operations that first put other states in place, which may be related more
closely. -/
theorem set_bind {R' : σ → τ → Prop} {s : σ} {r : τ} {job : EStateM Error σ α}
    {job' : EStateM Error τ α} (hr : R' s r) (hjob : Abreast escape R' job job')
    (hweak : ∀ {s r}, R' s r → R s r) :
    Abreast escape R (set s >>= fun _ => job) (set r >>= fun _ => job') := by
  intro _ _ _
  exact (hjob s r hr).weaken hweak

/-- A step that is taken under a condition. -/
theorem ite {c : Prop} [Decidable c] {job other : EStateM Error σ α}
    {job' other' : EStateM Error τ α} (h : Abreast escape R job job')
    (hother : Abreast escape R other other') :
    Abreast escape R (if c then job else other) (if c then job' else other') := by
  split
  · exact h
  · exact hother

/-- A step that only the first one takes, and that changes nothing. -/
theorem pass {job : EStateM Error σ α} {a : α} {next : α → EStateM Error σ β}
    {job' : EStateM Error τ β} (hjob : ∀ s r, R s r → job s = .ok a s)
    (hnext : Abreast escape R (next a) job') : Abreast escape R (job >>= next) job' := by
  intro s r hr
  have hrun := hnext s r hr
  unfold AbreastAt at hrun
  show match EStateM.bind job next s with
    | .ok b s' => ∃ r', R s' r' ∧ job' r = .ok b r'
    | .error e s' => escape e ∨ ∃ r', R s' r' ∧ job' r = .error e r'
  unfold EStateM.bind
  rw [hjob s r hr]
  exact hrun

/-- Two runs that are abreast come to the same result, unless the first one
fails with an error in `escape`. -/
theorem cases {job : EStateM Error σ α} {job' : EStateM Error τ α}
    (h : Abreast escape R job job') {s : σ} {r : τ} (hr : R s r) :
    (∃ a s' r', job s = .ok a s' ∧ job' r = .ok a r' ∧ R s' r') ∨
      ∃ e s', job s = .error e s' ∧ (escape e ∨ ∃ r', job' r = .error e r' ∧ R s' r') := by
  have hrun := h s r hr
  unfold AbreastAt at hrun
  cases hjob : job s with
  | ok a s' =>
    rw [hjob] at hrun
    obtain ⟨r', hr', hrun⟩ := hrun
    exact Or.inl ⟨a, s', r', rfl, hrun, hr'⟩
  | error e s' =>
    rw [hjob] at hrun
    exact Or.inr ⟨e, s', rfl, hrun.imp_right fun ⟨r', hr', hrun⟩ => ⟨r', hrun, hr'⟩⟩

end Abreast

/-! ## Parts with other lists -/

namespace Part

variable {M O : Type}

mutual

/-- A part with other lists in it. -/
def mapLists (g : ItemList M O → ItemList M O) : Part M O → Part M O
  | .literal frame wording place => .literal frame wording place
  | .slot frame supply listed => .slot frame supply listed
  | .items frame list => .items frame (g list)
  | .choice frame test yes none taken => .choice frame test (mapLists g yes) none taken
  | .choice frame test yes (some other) taken =>
    .choice frame test (mapLists g yes) (some (mapLists g other)) taken
  | .group frame members stale => .group frame (mapAllLists g members) stale
termination_by structural p => p

/-- Several parts with other lists in them. -/
def mapAllLists (g : ItemList M O → ItemList M O) : List (Part M O) → List (Part M O)
  | [] => []
  | p :: rest => mapLists g p :: mapAllLists g rest
termination_by structural ps => ps

end

@[simp] theorem frame_mapLists (g : ItemList M O → ItemList M O) (p : Part M O) :
    (p.mapLists g).frame = p.frame := by
  cases p with
  | choice f test yes no taken => cases no <;> simp [mapLists, Part.frame]
  | literal | slot | items | group => simp [mapLists, Part.frame]

mutual

/-- The same lists. -/
theorem mapLists_id : ∀ p : Part M O, p.mapLists id = p
  | .literal .. | .slot .. | .items .. => by simp [mapLists]
  | .choice _ _ yes none _ => by rw [mapLists, mapLists_id yes]
  | .choice _ _ yes (some other) _ => by rw [mapLists, mapLists_id yes, mapLists_id other]
  | .group _ members _ => by rw [mapLists, mapAllLists_id members]
termination_by structural p => p

theorem mapAllLists_id : ∀ parts : List (Part M O), mapAllLists id parts = parts
  | [] => by rw [mapAllLists]
  | p :: rest => by rw [mapAllLists, mapLists_id p, mapAllLists_id rest]
termination_by structural parts => parts

end

mutual

/-- The lists in a part, of a choice those in the part that the test selects. -/
def lists (m : M) : Part M O → List (Frame × ItemList M O)
  | .literal .. => []
  | .slot .. => []
  | .items frame list => [(frame, list)]
  | .choice _ test yes no _ =>
    if test m then lists m yes
    else
      match no with
      | none => []
      | some other => lists m other
  | .group _ members _ => listsOfAll m members
termination_by structural p => p

/-- The lists in several parts. -/
def listsOfAll (m : M) : List (Part M O) → List (Frame × ItemList M O)
  | [] => []
  | p :: rest => lists m p ++ listsOfAll m rest
termination_by structural parts => parts

end

end Part

/-! ## Normal text -/

namespace Abreast

open Reprint.Tree

variable {M O : Type} [DecidableEq O] {escape : Error → Prop} {R : Tree M O → Tree M O → Prop}
  {m : M} {owner owner' : Nat} {print print' : Nat → Margin → Job M O Text}

/-- The texts of the items of a list. -/
theorem normalItems (hbelow : ∀ object margin, Abreast escape R
      (printBelow print m owner object margin) (printBelow print' m owner' object margin))
    (unit : Margin) (frame : Frame) (list : ItemList M O) (count : Nat) :
    ∀ (objects : List O) (index : Nat), Abreast escape R
      (normalItems print m owner unit frame list count index objects)
      (normalItems print' m owner' unit frame list count index objects)
  | [], _ => .pure _
  | object :: rest, index => by
    refine .bind (hbelow object unit) fun body => ?_
    have hrest := normalItems hbelow unit frame list count rest (index + 1)
    cases body with
    | none => exact .bind (.pure _) fun _ => .bind hrest fun _ => .pure _
    | some body => exact .bind (.pure _) fun _ => .bind hrest fun _ => .pure _

mutual

/-- The normal text of a part. -/
theorem normalPart {g : ItemList M O → ItemList M O} (unit : Margin)
    (hbelow : ∀ object margin, Abreast escape R
      (printBelow print m owner object margin) (printBelow print' m owner' object margin)) :
    ∀ p : Part M O, (∀ frame list, (frame, list) ∈ p.lists m →
      Abreast escape R (normalPart print m owner unit (.items frame list))
        (normalPart print' m owner' unit (.items frame (g list)))) →
      Abreast escape R (normalPart print m owner unit p)
        (normalPart print' m owner' unit (p.mapLists g))
  | .literal .., _ => by
    rw [Part.mapLists, Tree.normalPart, Tree.normalPart]
    exact .pure _
  | .slot frame supply listed, _ => by
    rw [Part.mapLists, Tree.normalPart, Tree.normalPart]
    split
    · exact .pure _
    · refine .bind (hbelow _ unit) fun body => ?_
      cases body <;> exact .pure _
  | .items frame list, hitems => by
    rw [Part.mapLists]
    exact hitems frame list (by rw [Part.lists]; exact List.mem_singleton_self _)
  | .choice frame test yes none taken, hitems => by
    rw [Part.mapLists, Tree.normalPart, Tree.normalPart]
    rw [Part.lists] at hitems
    split
    · next htest =>
      rw [if_pos htest] at hitems
      exact .bind (normalPart unit hbelow yes hitems) fun _ => .pure _
    · exact .pure _
  | .choice frame test yes (some other) taken, hitems => by
    rw [Part.mapLists, Tree.normalPart, Tree.normalPart]
    rw [Part.lists] at hitems
    split
    · next htest =>
      rw [if_pos htest] at hitems
      exact .bind (normalPart unit hbelow yes hitems) fun _ => .pure _
    · next htest =>
      rw [if_neg htest] at hitems
      exact .bind (normalPart unit hbelow other hitems) fun _ => .pure _
  | .group frame members _, hitems => by
    rw [Part.mapLists, Tree.normalPart, Tree.normalPart]
    rw [Part.lists] at hitems
    exact .bind (normalParts unit hbelow members hitems) fun _ => .pure _
termination_by structural p => p

/-- The normal text of several parts. -/
theorem normalParts {g : ItemList M O → ItemList M O} (unit : Margin)
    (hbelow : ∀ object margin, Abreast escape R
      (printBelow print m owner object margin) (printBelow print' m owner' object margin)) :
    ∀ parts : List (Part M O), (∀ frame list, (frame, list) ∈ Part.listsOfAll m parts →
      Abreast escape R (Tree.normalPart print m owner unit (.items frame list))
        (Tree.normalPart print' m owner' unit (.items frame (g list)))) →
      Abreast escape R (normalParts print m owner unit parts)
        (normalParts print' m owner' unit (Part.mapAllLists g parts))
  | [], _ => by
    rw [Part.mapAllLists, Tree.normalParts, Tree.normalParts]
    exact .pure _
  | p :: rest, hitems => by
    rw [Part.mapAllLists, Tree.normalParts, Tree.normalParts]
    rw [Part.listsOfAll] at hitems
    exact .bind (normalPart unit hbelow p fun frame list hmem =>
        hitems frame list (List.mem_append_left _ hmem)) fun _ =>
      .bind (normalParts unit hbelow rest fun frame list hmem =>
        hitems frame list (List.mem_append_right _ hmem)) fun _ => .pure _
termination_by structural parts => parts

end

/-- The normal text of a list, with the same list on both sides. -/
theorem normalPart_items (unit : Margin) (hbelow : ∀ object margin, Abreast escape R
      (printBelow print m owner object margin) (printBelow print' m owner' object margin))
    (frame : Frame) (list : ItemList M O) : Abreast escape R
      (Tree.normalPart print m owner unit (.items frame list))
      (Tree.normalPart print' m owner' unit (.items frame list)) := by
  rw [Tree.normalPart, Tree.normalPart]
  exact .bind (normalItems hbelow unit frame list _ _ _) fun _ => .pure _

/-- The normal text of several parts, with the same lists on both sides. -/
theorem normalParts_id (unit : Margin) (hbelow : ∀ object margin, Abreast escape R
      (printBelow print m owner object margin) (printBelow print' m owner' object margin))
    (parts : List (Part M O)) : Abreast escape R (Tree.normalParts print m owner unit parts)
      (Tree.normalParts print' m owner' unit parts) := by
  have hparts := normalParts unit hbelow parts fun frame list _ =>
    normalPart_items unit hbelow frame (id list)
  rwa [Part.mapAllLists_id] at hparts

end Abreast

/-! ## Revising source text -/

/-- A property of patches that edits keep which are granted. -/
structure Patch.Lasting (K : Patch → Prop) : Prop where
  replace : ∀ {p q : Patch} {span : Span} {text : Text}, K p → p.replace span text = .ok q → K q
  insert : ∀ {p q : Patch} {place : Position} {text : Text}, K p → p.insert place text = .ok q → K q
  remove : ∀ {p q : Patch} {span : Span}, K p → p.remove span = .ok q → K q

/-- Nothing need be known of a patch. -/
theorem Patch.Lasting.trivial : Patch.Lasting fun _ => True :=
  ⟨fun _ _ => True.intro, fun _ _ => True.intro, fun _ _ => True.intro⟩

namespace Part

variable {M O : Type}

mutual

/-- The nodes that were found for the objects of a part. -/
def listed : Part M O → List Nat
  | .literal .. => []
  | .slot _ _ found => found.toList
  | .items _ list => list.listed.map ListedItem.node
  | .choice _ _ yes no _ =>
    listed yes ++
      match no with
      | none => []
      | some other => listed other
  | .group _ members _ => listedAll members
termination_by structural p => p

/-- The nodes that were found for the objects of several parts. -/
def listedAll : List (Part M O) → List Nat
  | [] => []
  | p :: rest => listed p ++ listedAll rest
termination_by structural ps => ps

end

end Part

namespace Tree

variable {M O : Type}

/-- Drafts of related trees, with the same patch, of which something is known,
and the same cursor. -/
structure Drafts (R : Tree M O → Tree M O → Prop) (K : Patch → Prop) (d d' : Draft M O) : Prop where
  tree : R d.tree d'.tree
  known : K d.patch
  patch : d'.patch = d.patch
  cursor : d'.cursor = d.cursor

end Tree

namespace Abreast

open Reprint.Tree Revision

variable {M O α : Type} {escape : Error → Prop} {R : Tree M O → Tree M O → Prop}
  {K : Patch → Prop}

theorem onTree {job job' : Job M O α} (h : Abreast escape R job job') :
    Abreast escape (Drafts R K) (Revision.onTree job) (Revision.onTree job') := by
  intro d d' hd
  unfold AbreastAt Revision.onTree
  rcases h.cases hd.tree with ⟨a, t, u, hjob, hjob', htu⟩ | ⟨e, t, hjob, hescape | ⟨u, hjob', htu⟩⟩
  · rw [hjob, hjob']
    exact ⟨{ d' with tree := u }, ⟨htu, hd.known, hd.patch, hd.cursor⟩, rfl⟩
  · rw [hjob]
    exact Or.inl hescape
  · rw [hjob, hjob']
    exact Or.inr ⟨{ d' with tree := u }, ⟨htu, hd.known, hd.patch, hd.cursor⟩, rfl⟩

/-- Reading something that is the same in both trees. -/
theorem read {g g' : Tree M O → Except Error α} (h : ∀ t u, R t u → g' u = g t) :
    Abreast escape (Drafts R K) (Revision.read g) (Revision.read g') := by
  intro d d' hd
  unfold AbreastAt Revision.read
  rw [h d.tree d'.tree hd.tree]
  cases g d.tree with
  | ok a => exact ⟨d', hd, rfl⟩
  | error e => exact Or.inr ⟨d', hd, rfl⟩

theorem edit {change : Patch → Except Source.Error Patch}
    (h : ∀ {p q : Patch}, K p → change p = .ok q → K q) :
    Abreast escape (Drafts R K) (Revision.edit change) (Revision.edit change) := by
  intro d d' hd
  unfold AbreastAt Revision.edit
  rw [hd.patch]
  cases hchange : change d.patch with
  | ok p => exact ⟨{ d' with patch := p }, ⟨hd.tree, h hd.known hchange, rfl, hd.cursor⟩, rfl⟩
  | error e => exact Or.inr ⟨d', hd, rfl⟩

theorem moveTo (p : Position) :
    Abreast escape (Drafts R K) (Revision.moveTo p) (Revision.moveTo p) :=
  fun _ d' hd => ⟨{ d' with cursor := p }, ⟨hd.tree, hd.known, hd.patch, rfl⟩, rfl⟩

theorem insertHere (hK : Patch.Lasting K) (text : Text) :
    Abreast escape (Drafts R K) (Revision.insertHere text) (Revision.insertHere text) := by
  intro d d' hd
  unfold AbreastAt Revision.insertHere
  rw [hd.cursor]
  exact edit hK.insert d d' hd

theorem overwrite (hK : Patch.Lasting K) (extent : Option Span) (text : Text) :
    Abreast escape (Drafts R K) (Revision.overwrite extent text)
      (Revision.overwrite extent text) := by
  unfold Revision.overwrite
  cases extent with
  | none => exact insertHere hK text
  | some span => exact .bind (edit hK.replace) fun _ => moveTo _

theorem reviseDelimiter (hK : Patch.Lasting K) (delimiter : Delimiter) (literal : Text)
    (anchor : Position) : Abreast escape (Drafts R K)
      (Tree.reviseDelimiter delimiter literal anchor)
      (Tree.reviseDelimiter delimiter literal anchor) := by
  unfold Tree.reviseDelimiter
  split
  · exact .ite (.pure _) (edit hK.replace)
  · exact edit hK.insert
  · exact edit hK.insert

end Abreast

namespace Tree

variable {M O : Type}

/-- What a revision sees of a node that a part has found. -/
def face (t : Tree M O) (id : Nat) : Option (O × Option Place) :=
  (t.nodes[id]?).map fun n => (n.object, n.place)

/-- What has to agree so that the texts of two nodes are revised abreast.  `V` are
the nodes that their parts have found. -/
structure Outlook [DecidableEq O] (escape : Error → Prop) (R : Tree M O → Tree M O → Prop) (m : M)
    (owner owner' : Nat) (print print' : Nat → Margin → Job M O Text) (V : Nat → Prop) :
    Prop where
  source : ∀ {t u : Tree M O}, R t u → u.source = t.source
  aligned : ∀ {t u : Tree M O}, R t u → ∀ indent text,
    u.aligned owner' indent text = t.aligned owner indent text
  face : ∀ {t u : Tree M O} {id : Nat}, R t u → V id → u.face id = t.face id
  listed : ∀ {id : Nat}, V id → ∀ margin, Abreast escape R (print id margin) (print' id margin)
  below : ∀ object margin, Abreast escape R (printBelow print m owner object margin)
    (printBelow print' m owner' object margin)

namespace Outlook

variable [DecidableEq O] {escape : Error → Prop} {R : Tree M O → Tree M O → Prop} {K : Patch → Prop}
  {m : M} {owner owner' : Nat} {print print' : Nat → Margin → Job M O Text} {V : Nat → Prop}

theorem sourceText (h : Outlook escape R m owner owner' print print' V) (span : Span)
    (t u : Tree M O) (htu : R t u) : u.sourceText span = t.sourceText span := by
  unfold Tree.sourceText
  rw [h.source htu]

/-- A node that a part has found is there in both trees, with the same object and
the same place, or in none. -/
theorem node_cases (h : Outlook escape R m owner owner' print print' V) {id : Nat} (hid : V id)
    {t u : Tree M O} (htu : R t u) :
    (∃ n n', t.node id = .ok n ∧ u.node id = .ok n' ∧ n'.object = n.object ∧ n'.place = n.place) ∨
      ∃ e, t.node id = .error e ∧ u.node id = .error e := by
  have hface := h.face htu hid
  unfold Tree.face at hface
  unfold Tree.node
  cases hn : t.nodes[id]? with
  | none =>
    rw [hn] at hface
    rw [Option.map_eq_none_iff.1 hface]
    exact Or.inr ⟨_, rfl, rfl⟩
  | some n =>
    rw [hn] at hface
    obtain ⟨n', hn', hsame⟩ := Option.map_eq_some_iff.1 hface
    rw [hn']
    exact Or.inl ⟨n, n', rfl, rfl, congrArg Prod.fst hsame, congrArg Prod.snd hsame⟩

/-- A step that first reads a node that a part has found. -/
theorem read_node {α : Type} (h : Outlook escape R m owner owner' print print' V) {id : Nat}
    (hid : V id) {next next' : Node M O → Revision M O α}
    (hnext : ∀ n n' : Node M O, n'.object = n.object → n'.place = n.place →
      Abreast escape (Drafts R K) (next n) (next' n')) :
    Abreast escape (Drafts R K) (Revision.read (fun t => t.node id) >>= next)
      (Revision.read (fun t => t.node id) >>= next') := by
  intro d d' hd
  unfold AbreastAt
  simp only [bind, EStateM.bind, Revision.read]
  rcases h.node_cases hid hd.tree with ⟨n, n', hn, hn', hobject, hplace⟩ | ⟨e, hn, hn'⟩
  · rw [hn, hn']
    exact hnext n n' hobject hplace d d' hd
  · rw [hn, hn']
    exact Or.inr ⟨d', hd, rfl⟩

/-- A literal. -/
theorem reviseLiteral (h : Outlook escape R m owner owner' print print' V) (hK : Patch.Lasting K)
    (span : Span) (place : LiteralPlace) (text : Text) : Abreast escape (Drafts R K)
      (reviseLiteral span place text) (reviseLiteral span place text) := by
  unfold Tree.reviseLiteral
  refine .bind (.edit hK.insert) fun _ => .bind (.read (h.sourceText span)) fun present => ?_
  have hrest : Abreast escape (Drafts R K) (do
      Revision.edit fun p => p.insert span.stop place.behind.toInsert
      Revision.moveTo (place.behind.stopBehind span) : Revision M O Unit) (do
      Revision.edit fun p => p.insert span.stop place.behind.toInsert
      Revision.moveTo (place.behind.stopBehind span)) :=
    .bind (.edit hK.insert) fun _ => .moveTo _
  exact .ite (.bind (.edit hK.replace) fun _ => hrest) hrest

/-- An object that was found in the source. -/
theorem reviseItem (h : Outlook escape R m owner owner' print print' V) (hK : Patch.Lasting K)
    (unit : Margin) {id : Nat} (hid : V id) (literals : Option (Text × Text)) :
    Abreast escape (Drafts R K) (reviseItem print unit id literals)
      (reviseItem print' unit id literals) := by
  unfold Tree.reviseItem
  have hplace : ∀ t u, R t u → u.placeOfNode id = t.placeOfNode id := by
    intro t u htu
    unfold placeOfNode
    rcases h.node_cases hid htu with ⟨n, n', hn, hn', _, hplace⟩ | ⟨e, hn, hn'⟩ <;> rw [hn, hn']
    simp only [bind, Except.bind, hplace]
  refine .bind (.read hplace) fun place => ?_
  refine .bind (.reviseDelimiter hK _ _ _) fun _ => .bind (.onTree (h.listed hid unit)) fun text =>
    .bind (.read (h.sourceText _)) fun present => ?_
  have hrest : ∀ trail, Abreast escape (Drafts R K) (do
      Tree.reviseDelimiter place.behind trail place.span.stop
      Revision.moveTo (place.behind.stopBehind place.span) : Revision M O Unit) (do
      Tree.reviseDelimiter place.behind trail place.span.stop
      Revision.moveTo (place.behind.stopBehind place.span)) :=
    fun trail => .bind (.reviseDelimiter hK _ _ _) fun _ => .moveTo _
  exact .ite (.bind (.edit hK.replace) fun _ => hrest _) (hrest _)

/-- The text that goes in for a part, where the parts are made abreast. -/
theorem alignedText (h : Outlook escape R m owner owner' print print' V) {α : Type}
    {next : Text → Revision M O α} {next' : Text → Revision M O α}
    (hnext : ∀ text, Abreast escape (Drafts R K) (next text) (next' text)) (indent : Indent)
    (text : Text) : Abreast escape (Drafts R K)
      (do next ((← get).tree.aligned owner indent text))
      (do next' ((← get).tree.aligned owner' indent text)) := by
  refine .get_bind fun d d' hd => ?_
  rw [h.aligned hd.tree]
  exact hnext _

/-- A part without source text. -/
theorem insertPart (h : Outlook escape R m owner owner' print print' V) (hK : Patch.Lasting K)
    (unit : Margin) {part part' : Part M O} (hframe : part'.frame = part.frame)
    (hpart : Abreast escape R (normalPart print m owner unit part)
      (normalPart print' m owner' unit part')) :
    Abreast escape (Drafts R K) (insertPart print m owner unit part)
      (insertPart print' m owner' unit part') := by
  unfold Tree.insertPart
  rw [hframe]
  exact .bind (.onTree hpart) fun text => h.alignedText (.insertHere hK) _ text

/-- The text of an object that has no source text where it is needed. -/
theorem freshText (h : Outlook escape R m owner owner' print print' V) (unit : Margin)
    (indent : Indent) (lead trail : Text) (object : O) : Abreast escape (Drafts R K)
      (freshText print m owner unit indent lead trail object)
      (freshText print' m owner' unit indent lead trail object) := by
  unfold Tree.freshText
  refine .bind (.onTree (h.below object unit)) fun body => ?_
  cases body with
  | none => exact .pure _
  | some body => exact h.alignedText .pure _ _

theorem reviseSlot (h : Outlook escape R m owner owner' print print' V) (hK : Patch.Lasting K)
    (unit : Margin) (frame : Frame) (current : Option O) {listed : Nat} (hlisted : V listed) :
    Abreast escape (Drafts R K) (reviseSlot print m owner unit frame current listed)
      (reviseSlot print' m owner' unit frame current listed) := by
  unfold Tree.reviseSlot
  refine h.read_node hlisted fun n n' hobject _ => ?_
  rw [hobject]
  refine .ite (h.reviseItem hK unit hlisted none) ?_
  cases current with
  | none => exact .bind (.pure _) fun _ => .overwrite hK _ _
  | some object => exact .bind (h.freshText _ _ _ _ _) fun _ => .overwrite hK _ _

/-- The texts of all items of a list. -/
theorem freshItems (h : Outlook escape R m owner owner' print print' V) (unit : Margin)
    (frame : Frame) (list : ItemList M O) (count : Nat) : ∀ (objects : List O) (index : Nat),
      Abreast escape (Drafts R K) (freshItems print m owner unit frame list count index objects)
        (freshItems print' m owner' unit frame list count index objects)
  | [], _ => .pure _
  | _ :: rest, index =>
    .bind (h.freshText _ _ _ _ _) fun _ =>
      .bind (freshItems h unit frame list count rest (index + 1)) fun _ => .pure _

/-- A new item goes in, and the items behind it follow. -/
theorem insertFresh (h : Outlook escape R m owner owner' print print' V) (hK : Patch.Lasting K)
    (unit : Margin) (indent : Indent) (lead trail : Text) (object : O)
    {rest rest' : Revision M O Unit} (hrest : Abreast escape (Drafts R K) rest rest') :
    Abreast escape (Drafts R K) (do
      Revision.insertHere (← Tree.freshText print m owner unit indent lead trail object)
      rest) (do
      Revision.insertHere (← Tree.freshText print' m owner' unit indent lead trail object)
      rest') :=
  .bind (h.freshText _ _ _ _ _) fun _ => .bind (.insertHere hK _) fun _ => hrest

/-- The items that the model lists now, one after the other. -/
theorem reviseListed (h : Outlook escape R m owner owner' print print' V) (hK : Patch.Lasting K)
    (unit : Margin) (frame : Frame) (list : ItemList M O) (hlisted : ∀ item ∈ list.listed, V item.node)
    (count : Nat) : ∀ (objects : List O) (index : Nat) (done spare : List O),
      Abreast escape (Drafts R K)
        (reviseListed print m owner unit frame list count index objects done spare)
        (reviseListed print' m owner' unit frame list count index objects done spare)
  | [], _, _, _ => .pure _
  | object :: rest, index, done, spare => by
    have hrest := reviseListed h hK unit frame list hlisted count rest (index + 1)
    rw [Tree.reviseListed, Tree.reviseListed]
    split
    split
    · next item hitem =>
      have hnode := hlisted item (List.mem_of_find?_eq_some hitem)
      refine .ite (.bind (h.reviseItem hK unit hnode _) fun _ => hrest _ _) ?_
      exact .ite (hrest _ _) (h.insertFresh hK _ _ _ _ _ (hrest _ _))
    · exact h.insertFresh hK _ _ _ _ _ (hrest _ _)

theorem gonePiece (h : Outlook escape R m owner owner' print print' V) {previous : Option Nat}
    (hprevious : ∀ id, previous = some id → V id) {id : Nat} (hid : V id) (t u : Tree M O)
    (htu : R t u) : u.gonePiece previous id = t.gonePiece previous id := by
  have hextent : ∀ {n n' : Node M O}, n'.place = n.place → n'.extent = n.extent := by
    intro n n' hplace
    rw [Node.extent, Node.extent, hplace]
  unfold Tree.gonePiece
  rcases h.node_cases hid htu with ⟨n, n', hn, hn', _, hplace⟩ | ⟨e, hn, hn'⟩ <;> rw [hn, hn']
  · have hbefore : n'.before = n.before := by rw [Node.before, Node.before, hplace]
    dsimp only [bind, Except.bind]
    rw [hextent hplace, hbefore]
    cases n.extent with
    | none => rfl
    | some extent =>
      cases n.before.span? with
      | some span => rfl
      | none =>
        cases previous with
        | none => rfl
        | some previous =>
          dsimp only
          rcases h.node_cases (hprevious previous rfl) htu with
            ⟨k, k', hk, hk', _, hplace'⟩ | ⟨e, hk, hk'⟩ <;> rw [hk, hk']
          dsimp only
          rw [hextent hplace']
          simp only [h.sourceText _ t u htu]
  · rfl

/-- The items that the model does not list any more. -/
theorem removeGone (h : Outlook escape R m owner owner' print print' V) (hK : Patch.Lasting K)
    (current : List O) : ∀ (listed : List (ListedItem O)) (previous : Option Nat),
      (∀ item ∈ listed, V item.node) → (∀ id, previous = some id → V id) →
      Abreast escape (Drafts R K) (removeGone current previous listed : Revision M O Unit)
        (removeGone current previous listed)
  | [], _, _, _ => .pure _
  | item :: rest, previous, hlisted, hprevious => by
    have hitem := hlisted item List.mem_cons_self
    have hrest : Abreast escape (Drafts R K)
        (Tree.removeGone current (some item.node) rest : Revision M O Unit)
        (Tree.removeGone current (some item.node) rest) :=
      removeGone h hK current rest (some item.node)
        (fun other hother => hlisted other (List.mem_cons_of_mem _ hother))
        fun id hid => Option.some.inj hid ▸ hitem
    rw [Tree.removeGone]
    refine .ite (.bind (.read (h.gonePiece hprevious hitem)) fun piece => ?_) hrest
    cases piece with
    | none => exact hrest
    | some piece => exact .bind (.edit hK.remove) fun _ => hrest

theorem moveToFirst (h : Outlook escape R m owner owner' print print' V) (list : ItemList M O)
    (hlisted : ∀ item ∈ list.listed, V item.node) (current : List O) :
    Abreast escape (Drafts R K) (moveToFirst list current : Revision M O Unit)
      (moveToFirst list current) := by
  unfold Tree.moveToFirst
  split
  · exact .pure _
  · next item hitem =>
    refine h.read_node (hlisted item (List.mem_of_find?_eq_some hitem)) fun n n' _ hplace => ?_
    have hbefore : n'.before = n.before := by rw [Node.before, Node.before, hplace]
    have hspan : n'.span? = n.span? := by rw [Node.span?, Node.span?, hplace]
    rw [hbefore, hspan]
    split
    · exact .moveTo _
    · exact .pure _

theorem reviseItems (h : Outlook escape R m owner owner' print print' V) (hK : Patch.Lasting K)
    (unit : Margin) (frame : Frame) (list : ItemList M O)
    (hlisted : ∀ item ∈ list.listed, V item.node) : Abreast escape (Drafts R K)
      (reviseItems print m owner unit frame list) (reviseItems print' m owner' unit frame list) := by
  unfold Tree.reviseItems
  refine .ite (.bind (h.freshItems _ _ _ _ _ _) fun _ => .overwrite hK _ _) ?_
  exact .bind (h.moveToFirst list hlisted _) fun _ =>
    .bind (h.reviseListed hK _ _ _ hlisted _ _ _ _ _) fun _ =>
      h.removeGone hK _ _ _ hlisted fun _ hnone => by cases hnone

theorem switchTo (h : Outlook escape R m owner owner' print print' V) (hK : Patch.Lasting K)
    (unit : Margin) (frame : Frame) {selected selected' : Option (Part M O)}
    (hframe : selected'.map Part.frame = selected.map Part.frame)
    (hselected : ∀ part part', selected = some part → selected' = some part' →
      Abreast escape R (normalPart print m owner unit part) (normalPart print' m owner' unit part')) :
    Abreast escape (Drafts R K) (switchTo print m owner unit frame selected)
      (switchTo print' m owner' unit frame selected') := by
  unfold Tree.switchTo
  cases selected with
  | none =>
    rw [Option.map_none, Option.map_eq_none_iff] at hframe
    rw [hframe]
    exact .bind (.pure _) fun _ => .overwrite hK _ _
  | some part =>
    obtain ⟨part', rfl, hpart⟩ := Option.map_eq_some_iff.1 hframe
    refine .bind (.onTree (hselected part part' rfl rfl)) fun text => .get_bind fun d d' hd => ?_
    rw [hpart, h.aligned hd.tree]
    exact .bind (.pure _) fun _ => .overwrite hK _ _

mutual

/-- Bringing a part up to date. -/
theorem revisePart {g : ItemList M O → ItemList M O} (unit : Margin)
    (h : Outlook escape R m owner owner' print print' V) (hK : Patch.Lasting K) : ∀ p : Part M O,
      (∀ id ∈ p.listed, V id) →
      (∀ frame list, (frame, list) ∈ p.lists m → Abreast escape R
        (normalPart print m owner unit (.items frame list))
        (normalPart print' m owner' unit (.items frame (g list)))) →
      (∀ frame list, (frame, list) ∈ p.lists m → (∀ item ∈ list.listed, V item.node) →
        Abreast escape (Drafts R K) (revisePart print m owner unit (.items frame list))
          (revisePart print' m owner' unit (.items frame (g list)))) →
      Abreast escape (Drafts R K) (revisePart print m owner unit p)
        (revisePart print' m owner' unit (p.mapLists g))
  | .literal frame wording place, _, _, _ => by
    rw [Part.mapLists, Tree.revisePart, Tree.revisePart]
    split
    · exact h.reviseLiteral hK _ _ _
    · refine h.insertPart hK unit rfl ?_
      rw [Tree.normalPart, Tree.normalPart]
      exact .pure _
  | .slot frame supply (some id), hlisted, _, _ => by
    rw [Part.mapLists, Tree.revisePart, Tree.revisePart]
    rw [Part.listed] at hlisted
    exact h.reviseSlot hK _ _ _ (hlisted id List.mem_cons_self)
  | .slot frame supply none, _, hnormal, _ => by
    rw [Part.mapLists, Tree.revisePart, Tree.revisePart]
    refine h.insertPart hK unit rfl ?_
    have hpart := Abreast.normalPart unit h.below (.slot frame supply none) hnormal
    rwa [Part.mapLists] at hpart
  | .items frame list, hlisted, _, hitems => by
    rw [Part.listed] at hlisted
    rw [Part.mapLists]
    exact hitems frame list (by rw [Part.lists]; exact List.mem_singleton_self _)
      fun item hitem => hlisted _ (List.mem_map_of_mem hitem)
  | .choice frame test yes none taken, hlisted, hnormal, hitems => by
    have hwhole := Abreast.normalPart unit h.below (.choice frame test yes none none) (by
      rw [Part.lists] at hnormal ⊢
      exact hnormal)
    rw [Part.mapLists] at hwhole ⊢
    rw [Part.listed] at hlisted
    rw [Part.lists] at hnormal hitems
    cases taken with
    | none =>
      rw [Tree.revisePart, Tree.revisePart]
      exact h.insertPart hK unit rfl hwhole
    | some taken =>
      cases htest : test m with
      | true =>
        rw [if_pos htest] at hnormal hitems
        have hyes := revisePart unit h hK yes (fun id hid => hlisted id (List.mem_append_left _ hid))
          hnormal hitems
        have hswitch := Abreast.normalPart unit h.below yes hnormal
        cases taken <;> simp only [Tree.revisePart, htest]
        · refine h.switchTo hK unit frame (by simp) fun part part' hpart hpart' => ?_
          cases hpart
          cases hpart'
          exact hswitch
        · exact hyes
      | false =>
        cases taken <;> simp only [Tree.revisePart, htest]
        · exact .pure _
        · exact h.switchTo hK unit frame rfl nofun
  | .choice frame test yes (some other) taken, hlisted, hnormal, hitems => by
    have hwhole := Abreast.normalPart unit h.below (.choice frame test yes (some other) none) (by
      rw [Part.lists] at hnormal ⊢
      exact hnormal)
    rw [Part.mapLists] at hwhole ⊢
    rw [Part.listed] at hlisted
    rw [Part.lists] at hnormal hitems
    have hswitch : ∀ {p : Part M O}, Abreast escape R (normalPart print m owner unit p)
        (normalPart print' m owner' unit (p.mapLists g)) → Abreast escape (Drafts R K)
          (Tree.switchTo print m owner unit frame (some p))
          (Tree.switchTo print' m owner' unit frame (some (p.mapLists g))) := by
      intro p hp
      refine h.switchTo hK unit frame (by simp) fun part part' hpart hpart' => ?_
      cases hpart
      cases hpart'
      exact hp
    cases taken with
    | none =>
      rw [Tree.revisePart, Tree.revisePart]
      exact h.insertPart hK unit rfl hwhole
    | some taken =>
      cases htest : test m with
      | true =>
        rw [if_pos htest] at hnormal hitems
        have hyes := revisePart unit h hK yes (fun id hid => hlisted id (List.mem_append_left _ hid))
          hnormal hitems
        cases taken <;> simp only [Tree.revisePart, htest]
        · exact hswitch (Abreast.normalPart unit h.below yes hnormal)
        · exact hyes
      | false =>
        rw [htest, if_neg Bool.false_ne_true] at hnormal hitems
        have hother := revisePart unit h hK other
          (fun id hid => hlisted id (List.mem_append_right _ hid)) hnormal hitems
        cases taken <;> simp only [Tree.revisePart, htest]
        · exact hother
        · exact hswitch (Abreast.normalPart unit h.below other hnormal)
  | .group _ members _, hlisted, hnormal, hitems => by
    rw [Part.mapLists, Tree.revisePart, Tree.revisePart]
    rw [Part.listed] at hlisted
    rw [Part.lists] at hnormal hitems
    exact reviseParts unit h hK members hlisted hnormal hitems
termination_by structural p => p

/-- Bringing several parts up to date. -/
theorem reviseParts {g : ItemList M O → ItemList M O} (unit : Margin)
    (h : Outlook escape R m owner owner' print print' V) (hK : Patch.Lasting K) :
    ∀ parts : List (Part M O), (∀ id ∈ Part.listedAll parts, V id) →
      (∀ frame list, (frame, list) ∈ Part.listsOfAll m parts → Abreast escape R
        (normalPart print m owner unit (.items frame list))
        (normalPart print' m owner' unit (.items frame (g list)))) →
      (∀ frame list, (frame, list) ∈ Part.listsOfAll m parts → (∀ item ∈ list.listed, V item.node) →
        Abreast escape (Drafts R K) (Tree.revisePart print m owner unit (.items frame list))
          (Tree.revisePart print' m owner' unit (.items frame (g list)))) →
      Abreast escape (Drafts R K) (reviseParts print m owner unit parts)
        (reviseParts print' m owner' unit (Part.mapAllLists g parts))
  | [], _, _, _ => by
    rw [Part.mapAllLists, Tree.reviseParts, Tree.reviseParts]
    exact .pure _
  | p :: rest, hlisted, hnormal, hitems => by
    rw [Part.mapAllLists, Tree.reviseParts, Tree.reviseParts]
    rw [Part.listedAll] at hlisted
    rw [Part.listsOfAll] at hnormal hitems
    exact .bind (revisePart unit h hK p (fun id hid => hlisted id (List.mem_append_left _ hid))
        (fun frame list hmem => hnormal frame list (List.mem_append_left _ hmem))
        fun frame list hmem => hitems frame list (List.mem_append_left _ hmem)) fun _ =>
      reviseParts unit h hK rest (fun id hid => hlisted id (List.mem_append_right _ hid))
        (fun frame list hmem => hnormal frame list (List.mem_append_right _ hmem))
        fun frame list hmem => hitems frame list (List.mem_append_right _ hmem)
termination_by structural parts => parts

end

/-- Bringing a list up to date, with the same list on both sides. -/
theorem revisePart_items (unit : Margin) (h : Outlook escape R m owner owner' print print' V)
    (hK : Patch.Lasting K) (frame : Frame) (list : ItemList M O)
    (hlisted : ∀ item ∈ list.listed, V item.node) : Abreast escape (Drafts R K)
      (Tree.revisePart print m owner unit (.items frame list))
      (Tree.revisePart print' m owner' unit (.items frame list)) := by
  rw [Tree.revisePart, Tree.revisePart]
  exact .ite (h.insertPart hK unit rfl (.normalPart_items unit h.below frame list))
    (h.reviseItems hK _ _ _ hlisted)

/-- The patch of a node.  What is known of a patch without edits is known of the
one that comes out. -/
theorem patchOf {g : ItemList M O → ItemList M O}
    (h : Outlook escape R m owner owner' print print' V) (hK : Patch.Lasting K) (place : Place)
    (hmoved : ∀ {t u : Tree M O} (q : Position), R t u →
      R (t.modify owner fun n => n.mapPlace fun p => { p with insertion := q })
        (u.modify owner' fun n => n.mapPlace fun p => { p with insertion := q }))
    {t u : Tree M O} (htu : R t u) (hsettings : u.settings = t.settings)
    (hbase : ∀ p, Patch.ofBase t.source place.span = .ok p → K p) (parts : List (Part M O))
    (hlisted : ∀ id ∈ Part.listedAll parts, V id)
    (hnormal : ∀ frame list, (frame, list) ∈ Part.listsOfAll m parts → Abreast escape R
      (normalPart print m owner t.settings.margin (.items frame list))
      (normalPart print' m owner' t.settings.margin (.items frame (g list))))
    (hitems : ∀ frame list, (frame, list) ∈ Part.listsOfAll m parts →
      (∀ item ∈ list.listed, V item.node) → Abreast escape (Drafts R K)
        (Tree.revisePart print m owner t.settings.margin (.items frame list))
        (Tree.revisePart print' m owner' t.settings.margin (.items frame (g list)))) :
    match patchOf print m owner parts place t with
    | .ok p t' => K p ∧ ∃ u', R t' u' ∧
        patchOf print' m owner' (Part.mapAllLists g parts) place u = .ok p u'
    | .error e t' => escape e ∨ ∃ u', R t' u' ∧
        patchOf print' m owner' (Part.mapAllLists g parts) place u = .error e u' := by
  unfold Tree.patchOf
  rw [h.source htu, hsettings]
  cases hofBase : Patch.ofBase t.source place.span with
  | error e => exact Or.inr ⟨u, htu, rfl⟩
  | ok p =>
    have hrun := h.reviseParts t.settings.margin hK parts hlisted hnormal hitems
      ⟨t, p, place.span.start⟩ ⟨u, p, place.span.start⟩ ⟨htu, hbase p hofBase, rfl, rfl⟩
    unfold AbreastAt at hrun
    dsimp only
    cases hrevise : Tree.reviseParts print m owner t.settings.margin parts
      ⟨t, p, place.span.start⟩ with
    | ok a d =>
      rw [hrevise] at hrun
      obtain ⟨d', hd, hrun⟩ := hrun
      rw [hrun]
      dsimp only
      rw [hd.patch, hd.cursor]
      exact ⟨hd.known, _, hmoved d.cursor hd.tree, rfl⟩
    | error e d =>
      rw [hrevise] at hrun
      rcases hrun with hescape | ⟨d', hd, hrun⟩
      · exact Or.inl hescape
      · rw [hrun]
        dsimp only
        rw [hd.cursor]
        exact Or.inr ⟨_, hmoved d.cursor hd.tree, rfl⟩

/-- The patch of a node, of which nothing need be known. -/
theorem patchAt {g : ItemList M O → ItemList M O}
    (h : Outlook escape R m owner owner' print print' V) (place : Place)
    (hmoved : ∀ {t u : Tree M O} (q : Position), R t u →
      R (t.modify owner fun n => n.mapPlace fun p => { p with insertion := q })
        (u.modify owner' fun n => n.mapPlace fun p => { p with insertion := q }))
    {t u : Tree M O} (htu : R t u) (hsettings : u.settings = t.settings) (parts : List (Part M O))
    (hlisted : ∀ id ∈ Part.listedAll parts, V id)
    (hnormal : ∀ frame list, (frame, list) ∈ Part.listsOfAll m parts → Abreast escape R
      (normalPart print m owner t.settings.margin (.items frame list))
      (normalPart print' m owner' t.settings.margin (.items frame (g list))))
    (hitems : ∀ frame list, (frame, list) ∈ Part.listsOfAll m parts →
      (∀ item ∈ list.listed, V item.node) → Abreast escape (Drafts R fun _ => True)
        (Tree.revisePart print m owner t.settings.margin (.items frame list))
        (Tree.revisePart print' m owner' t.settings.margin (.items frame (g list)))) :
    AbreastAt escape R (Tree.patchOf print m owner parts place)
      (Tree.patchOf print' m owner' (Part.mapAllLists g parts) place) t u := by
  have hrun := h.patchOf .trivial place hmoved htu hsettings (fun _ _ => True.intro) parts hlisted
    hnormal hitems
  unfold AbreastAt
  cases hpatch : Tree.patchOf print m owner parts place t with
  | ok p t' =>
    rw [hpatch] at hrun
    exact hrun.2
  | error e t' =>
    rw [hpatch] at hrun
    exact hrun

end Outlook

end Tree

end Reprint
