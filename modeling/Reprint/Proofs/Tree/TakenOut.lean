import Reprint.Proofs.Tree.Forward

/-!
# Parts taken out while they are printed

While the text of a node is made, its parts can be out of the tree: they are
taken out first, and put back when the text is there or has failed
(`Tree.takingOut`).  The printers here work that way, with any parts as the
`hole` in the meantime.

They leave the tree as the other ones do (`takingOut_restored` for one node,
`printTaking_restored` by induction).  And on a forward tree the hole is never
seen: a node is printed for one that comes before it, so while its text is
made, only nodes up to itself have a hole (`Tree.emptied`), and only later
ones are printed.  `takingOut_mirrors` is the step from the nodes around to
one more, and `printTaking_mirrors` the induction on the depth.
-/

namespace Reprint

variable {M O : Type}

namespace Tree

/-! ## Trees with holes -/

/-- The tree with other parts in a node. -/
def setParts (t : Tree M O) (id : Nat) (parts : List (Part M O)) : Tree M O :=
  t.modify id fun n => { n with parts := parts }

/-- Takes the parts of a node out and leaves a hole, works on what is left of
the tree, and puts the parts back, also when the work has failed. -/
def takingOut {α : Type} (hole : List (Part M O)) (id : Nat)
    (work : List (Part M O) → Job M O α) : Job M O α := fun t =>
  match t.node id with
  | .error e => .error e t
  | .ok n =>
    match work n.parts (t.setParts id hole) with
    | .ok a u => .ok a (u.setParts id n.parts)
    | .error e u => .error e (u.setParts id n.parts)

/-- The tree with a hole in each of several nodes. -/
def emptied (hole : List (Part M O)) (out : List Nat) (t : Tree M O) : Tree M O :=
  { t with nodes := t.nodes.mapIdx fun id n => if id ∈ out then { n with parts := hole } else n }

section Emptied

variable {hole : List (Part M O)} {out : List Nat} {t u : Tree M O}

theorem getElem?_emptied (x : Nat) : (t.emptied hole out).nodes[x]? =
    (t.nodes[x]?).map fun n => if x ∈ out then { n with parts := hole } else n :=
  Array.getElem?_mapIdx

theorem getElem?_emptied_of_not_mem {x : Nat} (hx : x ∉ out) :
    (t.emptied hole out).nodes[x]? = t.nodes[x]? := by
  rw [getElem?_emptied]
  simp only [hx, if_false, Option.map_id']

theorem size_emptied : (t.emptied hole out).nodes.size = t.nodes.size := Array.size_mapIdx

/-- Trees with the same nodes that agree in all the rest. -/
theorem eq_of_nodes (hlanguage : t.language = u.language) (hsource : t.source = u.source)
    (hsettings : t.settings = u.settings) (hmarks : t.marks = u.marks)
    (hcomplete : t.complete = u.complete) (hnodes : ∀ x : Nat, t.nodes[x]? = u.nodes[x]?) :
    t = u := by
  obtain ⟨language, source, settings, nodes, marks, complete⟩ := t
  cases hlanguage
  cases hsource
  cases hsettings
  cases hmarks
  cases hcomplete
  cases Array.ext_getElem? hnodes
  rfl

/-- Without holes. -/
theorem emptied_nil : t.emptied hole [] = t :=
  eq_of_nodes rfl rfl rfl rfl rfl fun _ => getElem?_emptied_of_not_mem List.not_mem_nil

/-- One more hole. -/
theorem setParts_emptied (id : Nat) :
    (t.emptied hole out).setParts id hole = t.emptied hole (id :: out) := by
  refine eq_of_nodes rfl rfl rfl rfl rfl fun x => ?_
  rw [setParts, getElem?_modify, getElem?_emptied, getElem?_emptied]
  by_cases hx : id = x
  · subst hx
    simp only [if_true, Option.map_map, List.mem_cons_self]
    congr 1
    funext n
    simp only [Function.comp]
    split <;> rfl
  · simp only [hx, if_false, List.mem_cons, Ne.symm hx, false_or]

/-- A hole filled again. -/
theorem setParts_emptied_cons {id : Nat} {n : Node M O} (hn : t.nodes[id]? = some n)
    (hid : id ∉ out) : (t.emptied hole (id :: out)).setParts id n.parts = t.emptied hole out := by
  refine eq_of_nodes rfl rfl rfl rfl rfl fun x => ?_
  rw [setParts, getElem?_modify, getElem?_emptied, getElem?_emptied]
  by_cases hx : id = x
  · subst hx
    simp only [hn, if_true, Option.map_some, List.mem_cons_self, hid, if_false]
  · simp only [hx, if_false, List.mem_cons, Ne.symm hx, false_or]

/-- The nodes hang together in the same way. -/
theorem sameTies_emptied : t.SameTies (t.emptied hole out) := by
  intro x
  rw [getElem?_emptied, Option.map_map]
  congr 1
  funext n
  simp only [Function.comp]
  split <;> rfl

/-- What changes the place of a node only. -/
theorem modify_emptied (id : Nat) (g : Place → Place) :
    (t.emptied hole out).modify id (fun n => n.mapPlace g) =
      (t.modify id fun n => n.mapPlace g).emptied hole out := by
  refine eq_of_nodes rfl rfl rfl rfl rfl fun x => ?_
  rw [getElem?_modify, getElem?_emptied, getElem?_emptied, getElem?_modify]
  split
  · rw [Option.map_map, Option.map_map]
    congr 1
    funext n
    simp only [Function.comp]
    split <;> rfl
  · rfl

/-- A new node, where only older ones have a hole. -/
theorem addNode_emptied {parent : Nat} (object : O) (place : Option Place)
    (parts : List (Part M O)) (hp : parent < t.nodes.size) (hout : ∀ x ∈ out, x < t.nodes.size) :
    (t.emptied hole out).addNode (some parent) object place parts =
      (t.addNode (some parent) object place parts).emptied hole out := by
  have hsize : (t.emptied hole out).nodes.size = t.nodes.size := size_emptied
  have hp' : parent < (t.emptied hole out).nodes.size := hsize ▸ hp
  refine eq_of_nodes (by simp [emptied]) (by simp [emptied]) (by simp [emptied]) (by simp [emptied])
    (by simp [emptied]) fun x => ?_
  rw [getElem?_emptied]
  rcases Nat.lt_trichotomy x t.nodes.size with hx | rfl | hx
  · rw [getElem?_addNode_of_lt (hsize ▸ hx) hp', getElem?_addNode_of_lt hx hp, getElem?_emptied,
      sameTies_emptied.lineage parent, hsize, Option.map_map, Option.map_map]
    congr 1
    funext n
    simp only [Function.comp]
    cases place <;> dsimp only <;> split <;> split <;> first | rfl | split <;> rfl
  · have hnew : t.nodes.size ∉ out := fun hin => absurd (hout _ hin) (Nat.lt_irrefl _)
    rw [getElem?_addNode_size object place parts hp, ← hsize,
      getElem?_addNode_size object place parts hp', sameTies_emptied.lineage parent]
    simp only [hsize, hnew, if_false, Option.map_some]
  · rw [Array.getElem?_eq_none (by rw [size_addNode, hsize]; omega),
      Array.getElem?_eq_none (by rw [size_addNode]; omega), Option.map_none]

variable [DecidableEq O]

/-- A node is looked up or made in the same way. -/
theorem getNode_emptied {m : M} {parent : Nat} {object : O} (hout : ∀ x ∈ out, x < t.nodes.size) :
    (t.emptied hole out).getNode m parent object =
      (t.getNode m parent object).map fun found => (found.1, found.2.emptied hole out) := by
  unfold getNode Tree.node
  rw [getElem?_emptied]
  cases hn : t.nodes[parent]? with
  | none => rfl
  | some n =>
    have hbelow : (t.emptied hole out).below?
        (if parent ∈ out then { n with parts := hole } else n) object = t.below? n object := by
      apply sameTies_emptied.below?
      split <;> rfl
    simp only [Option.map_some, bind, Except.bind, hbelow]
    cases t.below? n object with
    | some id => rfl
    | none =>
      unfold newNode
      rw [show (t.emptied hole out).language = t.language from rfl,
        show (t.emptied hole out).source = t.source from rfl]
      cases t.language.layout m object with
      | none => rfl
      | some layout =>
        cases hplace : placeOf t.source layout.origin with
        | error e => simp [hplace, bind, Except.bind, Except.map]
        | ok place =>
          simp only [hplace, bind, Except.bind, pure, Except.pure, Except.map, size_emptied,
            addNode_emptied object place layout.parts (lt_size_of_node hn) hout]

end Emptied

variable [DecidableEq O]

/-! ## Printers that take parts out -/

/-- The normal text of a node, with its parts taken out. -/
def normalTaking (hole : List (Part M O)) (print : Nat → Margin → Job M O Text) (m : M) (id : Nat)
    (margin : Margin) : Job M O Text :=
  takingOut hole id fun parts => do
    return margin.apply (← normalParts print m id margin.flush parts)

/-- The patch of a node, with its parts taken out. -/
def patchTaking (hole : List (Part M O)) (print : Nat → Margin → Job M O Text) (m : M) (id : Nat)
    (place : Place) : Job M O Patch :=
  takingOut hole id fun parts => patchOf print m id parts place

/-- The text of a node, with the parts of every node taken out while its text
is made. -/
def printTaking (hole : List (Part M O)) (m : M) : Nat → Nat → Margin → Job M O Text
  | 0, _, _ => throw .cyclicModel
  | depth + 1, id, margin =>
    printVia (normalTaking hole (printTaking hole m depth) m id margin)
      (fun _ => patchTaking hole (printTaking hole m depth) m id) Patch.text id

end Tree

/-- A way to print a tree, or a node of it. -/
inductive Printing where
  | node (id : Nat) (margin : Margin)
  | normal (id : Nat) (margin : Margin)
  | root
  | source
  | mapped (file : Text)

namespace Printing

open Reprint.Tree

variable [DecidableEq O]

/-- Prints, with a map if one is asked for. -/
def run (m : M) : Printing → Job M O (Text × Option SourceMap)
  | .node id margin => do return (← print m id margin, none)
  | .normal id margin => do return (← printNormal m id margin, none)
  | .root => do return (← printRoot m, none)
  | .source => do return (← printSource m, none)
  | .mapped file => do
    let (text, map) ← printMapped m file
    return (text, some map)

/-- Prints, with the parts of every node taken out while its text is made. -/
def runTaking (hole : List (Part M O)) (m : M) : Printing → Job M O (Text × Option SourceMap)
  | .node id margin => do
    let depth := (← get).depthBound m
    return (← printTaking hole m depth id margin, none)
  | .normal id margin => do
    let depth := (← get).depthBound m
    return (← normalTaking hole (printTaking hole m depth) m id margin, none)
  | .root => do
    let t ← get
    return (← printTaking hole m (t.depthBound m) Tree.root t.settings.margin, none)
  | .source => do
    let t ← get
    return (← framed (printTaking hole m (t.depthBound m) Tree.root t.settings.margin), none)
  | .mapped file => do
    let t ← get
    let depth := t.depthBound m
    let normal := normalTaking hole (printTaking hole m depth) m Tree.root t.settings.margin
    let (text, map) ← printVia (unmapped file normal)
      (fun _ => patchTaking hole (printTaking hole m depth) m Tree.root)
      (Patch.textAndMap · file) Tree.root
    return (text, some map)

end Printing

namespace Tree

variable [DecidableEq O]

/-! ## What they leave of a tree -/

section Restored

variable {hole : List (Part M O)} {m : M}

omit [DecidableEq O] in
/-- Work on a tree with a hole restores the tree, once the hole is filled. -/
theorem Restored.filled {t u : Tree M O} {id : Nat} {n : Node M O} (hn : t.nodes[id]? = some n)
    (h : (t.setParts id hole).Restored u) : t.Restored (u.setParts id n.parts) where
  language := h.language
  source := h.source
  settings := h.settings
  marks := h.marks
  complete := h.complete
  node {x k} hk := by
    unfold setParts at h ⊢
    by_cases hx : id = x
    · subst hx
      rw [hn] at hk
      cases hk
      obtain ⟨n', hn', hrestored⟩ := h.node (getElem?_modify_self _ hn)
      exact ⟨_, getElem?_modify_self _ hn', hrestored.setParts n.parts⟩
    · rw [← getElem?_modify_of_ne t (fun n => { n with parts := hole }) hx] at hk
      obtain ⟨k', hk', hrestored⟩ := h.node hk
      refine ⟨k', ?_, hrestored⟩
      rw [getElem?_modify_of_ne u _ hx]
      exact hk'

omit [DecidableEq O] in
/-- So does taking the parts out, working and putting them back. -/
theorem takingOut_restored {α : Type} {id : Nat} {work : List (Part M O) → Job M O α}
    (hwork : ∀ (t : Tree M O) (parts : List (Part M O)), Job.Keeping t.Restored (work parts))
    (t : Tree M O) : Job.Keeping t.Restored (takingOut hole id work) := by
  intro u hu
  unfold Job.after takingOut
  cases hn : u.node id with
  | error e => exact hu
  | ok n =>
    rw [node_eq_ok] at hn
    have hkeeping := hwork (u.setParts id hole) n.parts
    dsimp only
    cases hrun : work n.parts (u.setParts id hole) with
    | ok a v => exact hu.trans ((hkeeping.of_ok (.refl _) hrun).filled hn)
    | error e v => exact hu.trans ((hkeeping.of_error (.refl _) hrun).filled hn)

theorem normalTaking_restored {print : Nat → Margin → Job M O Text}
    (hprint : ∀ (t : Tree M O) id margin, Job.Keeping t.Restored (print id margin)) (id : Nat)
    (margin : Margin) (t : Tree M O) : Job.Keeping t.Restored (normalTaking hole print m id margin) :=
  takingOut_restored (fun t parts => .bind
    ((Restored.prints m t).normalParts (hprint t) id margin.flush parts) fun _ => .pure _) t

theorem patchTaking_restored {print : Nat → Margin → Job M O Text}
    (hprint : ∀ (t : Tree M O) id margin, Job.Keeping t.Restored (print id margin)) (id : Nat)
    (place : Place) (t : Tree M O) : Job.Keeping t.Restored (patchTaking hole print m id place) :=
  takingOut_restored (fun t parts => (Restored.prints m t).patchOf (hprint t) id parts place) t

/-- Printing a node, by induction on the depth. -/
theorem printTaking_restored (hole : List (Part M O)) (m : M) :
    ∀ depth (t : Tree M O) id margin, Job.Keeping t.Restored (printTaking hole m depth id margin)
  | 0, _, _, _ => .throw _
  | depth + 1, t, id, margin => by
    have hbelow := printTaking_restored hole m depth
    exact .printVia (normalTaking_restored hbelow id margin t)
      (fun _ place => patchTaking_restored hbelow id place t) _ id

end Restored

/-! ## The hole is never seen -/

/-- A forward tree that has certain nodes. -/
def Holds (out : List Nat) (t : Tree M O) : Prop := t.Forward ∧ ∀ x ∈ out, x < t.nodes.size

section Mirrors

variable {hole : List (Part M O)} {m : M} {out : List Nat}

theorem Holds.prints (m : M) (out : List Nat) : Prints m (Holds (M := M) (O := O) out) where
  getNode ht hget := ⟨ht.1.getNode hget, fun x hx =>
    Nat.lt_of_lt_of_le (ht.2 x hx) (size_le_getNode hget)⟩
  insertion id q ht := ⟨(Forward.surveys m).insertion id q ht.1, by rw [size_modify]; exact ht.2⟩

theorem Holds.cons {t : Tree M O} {id : Nat} {n : Node M O} (h : Holds out t)
    (hn : t.nodes[id]? = some n) : Holds (id :: out) t :=
  ⟨h.1, List.forall_mem_cons.2 ⟨lt_size_of_node hn, h.2⟩⟩

/-- The text of a node is made in the same way when there are holes in that node
and in nodes before it.  The nodes that are printed for it come later. -/
theorem holds_view (hole : List (Part M O)) (m : M) (base : Tree M O) {id : Nat}
    (hout : ∀ x ∈ out, x < id) :
    View m id (fun u => Holds (id :: out) u ∧ base.Restored u) (emptied hole (id :: out))
      (id < ·) where
  source _ := rfl
  settings _ := rfl
  node {t c} _ hc := by
    apply getElem?_emptied_of_not_mem
    rw [List.mem_cons, not_or]
    refine ⟨Nat.ne_of_gt hc, fun hin => ?_⟩
    have := hout c hin
    omega
  span _ := by
    rw [getElem?_emptied, Option.bind_map]
    congr 1
    funext n
    simp only [Function.comp]
    split <;> rfl
  getNode ht := getNode_emptied ht.1.2
  grown ht hget := ⟨⟨(Holds.prints m _).getNode ht.1 hget, ht.2.trans (.getNode hget)⟩,
    ht.1.1.isSound.lt_of_getNode hget⟩

/-- Work that does not see the holes up to a node does the same when the parts
of that node are taken out for it. -/
theorem takingOut_mirrors {α : Type} {job : Job M O α} {work : List (Part M O) → Job M O α}
    {t : Tree M O} {id : Nat} {n : Node M O} (hn : t.nodes[id]? = some n) (hid : id ∉ out)
    (hwork : MirrorsAt (fun _ => False) (fun u => Holds (id :: out) u ∧ t.Restored u)
      (emptied hole (id :: out)) job (work n.parts) t) :
    MirrorsAt (fun _ => False) (Holds out) (emptied hole out) job (takingOut hole id work) t := by
  -- the parts that are put back are those of the node after the work
  have hback : ∀ {u : Tree M O}, Holds (id :: out) u ∧ t.Restored u → Holds out u ∧
      (u.emptied hole (id :: out)).setParts id n.parts = u.emptied hole out := by
    intro u ⟨hu, hrestored⟩
    obtain ⟨n', hn', hsame⟩ := hrestored.node hn
    refine ⟨⟨hu.1, fun x hx => hu.2 x (List.mem_cons_of_mem _ hx)⟩, ?_⟩
    rw [← hsame.parts]
    exact setParts_emptied_cons hn' hid
  have hnode : (t.emptied hole out).node id = .ok n := by
    rw [node_eq_ok, getElem?_emptied_of_not_mem hid, hn]
  unfold MirrorsAt at hwork ⊢
  unfold takingOut
  simp only [hnode, setParts_emptied]
  cases hjob : job t with
  | ok a u =>
    rw [hjob] at hwork
    obtain ⟨hu, hfilled⟩ := hback hwork.1
    exact ⟨hu, by rw [hwork.2]; exact congrArg _ hfilled⟩
  | error e u =>
    rw [hjob] at hwork
    obtain ⟨hrestored, hwork⟩ := hwork.resolve_left not_false
    obtain ⟨hu, hfilled⟩ := hback hrestored
    exact Or.inr ⟨hu, by rw [hwork]; exact congrArg _ hfilled⟩

/-- Two printers that mirror each other on later nodes, with holes up to a
node. -/
def MirrorsBehind (hole : List (Part M O)) (id : Nat) (out : List Nat)
    (print print' : Nat → Margin → Job M O Text) : Prop :=
  ∀ base : Tree M O, MirrorsOn (fun _ => False) (fun u => Holds (id :: out) u ∧ base.Restored u)
    (emptied hole (id :: out)) (id < ·) print print'

variable {print print' : Nat → Margin → Job M O Text} {t : Tree M O} {id : Nat} {n : Node M O}

/-- The normal text of a node. -/
theorem normalTaking_mirrors (hprint : MirrorsBehind hole id out print print')
    (hout : ∀ x ∈ out, x < id) (margin : Margin) :
    Mirrors (fun _ => False) (Holds out) (emptied hole out) (normalNode print m id margin)
      (normalTaking hole print' m id margin) := by
  intro t ht
  have hid : id ∉ out := fun hid => Nat.lt_irrefl _ (hout _ hid)
  cases hn : t.nodes[id]? with
  | none =>
    have hnode : ∀ u : Tree M O, u.nodes[id]? = none → u.node id = .error (.unknownNode id) :=
      fun u hu => node_eq_error.2 ⟨hu, rfl⟩
    unfold MirrorsAt normalNode normalTaking takingOut
    simp only [bind, EStateM.bind, Job.get_eq, hnode t hn,
      hnode _ ((getElem?_emptied_of_not_mem hid).trans hn)]
    exact Or.inr ⟨ht, rfl⟩
  | some n =>
    have hparts : MirrorsAt (fun _ => False) (Holds out) (emptied hole out) (do
        return margin.apply (← normalParts print m id margin.flush n.parts) : Job M O Text)
        (normalTaking hole print' m id margin) t :=
      takingOut_mirrors hn hid (Mirrors.bind ((holds_view hole m t hout).normalParts (hprint t)
        margin.flush n.parts) (fun _ => .pure _) t ⟨ht.cons hn, .refl t⟩)
    have hnormal : normalNode print m id margin t = (do
        return margin.apply (← normalParts print m id margin.flush n.parts) : Job M O Text) t := by
      unfold normalNode
      simp only [bind, EStateM.bind, Job.get_eq, node_eq_ok.2 hn]
    unfold MirrorsAt at hparts ⊢
    rw [hnormal]
    exact hparts

/-- The patch of a node. -/
theorem patchTaking_mirrors (hprint : MirrorsBehind hole id out print print')
    (hout : ∀ x ∈ out, x < id) (ht : Holds out t) (hn : t.nodes[id]? = some n) (place : Place) :
    MirrorsAt (fun _ => False) (Holds out) (emptied hole out) (patchOf print m id n.parts place)
      (patchTaking hole print' m id place) t := by
  have hview := holds_view hole m t hout
  refine takingOut_mirrors hn (fun hid => Nat.lt_irrefl _ (hout _ hid)) ?_
  refine hview.patchAt (hprint t) n.parts (ht.1.later hn) place (fun q hu => ?_)
    ⟨ht.cons hn, .refl t⟩
  exact ⟨⟨(Holds.prints m _).insertion id q hu.1, hu.2.trans (.moved _ id q)⟩, modify_emptied id _⟩

/-- Printing nodes that come after all nodes with a hole, and so those behind
one more. -/
theorem mirrorsBehind_of {depth : Nat}
    (h : ∀ (id : Nat) (margin : Margin) (out : List Nat), (∀ x ∈ out, x < id) →
      Mirrors (fun _ => False) (Holds out) (emptied hole out) (printWithin m depth id margin)
        (printTaking hole m depth id margin)) (hout : ∀ x ∈ out, x < id) :
    MirrorsBehind hole id out (printWithin m depth) (printTaking hole m depth) := by
  intro base c hc margin
  apply ((Restored.prints m base).printWithin depth c margin).and_mirrors
  apply h c margin
  exact List.forall_mem_cons.2 ⟨hc, fun x hx => Nat.lt_trans (hout x hx) hc⟩

/-- By induction on the depth. -/
theorem printTaking_mirrors (hole : List (Part M O)) (m : M) : ∀ (depth id : Nat) (margin : Margin)
    (out : List Nat), (∀ x ∈ out, x < id) → Mirrors (fun _ => False) (Holds out)
      (emptied hole out) (printWithin m depth id margin) (printTaking hole m depth id margin)
  | 0, _, _, _, _ => .throw _
  | depth + 1, id, margin, out, hout => by
    have hbelow := mirrorsBehind_of (printTaking_mirrors hole m depth) hout
    rw [printWithin_succ]
    exact .printVia Patch.text
      (fun t _ => getElem?_emptied_of_not_mem fun hid => Nat.lt_irrefl _ (hout _ hid))
      (fun ht _ => normalTaking_mirrors hbelow hout margin _ ht)
      fun ht hn => patchTaking_mirrors hbelow hout ht hn _

omit [DecidableEq O] in
/-- Operations that give the same for a tree go on in the same way. -/
theorem bind_congr_at {α β : Type} {job job' : Job M O α} (h : job t = job' t)
    (next : α → Job M O β) : (job >>= next) t = (job' >>= next) t := by
  show EStateM.bind job next t = EStateM.bind job' next t
  unfold EStateM.bind
  rw [h]

/-- To mirror without holes is to be the same. -/
theorem eq_of_mirrors {α : Type} {job job' : Job M O α}
    (h : Mirrors (fun _ => False) (Holds []) (emptied hole []) job job') (ht : t.Forward) :
    job' t = job t := by
  have hrun := h t ⟨ht, nofun⟩
  unfold MirrorsAt at hrun
  rw [emptied_nil] at hrun
  cases hjob : job t with
  | ok a u =>
    rw [hjob] at hrun
    rw [hrun.2, emptied_nil]
  | error e u =>
    rw [hjob] at hrun
    rw [(hrun.resolve_left not_false).2, emptied_nil]

end Mirrors

end Tree

/-! ## All ways of printing -/

namespace Printing

open Reprint.Tree

variable [DecidableEq O]

/-- Printing leaves the tree as it is, but for new nodes, spans and positions of
new text. -/
theorem run_restored (call : Printing) (m : M) (t : Tree M O) :
    Job.Keeping t.Restored (call.run m) := by
  have h := Restored.prints m t
  cases call with
  | node id margin => exact .bind (h.print id margin) fun _ => .pure _
  | normal id margin => exact .bind (h.printNormal id margin) fun _ => .pure _
  | root => exact .bind h.printRoot fun _ => .pure _
  | source => exact .bind h.printSource fun _ => .pure _
  | mapped file => exact .bind (h.printMapped file) fun _ => .pure _

/-- So does printing with the parts taken out, also when it fails. -/
theorem runTaking_restored (call : Printing) (hole : List (Part M O)) (m : M) (t : Tree M O) :
    Job.Keeping t.Restored (call.runTaking hole m) := by
  have hprint : ∀ depth id margin, Job.Keeping t.Restored (printTaking hole m depth id margin) :=
    fun depth => printTaking_restored hole m depth t
  have hnormal : ∀ depth id margin, Job.Keeping t.Restored
      (normalTaking hole (printTaking hole m depth) m id margin) := fun depth id margin =>
    normalTaking_restored (printTaking_restored hole m depth) id margin t
  have hpatch : ∀ depth id place, Job.Keeping t.Restored
      (patchTaking hole (printTaking hole m depth) m id place) := fun depth id place =>
    patchTaking_restored (printTaking_restored hole m depth) id place t
  cases call with
  | node id margin =>
    exact .get_bind fun u hu => Job.Keeping.bind (hprint _ id margin) (fun _ => .pure _) u hu
  | normal id margin =>
    exact .get_bind fun u hu => Job.Keeping.bind (hnormal _ id margin) (fun _ => .pure _) u hu
  | root =>
    exact .get_bind fun u hu => Job.Keeping.bind (hprint _ Tree.root _) (fun _ => .pure _) u hu
  | source =>
    exact .get_bind fun u hu => Job.Keeping.bind (hprint _ Tree.root _).framed (fun _ => .pure _) u hu
  | mapped file =>
    exact .get_bind fun u hu => Job.Keeping.bind (.printVia ((hnormal _ Tree.root _).unmapped file)
      (fun _ place => hpatch _ Tree.root place) _ Tree.root) (fun _ => .pure _) u hu

/-- On a forward tree taking the parts out makes no difference. -/
theorem runTaking_eq (call : Printing) (hole : List (Part M O)) (m : M) {t : Tree M O}
    (ht : t.Forward) : call.runTaking hole m t = call.run m t := by
  have hmirrors := printTaking_mirrors hole m
  have hsame : ∀ {α : Type} {job job' : Job M O α},
      Mirrors (fun _ => False) (Holds []) (emptied hole []) job job' → job' t = job t :=
    fun h => eq_of_mirrors h ht
  have hnone : ∀ id : Nat, ∀ x ∈ ([] : List Nat), x < id := nofun
  have hprint : ∀ depth id margin,
      printTaking hole m depth id margin t = printWithin m depth id margin t :=
    fun depth id margin => hsame (hmirrors depth id margin [] nofun)
  have hnormal : ∀ depth id margin, Mirrors (fun _ => False) (Holds []) (emptied hole [])
      (normalNode (printWithin m depth) m id margin)
      (normalTaking hole (printTaking hole m depth) m id margin) := fun depth id =>
    normalTaking_mirrors (mirrorsBehind_of (hmirrors depth) (hnone id)) (hnone id)
  have hroot : printTaking hole m (t.depthBound m) Tree.root t.settings.margin t = printRoot m t :=
    hprint _ Tree.root _
  cases call with
  | node id margin =>
    have hnode : printTaking hole m (t.depthBound m) id margin t = print m id margin t :=
      hprint _ id margin
    exact bind_congr_at hnode _
  | normal id margin =>
    have hplain : normalTaking hole (printTaking hole m (t.depthBound m)) m id margin t =
        normalNode (printWithin m (t.depthBound m)) m id margin t := hsame (hnormal _ id margin)
    have hprinted : _ = printNormal m id margin t := hplain
    exact bind_congr_at hprinted _
  | root => exact bind_congr_at hroot _
  | source => exact bind_congr_at (bind_congr_at hroot _) _
  | mapped file =>
    have hmapped : printVia (unmapped file (normalTaking hole (printTaking hole m (t.depthBound m)) m
        Tree.root t.settings.margin))
        (fun _ => patchTaking hole (printTaking hole m (t.depthBound m)) m Tree.root)
        (Patch.textAndMap · file) Tree.root t = printMapped m file t := by
      rw [printMapped_eq]
      refine hsame (.printVia _ (fun u _ => ?_) (fun hu _ => ?_) fun hu hn => ?_)
      · rw [emptied_nil]
      · exact (hnormal _ Tree.root _).unmapped (fun _ => rfl) file _ hu
      · exact patchTaking_mirrors (mirrorsBehind_of (hmirrors _) (hnone _)) (hnone _) hu hn _
    exact bind_congr_at hmapped _

/-- The text that comes out of a tree, if any does. -/
def text? (call : Printing) (m : M) (t : Tree M O) : Option Text :=
  match call.run m t with
  | .ok (text, _) _ => some text
  | .error _ _ => none

/-- Whatever is printed of whatever tree, and however far it gets, the parts of
the nodes stay, what was found for them, the settings and the marks, also when
the parts of every node are out of the tree while its text is made.  Of a tree
that has been tended nothing of a node is read while its parts are out:
whatever stands there instead, text, map, errors and the tree afterwards are
the same. -/
theorem restored_and_unseen (call : Printing) (m : M) :
    (∀ (t : Tree M O) (hole : List (Part M O)), t.Restored ((call.run m).after t) ∧
      t.Restored ((call.runTaking hole m).after t)) ∧
    ∀ {language : Language M O} {source : Text} {t : Tree M O},
      (∀ {m : M} {object : O} {layout : Layout M O}, language.layout m object = some layout →
        Part.listedAll layout.parts = []) →
      Tended language source t → ∀ hole, call.runTaking hole m t = call.run m t :=
  ⟨fun t hole => ⟨call.run_restored m t t (.refl t), call.runTaking_restored hole m t t (.refl t)⟩,
    fun layouts h hole => call.runTaking_eq hole m (h.forward layouts)⟩

/-- The list that ends with its word, located, and printed with a wrong text in
place of the parts that are out. -/
theorem unseen_wordAtEnd :
    ∃ t : Tree Unit Bool, Tended wordAtEnd ['[', 'a'] t ∧
      Printing.root.runTaking [Part.constant ['x']] () t = Printing.root.run () t ∧
      Printing.root.text? () t = some ['[', 'a'] := by
  have layouts : ∀ {m : Unit} {object : Bool} {layout : Layout Unit Bool},
      wordAtEnd.layout m object = some layout → Part.listedAll layout.parts = [] := by
    intro m object layout h
    cases object <;> cases h <;> rfl
  obtain ⟨t, made⟩ : ∃ t, ofRoot wordAtEnd () ['[', 'a'] true = .ok t := ⟨_, rfl⟩
  have tended := Tended.step (.locate ()) (.made made) True.intro
  refine ⟨_, tended, (restored_and_unseen .root ()).2 layouts tended _, ?_⟩
  have printed : (ofRoot wordAtEnd () ['[', 'a'] true).toOption.bind (fun t =>
      Printing.root.text? () ((Operation.locate ()).run.after t)) = some ['[', 'a'] := by
    decide +kernel
  rw [made] at printed
  exact printed

end Printing

end Reprint
