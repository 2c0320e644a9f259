import Reprint.Proofs.Tree.Mirrors

/-!
# The two ways to print a node

A node without source text is printed by its normal text, every other one by a
patch.  `printVia` is that choice for any way to make either, and the printers
are cases of it (`printWithin_succ`, `printMapped_eq`).  Two such choices go
abreast if the ways do (`Abreast.printVia`), and so mirror each other.
-/

namespace Reprint

/-- The text of a patch with its map. -/
def Patch.textAndMap (p : Patch) (file : Text) : Except Source.Error (Text × SourceMap) := do
  return (← p.text, ← p.toSourceMap file)

namespace Tree

variable {M O : Type}

/-- Makes something of a node: of one without source text what `normal` makes,
of every other one what `finish` makes of its patch. -/
def printVia {α : Type} (normal : Job M O α)
    (patch : List (Part M O) → Place → Job M O Patch)
    (finish : Patch → Except Source.Error α) (id : Nat) : Job M O α := fun t =>
  match t.node id with
  | .error e => .error e t
  | .ok n =>
    match n.located? with
    | none => normal t
    | some place =>
      match patch n.parts place t with
      | .error e t => .error e t
      | .ok patch t =>
        match finish patch with
        | .ok a => .ok a t
        | .error e => .error (.source e) t

/-- Printing one level down. -/
theorem printWithin_succ [DecidableEq O] (m : M) (depth id : Nat) (margin : Margin) :
    (printWithin m (depth + 1) id margin : Job M O Text) =
      printVia (normalNode (printWithin m depth) m id margin)
        (patchOf (printWithin m depth) m id) Patch.text id := by
  funext t
  rw [printWithin, printVia]
  dsimp only
  cases t.node id with
  | error e => rfl
  | ok n =>
    dsimp only
    cases n.located? with
    | none => rfl
    | some place =>
      dsimp only
      cases patchOf (printWithin m depth) m id n.parts place t with
      | error e u => rfl
      | ok patch u =>
        dsimp only
        cases patch.text <;> rfl

/-- The text of the root, as `text` makes it, with the source around it. -/
def framed (text : Job M O Text) : Job M O Text := do
  let text ← text
  let t ← get
  match t.node root with
  | .error e => throw e
  | .ok n =>
    match n.located? with
    | none => return text
    | some place =>
      match t.source.extract ⟨t.source.start, place.span.start⟩,
        t.source.extract ⟨place.span.stop, t.source.stop⟩ with
      | .ok before, .ok behind => return before ++ text ++ behind
      | .error e, _ => throw (.source e)
      | _, .error e => throw (.source e)

theorem printSource_eq [DecidableEq O] (m : M) :
    (printSource m : Job M O Text) = framed (printRoot m) := rfl

/-- A text with a map that maps nothing. -/
def unmapped (file : Text) (normal : Job M O Text) : Job M O (Text × SourceMap) := do
  let text ← normal
  return (text, (SourceMap.new file (← get).source.text).write text)

/-- Printing with a map, with the depth bound of the tree as it is. -/
theorem printMapped_eq [DecidableEq O] (m : M) (file : Text) (t : Tree M O) :
    printMapped m file t =
      printVia (unmapped file (normalNode (printWithin m (t.depthBound m)) m root t.settings.margin))
        (patchOf (printWithin m (t.depthBound m)) m root) (Patch.textAndMap · file) root t := by
  rw [printMapped, printVia]
  cases t.node root with
  | error e => rfl
  | ok n =>
    dsimp only
    cases n.located? with
    | none =>
      dsimp only [printNormal, unmapped, bind, EStateM.bind, get, getThe, MonadStateOf.get,
        EStateM.get]
      cases normalNode (printWithin m (t.depthBound m)) m root t.settings.margin t <;> rfl
    | some place =>
      dsimp only
      cases patchOf (printWithin m (t.depthBound m)) m root n.parts place t with
      | error e u => rfl
      | ok patch u =>
        dsimp only [Patch.textAndMap, bind, Except.bind]
        cases patch.text <;> cases patch.toSourceMap file <;> rfl

end Tree

section Abreast

open Reprint.Tree

variable {M O α : Type} {escape : Error → Prop} {R : Tree M O → Tree M O → Prop}

/-- The same made of two nodes, both with source text or both without, where the
normal texts and the patches are made abreast. -/
theorem Abreast.printVia {normal normal' : Job M O α}
    {patch patch' : List (Part M O) → Place → Job M O Patch}
    (finish : Patch → Except Source.Error α) {id id' : Nat}
    (h : ∀ t u, R t u → (∃ e, t.node id = .error e ∧ u.node id' = .error e) ∨
      ∃ n n', t.node id = .ok n ∧ u.node id' = .ok n' ∧ n'.located? = n.located? ∧
        AbreastAt escape R normal normal' t u ∧
        ∀ place, AbreastAt escape R (patch n.parts place) (patch' n'.parts place) t u) :
    Abreast escape R (Tree.printVia normal patch finish id)
      (Tree.printVia normal' patch' finish id') := by
  intro t u htu
  unfold AbreastAt Tree.printVia
  rcases h t u htu with ⟨e, hn, hn'⟩ | ⟨n, n', hn, hn', hlocated, hnormal, hpatch⟩ <;>
    rw [hn, hn']
  · exact Or.inr ⟨u, htu, rfl⟩
  dsimp only
  rw [hlocated]
  cases n.located? with
  | none => exact hnormal
  | some place =>
    have hrun := hpatch place
    unfold AbreastAt at hrun
    dsimp only
    cases hpatched : patch n.parts place t with
    | error e t' =>
      rw [hpatched] at hrun
      refine hrun.imp_right fun ⟨u', hu', hrun⟩ => ⟨u', hu', ?_⟩
      rw [hrun]
    | ok p t' =>
      rw [hpatched] at hrun
      obtain ⟨u', hu', hrun⟩ := hrun
      rw [hrun]
      dsimp only
      cases finish p with
      | ok a => exact ⟨u', hu', rfl⟩
      | error e => exact Or.inr ⟨u', hu', rfl⟩

theorem Abreast.unmapped {normal normal' : Job M O Text} (h : Abreast escape R normal normal')
    (hsource : ∀ t u, R t u → u.source = t.source) (file : Text) :
    Abreast escape R (Tree.unmapped file normal) (Tree.unmapped file normal') := by
  refine .bind h fun text => .get_bind fun t u htu => ?_
  rw [hsource t u htu]
  exact .pure _

/-- The source around two texts, where the roots are in the same place. -/
theorem Abreast.framed {text text' : Job M O Text} (h : Abreast escape R text text')
    (hsource : ∀ t u, R t u → u.source = t.source)
    (hroot : ∀ t u, R t u →
      (u.nodes[root]?).map Node.located? = (t.nodes[root]?).map Node.located?) :
    Abreast escape R (Tree.framed text) (Tree.framed text') := by
  refine .bind h fun text => .get_bind fun t u htu => ?_
  have hplace := hroot t u htu
  unfold Tree.node
  cases hn : t.nodes[root]? with
  | none =>
    rw [hn] at hplace
    rw [Option.map_eq_none_iff.1 hplace]
    exact .throw _
  | some n =>
    rw [hn] at hplace
    obtain ⟨n', hn', hlocated⟩ := Option.map_eq_some_iff.1 hplace
    rw [hn']
    dsimp only
    rw [hlocated, hsource t u htu]
    cases n.located? with
    | none => exact .pure _
    | some place =>
      dsimp only
      split
      · exact .pure _
      · exact .throw _
      · exact .throw _

variable {P : Tree M O → Prop} {f : Tree M O → Tree M O}

theorem Mirrors.unmapped {normal normal' : Job M O Text} (h : Mirrors escape P f normal normal')
    (hsource : ∀ t, (f t).source = t.source) (file : Text) :
    Mirrors escape P f (Tree.unmapped file normal) (Tree.unmapped file normal') :=
  mirrors_iff_abreast.2 (.unmapped (mirrors_iff_abreast.1 h)
    (by
      rintro t _ ⟨_, rfl⟩
      exact hsource t) file)

/-- The same made of a node that is the same in both trees. -/
theorem Mirrors.printVia {normal normal' : Job M O α}
    {patch patch' : List (Part M O) → Place → Job M O Patch}
    (finish : Patch → Except Source.Error α) {id : Nat}
    (hnode : ∀ t, P t → (f t).nodes[id]? = t.nodes[id]?)
    (hnormal : ∀ {t : Tree M O} {n : Node M O}, P t → t.nodes[id]? = some n →
      MirrorsAt escape P f normal normal' t)
    (hpatch : ∀ {t : Tree M O} {n : Node M O} {place : Place}, P t → t.nodes[id]? = some n →
      MirrorsAt escape P f (patch n.parts place) (patch' n.parts place) t) :
    Mirrors escape P f (Tree.printVia normal patch finish id)
      (Tree.printVia normal' patch' finish id) := by
  refine mirrors_iff_abreast.2 (.printVia finish ?_)
  rintro t _ ⟨ht, rfl⟩
  unfold Tree.node
  rw [hnode t ht]
  cases hn : t.nodes[id]? with
  | none => exact Or.inl ⟨_, rfl, rfl⟩
  | some n =>
    exact Or.inr ⟨n, n, rfl, rfl, rfl, mirrorsAt_iff.1 (hnormal ht hn),
      fun _ => mirrorsAt_iff.1 (hpatch ht hn)⟩

end Abreast

end Reprint
