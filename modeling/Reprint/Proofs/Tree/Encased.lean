import Reprint.Proofs.Margin
import Reprint.Proofs.Tree.Keeping
import Reprint.Proofs.Tree.Runs

/-!
# Literals in normal text

Normal text is moved in from the inside out.  A part is printed as if it stood at
level zero, then every part around it, its node and the nodes above put their literals
around the text that is there already and move all of it in.  `Encased` says where in a
printed text a literal comes out and lists what is put around it.

* `Nests.exists_encased` finds every literal of a part that way, with the levels of the
  parts around it, and `Nests.exists_encased_node` every literal of a node.
* The lemmas on single operations say what they put around a text
  (`normalPart_slot`, `normalItems_cons`, `normalNode_of_node`), and `Encased.out_eq`
  puts them together.
* `printNormal_reset` is about a literal that goes back to level zero.  That is level
  zero of a part that is at level zero anyway, so it changes nothing: the literal comes
  out flush if nothing around it has a level, and else it is moved in like everything
  else (`printNormal_nestedReset`).

A node that was located is not printed by its normal text but by revising its source
text.  What is said about a literal in it starts from where the literal stands in that.
-/

namespace Reprint

variable {M O : Type}

namespace Tree

/-! ## Where a literal comes out -/

/-- The text that an operation makes, empty if it fails. -/
def Job.text (job : Job M O Text) (t : Tree M O) : Text := (job.result? t).getD []

theorem Job.text_of_ok {job : Job M O Text} {t u : Tree M O} {a : Text} (h : job t = .ok a u) :
    job.text t = a := by
  rw [Job.text, Job.result?, h]
  rfl

variable [DecidableEq O]

/-- A literal comes out in the text that an operation makes of a tree, with casings
around it, the innermost first.  A part is a casing of what is in it, and so is a node.
The texts of the neighbours, in front and behind, are casings without levels.

A node that was located prints its source text brought up to date.  What that has in
front of the literal and behind it is one casing. -/
inductive Encased (m : M) (unit : Text) (frame : Frame) (wording : Wording M) :
    Job M O Text → Tree M O → List Casing → Prop
  | literal {print owner place t} :
      Encased m unit frame wording
        (normalPart print m owner (.ofUnit unit) (.literal frame wording place)) t []
  | slot {print owner f supply listed object id t u casings}
      (supplied : supply m = some object) (node : t.getNode m owner object = .ok (id, u))
      (below : Encased m unit frame wording (print id (.ofUnit unit)) u casings) :
      Encased m unit frame wording
        (normalPart print m owner (.ofUnit unit) (.slot f supply listed)) t
        (casings ++ [.ofFrame f])
  | items {print owner f list t casings}
      (among : Encased m unit frame wording
        (normalItems print m owner (.ofUnit unit) f list (list.supply m).length 0 (list.supply m)) t
        casings) :
      Encased m unit frame wording (normalPart print m owner (.ofUnit unit) (.items f list)) t
        (casings ++ [{ levels := f.indent.levels }])
  | item {print owner f list count index object rest id t u casings}
      (node : t.getNode m owner object = .ok (id, u))
      (below : Encased m unit frame wording (print id (.ofUnit unit)) u casings) :
      Encased m unit frame wording
        (normalItems print m owner (.ofUnit unit) f list count index (object :: rest)) t
        (casings ++ [{
          before := (list.around f index count).1
          behind := (list.around f index count).2 ++
            Job.text (normalItems print m owner (.ofUnit unit) f list count (index + 1) rest)
              (Job.after (print id (.ofUnit unit)) u) }])
  | laterItem {print owner f list count index object rest t casings}
      (among : Encased m unit frame wording
        (normalItems print m owner (.ofUnit unit) f list count (index + 1) rest)
        (Job.after (normalItems print m owner (.ofUnit unit) f list count index [object]) t)
        casings) :
      Encased m unit frame wording
        (normalItems print m owner (.ofUnit unit) f list count index (object :: rest)) t
        (casings ++ [{
          before :=
            Job.text (normalItems print m owner (.ofUnit unit) f list count index [object]) t }])
  | yes {print owner f test yes no taken t casings} (holds : test m = true)
      (within : Encased m unit frame wording (normalPart print m owner (.ofUnit unit) yes) t
        casings) :
      Encased m unit frame wording
        (normalPart print m owner (.ofUnit unit) (.choice f test yes no taken)) t
        (casings ++ [.ofFrame f])
  | no {print owner f test yes other taken t casings} (fails : test m = false)
      (within : Encased m unit frame wording (normalPart print m owner (.ofUnit unit) other) t
        casings) :
      Encased m unit frame wording
        (normalPart print m owner (.ofUnit unit) (.choice f test yes (some other) taken)) t
        (casings ++ [.ofFrame f])
  | group {print owner f members stale t casings}
      (among : Encased m unit frame wording (normalParts print m owner (.ofUnit unit) members) t
        casings) :
      Encased m unit frame wording
        (normalPart print m owner (.ofUnit unit) (.group f members stale)) t
        (casings ++ [.ofFrame f])
  | head {print owner p rest t casings}
      (within : Encased m unit frame wording (normalPart print m owner (.ofUnit unit) p) t casings) :
      Encased m unit frame wording (normalParts print m owner (.ofUnit unit) (p :: rest)) t
        (casings ++ [{
          behind := Job.text (normalParts print m owner (.ofUnit unit) rest)
            (Job.after (normalPart print m owner (.ofUnit unit) p) t) }])
  | tail {print owner p rest t casings}
      (among : Encased m unit frame wording (normalParts print m owner (.ofUnit unit) rest)
        (Job.after (normalPart print m owner (.ofUnit unit) p) t) casings) :
      Encased m unit frame wording (normalParts print m owner (.ofUnit unit) (p :: rest)) t
        (casings ++ [{ before := Job.text (normalPart print m owner (.ofUnit unit) p) t }])
  | node {print id level n t casings} (found : t.node id = .ok n)
      (among : Encased m unit frame wording (normalParts print m id (.ofUnit unit) n.parts) t
        casings) :
      Encased m unit frame wording (normalNode print m id ⟨level, unit⟩) t
        (casings ++ [{ levels := level }])
  | unlocated {depth id margin n t casings} (found : t.node id = .ok n)
      (hidden : n.located? = none)
      (normal : Encased m unit frame wording (normalNode (printWithin m depth) m id margin) t
        casings) :
      Encased m unit frame wording (printWithin m (depth + 1) id margin) t casings
  | located {depth id margin n place t before behind} (found : t.node id = .ok n)
      (known : n.located? = some place)
      (stands : Job.text (printWithin m (depth + 1) id margin) t =
        before ++ frame.wrap (.ofUnit unit) (wording.text m) ++ behind) :
      Encased m unit frame wording (printWithin m (depth + 1) id margin) t [{ before, behind }]

/-! ## Literals within a part -/

/-- A part stands within another one, on the branches that the model takes.  The
number is the levels that the parts around it, the outer one among them, add. -/
inductive Nests (m : M) : Part M O → Nat → Part M O → Prop
  | self (p : Part M O) : Nests m p 0 p
  | yes {f test yes no taken levels q} (holds : test m = true) (inner : Nests m yes levels q) :
      Nests m (.choice f test yes no taken) (levels + f.indent.levels) q
  | no {f test yes other taken levels q} (fails : test m = false) (inner : Nests m other levels q) :
      Nests m (.choice f test yes (some other) taken) (levels + f.indent.levels) q
  | member {f members stale p levels q} (mem : p ∈ members) (inner : Nests m p levels q) :
      Nests m (.group f members stale) (levels + f.indent.levels) q

section Nests

variable {m : M} {unit : Text} {frame : Frame} {wording : Wording M} {place : LiteralPlace}
  {print : Nat → Margin → Job M O Text} {owner levels : Nat}

theorem exists_encased_of_mem {p : Part M O} {parts : List (Part M O)} (hp : p ∈ parts)
    (h : ∀ t, ∃ casings, Encased m unit frame wording
      (normalPart print m owner (.ofUnit unit) p) t casings ∧ Casing.depth casings = levels)
    (t : Tree M O) :
    ∃ casings, Encased m unit frame wording (normalParts print m owner (.ofUnit unit) parts) t
      casings ∧ Casing.depth casings = levels := by
  induction parts generalizing t with
  | nil => exact absurd hp List.not_mem_nil
  | cons first rest ih =>
    rcases List.mem_cons.1 hp with rfl | hp
    · obtain ⟨casings, hencased, hdepth⟩ := h t
      exact ⟨_, .head hencased, by simpa using hdepth⟩
    · obtain ⟨casings, hencased, hdepth⟩ := ih hp _
      exact ⟨_, .tail hencased, by simpa using hdepth⟩

/-- A literal within a part comes out in the text of that part, with all levels around
it. -/
theorem Nests.exists_encased {p : Part M O} (h : Nests m p levels (.literal frame wording place))
    (t : Tree M O) :
    ∃ casings, Encased m unit frame wording (normalPart print m owner (.ofUnit unit) p) t
      casings ∧ Casing.depth casings = levels := by
  generalize hq : Part.literal frame wording place = q at h
  induction h generalizing t with
  | self p => exact ⟨[], hq ▸ .literal, rfl⟩
  | yes holds _ ih =>
    obtain ⟨casings, hencased, hdepth⟩ := ih t hq
    exact ⟨_, .yes holds hencased, by simp [hdepth, Casing.ofFrame]⟩
  | no fails _ ih =>
    obtain ⟨casings, hencased, hdepth⟩ := ih t hq
    exact ⟨_, .no fails hencased, by simp [hdepth, Casing.ofFrame]⟩
  | member mem _ ih =>
    obtain ⟨casings, hencased, hdepth⟩ := exists_encased_of_mem mem (fun t => ih t hq) t
    exact ⟨_, .group hencased, by simp [hdepth, Casing.ofFrame]⟩

/-- The margin of a node adds its levels to those within the node. -/
theorem Nests.exists_encased_node {p : Part M O} {id level : Nat} {n : Node M O} {t : Tree M O}
    (h : Nests m p levels (.literal frame wording place)) (hnode : t.node id = .ok n)
    (hp : p ∈ n.parts) :
    ∃ casings, Encased m unit frame wording (normalNode print m id ⟨level, unit⟩) t casings ∧
      Casing.depth casings = levels + level := by
  obtain ⟨casings, hencased, hdepth⟩ := exists_encased_of_mem hp h.exists_encased t
  exact ⟨_, .node hnode hencased, by simp [hdepth]⟩

end Nests

/-! ## What the operations do to a text -/

section Steps

variable {m : M} {print : Nat → Margin → Job M O Text} {owner : Nat} {unit : Margin}
  {t t' : Tree M O} {out : Text}

/-- An object with a node is printed as that node is. -/
theorem printBelow_of_getNode {object : O} {id : Nat} {u : Tree M O} {margin : Margin}
    {body : Option Text} (hnode : t.getNode m owner object = .ok (id, u))
    (h : printBelow print m owner object margin t = .ok body t') :
    ∃ text, body = some text ∧ print id margin u = .ok text t' := by
  rw [printBelow] at h
  obtain ⟨s, _, hget, h⟩ := bind_eq_ok h
  cases hget
  rw [hnode] at h
  obtain ⟨_, _, hset, h⟩ := bind_eq_ok h
  cases hset
  obtain ⟨text, v, hrun, h⟩ := bind_eq_ok h
  cases h
  exact ⟨text, rfl, hrun⟩

/-- The text of one item, with the literals around it. -/
theorem normalItems_singleton {frame : Frame} {list : ItemList M O} {count index : Nat}
    {object : O} {id : Nat} {u : Tree M O} (hnode : t.getNode m owner object = .ok (id, u))
    (h : normalItems print m owner unit frame list count index [object] t = .ok out t') :
    ∃ text, print id unit u = .ok text t' ∧
      out = (list.around frame index count).1 ++ text ++ (list.around frame index count).2 := by
  rw [normalItems] at h
  obtain ⟨body, v, hbody, h⟩ := bind_eq_ok h
  obtain ⟨text, rfl, hrun⟩ := printBelow_of_getNode hnode hbody
  cases h
  exact ⟨text, hrun, List.append_nil _⟩

/-- The items of a list are printed one by one. -/
theorem normalItems_cons {frame : Frame} {list : ItemList M O} {count index : Nat} {object : O}
    {rest : List O}
    (h : normalItems print m owner unit frame list count index (object :: rest) t = .ok out t') :
    ∃ head u more, normalItems print m owner unit frame list count index [object] t = .ok head u ∧
      normalItems print m owner unit frame list count (index + 1) rest u = .ok more t' ∧
      out = head ++ more := by
  rw [normalItems] at h
  obtain ⟨body, u, hbody, h⟩ := bind_eq_ok h
  cases body with
  | none =>
    obtain ⟨head, v, hhead, h⟩ := bind_eq_ok h
    cases hhead
    obtain ⟨more, w, hmore, h⟩ := bind_eq_ok h
    cases h
    refine ⟨[], u, more, ?_, hmore, rfl⟩
    rw [normalItems]
    exact bind_of_ok hbody _
  | some body =>
    obtain ⟨head, v, hhead, h⟩ := bind_eq_ok h
    cases hhead
    obtain ⟨more, w, hmore, h⟩ := bind_eq_ok h
    cases h
    refine ⟨_, u, more, ?_, hmore, rfl⟩
    rw [normalItems, bind_of_ok hbody]
    exact congrArg (EStateM.Result.ok · u) (List.append_nil _)

/-- Several parts are printed one by one. -/
theorem normalParts_cons {p : Part M O} {rest : List (Part M O)}
    (h : normalParts print m owner unit (p :: rest) t = .ok out t') :
    ∃ head u more, normalPart print m owner unit p t = .ok head u ∧
      normalParts print m owner unit rest u = .ok more t' ∧ out = head ++ more := by
  rw [normalParts] at h
  obtain ⟨head, u, hhead, h⟩ := bind_eq_ok h
  obtain ⟨more, v, hmore, h⟩ := bind_eq_ok h
  cases h
  exact ⟨head, u, more, hhead, hmore, rfl⟩

/-- A slot is printed as the object in it, in the frame of the slot. -/
theorem normalPart_slot {f : Frame} {supply : M → Option O} {listed : Option Nat} {object : O}
    {id : Nat} {u : Tree M O} (hsupply : supply m = some object)
    (hnode : t.getNode m owner object = .ok (id, u))
    (h : normalPart print m owner unit (.slot f supply listed) t = .ok out t') :
    ∃ text, print id unit u = .ok text t' ∧ out = f.wrap unit text := by
  rw [normalPart, hsupply] at h
  obtain ⟨body, v, hbody, h⟩ := bind_eq_ok h
  obtain ⟨text, rfl, hrun⟩ := printBelow_of_getNode hnode hbody
  cases h
  exact ⟨text, hrun, rfl⟩

/-- A node that was not located is printed by its normal text. -/
theorem printWithin_of_unlocated {depth id : Nat} {margin : Margin} {n : Node M O}
    (hnode : t.node id = .ok n) (hplace : n.located? = none) :
    printWithin m (depth + 1) id margin t = normalNode (printWithin m depth) m id margin t := by
  rw [printWithin]
  dsimp only
  rw [hnode]
  dsimp only
  rw [hplace]

/-- The normal text of a node is that of its parts at level zero, moved in. -/
theorem normalNode_of_node {id : Nat} {margin : Margin} {n : Node M O}
    (hnode : t.node id = .ok n) (h : normalNode print m id margin t = .ok out t') :
    ∃ text, normalParts print m id margin.flush n.parts t = .ok text t' ∧
      out = margin.apply text := by
  rw [normalNode] at h
  obtain ⟨s, _, hget, h⟩ := bind_eq_ok h
  cases hget
  rw [hnode] at h
  obtain ⟨text, u, hrun, h⟩ := bind_eq_ok h
  cases h
  exact ⟨text, hrun, rfl⟩

end Steps

/-! ## The text around a literal -/

namespace Encased

variable {m : M} {unit : Text} {frame : Frame} {wording : Wording M} {job : Job M O Text}
  {t t' : Tree M O} {casings : List Casing} {out : Text}

/-- An operation makes a text with the literal in its casings in it. -/
theorem out_eq (h : Encased m unit frame wording job t casings) (hrun : job t = .ok out t') :
    out = Casing.encase unit casings (frame.wrap (.ofUnit unit) (wording.text m)) := by
  induction h generalizing out t' with
  | literal =>
    cases hrun
    rfl
  | slot supplied node _ ih =>
    obtain ⟨text, htext, rfl⟩ := normalPart_slot supplied node hrun
    rw [Casing.encase_concat, Casing.around_ofFrame, ih htext]
  | items _ ih =>
    rw [normalPart] at hrun
    obtain ⟨text, u, hrun, h⟩ := bind_eq_ok hrun
    cases h
    rw [Casing.encase_concat, ← ih hrun, Margin.within_ofUnit, Casing.around, List.nil_append,
      List.append_nil]
  | item node _ ih =>
    obtain ⟨head, u, more, hhead, hmore, rfl⟩ := normalItems_cons hrun
    obtain ⟨text, htext, rfl⟩ := normalItems_singleton node hhead
    rw [Casing.encase_concat, Casing.around_of_level_zero rfl, Job.after_of_ok htext,
      Job.text_of_ok hmore, ← ih htext]
    simp only [List.append_assoc]
  | laterItem _ ih =>
    obtain ⟨head, u, more, hhead, hmore, rfl⟩ := normalItems_cons hrun
    rw [Job.after_of_ok hhead] at ih
    rw [Casing.encase_concat, Casing.around_of_level_zero rfl, Job.text_of_ok hhead, ← ih hmore,
      List.append_nil]
  | yes holds _ ih =>
    rw [normalPart.eq_def] at hrun
    dsimp only at hrun
    rw [if_pos holds] at hrun
    obtain ⟨text, u, hrun, h⟩ := bind_eq_ok hrun
    cases h
    rw [Casing.encase_concat, Casing.around_ofFrame, ← ih hrun]
  | no fails _ ih =>
    rw [normalPart, if_neg (by simp [fails])] at hrun
    obtain ⟨text, u, hrun, h⟩ := bind_eq_ok hrun
    cases h
    rw [Casing.encase_concat, Casing.around_ofFrame, ← ih hrun]
  | group _ ih =>
    rw [normalPart] at hrun
    obtain ⟨text, u, hrun, h⟩ := bind_eq_ok hrun
    cases h
    rw [Casing.encase_concat, Casing.around_ofFrame, ← ih hrun]
  | head _ ih =>
    obtain ⟨head, u, more, hhead, hmore, rfl⟩ := normalParts_cons hrun
    rw [Casing.encase_concat, Casing.around_of_level_zero rfl, Job.after_of_ok hhead,
      Job.text_of_ok hmore, ← ih hhead, List.nil_append]
  | tail _ ih =>
    obtain ⟨head, u, more, hhead, hmore, rfl⟩ := normalParts_cons hrun
    rw [Job.after_of_ok hhead] at ih
    rw [Casing.encase_concat, Casing.around_of_level_zero rfl, Job.text_of_ok hhead, ← ih hmore,
      List.append_nil]
  | node found _ ih =>
    obtain ⟨text, htext, rfl⟩ := normalNode_of_node found hrun
    rw [Casing.encase_concat, ← ih htext, Casing.around, List.nil_append, List.append_nil]
  | unlocated found hidden _ ih =>
    rw [printWithin_of_unlocated found hidden] at hrun
    exact ih hrun
  | located _ _ stands =>
    rw [Job.text_of_ok hrun] at stands
    rw [stands, Casing.encase_cons, Casing.around_of_level_zero rfl, Casing.encase_nil]

end Encased

/-- The lines of a literal that goes back to level zero, in the normal text of a node.
If nothing around the literal has a level, they come out as they are.  Otherwise lines
that the literal does not share with other text are moved in by the levels of all that
is around it, those of the margin of the node among them. -/
theorem printNormal_reset {m : M} {frame : Frame} {wording : Wording M} {id : Nat}
    {margin : Margin} {t t' : Tree M O} {casings : List Casing} {out : Text}
    (hencased : Encased m margin.unit frame wording
      (normalNode (printWithin m (t.depthBound m)) m id margin) t casings)
    (hreset : frame.indent = .reset) (hrun : printNormal m id margin t = .ok out t') :
    (Casing.depth casings = 0 →
      out = Casing.inFront casings ++ (frame.leadText ++ wording.text m ++ frame.trailText) ++
        Casing.inBack casings) ∧
    ∀ before lines behind,
      frame.leadText ++ wording.text m ++ frame.trailText = before ++ lines ++ behind →
      '\n' ∉ margin.unit → (Casing.inFront casings ++ before).EndsLine →
      (behind ++ Casing.inBack casings).BeginsLine →
      ∃ front back : Text, front.EndsLine ∧ back.BeginsLine ∧
        out = front ++ (Margin.mk (Casing.depth casings) margin.unit).apply lines ++ back := by
  have hwrap : frame.wrap (.ofUnit margin.unit) (wording.text m) =
      frame.leadText ++ wording.text m ++ frame.trailText := by
    rw [Frame.wrap, hreset]
    exact Margin.apply_of_level rfl _
  have hout := hencased.out_eq hrun
  rw [hwrap] at hout
  refine ⟨fun hdepth => ?_, fun before lines behind hlines hunit hfront hback => ?_⟩
  · rw [hout, Casing.encase_of_level_zero hdepth]
  · obtain ⟨hmoved, hends, hbegins⟩ := Casing.encase_between hunit hfront hback lines
    exact ⟨_, _, hends, hbegins, by rw [hout, hlines, hmoved]⟩

/-! ## A literal in a box -/

/-- A letter that goes back to level zero. -/
def letterFrame : Frame := { indent := .reset }

/-- The letter in a group that is moved in by some levels. -/
def letterGroup (levels : Nat) : Part Unit Nat :=
  .group { indent := .nest levels } [.literal letterFrame (.constant ['x']) {}] true

/-- A box with the letter in its group in it. -/
def boxes (levels : Nat) : Language Unit Nat where
  layout _ object :=
    match object with
    | 0 => some { origin := none, parts := [letterGroup levels] }
    | 1 => some
      { origin := none
        parts := [.constant ['(', '\n'], .object fun _ => some 0, .constant ['\n', ')']] }
    | _ => none
  describe _ _ := ""
  size _ := 2

/-- What is around the letter in the box, when neither has been searched for. -/
theorem encased_letter {levels level depth id : Nat} {n k : Node Unit Nat} {t u : Tree Unit Nat}
    (hroot : t.node root = .ok n)
    (hparts : n.parts = [.constant ['(', '\n'], .object fun _ => some 0, .constant ['\n', ')']])
    (hget : t.getNode () root 0 = .ok (id, u)) (hbelow : u.node id = .ok k)
    (hplace : k.located? = none) (hgroup : k.parts = [letterGroup levels]) :
    ∃ casings, Encased () ['\t'] letterFrame (.constant ['x'])
        (normalNode (printWithin () (depth + 1)) () root ⟨level, ['\t']⟩) t casings ∧
      Casing.depth casings = levels + level ∧ Casing.inFront casings = ['(', '\n'] ∧
      Casing.inBack casings = ['\n', ')'] := by
  -- From the inside out: the node of the letter, and the slot that it fills.
  have hgroup' : ∃ inner, Encased () ['\t'] letterFrame (.constant ['x'])
      (normalParts (printWithin () depth) () id (.ofUnit ['\t']) k.parts) u inner ∧
      Casing.depth inner = levels ∧ Casing.inFront inner = [] ∧ Casing.inBack inner = [] := by
    rw [hgroup]
    exact ⟨_, .head (.group (.head .literal)), Nat.zero_add levels, rfl, rfl⟩
  obtain ⟨inner, hinner, hdepth, hfront, hback⟩ := hgroup'
  have hslot : Encased () ['\t'] letterFrame (.constant ['x'])
      (normalPart (printWithin () (depth + 1)) () root (.ofUnit ['\t']) (.object fun _ => some 0)) t
      (inner ++ [{ levels := 0 }] ++ [.ofFrame {}]) :=
    .slot rfl hget (.unlocated hbelow hplace (.node hbelow hinner))
  have hbehind (v : Tree Unit Nat) : Job.text (normalParts (printWithin () (depth + 1)) () root
      (.ofUnit ['\t']) [.constant ['\n', ')']]) v = ['\n', ')'] := rfl
  have hbefore : Job.text (normalPart (printWithin () (depth + 1)) () root (.ofUnit ['\t'])
      (.constant ['(', '\n'])) t = ['(', '\n'] := rfl
  have hnode := hparts ▸ Encased.tail (.head hslot)
  refine ⟨_, .node hroot hnode, ?_, ?_, ?_⟩
  · simp [hdepth, Casing.ofFrame, Indent.levels]
  · simp [hfront, hbefore, Casing.ofFrame, Frame.leadText]
  · simp [hback, hbehind, Casing.ofFrame, Frame.trailText]

/-- The same for a box that was made from the model. -/
theorem boxes_encased (levels level : Nat) :
    ∃ t, ofModel (boxes levels) () 1 = .ok t ∧
      ∃ casings, Encased () ['\t'] letterFrame (.constant ['x'])
          (normalNode (printWithin () (t.depthBound ())) () root ⟨level, ['\t']⟩) t casings ∧
        Casing.depth casings = levels + level ∧ Casing.inFront casings = ['(', '\n'] ∧
        Casing.inBack casings = ['\n', ')'] :=
  ⟨_, rfl, encased_letter rfl rfl rfl rfl rfl rfl⟩

/-- With no level around it the letter comes out as it is, and with two levels it is
moved in by two tabs. -/
theorem printNormal_reset_boxes :
    (∃ t t' casings, ofModel (boxes 0) () 1 = .ok t ∧
      Encased () ['\t'] letterFrame (.constant ['x'])
        (normalNode (printWithin () (t.depthBound ())) () root ⟨0, ['\t']⟩) t casings ∧
      letterFrame.indent = .reset ∧ Casing.depth casings = 0 ∧
      printNormal () root ⟨0, ['\t']⟩ t =
        .ok (Casing.inFront casings ++ ['x'] ++ Casing.inBack casings) t') ∧
    ∃ t t' casings, ∃ front back : Text, ofModel (boxes 1) () 1 = .ok t ∧
      Encased () ['\t'] letterFrame (.constant ['x'])
        (normalNode (printWithin () (t.depthBound ())) () root ⟨1, ['\t']⟩) t casings ∧
      letterFrame.indent = .reset ∧ '\n' ∉ ['\t'] ∧ (Casing.inFront casings).EndsLine ∧
      (Casing.inBack casings).BeginsLine ∧ front.EndsLine ∧ back.BeginsLine ∧
      printNormal () root ⟨1, ['\t']⟩ t = .ok (front ++ ['\t', '\t', 'x'] ++ back) t' := by
  have hfeed : '\n' ∉ ['\t'] := by decide
  constructor
  · obtain ⟨t, hmade, casings, hencased, hdepth, -, -⟩ := boxes_encased 0 0
    have hprinted : (ofModel (boxes 0) () 1).toOption.bind
        (printNormal () root ⟨0, ['\t']⟩).result? = some ['(', '\n', 'x', '\n', ')'] := by
      decide +kernel
    rw [hmade] at hprinted
    obtain ⟨t', hrun⟩ := Job.result?_eq_some hprinted
    have hout := (printNormal_reset hencased rfl hrun).1 hdepth
    exact ⟨t, t', casings, hmade, hencased, rfl, hdepth, hout ▸ hrun⟩
  · obtain ⟨t, hmade, casings, hencased, hdepth, hfront, hback⟩ := boxes_encased 1 1
    have hprinted : (ofModel (boxes 1) () 1).toOption.bind
        (printNormal () root ⟨1, ['\t']⟩).result? =
          some ['\t', '(', '\n', '\t', '\t', 'x', '\n', '\t', ')'] := by
      decide +kernel
    rw [hmade] at hprinted
    obtain ⟨t', hrun⟩ := Job.result?_eq_some hprinted
    have hends : (Casing.inFront casings).EndsLine := .inr ⟨['('], hfront⟩
    have hbegins : (Casing.inBack casings).BeginsLine := .inr ⟨[')'], hback⟩
    obtain ⟨front, back, hfront', hback', hout⟩ := (printNormal_reset hencased rfl hrun).2 [] ['x'] []
      rfl hfeed ((List.append_nil _).symm ▸ hends) hbegins
    rw [hdepth] at hout
    exact ⟨t, t', casings, front, back, hmade, hencased, rfl, hfeed, hends, hbegins, hfront', hback',
      hout ▸ hrun⟩

/-- A letter that goes back to level zero, in a group that is moved in: it comes out
behind a tab. -/
theorem printNormal_nestedReset :
    ∃ t t' casings, ofModel (boxes 1) () 0 = .ok t ∧
      Encased () ['\t'] letterFrame (.constant ['x'])
        (normalNode (printWithin () (t.depthBound ())) () root (.ofUnit ['\t'])) t casings ∧
      letterFrame.indent = .reset ∧
      letterFrame.leadText ++ Wording.text (.constant ['x']) () ++ letterFrame.trailText = ['x'] ∧
      printNormal () root (.ofUnit ['\t']) t = .ok ['\t', 'x'] t' ∧
      ['x'] ∉ Text.lines ['\t', 'x'] := by
  have hprinted : (ofModel (boxes 1) () 0).toOption.bind
      (printNormal () root (.ofUnit ['\t'])).result? = some ['\t', 'x'] := by
    decide +kernel
  obtain ⟨t, hmade, hencased⟩ : ∃ t, ofModel (boxes 1) () 0 = .ok t ∧
      ∃ casings, Encased () ['\t'] letterFrame (.constant ['x'])
        (normalNode (printWithin () (t.depthBound ())) () root (.ofUnit ['\t'])) t casings :=
    ⟨_, rfl, _, .node rfl (.head (.group (.head .literal)))⟩
  obtain ⟨casings, hencased⟩ := hencased
  rw [hmade] at hprinted
  obtain ⟨t', hrun⟩ := Job.result?_eq_some hprinted
  exact ⟨t, t', casings, hmade, hencased, rfl, rfl, hrun, by decide⟩

end Tree

end Reprint
