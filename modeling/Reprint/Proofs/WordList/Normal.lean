import Reprint.Proofs.Margin
import Reprint.Proofs.Tree.Runs
import Reprint.Proofs.Tree.Unsearched
import Reprint.Proofs.WordList.Entry
import Reprint.WordList.Layout

/-!
# The normal text of word lists

`Model.text` is the text of a cell made from the model alone.  The first
number bounds the depth, and `Model.Unfolds` says that the bound is
large enough; then a larger bound gives the same text
(`Model.text_of_unfolds`).

The parts of a layout print as such a text when the objects below do.
`normalItems_runs` is the loop over the items of a list, for any invariant
of the tree that printing an item keeps, and `normalItems_fails` is the
loop when an item fails.  `normalNode_word` and `normalNode_list` are the
two kinds of nodes, and `normalNode_items` is a list without brackets in
any margin.
-/

namespace Reprint.WordList

open Reprint.Tree

/-! ## Text made from the model -/

/-- Texts with a separator before all but the one with index zero. -/
def joinedFrom (separator : Text) : Nat → List Text → Text
  | _, [] => []
  | index, text :: rest =>
    (if index = 0 then [] else separator) ++ text ++ joinedFrom separator (index + 1) rest

/-- The bracket in front of a list. -/
def opening (bracketed : Bool) : Text := if bracketed then ['['] else []

/-- The bracket behind a list. -/
def closing (bracketed : Bool) : Text := if bracketed then [']'] else []

namespace Model

/-- The text of a cell.  The number bounds the depth. -/
def text (m : Model) (separator : Text) : Nat → Nat → Text
  | 0, _ => []
  | depth + 1, a =>
    match m.cells[a]? with
    | none => []
    | some (.word name loudness _) => name ++ markText loudness
    | some (.list bracketed items _) =>
      opening bracketed ++ joinedFrom separator 0 (items.map (m.text separator depth)) ++
        closing bracketed

/-- No chain of cells from the given one on is longer than a number. -/
def Unfolds (m : Model) : Nat → Nat → Prop
  | 0, _ => False
  | depth + 1, a => a < m.cells.size ∧ ∀ b ∈ m.items a, m.Unfolds depth b

theorem items_list {m : Model} {a : Nat} {bracketed : Bool} {items : List Nat} {read : Option Item}
    (h : m.cells[a]? = some (.list bracketed items read)) : m.items a = items := by
  rw [Model.items, h]

theorem items_word {m : Model} {a : Nat} {name : Text} {loudness : Option Bool}
    {read : Option Word} (h : m.cells[a]? = some (.word name loudness read)) : m.items a = [] := by
  rw [Model.items, h]

theorem name_word {m : Model} {a : Nat} {name : Text} {loudness : Option Bool}
    {read : Option Word} (h : m.cells[a]? = some (.word name loudness read)) : m.name a = name := by
  rw [Model.name, h]

theorem loudness_word {m : Model} {a : Nat} {name : Text} {loudness : Option Bool}
    {read : Option Word} (h : m.cells[a]? = some (.word name loudness read)) :
    m.loudness a = loudness := by
  rw [Model.loudness, h]

/-- A bound that is large enough may be larger. -/
theorem Unfolds.mono {m : Model} : ∀ {depth a : Nat}, m.Unfolds depth a → ∀ {more : Nat},
    depth ≤ more → m.Unfolds more a
  | 0, _, h, _, _ => h.elim
  | depth + 1, a, h, more, hle => by
    obtain ⟨more, rfl⟩ : ∃ k, more = k + 1 := ⟨more - 1, by omega⟩
    exact ⟨h.1, fun b hb => (h.2 b hb).mono (by omega)⟩

theorem Unfolds.lt {m : Model} {depth a : Nat} (h : m.Unfolds depth a) : a < m.cells.size := by
  cases depth with
  | zero => exact h.elim
  | succ depth => exact h.1

/-- The text of a cell does not depend on a bound that is large enough. -/
theorem text_of_unfolds {m : Model} {separator : Text} : ∀ {depth a : Nat}, m.Unfolds depth a →
    ∀ {more : Nat}, depth ≤ more → m.text separator more a = m.text separator depth a
  | 0, _, h, _, _ => h.elim
  | depth + 1, a, h, more, hle => by
    obtain ⟨more, rfl⟩ : ∃ k, more = k + 1 := ⟨more - 1, by omega⟩
    rw [Model.text, Model.text]
    cases hcell : m.cells[a]? with
    | none => rfl
    | some cell =>
      cases cell with
      | word name loudness read => rfl
      | list bracketed items read =>
        have hitems : items.map (m.text separator more) = items.map (m.text separator depth) := by
          refine List.map_congr_left fun b hb => ?_
          exact text_of_unfolds (h.2 b (by rwa [items_list hcell])) (by omega)
        simp only [hitems]

end Model

/-! ## Normal text of the parts -/

section Parts

variable {print : Nat → Margin → Job Model Nat Text} {m : Model} {owner : Nat} {unit : Margin}

theorem wrap_of_level (h : unit.level = 0) (body : Text) : ({} : Frame).wrap unit body = body := by
  show unit.apply ([] ++ body ++ []) = body
  rw [Margin.apply_of_level h, List.nil_append, List.append_nil]

theorem normalPart_constant (h : unit.level = 0) (text : Text) (t : Tree Model Nat) :
    normalPart print m owner unit (.constant text) t = .ok text t := by
  show EStateM.Result.ok (({} : Frame).wrap unit text) t = _
  rw [wrap_of_level h]

theorem namePart_eq (text : Text) (address : Nat) (read : Option Word) :
    ∃ span, namePart text address read =
      .literal {} (.computed fun m => m.name address) { span? := span } := by
  unfold namePart
  dsimp only
  split
  · exact ⟨_, rfl⟩
  · exact ⟨none, rfl⟩

theorem normalPart_name (h : unit.level = 0) (text : Text) (address : Nat) (read : Option Word)
    (t : Tree Model Nat) :
    normalPart print m owner unit (namePart text address read) t = .ok (m.name address) t := by
  obtain ⟨span, hspan⟩ := namePart_eq text address read
  rw [hspan]
  show EStateM.Result.ok (({} : Frame).wrap unit (m.name address)) t = _
  rw [wrap_of_level h]

theorem normalPart_mark (h : unit.level = 0) (address : Nat) (t : Tree Model Nat) :
    normalPart print m owner unit (markPart address) t = .ok (markText (m.loudness address)) t := by
  unfold markPart Part.either
  rcases hloud : m.loudness address with _ | _ | _ <;>
    simp [normalPart, hloud, bind, EStateM.bind, pure, EStateM.pure, Part.constant, wrap_of_level h,
      Wording.text, markText]

/-- The frame of the items of a list. -/
def itemsFrame (separator : Text) : Frame := { lead := some separator }

/-- The list of the items of a cell, before it was searched for. -/
def itemsList (address : Nat) : ItemList Model Nat :=
  { supply := fun m => m.items address, firstLead := some [] }

theorem itemsPart_eq (separator : Text) (address : Nat) :
    itemsPart separator address = .items (itemsFrame separator) (itemsList address) := rfl

/-- The literals around an item of a list. -/
theorem around_eq (list : ItemList Model Nat) (frame : Frame) {separator : Text}
    (hfirst : list.firstLead = some []) (hlast : list.lastTrail = none)
    (hlead : frame.lead = some separator) (htrail : frame.trail = none) (index count : Nat) :
    list.around frame index count = (if index = 0 then [] else separator, []) := by
  simp [ItemList.around, hfirst, hlast, Frame.leadText, Frame.trailText, hlead, htrail]

/-- The items of a list are printed one after the other.  The invariant may
depend on the items still to come. -/
theorem normalItems_runs (P : List Nat → Tree Model Nat → Prop) (text : Nat → Text) (count : Nat)
    {list : ItemList Model Nat} {frame : Frame} {separator : Text}
    (haround : ∀ index, list.around frame index count = (if index = 0 then [] else separator, []))
    (hstep : ∀ x rest, Runs (P (x :: rest)) (printBelow print m owner x unit) (some (text x))
      (P rest)) :
    ∀ (objects : List Nat) (index : Nat),
      Runs (P objects) (normalItems print m owner unit frame list count index objects)
        (joinedFrom separator index (objects.map text)) (P [])
  | [], index => .pure (fun _ h => h) _
  | x :: rest, index => by
    have hrest := normalItems_runs P text count haround hstep rest (index + 1)
    rw [normalItems]
    refine .bind (hstep x rest) ?_
    dsimp only
    rw [haround index]
    refine .bind (.pure (fun _ h => h) _) (.bind hrest ?_)
    refine (Runs.pure (fun _ h => h) _).congr ?_
    rw [List.map_cons, joinedFrom]
    simp

/-- The same for an invariant that does not change from item to item. -/
theorem normalItems_runs_of_mem {P : Tree Model Nat → Prop} (text : Nat → Text) {count : Nat}
    {list : ItemList Model Nat} {frame : Frame} {separator : Text}
    (haround : ∀ index, list.around frame index count = (if index = 0 then [] else separator, []))
    {objects : List Nat}
    (hstep : ∀ x ∈ objects, Runs P (printBelow print m owner x unit) (some (text x)) P)
    (index : Nat) :
    Runs P (normalItems print m owner unit frame list count index objects)
      (joinedFrom separator index (objects.map text)) P :=
  (normalItems_runs (fun left t => P t ∧ ∀ x ∈ left, x ∈ objects) text count haround
    (fun x rest t ht => by
      obtain ⟨t', hrun, ht'⟩ := hstep x (ht.2 x List.mem_cons_self) t ht.1
      exact ⟨t', hrun, ht', fun y hy => ht.2 y (List.mem_cons_of_mem _ hy)⟩) objects index).weaken
    (fun _ ht => ⟨ht, fun _ hx => hx⟩) fun _ ht => ht.1

/-- The first item that fails ends the list. -/
theorem normalItems_fails {P : Tree Model Nat → Prop} {good : Nat → Prop} {e : Error} {count : Nat}
    {list : ItemList Model Nat} {frame : Frame} :
    ∀ (objects : List Nat) (index : Nat),
      (∀ x ∈ objects, good x → ∃ body, Runs P (printBelow print m owner x unit) body P) →
      (∀ x ∈ objects, ¬ good x → Fails P (printBelow print m owner x unit) e) →
      (∃ x ∈ objects, ¬ good x) →
      Fails P (normalItems print m owner unit frame list count index objects) e
  | [], _, _, _, hbad => by
    obtain ⟨x, hx, _⟩ := hbad
    exact absurd hx List.not_mem_nil
  | x :: rest, index, hgood, hfails, hbad => by
    rw [normalItems]
    by_cases hx : good x
    · obtain ⟨body, hbody⟩ := hgood x List.mem_cons_self hx
      have hrest : ∃ y ∈ rest, ¬ good y := by
        obtain ⟨y, hy, hbad⟩ := hbad
        rcases List.mem_cons.1 hy with rfl | hy
        · exact absurd hx hbad
        · exact ⟨y, hy, hbad⟩
      have htail : Fails P (normalItems print m owner unit frame list count (index + 1) rest) e :=
        normalItems_fails rest (index + 1)
          (fun y hy => hgood y (List.mem_cons_of_mem _ hy))
          (fun y hy => hfails y (List.mem_cons_of_mem _ hy)) hrest
      cases body with
      | none => exact .bind hbody (.bind (.pure (fun _ h => h) _) (.head htail _))
      | some body => exact .bind hbody (.bind (.pure (fun _ h => h) _) (.head htail _))
    · exact .head (hfails x List.mem_cons_self hx) _

end Parts

/-! ## Normal text of a node -/

section Nodes

variable {print : Nat → Margin → Job Model Nat Text} {m : Model} {id : Nat} {margin : Margin}
  {text separator : Text} {t : Tree Model Nat} {n : Node Model Nat}

theorem normalNode_word (hn : t.nodes[id]? = some n) (hmargin : margin.level = 0) {address : Nat}
    {read : Option Word} (hparts : n.parts = [namePart text address read, markPart address]) :
    normalNode print m id margin t = .ok (m.name address ++ markText (m.loudness address)) t := by
  have hflush : margin.flush.level = 0 := rfl
  simp only [normalNode, bind, EStateM.bind, Job.get_eq,
    node_eq_ok.2 hn, hparts, normalParts, normalPart_name hflush, normalPart_mark hflush, pure,
    EStateM.pure, List.append_nil, Margin.apply_of_level hmargin]

/-- The parts of a list, for a node that was made when the list had its
brackets or not. -/
def listParts (separator : Text) (address : Nat) (bracketed : Bool) : List (Part Model Nat) :=
  if bracketed then [.constant ['['], itemsPart separator address, .constant [']']]
  else [itemsPart separator address]

theorem normalNode_list {t' : Tree Model Nat} {items : Text} (hn : t.nodes[id]? = some n)
    (hmargin : margin.level = 0) {address : Nat} {bracketed : Bool}
    (hparts : n.parts = listParts separator address bracketed)
    (hitems : normalItems print m id margin.flush (itemsFrame separator) (itemsList address)
      (m.items address).length 0 (m.items address) t = .ok items t') :
    normalNode print m id margin t = .ok (opening bracketed ++ items ++ closing bracketed) t' := by
  have hflush : margin.flush.level = 0 := rfl
  have hwithin : (margin.flush.within (itemsFrame separator).indent).level = 0 := rfl
  have hlist : normalPart print m id margin.flush (itemsPart separator address) t = .ok items t' := by
    rw [itemsPart_eq, normalPart]
    show EStateM.bind (normalItems print m id margin.flush (itemsFrame separator) (itemsList address)
      (m.items address).length 0 (m.items address)) _ t = _
    simp only [EStateM.bind, hitems, Margin.apply_of_level hwithin, pure, EStateM.pure]
  cases bracketed <;>
    simp only [normalNode, bind, EStateM.bind, Job.get_eq,
      node_eq_ok.2 hn, hparts, listParts, normalParts, normalPart_constant hflush, hlist, pure,
      EStateM.pure, Margin.apply_of_level hmargin, opening, closing, Bool.false_eq_true, if_false,
      if_true, List.append_nil, List.nil_append, List.append_assoc]

theorem normalNode_list_fails {t' : Tree Model Nat} {e : Error} (hn : t.nodes[id]? = some n)
    {address : Nat} {bracketed : Bool} (hparts : n.parts = listParts separator address bracketed)
    (hitems : normalItems print m id margin.flush (itemsFrame separator) (itemsList address)
      (m.items address).length 0 (m.items address) t = .error e t') :
    normalNode print m id margin t = .error e t' := by
  have hflush : margin.flush.level = 0 := rfl
  have hlist : normalPart print m id margin.flush (itemsPart separator address) t = .error e t' := by
    rw [itemsPart_eq, normalPart]
    show EStateM.bind (normalItems print m id margin.flush (itemsFrame separator) (itemsList address)
      (m.items address).length 0 (m.items address)) _ t = _
    simp only [EStateM.bind, hitems]
  cases bracketed <;>
    simp only [normalNode, bind, EStateM.bind, Job.get_eq, node_eq_ok.2 hn, hparts, listParts,
      normalParts, normalPart_constant hflush, hlist, Bool.false_eq_true, if_false, if_true]

/-- The normal text of a node that has nothing but a list of items. -/
theorem normalNode_items (hn : t.nodes[id]? = some n) {frame : Frame} {list : ItemList Model Nat}
    (hparts : n.parts = [.items frame list]) (hindent : frame.indent = .keep) :
    normalNode print m id margin t =
      match normalItems print m id margin.flush frame list (list.supply m).length 0
        (list.supply m) t with
      | .ok items t' => .ok (margin.apply items) t'
      | .error e t' => .error e t' := by
  have hwithin : (margin.flush.within frame.indent).level = 0 := by rw [hindent]; rfl
  simp only [normalNode, bind, EStateM.bind, Job.get_eq, node_eq_ok.2 hn, hparts, normalParts,
    normalPart, pure, EStateM.pure]
  cases normalItems print m id margin.flush frame list (list.supply m).length 0 (list.supply m) t with
  | error => rfl
  | ok items t' => simp only [Margin.apply_of_level hwithin, List.append_nil]

end Nodes

end Reprint.WordList
