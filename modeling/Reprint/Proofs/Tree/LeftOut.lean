import Reprint.Proofs.Tree.Order
import Reprint.Proofs.Tree.Relisted

/-!
# Lists without some objects

An object that prints as nothing still counts as an item of its list.  So a list
without such objects (`ItemList.leaveOut`) has the same text only where the count
does not matter: `ItemList.Spares` asks that no special literal at either end of
the list goes to another item.  Then the items that remain have the same literals
around them (`Spares.around`).

So the list has the same normal text (`Abreast.normalPart_leaveOut`), and is
revised in the same way (`Outlook.revisePart_leaveOut`).
-/

namespace Reprint

variable {M O : Type}

/-! ## Lists without some objects -/

/-- The objects that are not left out. -/
def remaining (gone : O → Bool) (objects : List O) : List O := objects.filter fun object => !gone object

section Remaining

variable {gone : O → Bool} {object : O}

theorem remaining_cons_gone (h : gone object = true) (rest : List O) :
    remaining gone (object :: rest) = remaining gone rest :=
  List.filter_cons_of_neg (by simp [h])

theorem remaining_cons_kept (h : gone object = false) (rest : List O) :
    remaining gone (object :: rest) = object :: remaining gone rest :=
  List.filter_cons_of_pos (by simp [h])

theorem remaining_append (front rest : List O) :
    remaining gone (front ++ rest) = remaining gone front ++ remaining gone rest :=
  List.filter_append ..

theorem mem_remaining {objects : List O} :
    object ∈ remaining gone objects ↔ object ∈ objects ∧ gone object = false := by
  simp [remaining]

theorem remaining_eq_nil {objects : List O} :
    remaining gone objects = [] ↔ ∀ object ∈ objects, gone object = true := by
  simp [remaining]

theorem remaining_remaining (objects : List O) :
    remaining gone (remaining gone objects) = remaining gone objects := by
  simp [remaining]

/-- An object that is kept comes after as many others. -/
theorem length_remaining_concat (h : gone object = false) (front : List O) :
    (remaining gone (front ++ [object])).length = (remaining gone front).length + 1 := by
  rw [remaining_append, remaining_cons_kept h, List.length_append]
  rfl

end Remaining

namespace ItemList

variable {gone : O → Bool} {m : M} {frame : Frame} {list : ItemList M O}

/-- A list without some objects. -/
def leaveOut (gone : O → Bool) (list : ItemList M O) : ItemList M O :=
  { list with supply := fun m => remaining gone (list.supply m) }

/-- A list that can spare some objects: none was found in the source, and none
keeps a special literal at an end of the list from an item that remains. -/
structure Spares (gone : O → Bool) (m : M) (frame : Frame) (list : ItemList M O) : Prop where
  first : ∀ {object : O} {rest : List O}, list.supply m = object :: rest → gone object = true →
    (∃ other ∈ rest, gone other = false) → list.firstLead.getD frame.leadText = frame.leadText
  last : ∀ {front : List O} {object : O}, list.supply m = front ++ [object] → gone object = true →
    (∃ other ∈ front, gone other = false) → list.lastTrail.getD frame.trailText = frame.trailText
  listed : ∀ item ∈ list.listed, gone item.object = false

/-- What is found of a list does not change which objects it can spare. -/
theorem Spares.found {list' : ItemList M O} {frame' : Frame} (h : list.Spares gone m frame)
    (hlead : frame'.lead = frame.lead) (htrail : frame'.trail = frame.trail)
    (hsupply : list'.supply = list.supply) (hfirst : list'.firstLead = list.firstLead)
    (hlast : list'.lastTrail = list.lastTrail)
    (hlisted : ∀ item ∈ list'.listed, gone item.object = false) : list'.Spares gone m frame' where
  first hsome hgone hother := by
    rw [Frame.leadText, hlead, hfirst]
    exact h.first (hsupply ▸ hsome) hgone hother
  last hsome hgone hother := by
    rw [Frame.trailText, htrail, hlast]
    exact h.last (hsupply ▸ hsome) hgone hother
  listed := hlisted

/-- An item that remains has the same literals around it. -/
theorem Spares.around (h : list.Spares gone m frame) {front rest : List O} {object : O}
    (hsupply : list.supply m = front ++ object :: rest) (hobject : gone object = false) :
    (list.leaveOut gone).around frame (remaining gone front).length
      (remaining gone (list.supply m)).length =
        list.around frame front.length (list.supply m).length := by
  have hcount : (remaining gone (list.supply m)).length =
      (remaining gone front).length + 1 + (remaining gone rest).length := by
    rw [hsupply, remaining_append, remaining_cons_kept hobject, List.length_append,
      List.length_cons]
    omega
  have hlead : (if (remaining gone front).length = 0 then list.firstLead.getD frame.leadText
      else frame.leadText) =
        if front.length = 0 then list.firstLead.getD frame.leadText else frame.leadText := by
    cases front with
    | nil => rfl
    | cons x others =>
      rw [if_neg (show ¬ (x :: others).length = 0 by simp)]
      split
      · next hnone =>
        have hgone := remaining_eq_nil.1 (List.length_eq_zero_iff.1 hnone)
        exact h.first hsupply (hgone x List.mem_cons_self) ⟨object, by simp, hobject⟩
      · rfl
  have htrail : (if (remaining gone front).length + 1 = (remaining gone (list.supply m)).length then
      list.lastTrail.getD frame.trailText else frame.trailText) =
        if front.length + 1 = (list.supply m).length then list.lastTrail.getD frame.trailText
        else frame.trailText := by
    rcases List.eq_nil_or_concat' rest with rfl | ⟨others, x, rfl⟩
    · rw [if_pos (by rw [hcount]; rfl), if_pos (by rw [hsupply]; simp)]
    · rw [if_neg (show ¬ front.length + 1 = (list.supply m).length by rw [hsupply]; simp)]
      split
      · next hnone =>
        have hempty : (remaining gone (others ++ [x])).length = 0 := by omega
        have hgone := remaining_eq_nil.1 (List.length_eq_zero_iff.1 hempty)
        have hsplit : list.supply m = (front ++ object :: others) ++ [x] := by
          rw [hsupply]
          simp
        exact h.last hsplit (hgone x (by simp)) ⟨object, by simp, hobject⟩
      · rfl
  exact Prod.ext hlead htrail

variable [DecidableEq O]

/-- No object that is left out was found in the source. -/
theorem Spares.item?_eq_none (h : list.Spares gone m frame) {object : O}
    (hobject : gone object = true) : list.item? object = none := by
  refine List.find?_eq_none.2 fun item hitem hsame => ?_
  have := h.listed item hitem
  rw [of_decide_eq_true hsame, hobject] at this
  cases this

theorem Spares.contains (h : list.Spares gone m frame) {item : ListedItem O}
    (hitem : item ∈ list.listed) (current : List O) :
    (remaining gone current).contains item.object = current.contains item.object := by
  rw [Bool.eq_iff_iff, List.contains_iff_mem, List.contains_iff_mem, mem_remaining]
  exact and_iff_left (h.listed item hitem)

/-- The items that remain are in another order if the items are. -/
theorem Spares.isReordered (h : list.Spares gone m frame) (current : List O) :
    (list.leaveOut gone).isReordered (remaining gone current) = list.isReordered current := by
  have hmodel : (list.leaveOut gone).inModelOrder (remaining gone current) =
      list.inModelOrder current := by
    unfold inModelOrder remaining
    rw [eraseDups_filter, List.filter_filter]
    refine List.filter_congr fun object _ => ?_
    rw [show (list.leaveOut gone).item? object = list.item? object from rfl]
    cases hgone : gone object with
    | false => simp
    | true => simp [h.item?_eq_none hgone]
  have hsource : (list.leaveOut gone).inSourceOrder (remaining gone current) =
      list.inSourceOrder current := by
    unfold inSourceOrder
    refine List.filter_congr fun object hobject => ?_
    obtain ⟨item, hitem, rfl⟩ := List.mem_map.1 hobject
    exact h.contains hitem current
  unfold ItemList.isReordered
  rw [hmodel, hsource]

end ItemList

/-! ## Normal text -/

namespace Abreast

open Reprint.Tree

variable [DecidableEq O] {escape : Error → Prop} {R : Tree M O → Tree M O → Prop}
  {m : M} {owner owner' : Nat} {print print' : Nat → Margin → Job M O Text} {gone : O → Bool}

/-- The texts of the items that remain. -/
theorem normalItems_leaveOut (unit : Margin) {frame : Frame} {list : ItemList M O}
    (hlist : list.Spares gone m frame) (hbelow : ∀ object margin, Abreast escape R
      (printBelow print m owner object margin) (printBelow print' m owner' object margin))
    (hgone : ∀ object margin, gone object = true → ∀ t u, R t u →
      printBelow print m owner object margin t = .ok none t) :
    ∀ objects front : List O, list.supply m = front ++ objects → Abreast escape R
      (Tree.normalItems print m owner unit frame list (list.supply m).length front.length objects)
      (Tree.normalItems print' m owner' unit frame (list.leaveOut gone)
        (remaining gone (list.supply m)).length (remaining gone front).length
        (remaining gone objects))
  | [], _, _ => .pure _
  | object :: rest, front, hsupply => by
    have hrest := normalItems_leaveOut unit hlist hbelow hgone rest (front ++ [object])
      (by rw [hsupply, List.append_assoc]; rfl)
    rw [List.length_append] at hrest
    cases hobject : gone object with
    | true =>
      rw [remaining_append, remaining_cons_gone hobject] at hrest
      rw [remaining_cons_gone hobject]
      refine .pass (hgone object unit hobject) ?_
      simpa [remaining] using hrest
    | false =>
      rw [length_remaining_concat hobject] at hrest
      rw [remaining_cons_kept hobject, Tree.normalItems, Tree.normalItems,
        hlist.around hsupply hobject]
      refine .bind (hbelow object unit) fun body => ?_
      cases body with
      | none => exact .bind (.pure _) fun _ => .bind hrest fun _ => .pure _
      | some body => exact .bind (.pure _) fun _ => .bind hrest fun _ => .pure _

/-- A list without the objects that print as nothing has the same normal text. -/
theorem normalPart_leaveOut (unit : Margin) {frame : Frame} {list : ItemList M O}
    (hlist : list.Spares gone m frame) (hbelow : ∀ object margin, Abreast escape R
      (printBelow print m owner object margin) (printBelow print' m owner' object margin))
    (hgone : ∀ object margin, gone object = true → ∀ t u, R t u →
      printBelow print m owner object margin t = .ok none t) :
    Abreast escape R (Tree.normalPart print m owner unit (.items frame list))
      (Tree.normalPart print' m owner' unit (.items frame (list.leaveOut gone))) := by
  rw [Tree.normalPart, Tree.normalPart]
  exact .bind (normalItems_leaveOut unit hlist hbelow hgone (list.supply m) [] rfl) fun _ => .pure _

end Abreast

/-! ## Revising -/

namespace Tree

open Revision

section Revising

variable [DecidableEq O] {gone : O → Bool} {m : M} {frame : Frame} {list : ItemList M O}

/-- Which objects are listed now matters only for those that were found. -/
theorem removeGone_leaveOut (hlist : list.Spares gone m frame) (current : List O) :
    ∀ (listed : List (ListedItem O)) (previous : Option Nat), (∀ item ∈ listed, item ∈ list.listed) →
      (removeGone (remaining gone current) previous listed : Revision M O Unit) =
        removeGone current previous listed
  | [], _, _ => rfl
  | item :: rest, previous, hlisted => by
    rw [removeGone, removeGone, hlist.contains (hlisted item List.mem_cons_self),
      removeGone_leaveOut hlist current rest _ fun other hother =>
        hlisted other (List.mem_cons_of_mem _ hother)]

theorem moveToFirst_leaveOut (hlist : list.Spares gone m frame) (current : List O) :
    moveToFirst (list.leaveOut gone) (remaining gone current) = moveToFirst list current := by
  have hfirst : (list.listed.find? fun item => (remaining gone current).contains item.object) =
      list.listed.find? fun item => current.contains item.object :=
    List.find?_congr fun item hitem => hlist.contains hitem current
  unfold moveToFirst
  rw [show (list.leaveOut gone).listed = list.listed from rfl, hfirst]

end Revising

namespace Outlook

variable [DecidableEq O] {escape : Error → Prop} {R : Tree M O → Tree M O → Prop} {K : Patch → Prop}
  {m : M} {owner owner' : Nat} {print print' : Nat → Margin → Job M O Text} {V : Nat → Prop}
  {gone : O → Bool} {frame : Frame} {list : ItemList M O}

/-- An object that prints as nothing adds nothing, whatever is around it. -/
theorem freshText_gone {unit : Margin} {object : O}
    (hgone : ∀ t u, R t u → Tree.printBelow print m owner object unit t = .ok none t)
    (indent : Indent) (lead trail : Text) (d d' : Draft M O) (hd : Drafts R K d d') :
    Tree.freshText print m owner unit indent lead trail object d = .ok [] d := by
  simp only [Tree.freshText, bind, EStateM.bind, Revision.onTree, hgone _ _ hd.tree]
  rfl

/-- The texts of all items that remain. -/
theorem freshItems_leaveOut (h : Outlook escape R m owner owner' print print' V) (unit : Margin)
    (hlist : list.Spares gone m frame)
    (hgone : ∀ object margin, gone object = true → ∀ t u, R t u →
      Tree.printBelow print m owner object margin t = .ok none t) :
    ∀ objects front : List O, list.supply m = front ++ objects → Abreast escape (Drafts R K)
      (Tree.freshItems print m owner unit frame list (list.supply m).length front.length objects)
      (Tree.freshItems print' m owner' unit frame (list.leaveOut gone)
        (remaining gone (list.supply m)).length (remaining gone front).length
        (remaining gone objects))
  | [], _, _ => .pure _
  | object :: rest, front, hsupply => by
    have hrest := freshItems_leaveOut h unit hlist hgone rest (front ++ [object])
      (by rw [hsupply, List.append_assoc]; rfl)
    rw [List.length_append] at hrest
    cases hobject : gone object with
    | true =>
      rw [remaining_append, remaining_cons_gone hobject] at hrest
      rw [remaining_cons_gone hobject]
      refine .pass (freshText_gone (fun t u => hgone object unit hobject t u) _ _ _) ?_
      simpa [remaining] using hrest
    | false =>
      rw [length_remaining_concat hobject] at hrest
      rw [remaining_cons_kept hobject, Tree.freshItems, Tree.freshItems, hlist.around hsupply hobject]
      exact .bind (h.freshText _ _ _ _ _) fun _ => .bind hrest fun _ => .pure _

/-- The items that remain, one after the other. -/
theorem reviseListed_leaveOut (h : Outlook escape R m owner owner' print print' V)
    (hK : Patch.Lasting K) (unit : Margin) (hlist : list.Spares gone m frame)
    (hlisted : ∀ item ∈ list.listed, V item.node)
    (hgone : ∀ object margin, gone object = true → ∀ t u, R t u →
      Tree.printBelow print m owner object margin t = .ok none t) :
    ∀ (objects front done spare : List O), list.supply m = front ++ objects →
      Abreast escape (Drafts R K)
        (Tree.reviseListed print m owner unit frame list (list.supply m).length front.length objects
          done spare)
        (Tree.reviseListed print' m owner' unit frame (list.leaveOut gone)
          (remaining gone (list.supply m)).length (remaining gone front).length
          (remaining gone objects) done spare)
  | [], _, _, _, _ => .pure _
  | object :: rest, front, done, spare, hsupply => by
    have hrest := fun done spare => reviseListed_leaveOut h hK unit hlist hlisted hgone rest
      (front ++ [object]) done spare (by rw [hsupply, List.append_assoc]; rfl)
    rw [List.length_append] at hrest
    cases hobject : gone object with
    | true =>
      rw [remaining_append, remaining_cons_gone hobject] at hrest
      rw [remaining_cons_gone hobject, Tree.reviseListed, hlist.item?_eq_none hobject]
      refine .pass (freshText_gone (fun t u => hgone object unit hobject t u) _ _ _) ?_
      -- to insert nothing is to do nothing
      refine .pass (fun d d' _ => rfl) ?_
      simpa [remaining] using hrest done spare
    | false =>
      rw [length_remaining_concat hobject] at hrest
      rw [remaining_cons_kept hobject, Tree.reviseListed, Tree.reviseListed,
        hlist.around hsupply hobject,
        show (list.leaveOut gone).item? object = list.item? object from rfl]
      split
      split
      · next item hitem =>
        have hnode := hlisted item (List.mem_of_find?_eq_some hitem)
        refine .ite (.bind (h.reviseItem hK unit hnode _) fun _ => hrest _ _) ?_
        exact .ite (hrest _ _) (h.insertFresh hK _ _ _ _ _ (hrest _ _))
      · exact h.insertFresh hK _ _ _ _ _ (hrest _ _)

theorem reviseItems_leaveOut (h : Outlook escape R m owner owner' print print' V)
    (hK : Patch.Lasting K) (unit : Margin) (hlist : list.Spares gone m frame)
    (hlisted : ∀ item ∈ list.listed, V item.node)
    (hgone : ∀ object margin, gone object = true → ∀ t u, R t u →
      Tree.printBelow print m owner object margin t = .ok none t) :
    Abreast escape (Drafts R K) (Tree.reviseItems print m owner unit frame list)
      (Tree.reviseItems print' m owner' unit frame (list.leaveOut gone)) := by
  unfold Tree.reviseItems
  rw [show (list.leaveOut gone).supply m = remaining gone (list.supply m) from rfl]
  dsimp only
  rw [hlist.isReordered]
  refine .ite (.bind (h.freshItems_leaveOut unit hlist hgone _ [] rfl) fun _ => .overwrite hK _ _) ?_
  rw [moveToFirst_leaveOut hlist]
  refine .bind (h.moveToFirst list hlisted _) fun _ =>
    .bind (h.reviseListed_leaveOut hK unit hlist hlisted hgone _ [] _ _ rfl) fun _ => ?_
  rw [show (list.leaveOut gone).listed = list.listed from rfl,
    removeGone_leaveOut hlist _ _ _ fun _ hitem => hitem]
  exact h.removeGone hK _ _ _ hlisted fun _ hnone => by cases hnone

/-- A list without the objects that print as nothing is revised in the same way. -/
theorem revisePart_leaveOut (h : Outlook escape R m owner owner' print print' V)
    (hK : Patch.Lasting K) (unit : Margin) (hlist : list.Spares gone m frame)
    (hlisted : ∀ item ∈ list.listed, V item.node)
    (hgone : ∀ object margin, gone object = true → ∀ t u, R t u →
      Tree.printBelow print m owner object margin t = .ok none t) :
    Abreast escape (Drafts R K) (Tree.revisePart print m owner unit (.items frame list))
      (Tree.revisePart print' m owner' unit (.items frame (list.leaveOut gone))) := by
  rw [Tree.revisePart, Tree.revisePart]
  exact .ite (h.insertPart hK unit rfl (.normalPart_leaveOut unit hlist h.below hgone))
    (h.reviseItems_leaveOut hK unit hlist hlisted hgone)

end Outlook

end Tree

end Reprint
