import Reprint.Proofs.Patch.Mapped
import Reprint.Proofs.Tree.Keeping
import Reprint.Tree.Locate

/-!
# Printing with a source map

`Tree.printMapped` makes the patch of the root one level deeper than
`Tree.printRoot` does.  One more level makes no difference as long as the depth
bound is not met (`Tree.printWithin_deeper`), so both print the same text.  That
patch is what some requests for edits make of the source text of the root
(`Patch.Served.lasting`), so its map says where the text comes from, as the map of
any such patch does (`Tree.served_and_printed_maps`).
-/

namespace Reprint

/-- A patch is what some requests for edits make of a piece of a source. -/
def Patch.Served (source : Source) (base : Span) (p : Patch) : Prop :=
  ∃ empty, ofBase source base = .ok empty ∧ ∃ requests, p = empty.serve requests

/-- Granted edits are requests. -/
theorem Patch.Served.lasting (source : Source) (base : Span) :
    Patch.Lasting (Served source base) := by
  have hask : ∀ {p q : Patch} (r : Request), Served source base p → r.ask p = .ok q →
      Served source base q := by
    rintro p q r ⟨empty, hempty, requests, rfl⟩ hgranted
    refine ⟨empty, hempty, requests ++ [r], ?_⟩
    rw [serve_append_singleton, hgranted]
    rfl
  exact ⟨fun hp hq => hask (.replace _ _) hp hq, fun hp hq => hask (.insert _ _) hp hq,
    fun hp hq => hask (.remove _) hp hq⟩

theorem Patch.Served.isSound {source : Source} {base : Span} {p : Patch} (h : Served source base p) :
    p.IsSound := by
  obtain ⟨empty, hempty, requests, rfl⟩ := h
  exact ((IsSound.ofBase hempty).serve requests).1

namespace Tree

variable {M O : Type} [DecidableEq O]

/-- Nothing need be known of a tree. -/
theorem Grows.trivial (m : M) : Grows m fun _ : Tree M O => True := ⟨fun _ _ => True.intro⟩

/-- A node is printed in the same way one level deeper, unless it is nested too
deep, by induction on the depth. -/
theorem printWithin_deeper (m : M) : ∀ (depth node : Nat) (margin : Margin),
    Mirrors (· = .cyclicModel) (fun _ => True) id
      (printWithin m depth node margin : Job M O Text) (printWithin m (depth + 1) node margin)
  | 0, _, _ => fun _ _ => Or.inl rfl
  | depth + 1, node, margin => by
    have hview := (Grows.trivial m : Grows m fun _ : Tree M O => True).view node
    have hbelow : MirrorsOn (· = .cyclicModel) (fun _ => True) id (fun _ => True)
        (printWithin m depth : Nat → Margin → Job M O Text) (printWithin m (depth + 1)) :=
      fun below _ margin => printWithin_deeper m depth below margin
    rw [printWithin_succ, printWithin_succ]
    exact .printVia Patch.text (fun _ _ => rfl)
      (fun ht _ => hview.normalNode hbelow True.intro margin _ ht)
      fun ht _ => hview.patchAt hbelow _ (fun _ _ => True.intro) _ (fun _ _ => ⟨True.intro, rfl⟩) ht

/-- The patch of the root is made by requests for edits, and is the same one level
deeper. -/
theorem patchOf_deeper (m : M) (depth : Nat) (parts : List (Part M O)) (place : Place)
    (t : Tree M O) :
    (∀ patch u, patchOf (printWithin m depth) m root parts place t = .ok patch u →
      Patch.Served t.source place.span patch ∧
        patchOf (printWithin m (depth + 1)) m root parts place t = .ok patch u) ∧
    ∀ e u, patchOf (printWithin m depth) m root parts place t = .error e u → e = .cyclicModel ∨
      patchOf (printWithin m (depth + 1)) m root parts place t = .error e u := by
  have hview := (Grows.trivial m : Grows m fun _ : Tree M O => True).view root
  have hpatch := hview.patchOf (Patch.Served.lasting t.source place.span)
    (fun below _ margin => printWithin_deeper m depth below margin) parts (fun _ _ => True.intro)
    place (fun _ _ => ⟨True.intro, rfl⟩) (t := t) True.intro fun p hp => ⟨p, hp, [], rfl⟩
  constructor
  · intro patch u hrun
    rw [hrun] at hpatch
    exact ⟨hpatch.1.2, hpatch.2⟩
  · intro e u hrun
    rw [hrun] at hpatch
    exact hpatch.imp_right And.right

/-- Every patch that requests for edits make has a map that says where its text
comes from.  A root with source text is printed by such a patch, with a map and
without one. -/
theorem served_and_printed_maps (file : Text) :
    (∀ {source : Source} {base : Span} {p : Patch}, Patch.Served source base p →
      ∃ text map, p.text = .ok text ∧ p.toSourceMap file = .ok map ∧ p.Maps text map) ∧
    ∀ (m : M) {t : Tree M O} {n : Node M O} {place : Place}, t.node root = .ok n →
      n.located? = some place →
      (∀ text u, printRoot m t = .ok text u → ∃ patch map,
        patchOf (printWithin m (t.depthBound m)) m root n.parts place t = .ok patch u ∧
        Patch.Served t.source place.span patch ∧ patch.text = .ok text ∧
        patch.toSourceMap file = .ok map ∧ patch.Maps text map ∧
        printMapped m file t = .ok (text, map) u) ∧
      ∀ e u, printRoot m t = .error e u → e = .cyclicModel ∨ printMapped m file t = .error e u := by
  refine ⟨fun hserved => hserved.isSound.maps file, fun m t n place hn hplace => ?_⟩
  -- The depth bound of the printers below the root.
  let depth := t.nodes.size + t.language.size m
  have hbound : t.depthBound m = depth + 1 := rfl
  have hroot : printRoot m t = printVia (normalNode (printWithin m depth) m root t.settings.margin)
      (patchOf (printWithin m depth) m root) Patch.text root t := by
    rw [← printWithin_succ]
    rfl
  obtain ⟨hsame, hfails⟩ := patchOf_deeper m depth n.parts place t
  rw [hroot, printMapped_eq, printVia, printVia, hn, hbound]
  dsimp only
  rw [hplace]
  dsimp only
  cases hrun : patchOf (printWithin m depth) m root n.parts place t with
  | error e u =>
    constructor
    · intro text' u' hprinted
      cases hprinted
    · intro e' u' herror
      cases herror
      refine (hfails e u hrun).imp_right fun hdeeper => ?_
      rw [hdeeper]
  | ok patch u =>
    obtain ⟨hserved, hdeeper⟩ := hsame patch u hrun
    obtain ⟨text, map, htext, hmap, hmaps⟩ := hserved.isSound.maps file
    dsimp only
    rw [htext]
    constructor
    · intro text' u' hprinted
      cases hprinted
      refine ⟨patch, map, hdeeper, hserved, htext, hmap, hmaps, ?_⟩
      rw [hdeeper]
      dsimp only [Patch.textAndMap]
      rw [htext, hmap]
      rfl
    · intro e' u' herror
      cases herror

/-- Three lines, of which the second one is computed. -/
def middleLine : Language Text Unit where
  layout _ _ := some
    { origin := some (.ok (.between ⟨1, 0⟩ ⟨3, 1⟩))
      parts := [.constant ['a', '\n'], .computed fun m => m, .constant ['\n', 'c']] }
  describe _ _ := ""
  size _ := 1

/-- The lines are located and printed with two lines in place of the second one. -/
theorem exists_middleLine :
    ∃ t n place u, ofSource middleLine ['b'] ['a', '\n', 'b', '\n', 'c'] () = .ok t ∧
      t.node root = .ok n ∧ n.located? = some place ∧
      printRoot ['x', '\n', 'y'] t = .ok ['a', '\n', 'x', '\n', 'y', '\n', 'c'] u := by
  have hprinted : ((ofSource middleLine ['b'] ['a', '\n', 'b', '\n', 'c'] ()).toOption.bind fun t =>
      ((t.node root).toOption.bind Node.located?).bind fun _ =>
        EStateM.run' (printRoot ['x', '\n', 'y']) t) =
      some ['a', '\n', 'x', '\n', 'y', '\n', 'c'] := by decide +kernel
  have hok : ∀ {α : Type} {e : Except Error α} {a : α}, e.toOption = some a → e = .ok a := by
    intro α e a h
    cases e <;> cases h
    rfl
  obtain ⟨t, hload, hprinted⟩ := Option.bind_eq_some_iff.1 hprinted
  obtain ⟨place, hplaced, hrun⟩ := Option.bind_eq_some_iff.1 hprinted
  obtain ⟨n, hn, hplace⟩ := Option.bind_eq_some_iff.1 hplaced
  unfold EStateM.run' EStateM.run at hrun
  cases hprint : printRoot ['x', '\n', 'y'] t with
  | error e u =>
    rw [hprint] at hrun
    cases hrun
  | ok text u =>
    rw [hprint] at hrun
    cases hrun
    exact ⟨t, n, place, u, hok hload, hok hn, hplace, hprint⟩

/-- Two lines are put in place of the second one, and the second line of a source
is removed. -/
theorem maps_middleLine :
    (∃ p map, Patch.Served (.ofText ['a', '\n', 'b', '\n']) (.between ⟨1, 0⟩ ⟨3, 0⟩) p ∧
      p.text = .ok ['a', '\n', '\n'] ∧ p.Maps ['a', '\n', '\n'] map) ∧
    ∃ (t u : Tree Text Unit) (patch : Patch) (map : SourceMap),
      ofSource middleLine ['b'] ['a', '\n', 'b', '\n', 'c'] () = .ok t ∧
      printMapped ['x', '\n', 'y'] ['f'] t =
        .ok (['a', '\n', 'x', '\n', 'y', '\n', 'c'], map) u ∧
      patch.Maps ['a', '\n', 'x', '\n', 'y', '\n', 'c'] map := by
  constructor
  · have hserved : Patch.Served (.ofText ['a', '\n', 'b', '\n']) (.between ⟨1, 0⟩ ⟨3, 0⟩)
        ⟨.ofText ['a', '\n', 'b', '\n'], .between ⟨1, 0⟩ ⟨3, 0⟩,
          [⟨.remove, .between ⟨2, 0⟩ ⟨2, 1⟩, []⟩]⟩ :=
      ⟨_, rfl, [.remove (.between ⟨2, 0⟩ ⟨2, 1⟩)], rfl⟩
    obtain ⟨text, map, htext, _, hmaps⟩ :=
      (served_and_printed_maps (M := Unit) (O := Unit) []).1 hserved
    cases htext
    exact ⟨_, map, hserved, rfl, hmaps⟩
  · obtain ⟨t, n, place, u, hload, hn, hplace, hprint⟩ := exists_middleLine
    obtain ⟨patch, map, _, _, _, _, hmaps, hmapped⟩ :=
      ((served_and_printed_maps ['f']).2 ['x', '\n', 'y'] hn hplace).1 _ u hprint
    exact ⟨t, u, patch, map, hload, hmapped, hmaps⟩

end Tree

end Reprint
