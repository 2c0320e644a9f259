import Reprint.Proofs.Tree.Surveyed

/-!
# The order of the items of a list

The items of a list are listed in the order in which the model names
their objects for the first time.  So the list is not reordered as long as
the model stays the same (`ItemList.Walk.not_isReordered`).

`Aligned` says that entries with keys come in the order of a list of keys
that may lack some of them and may have others besides.  That is so when
those that both have are in the same order (`aligned_of_order`).
-/

namespace Reprint

variable {M O : Type}

/-- Removing repetitions commutes with a filter. -/
theorem eraseDups_filter [DecidableEq O] (p : O → Bool) (objects : List O) :
    (objects.filter p).eraseDups = objects.eraseDups.filter p := by
  match objects with
  | [] => rfl
  | object :: rest =>
    have hlength := List.length_filter_le (fun b => !(b == object)) rest
    have ih := eraseDups_filter p (rest.filter fun b => !(b == object))
    have hcomm : (rest.filter p).filter (fun b => !(b == object)) =
        (rest.filter fun b => !(b == object)).filter p := by
      rw [List.filter_filter, List.filter_filter]
      exact List.filter_congr fun b _ => Bool.and_comm _ _
    rw [List.eraseDups_cons]
    by_cases hp : p object = true
    · rw [List.filter_cons_of_pos hp, List.eraseDups_cons, List.filter_cons_of_pos hp, hcomm, ih]
    · rw [List.filter_cons_of_neg hp, List.filter_cons_of_neg hp, ← ih, ← hcomm]
      congr 1
      refine (List.filter_eq_self.2 fun b hb => ?_).symm
      rw [List.mem_filter] at hb
      have hne : b ≠ object := by
        rintro rfl
        exact hp hb.2
      simp [hne]
termination_by objects.length
decreasing_by simp only [List.length_cons]; omega

/-- A list without repetitions has none to remove. -/
theorem eraseDups_of_nodup [DecidableEq O] {objects : List O} (h : objects.Nodup) :
    objects.eraseDups = objects := by
  induction objects with
  | nil => rfl
  | cons object rest ih =>
    obtain ⟨hobject, hrest⟩ := List.nodup_cons.1 h
    have hfilter : rest.filter (fun b => !(b == object)) = rest := by
      refine List.filter_eq_self.2 fun b hb => ?_
      have hne : b ≠ object := fun hb' => hobject (hb' ▸ hb)
      simp [hne]
    rw [List.eraseDups_cons, hfilter, ih hrest]

/-! ## Entries in the order of their keys -/

/-- The entries that are left and the keys that are to come: the entries
whose keys are to come do so in their order, and all other entries are gone. -/
inductive Aligned {α : Type} (key : α → O) : List α → List O → Prop
  | nil (entries : List α) : Aligned key entries []
  | fresh {entries : List α} {x : O} {rest : List O} (new : ∀ c ∈ entries, key c ≠ x)
      (tail : Aligned key entries rest) : Aligned key entries (x :: rest)
  | keep {gone more : List α} {c : α} {rest : List O}
      (absent : ∀ d ∈ gone, key d ∉ key c :: rest) (new : ∀ d ∈ more, key d ≠ key c)
      (tail : Aligned key more rest) : Aligned key (gone ++ c :: more) (key c :: rest)

/-- Keys whose order is that of the entries are aligned with them. -/
theorem aligned_of_order [DecidableEq O] {α : Type} {key : α → O} : ∀ (current : List O)
    (entries : List α), (entries.map key).Nodup →
    current.eraseDups.filter (fun x => (entries.map key).contains x) =
      (entries.map key).filter (fun x => current.contains x) → Aligned key entries current
  | [], entries, _, _ => .nil entries
  | x :: rest, entries, hnodup, horder => by
    rw [List.eraseDups_cons, eraseDups_filter] at horder
    by_cases hx : ∃ c ∈ entries, key c = x
    · obtain ⟨c, hc, rfl⟩ := hx
      obtain ⟨gone, more, rfl⟩ := List.append_of_mem hc
      simp only [List.map_append, List.map_cons] at hnodup horder
      generalize hG : gone.map key = G at hnodup horder
      generalize hR : more.map key = R at hnodup horder
      obtain ⟨_, hnodupR, hapart⟩ := List.nodup_append.1 hnodup
      obtain ⟨hcR, hnodupR⟩ := List.nodup_cons.1 hnodupR
      have hcG : key c ∉ G := fun hmem => hapart _ hmem _ List.mem_cons_self rfl
      rw [List.filter_cons, if_pos (by simp), List.filter_append, List.filter_cons,
        if_pos (by simp)] at horder
      -- The first item that is listed is the one of the first object.
      have hgone : G.filter (fun y => (key c :: rest).contains y) = [] := by
        cases hfilter : G.filter (fun y => (key c :: rest).contains y) with
        | nil => rfl
        | cons y ys =>
          rw [hfilter, List.cons_append, List.cons.injEq] at horder
          have hy : y ∈ G := (List.mem_filter.1 (hfilter ▸ List.mem_cons_self)).1
          exact absurd (horder.1 ▸ hy) hcG
      rw [hgone, List.nil_append, List.cons.injEq] at horder
      have habsent : ∀ y ∈ G, y ∉ key c :: rest := by
        intro y hy hmem
        have := List.filter_eq_nil_iff.1 hgone y hy
        exact this (by simpa using hmem)
      refine .keep (fun d hd => habsent _ (hG ▸ List.mem_map_of_mem hd))
        (fun d hd heq => hcR (heq ▸ hR ▸ List.mem_map_of_mem hd)) ?_
      refine aligned_of_order rest more (hR ▸ hnodupR) ?_
      rw [hR]
      calc rest.eraseDups.filter (fun y => R.contains y)
        _ = (rest.eraseDups.filter fun b => !b == key c).filter
              fun y => (G ++ key c :: R).contains y := by
          rw [List.filter_filter]
          refine List.filter_congr fun y hy => ?_
          have hyG : y ∉ G := fun hmem =>
            habsent y hmem (List.mem_cons_of_mem _ (List.mem_eraseDups.1 hy))
          by_cases hyc : y = key c
          · simp [hyc, hcR]
          · simp [hyG, hyc]
        _ = R.filter (fun y => (key c :: rest).contains y) := horder.2
        _ = R.filter (fun y => rest.contains y) := by
          refine List.filter_congr fun y hy => ?_
          have hyc : y ≠ key c := fun h => hcR (h ▸ hy)
          simp [hyc]
    · have hnew : ∀ c ∈ entries, key c ≠ x := fun c hc h => hx ⟨c, hc, h⟩
      have hxA : x ∉ entries.map key := by
        intro hmem
        obtain ⟨c, hc, h⟩ := List.mem_map.1 hmem
        exact hnew c hc h
      refine .fresh hnew (aligned_of_order rest entries hnodup ?_)
      generalize entries.map key = A at hxA horder
      rw [List.filter_cons, if_neg (by simpa using hxA), List.filter_filter] at horder
      calc rest.eraseDups.filter (fun y => A.contains y)
        _ = rest.eraseDups.filter fun y => A.contains y && !y == x := by
          refine List.filter_congr fun y _ => ?_
          by_cases hyx : y = x
          · simp [hyx, hxA]
          · simp [hyx]
        _ = A.filter (fun y => (x :: rest).contains y) := horder
        _ = A.filter (fun y => rest.contains y) := by
          refine List.filter_congr fun y hy => ?_
          have hyx : y ≠ x := fun h => hxA (h ▸ hy)
          simp [hyx]

namespace ItemList

/-- The objects of a walk in the order of the model, without those found
before and without repetitions, are those of its items. -/
theorem Walk.inOrder [DecidableEq O] {t : Tree M O} {owner index : Nat}
    {around : Nat → Text × Text} {objects again : List O} {done later : List (ListedItem O)}
    (h : Walk t owner around index objects done later again) :
    ((objects.filter fun object => ¬ ∃ item ∈ done, item.object = object).eraseDups).filter
      (fun object => ∃ item ∈ later, item.object = object) = later.map ListedItem.object := by
  induction h with
  | nil => rfl
  | again found _ ih =>
    rw [List.filter_cons_of_neg (by simpa using found)]
    exact ih
  | @skip index object rest again done later fresh never tail ih =>
    rw [List.filter_cons_of_pos (by simpa using fresh), List.eraseDups_cons,
      List.filter_cons_of_neg (by simpa using never), eraseDups_filter, List.filter_filter, ← ih]
    refine List.filter_congr fun o _ => ?_
    by_cases ho : o = object
    · subst ho
      simpa using never
    · simp [ho]
  | @take index rest again done later item c fresh below node object located before behind tail ih =>
    rw [List.filter_cons_of_pos (by simpa using fresh), List.eraseDups_cons,
      List.filter_cons_of_pos (by simp), List.map_cons]
    congr 1
    have hdone : rest.filter (fun o => ¬ ∃ other ∈ done ++ [item], other.object = o) =
        (rest.filter fun o => ¬ ∃ other ∈ done, other.object = o).filter
          fun o => !(o == item.object) := by
      rw [List.filter_filter]
      refine List.filter_congr fun o _ => ?_
      by_cases hitem : item.object = o
      · simp [hitem]
      · simp [hitem, Ne.symm hitem]
    rw [← ih, hdone]
    refine List.filter_congr fun o ho => ?_
    rw [List.mem_eraseDups, List.mem_filter] at ho
    have hne : item.object ≠ o := by
      rintro rfl
      simp at ho
    simp [hne]

/-- The items of a walk are objects of the model. -/
theorem Walk.mem_objects {t : Tree M O} {owner index : Nat} {around : Nat → Text × Text}
    {objects again : List O} {done later : List (ListedItem O)}
    (h : Walk t owner around index objects done later again) :
    ∀ item ∈ later, item.object ∈ objects := by
  induction h with
  | nil => simp
  | again _ _ ih => exact fun item hitem => List.mem_cons_of_mem _ (ih item hitem)
  | skip _ _ _ ih => exact fun item hitem => List.mem_cons_of_mem _ (ih item hitem)
  | take _ _ _ _ _ _ _ _ ih =>
    intro x hx
    rcases List.mem_cons.1 hx with rfl | hx
    · exact List.mem_cons_self
    · exact List.mem_cons_of_mem _ (ih x hx)

/-- A list is not reordered for the model that it was located for. -/
theorem Walk.not_isReordered [DecidableEq O] {t : Tree M O} {owner : Nat}
    {around : Nat → Text × Text} {list : ItemList M O} {objects again : List O}
    (h : Walk t owner around 0 objects [] list.listed again) :
    list.isReordered objects = false := by
  have horder := h.inOrder
  have hitems : ∀ item ∈ list.listed, item.object ∈ objects := h.mem_objects
  have hall : objects.filter (fun object => ¬ ∃ item ∈ ([] : List (ListedItem O)),
      item.object = object) = objects := by simp
  rw [hall] at horder
  have hfound : list.inModelOrder objects = list.listed.map ListedItem.object := by
    rw [← horder]
    unfold inModelOrder item?
    refine List.filter_congr fun o _ => ?_
    rw [Bool.eq_iff_iff, List.find?_isSome]
    simp
  have hsource : list.inSourceOrder objects = list.listed.map ListedItem.object := by
    unfold inSourceOrder
    rw [List.filter_eq_self]
    intro o ho
    obtain ⟨item, hitem, rfl⟩ := List.mem_map.1 ho
    simpa using hitems item hitem
  unfold isReordered
  rw [hfound, hsource]
  simp

end ItemList

end Reprint
