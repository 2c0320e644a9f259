import Reprint.Proofs.Patch.Mapped

/-!
# Requests in any order

The order in which edits are added to a patch counts only where several of them insert
at one position.

* `Edit.sort_eq_sort_iff` says when two lists of edits are sorted alike: each target has
  its edits in the same order.  Targets that are not empty and do not intersect have one
  edit each, so only empty targets are left (`Edit.sort_eq_of_perm`).
* `Patch.askAll_eq_ok_iff` says when all of several requests are granted, one after the
  other.  The order does not matter there (`Patch.Compatible.perm`).
* `Patch.askAll_perm` puts both together: all orders are granted if one is, with the same
  text and the same source map if they agree on the requests at each position.
-/

namespace Reprint

namespace Edit

/-! ## Lists that are sorted alike -/

theorem target_eq_of_not_before {e f : Edit} (hef : e.before f = false) (hfe : f.before e = false) :
    e.target = f.target := by
  rw [before_eq_false] at hef hfe
  simp only [Position.lt_def, Position.le_def, Position.eq_iff] at hef hfe
  exact Span.ext (Position.eq_iff.2 (by omega)) (Position.eq_iff.2 (by omega))

theorem target_ne_of_before {e f : Edit} (h : e.before f = true) : f.target ≠ e.target := by
  intro heq
  have hstop : f.target.stop ≤ e.target.stop := by rw [heq]; exact Position.le_refl _
  rw [before_eq_false.2 (.inr ⟨by rw [heq], hstop⟩)] at h
  cases h

/-- An edit is put in front of the sorted edits that it applies before, and behind all
others. -/
theorem exists_place (e : Edit) {xs : List Edit}
    (hsorted : xs.Pairwise fun e f => f.before e = false) :
    ∃ front back, xs = front ++ back ∧ e.place xs = front ++ e :: back ∧
      ∀ f ∈ back, e.before f = true := by
  induction xs with
  | nil => exact ⟨[], [], rfl, rfl, List.forall_mem_nil _⟩
  | cons x rest ih =>
    obtain ⟨hx, hrest⟩ := List.pairwise_cons.1 hsorted
    cases hbefore : e.before x with
    | true =>
      refine ⟨[], x :: rest, rfl, by rw [place, if_pos hbefore]; rfl, fun f hf => ?_⟩
      rcases List.mem_cons.1 hf with rfl | hf
      · exact hbefore
      · exact before_of_before_of_not_before hbefore (hx f hf)
    | false =>
      obtain ⟨front, back, rfl, hplace, hback⟩ := ih hrest
      refine ⟨x :: front, back, rfl, ?_, hback⟩
      rw [place, hbefore, if_neg Bool.false_ne_true, hplace]
      rfl

/-- The edits with a target, in the order of the list. -/
def withTarget (a : Span) (edits : List Edit) : List Edit := edits.filter fun e => e.target = a

theorem withTarget_append (a : Span) (xs ys : List Edit) :
    withTarget a (xs ++ ys) = withTarget a xs ++ withTarget a ys := List.filter_append xs ys

theorem mem_withTarget {a : Span} {e : Edit} {xs : List Edit} :
    e ∈ withTarget a xs ↔ e ∈ xs ∧ e.target = a := by
  rw [withTarget, List.mem_filter, decide_eq_true_eq]

/-- An edit comes behind those with the same target. -/
theorem withTarget_place (a : Span) (e : Edit) {xs : List Edit}
    (hsorted : xs.Pairwise fun e f => f.before e = false) :
    withTarget a (e.place xs) = withTarget a (xs ++ [e]) := by
  obtain ⟨front, back, rfl, hplace, hback⟩ := exists_place e hsorted
  have hsides : withTarget a [e] = [] ∨ withTarget a back = [] := by
    by_cases htarget : e.target = a
    · refine .inr (List.eq_nil_iff_forall_not_mem.2 fun f hf => ?_)
      obtain ⟨hf, hfa⟩ := mem_withTarget.1 hf
      exact target_ne_of_before (hback f hf) (hfa.trans htarget.symm)
    · refine .inl (List.eq_nil_iff_forall_not_mem.2 fun f hf => ?_)
      obtain ⟨hf, hfa⟩ := mem_withTarget.1 hf
      rw [List.mem_singleton.1 hf] at hfa
      exact htarget hfa
  rw [hplace, ← List.singleton_append, withTarget_append, withTarget_append, withTarget_append,
    withTarget_append]
  rcases hsides with hnone | hnone
  · rw [hnone, List.nil_append, List.append_nil]
  · rw [hnone, List.append_nil, List.append_nil]

/-- Sorting keeps the order of the edits with one target. -/
theorem withTarget_sort (a : Span) (edits : List Edit) :
    withTarget a (sort edits) = withTarget a edits := by
  induction edits using List.reverseRecOn with
  | nil => rfl
  | append_singleton edits e ih =>
    rw [sort_append, List.foldl_cons, List.foldl_nil, withTarget_place a e (pairwise_sort edits),
      withTarget_append, withTarget_append, ih]

theorem mem_of_withTarget_eq {e : Edit} {xs ys : List Edit}
    (h : ∀ a, withTarget a xs = withTarget a ys) (he : e ∈ xs) : e ∈ ys := by
  have htarget : e ∈ withTarget e.target xs := mem_withTarget.2 ⟨he, rfl⟩
  rw [h] at htarget
  exact (mem_withTarget.1 htarget).1

/-- Sorted lists that have the same edits for each target, in the same order, are the
same. -/
theorem eq_of_withTarget_eq {xs ys : List Edit} (hxs : xs.Pairwise fun e f => f.before e = false)
    (hys : ys.Pairwise fun e f => f.before e = false)
    (h : ∀ a, withTarget a xs = withTarget a ys) : xs = ys := by
  induction xs generalizing ys with
  | nil =>
    exact (List.eq_nil_iff_forall_not_mem.2 fun e he =>
      List.not_mem_nil (mem_of_withTarget_eq (fun a => (h a).symm) he)).symm
  | cons x xs ih =>
    have hxmem := mem_of_withTarget_eq h List.mem_cons_self
    cases ys with
    | nil => exact absurd hxmem List.not_mem_nil
    | cons y ys =>
      have hymem := mem_of_withTarget_eq (fun a => (h a).symm) List.mem_cons_self
      obtain ⟨hx, hxs'⟩ := List.pairwise_cons.1 hxs
      obtain ⟨hy, hys'⟩ := List.pairwise_cons.1 hys
      -- Each head stands in the other list, so neither applies before the other.
      have htarget : x.target = y.target := by
        rcases List.mem_cons.1 hxmem with rfl | hxy
        · rfl
        · rcases List.mem_cons.1 hymem with rfl | hyx
          · rfl
          · exact target_eq_of_not_before (hy x hxy) (hx y hyx)
      have hhead : x = y := by
        have hfirst := h x.target
        rw [withTarget, withTarget, List.filter_cons_of_pos (by simp),
          List.filter_cons_of_pos (by simp [htarget])] at hfirst
        exact (List.cons.inj hfirst).1
      have hrest : ∀ a, withTarget a xs = withTarget a ys := fun a => by
        have hcons := h a
        rw [hhead, ← List.singleton_append, ← List.singleton_append (l := ys), withTarget_append,
          withTarget_append] at hcons
        exact List.append_cancel_left hcons
      rw [hhead, ih hxs' hys' hrest]

/-- Two lists of edits are sorted alike if each target has its edits in the same order. -/
theorem sort_eq_sort_iff {xs ys : List Edit} :
    sort xs = sort ys ↔ ∀ a, withTarget a xs = withTarget a ys := by
  constructor
  · intro h a
    rw [← withTarget_sort, h, withTarget_sort]
  · intro h
    refine eq_of_withTarget_eq (pairwise_sort xs) (pairwise_sort ys) fun a => ?_
    rw [withTarget_sort, withTarget_sort, h]

/-! ## Edits that do not intersect -/

/-- Of edits that do not intersect at most one has a target that is not empty. -/
theorem length_withTarget_le {a : Span} {edits : List Edit} (hapart : edits.Pairwise Apart)
    (hlt : a.start < a.stop) : (withTarget a edits).length ≤ 1 := by
  have hsame : (withTarget a edits).Pairwise Apart := hapart.filter _
  match hlist : withTarget a edits with
  | [] => exact Nat.zero_le 1
  | [_] => exact Nat.le_refl 1
  | e :: f :: rest =>
    rw [hlist, List.pairwise_cons] at hsame
    have htarget : ∀ x ∈ e :: f :: rest, x.target = a := fun x hx => by
      rw [← hlist] at hx
      exact (mem_withTarget.1 hx).2
    have hclear : e.target.intersects f.target = false := hsame.1 f List.mem_cons_self
    have hsecond := htarget f (List.mem_cons_of_mem e List.mem_cons_self)
    rw [htarget e List.mem_cons_self, hsecond] at hclear
    simp [Span.intersects, hlt] at hclear

/-- Edits that do not intersect are sorted alike in any order that keeps the order of
those at each position. -/
theorem sort_eq_of_perm {xs ys : List Edit} (hperm : xs.Perm ys) (hapart : xs.Pairwise Apart)
    (hpoints : ∀ p, withTarget (.point p) xs = withTarget (.point p) ys) : sort xs = sort ys := by
  refine sort_eq_sort_iff.2 fun a => ?_
  by_cases hlt : a.start < a.stop
  · have hfilter : (withTarget a xs).Perm (withTarget a ys) := hperm.filter _
    have hlength := length_withTarget_le hapart hlt
    match hxs : withTarget a xs with
    | [] => rw [hxs] at hfilter; exact hfilter.nil_eq
    | [e] => rw [hxs] at hfilter; exact hfilter.singleton_eq
    | e :: f :: rest =>
      rw [hxs] at hlength
      simp at hlength
  · have hpoint : a = .point a.start := by
      have hle := Position.le_antisymm (Decidable.of_not_not fun h => hlt (Position.not_le.1 h))
        a.start_le_stop
      exact Span.ext rfl hle
    rw [hpoint]
    exact hpoints a.start

end Edit

namespace Patch

/-! ## Several requests -/

/-- The patch after several requests, all of which have to be granted. -/
def askAll (p : Patch) (requests : List Request) : Except Source.Error Patch :=
  requests.foldlM (fun p r => r.ask p) p

/-- The edits that a request leads to: none if there is nothing to do. -/
def Request.edits (r : Request) : List Edit := if r.isIdle then [] else [r.edit]

/-- Whether the request is about an empty target at a position. -/
def Request.isAt (p : Position) (r : Request) : Bool := r.edit.target = .point p

theorem Compatible.perm {p : Patch} {first second : List Edit} (h : p.Compatible first)
    (hperm : first.Perm second) : p.Compatible second where
  fits e he := h.fits e (hperm.mem_iff.2 he)
  apart := h.apart.perm (hperm.append_left p.edits) fun hef => hef.symm

theorem compatible_append {p : Patch} {first second : List Edit} :
    p.Compatible (first ++ second) ↔ p.Compatible first ∧ (p.extend first).Compatible second := by
  refine ⟨fun h => ⟨h.left, h.right⟩, fun ⟨hfirst, hsecond⟩ => ⟨fun e he => ?_, ?_⟩⟩
  · rcases List.mem_append.1 he with he | he
    · exact hfirst.fits e he
    · exact hsecond.fits e he
  · rw [← List.append_assoc]
    exact hsecond.apart

section Granted

variable {p q : Patch}

/-- A request is granted if its edits go with those that are there. -/
theorem IsSound.ask_eq_ok_iff (h : p.IsSound) (r : Request) :
    r.ask p = .ok q ↔ p.Compatible r.edits ∧ q = p.extend r.edits := by
  unfold Request.edits
  cases hidle : r.isIdle with
  | true =>
    have hnothing : p.Compatible [] :=
      ⟨List.forall_mem_nil _, by rw [List.append_nil]; exact h.apart⟩
    rw [if_pos rfl, Request.ask_of_isIdle hidle, extend_nil]
    exact ⟨fun heq => ⟨hnothing, (Except.ok.inj heq).symm⟩, fun heq => by rw [heq.2]⟩
  | false =>
    rw [if_neg Bool.false_ne_true, Request.ask_eq_add hidle]
    constructor
    · intro hadd
      rcases h.refuses_or_compatible r.edit with ⟨error, hrefuses⟩ | hedit
      · rw [add_of_refuses hrefuses] at hadd
        cases hadd
      · rw [add_of_compatible hedit] at hadd
        exact ⟨hedit, (Except.ok.inj hadd).symm⟩
    · rintro ⟨hedit, rfl⟩
      exact add_of_compatible hedit

/-- Several requests are granted if all their edits go together. -/
theorem IsSound.askAll_eq_ok_iff (h : p.IsSound) (requests : List Request) :
    p.askAll requests = .ok q ↔ p.Compatible (requests.flatMap Request.edits) ∧
      q = p.extend (requests.flatMap Request.edits) := by
  induction requests generalizing p with
  | nil =>
    have hidle := h.ask_eq_ok_iff (q := q) (.remove (.point default))
    exact hidle
  | cons r rest ih =>
    have hrun : p.askAll (r :: rest) = (r.ask p).bind fun p => p.askAll rest := List.foldlM_cons
    rw [hrun, List.flatMap_cons, compatible_append, extend_append]
    constructor
    · intro hall
      cases hask : r.ask p with
      | error e =>
        rw [hask] at hall
        cases hall
      | ok next =>
        obtain ⟨hedits, rfl⟩ := (h.ask_eq_ok_iff r).1 hask
        rw [hask] at hall
        obtain ⟨hrest, hq⟩ := (ih (h.extend hedits)).1 hall
        exact ⟨⟨hedits, hrest⟩, hq⟩
    · rintro ⟨⟨hedits, hrest⟩, hq⟩
      rw [(h.ask_eq_ok_iff r).2 ⟨hedits, rfl⟩]
      exact (ih (h.extend hedits)).2 ⟨hrest, hq⟩

end Granted

/-- The edits with an empty target at a position come from the requests about it. -/
theorem withTarget_edits (x : Position) (requests : List Request) :
    Edit.withTarget (.point x) (requests.flatMap Request.edits) =
      (requests.filter (Request.isAt x)).flatMap Request.edits := by
  induction requests with
  | nil => rfl
  | cons r rest ih =>
    have hhead : Edit.withTarget (.point x) r.edits = if r.isAt x then r.edits else [] := by
      unfold Edit.withTarget Request.edits Request.isAt
      cases r.isIdle <;> by_cases htarget : r.edit.target = .point x <;> simp [htarget]
    rw [List.flatMap_cons, Edit.withTarget_append, hhead, ih, List.filter_cons]
    split <;> rfl

/-- The edits in their order are all that a patch makes its text and its map of. -/
theorem congr_ordered {p q : Patch} (hordered : q.ordered = p.ordered)
    (hsource : q.source = p.source) (hbase : q.base = p.base) :
    q.text = p.text ∧ ∀ file, q.toSourceMap file = p.toSourceMap file := by
  have hsegments : q.segments = p.segments := by rw [segments, segments, hbase, hordered]
  refine ⟨by rw [text, text, hsegments, hsource], fun file => ?_⟩
  rw [toSourceMap, toSourceMap, hsegments, hsource]

/-- If requests are granted in one order, they are granted in any other, and the edits in
the order in which they apply, the text and the source map are the same unless the orders
differ in the requests about the empty targets at some position. -/
theorem askAll_perm {s : Source} {base : Span} {empty p : Patch} {first second : List Request}
    (hempty : ofBase s base = .ok empty) (hperm : first.Perm second)
    (hgranted : empty.askAll first = .ok p) :
    ∃ q, empty.askAll second = .ok q ∧
      ((∀ x, first.filter (Request.isAt x) = second.filter (Request.isAt x)) →
        q.ordered = p.ordered ∧ (∃ text, p.text = .ok text ∧ q.text = .ok text) ∧
          ∀ file, ∃ map, p.toSourceMap file = .ok map ∧ q.toSourceMap file = .ok map) := by
  have hsound := IsSound.ofBase hempty
  obtain ⟨-, rfl⟩ := ofBase_eq_ok_iff.1 hempty
  obtain ⟨hedits, rfl⟩ := (hsound.askAll_eq_ok_iff first).1 hgranted
  have hpermEdits := hperm.flatMap_right Request.edits
  refine ⟨_, (hsound.askAll_eq_ok_iff second).2 ⟨hedits.perm hpermEdits, rfl⟩, fun hpoints => ?_⟩
  have hsort : Edit.sort (second.flatMap Request.edits) =
      Edit.sort (first.flatMap Request.edits) := by
    have hapart := (List.pairwise_append.1 hedits.apart).2.1
    refine (Edit.sort_eq_of_perm hpermEdits hapart fun x => ?_).symm
    rw [withTarget_edits, withTarget_edits, hpoints]
  have hordered : (extend ⟨s, base, []⟩ (second.flatMap Request.edits)).ordered =
      (extend ⟨s, base, []⟩ (first.flatMap Request.edits)).ordered := hsort
  obtain ⟨htext, hmap⟩ := congr_ordered hordered rfl rfl
  refine ⟨hordered, ?_, fun file => ?_⟩
  · obtain ⟨text, _, h, -⟩ := (hsound.extend hedits).maps []
    exact ⟨text, h, htext.trans h⟩
  · obtain ⟨_, map, _, h, -⟩ := (hsound.extend hedits).maps file
    exact ⟨map, h, (hmap file).trans h⟩

/-- Two insertions at the start of a letter that is replaced.  The replacement may come
first or last, and the insertions stay in their order. -/
theorem askAll_insertedLetters :
    let base : Patch := ⟨.ofText ['a', 'b', 'c'], .between ⟨1, 0⟩ ⟨1, 3⟩, []⟩
    let replacement := Request.replace (.between ⟨1, 1⟩ ⟨1, 2⟩) ['y']
    let insertions := [Request.insert ⟨1, 1⟩ ['x'], .remove (.point ⟨1, 1⟩), .insert ⟨1, 1⟩ ['z']]
    ofBase base.source base.base = .ok base ∧
      (replacement :: insertions).Perm (insertions ++ [replacement]) ∧
      (∀ x, (replacement :: insertions).filter (Request.isAt x) =
        (insertions ++ [replacement]).filter (Request.isAt x)) ∧
      ∃ p q, base.askAll (replacement :: insertions) = .ok p ∧
        base.askAll (insertions ++ [replacement]) = .ok q ∧
        p.text = .ok ['a', 'x', 'z', 'y', 'c'] ∧ q.text = .ok ['a', 'x', 'z', 'y', 'c'] := by
  intro base replacement insertions
  have hperm : (replacement :: insertions).Perm (insertions ++ [replacement]) :=
    (List.perm_append_singleton replacement insertions).symm
  have hpoints : ∀ x, (replacement :: insertions).filter (Request.isAt x) =
      (insertions ++ [replacement]).filter (Request.isAt x) := fun x => by
    have hnone : [replacement].filter (Request.isAt x) = [] := by
      refine List.filter_cons_of_neg (Bool.eq_false_iff.1 (decide_eq_false fun heq => ?_))
      have hstart : Position.mk 1 1 = x := congrArg (fun a : Span => a.start) heq
      have hstop : Position.mk 1 2 = x := congrArg (fun a : Span => a.stop) heq
      exact absurd (hstart.trans hstop.symm) (by decide)
    rw [← List.singleton_append, List.filter_append, List.filter_append, hnone, List.nil_append,
      List.append_nil]
  obtain ⟨p, hgranted⟩ : ∃ p, base.askAll (replacement :: insertions) = .ok p := ⟨_, rfl⟩
  have hempty : ofBase base.source base.base = .ok base := rfl
  obtain ⟨q, hq, hsame⟩ := askAll_perm hempty hperm hgranted
  obtain ⟨-, ⟨text, hp, hq'⟩, -⟩ := hsame hpoints
  have htext : p.text = .ok ['a', 'x', 'z', 'y', 'c'] := by
    cases hgranted
    rfl
  rw [htext] at hp
  cases hp
  exact ⟨hempty, hperm, hpoints, p, q, hgranted, hq, htext, hq'⟩

end Patch

end Reprint
