import Reprint.Tree.Basic
import Reprint.Proofs.Span
import Mathlib.Data.List.Find

/-!
# The nodes of a changed tree

Every operation on a tree changes its table of nodes by `Tree.modify`,
`Tree.grow` or `Tree.addNode`.  The lemmas here give the node with a
number after each of them in terms of the nodes before.

`Tree.getNode_cases` is the inversion of `Tree.getNode`: the node is
there, or it is the new last one of a tree that `Tree.addNode` made.
-/

namespace Reprint

namespace Place

@[simp] theorem grow_grow (p : Place) (span : Span) : (p.grow span).grow span = p.grow span := by
  simp [grow, Span.union_union_right]

/-- A place that covers a span does not grow by it. -/
theorem grow_eq_self {p : Place} {span : Span} (h : p.span.contains span = true) :
    p.grow span = p := by
  simp [grow, Span.union_eq_left h]

end Place

namespace Node

variable {M O : Type}

@[simp] theorem object_mapPlace (n : Node M O) (g : Place → Place) :
    (n.mapPlace g).object = n.object := rfl

@[simp] theorem ancestors_mapPlace (n : Node M O) (g : Place → Place) :
    (n.mapPlace g).ancestors = n.ancestors := rfl

@[simp] theorem children_mapPlace (n : Node M O) (g : Place → Place) :
    (n.mapPlace g).children = n.children := rfl

@[simp] theorem parts_mapPlace (n : Node M O) (g : Place → Place) :
    (n.mapPlace g).parts = n.parts := rfl

@[simp] theorem place_mapPlace (n : Node M O) (g : Place → Place) :
    (n.mapPlace g).place = n.place.map g := rfl

/-- A node is located when it has a place that was searched from. -/
theorem isLocated_iff (n : Node M O) :
    n.isLocated = true ↔ ∃ p, n.place = some p ∧ p.located = true := by
  unfold isLocated located?
  cases n.place with
  | none => simp
  | some p => simp [Option.filter]

theorem isLocated_of_place {n : Node M O} {p : Place} (hp : n.place = some p) :
    n.isLocated = p.located := by
  rw [Bool.eq_iff_iff, isLocated_iff, hp]
  simp

theorem located?_eq_some {n : Node M O} {p : Place} :
    n.located? = some p ↔ n.place = some p ∧ p.located = true := by
  unfold located?
  exact Option.filter_eq_some_iff

/-- A change of the place that keeps the mark of a search keeps whether the
node is located. -/
theorem isLocated_mapPlace (n : Node M O) {g : Place → Place}
    (hg : ∀ p, (g p).located = p.located) : (n.mapPlace g).isLocated = n.isLocated := by
  unfold isLocated located?
  rw [place_mapPlace]
  cases n.place with
  | none => rfl
  | some p =>
    simp only [Option.map_some, Option.filter]
    rw [hg]
    cases p.located <;> rfl

theorem before_mapPlace (n : Node M O) {g : Place → Place}
    (hg : ∀ p, (g p).before = p.before) : (n.mapPlace g).before = n.before := by
  unfold before
  cases h : n.place <;> simp [h, hg]

theorem behind_mapPlace (n : Node M O) {g : Place → Place}
    (hg : ∀ p, (g p).behind = p.behind) : (n.mapPlace g).behind = n.behind := by
  unfold behind
  cases h : n.place <;> simp [h, hg]

/-- A node after its visit: it has the parts as far as they were located, and takes
new text where the visit ended. -/
def finish (n : Node M O) (parts : List (Part M O)) (q : Position) : Node M O :=
  { n with parts := parts }.mapPlace fun p => { p with located := true, insertion := q }

section Finish

variable (n : Node M O) (parts : List (Part M O)) (q : Position)

@[simp] theorem object_finish : (n.finish parts q).object = n.object := rfl

@[simp] theorem ancestors_finish : (n.finish parts q).ancestors = n.ancestors := rfl

@[simp] theorem children_finish : (n.finish parts q).children = n.children := rfl

@[simp] theorem parts_finish : (n.finish parts q).parts = parts := rfl

@[simp] theorem place_finish : (n.finish parts q).place =
    n.place.map fun p => { p with located := true, insertion := q } := rfl

@[simp] theorem span?_finish : (n.finish parts q).span? = n.span? := by
  simp [span?, Function.comp_def]

theorem before_finish : (n.finish parts q).before = n.before :=
  before_mapPlace { n with parts := parts } fun _ => rfl

theorem behind_finish : (n.finish parts q).behind = n.behind :=
  behind_mapPlace { n with parts := parts } fun _ => rfl

/-- A node with source text is located after its visit. -/
theorem isLocated_finish (h : n.place.isSome = true) : (n.finish parts q).isLocated = true := by
  obtain ⟨p, hp⟩ := Option.isSome_iff_exists.1 h
  rw [isLocated_iff, place_finish, hp]
  exact ⟨_, rfl, rfl⟩

end Finish

end Node

namespace Tree

variable {M O : Type}

theorem node_eq_ok {t : Tree M O} {id : Nat} {n : Node M O} :
    t.node id = .ok n ↔ t.nodes[id]? = some n := by
  unfold node
  cases t.nodes[id]? <;> simp

theorem node_eq_error {t : Tree M O} {id : Nat} {e : Error} :
    t.node id = .error e ↔ t.nodes[id]? = none ∧ e = .unknownNode id := by
  unfold node
  cases t.nodes[id]? <;> simp [eq_comm]

theorem lt_size_of_node {t : Tree M O} {id : Nat} {n : Node M O} (h : t.nodes[id]? = some n) :
    id < t.nodes.size := (Array.getElem?_eq_some_iff.1 h).1

theorem exists_node_of_lt {t : Tree M O} {id : Nat} (h : id < t.nodes.size) :
    ∃ n, t.nodes[id]? = some n := ⟨_, Array.getElem?_eq_getElem h⟩

theorem isLocated_eq {t : Tree M O} {id : Nat} {n : Node M O} (h : t.nodes[id]? = some n) :
    t.isLocated id = n.isLocated := by
  rw [isLocated, h]

theorem exists_node_of_isLocated {t : Tree M O} {id : Nat} (h : t.isLocated id = true) :
    ∃ n, t.nodes[id]? = some n := by
  unfold isLocated at h
  split at h
  · exact ⟨_, ‹_›⟩
  · cases h

theorem lineage_eq {t : Tree M O} {id : Nat} {n : Node M O} (h : t.nodes[id]? = some n) :
    t.lineage id = id :: n.ancestors := by
  rw [lineage, h]

/-! ## One node changed -/

theorem getElem?_modify (t : Tree M O) (id x : Nat) (g : Node M O → Node M O) :
    (t.modify id g).nodes[x]? = if id = x then (t.nodes[x]?).map g else t.nodes[x]? := by
  rw [modify, Array.getElem?_modify]

theorem getElem?_modify_self {t : Tree M O} {id : Nat} {n : Node M O} (g : Node M O → Node M O)
    (h : t.nodes[id]? = some n) : (t.modify id g).nodes[id]? = some (g n) := by
  rw [getElem?_modify, if_pos rfl, h, Option.map_some]

theorem getElem?_modify_of_ne (t : Tree M O) {id x : Nat} (g : Node M O → Node M O)
    (h : id ≠ x) : (t.modify id g).nodes[x]? = t.nodes[x]? := by
  rw [getElem?_modify, if_neg h]

/-- A node of a tree in which one node was changed. -/
theorem modify_cases {t : Tree M O} {id x : Nat} {g : Node M O → Node M O} {k : Node M O}
    (h : (t.modify id g).nodes[x]? = some k) :
    (∃ n, id = x ∧ t.nodes[x]? = some n ∧ k = g n) ∨ id ≠ x ∧ t.nodes[x]? = some k := by
  rw [getElem?_modify] at h
  split at h
  · next hx =>
    obtain ⟨n, hn, rfl⟩ := Option.map_eq_some_iff.1 h
    exact Or.inl ⟨n, hx, hn, rfl⟩
  · next hx => exact Or.inr ⟨hx, h⟩

/-- A located node of such a tree is the one that was changed, or it was
located before. -/
theorem isLocated_modify_cases {t : Tree M O} {id x : Nat} {g : Node M O → Node M O}
    (h : (t.modify id g).isLocated x = true) : id = x ∨ t.isLocated x = true := by
  obtain ⟨k, hk⟩ := exists_node_of_isLocated h
  rw [isLocated_eq hk] at h
  rcases modify_cases hk with ⟨_, hx, _⟩ | ⟨_, hk⟩
  · exact Or.inl hx
  · exact Or.inr ((isLocated_eq hk).trans h)

@[simp] theorem source_modify (t : Tree M O) (id : Nat) (g : Node M O → Node M O) :
    (t.modify id g).source = t.source := rfl

@[simp] theorem settings_modify (t : Tree M O) (id : Nat) (g : Node M O → Node M O) :
    (t.modify id g).settings = t.settings := rfl

@[simp] theorem language_modify (t : Tree M O) (id : Nat) (g : Node M O → Node M O) :
    (t.modify id g).language = t.language := rfl

@[simp] theorem marks_modify (t : Tree M O) (id : Nat) (g : Node M O → Node M O) :
    (t.modify id g).marks = t.marks := rfl

@[simp] theorem complete_modify (t : Tree M O) (id : Nat) (g : Node M O → Node M O) :
    (t.modify id g).complete = t.complete := rfl

@[simp] theorem size_modify (t : Tree M O) (id : Nat) (g : Node M O → Node M O) :
    (t.modify id g).nodes.size = t.nodes.size := Array.size_modify

/-- What a change of the parts of a node does when it succeeds. -/
theorem editParts_eq_ok {t u : Tree M O} {id : Nat}
    {change : List (Part M O) → Except Error (List (Part M O))}
    (h : t.editParts id change = .ok u) :
    ∃ n parts, t.nodes[id]? = some n ∧ change n.parts = .ok parts ∧
      u = t.modify id fun n => { n with parts := parts } := by
  unfold editParts at h
  cases hn : t.node id with
  | error e => simp only [bind, Except.bind, hn, reduceCtorEq] at h
  | ok n =>
    cases hparts : change n.parts with
    | error e => simp only [bind, Except.bind, hn, hparts, reduceCtorEq] at h
    | ok parts =>
      simp only [bind, Except.bind, hn, hparts, pure, Except.pure, Except.ok.injEq] at h
      exact ⟨n, parts, node_eq_ok.1 hn, hparts, h.symm⟩

/-! ## Spans grown along a lineage -/

theorem getElem?_foldl_modify (ids : List Nat) (t : Tree M O) (x : Nat)
    {g : Node M O → Node M O} (hg : ∀ n, g (g n) = g n) :
    (ids.foldl (fun t a => t.modify a g) t).nodes[x]? =
      if x ∈ ids then (t.nodes[x]?).map g else t.nodes[x]? := by
  induction ids generalizing t with
  | nil => simp
  | cons a rest ih =>
    rw [List.foldl_cons, ih, getElem?_modify]
    by_cases hax : a = x
    · subst hax
      rw [if_pos rfl, if_pos List.mem_cons_self, Option.map_map]
      have hgg : g ∘ g = g := funext hg
      rw [hgg, ite_self]
    · rw [if_neg hax]
      have hmem : x ∈ a :: rest ↔ x ∈ rest := by
        rw [List.mem_cons]
        exact or_iff_right (Ne.symm hax)
      simp only [hmem]

/-- The nodes of a grown tree: those of the lineage cover the span. -/
theorem getElem?_grow (t : Tree M O) (id x : Nat) (span : Span) :
    (t.grow id span).nodes[x]? =
      if x ∈ t.lineage id then (t.nodes[x]?).map fun n => n.mapPlace fun p => p.grow span
      else t.nodes[x]? := by
  refine getElem?_foldl_modify _ t x fun n => ?_
  simp only [Node.mapPlace, Option.map_map]
  congr 2
  exact funext fun p => Place.grow_grow p span

/-- What the loop of `Tree.grow` leaves alone. -/
theorem foldl_modify_rest (ids : List Nat) (t : Tree M O) (g : Node M O → Node M O) :
    let t' := ids.foldl (fun t a => t.modify a g) t
    t'.source = t.source ∧ t'.settings = t.settings ∧ t'.language = t.language ∧
      t'.marks = t.marks ∧ t'.complete = t.complete ∧ t'.nodes.size = t.nodes.size := by
  induction ids generalizing t with
  | nil => simp
  | cons a rest ih => simpa using ih (t.modify a g)

@[simp] theorem source_grow (t : Tree M O) (id : Nat) (span : Span) :
    (t.grow id span).source = t.source := (foldl_modify_rest _ t _).1

@[simp] theorem settings_grow (t : Tree M O) (id : Nat) (span : Span) :
    (t.grow id span).settings = t.settings := (foldl_modify_rest _ t _).2.1

@[simp] theorem language_grow (t : Tree M O) (id : Nat) (span : Span) :
    (t.grow id span).language = t.language := (foldl_modify_rest _ t _).2.2.1

@[simp] theorem marks_grow (t : Tree M O) (id : Nat) (span : Span) :
    (t.grow id span).marks = t.marks := (foldl_modify_rest _ t _).2.2.2.1

@[simp] theorem complete_grow (t : Tree M O) (id : Nat) (span : Span) :
    (t.grow id span).complete = t.complete := (foldl_modify_rest _ t _).2.2.2.2.1

@[simp] theorem size_grow (t : Tree M O) (id : Nat) (span : Span) :
    (t.grow id span).nodes.size = t.nodes.size := (foldl_modify_rest _ t _).2.2.2.2.2

/-- A change that does nothing to a node. -/
theorem modify_eq_self {t : Tree M O} {id : Nat} {g : Node M O → Node M O}
    (h : ∀ n, t.nodes[id]? = some n → g n = n) : t.modify id g = t := by
  have hnodes : t.nodes.modify id g = t.nodes := by
    refine Array.ext_getElem? fun x => ?_
    rw [Array.getElem?_modify]
    split
    · next hid =>
      subst hid
      cases hn : t.nodes[id]? with
      | none => rfl
      | some n => rw [Option.map_some, h n hn]
    · rfl
  rw [modify, hnodes]

/-- Growing by a span that the whole lineage covers. -/
theorem grow_eq_self {t : Tree M O} {id : Nat} {span : Span}
    (h : ∀ x ∈ t.lineage id, ∀ n p, t.nodes[x]? = some n → n.place = some p →
      p.span.contains span = true) : t.grow id span = t := by
  unfold grow
  generalize t.lineage id = ids at h
  induction ids with
  | nil => rfl
  | cons x rest ih =>
    have hself : t.modify x (fun n => n.mapPlace fun p => p.grow span) = t := by
      refine modify_eq_self fun n hn => ?_
      obtain ⟨object, ancestors, children, place, parts⟩ := n
      cases place with
      | none => rfl
      | some p =>
        show (⟨object, ancestors, children, some (p.grow span), parts⟩ : Node M O) = _
        rw [Place.grow_eq_self (h x List.mem_cons_self _ p hn rfl)]
    rw [List.foldl_cons, hself]
    exact ih fun y hy => h y (List.mem_cons_of_mem _ hy)

/-! ## A node added -/

/-- The tree with a new last node that its parent lists, before any span
has grown. -/
def attach (t : Tree M O) (parent : Nat) (object : O) (place : Option Place)
    (parts : List (Part M O)) : Tree M O :=
  Tree.modify
    { t with nodes := t.nodes.push ⟨object, t.lineage parent, [], place, parts⟩ } parent
    fun n => { n with children := n.children ++ [t.nodes.size] }

theorem addNode_some (t : Tree M O) (parent : Nat) (object : O) (place : Option Place)
    (parts : List (Part M O)) :
    t.addNode (some parent) object place parts =
      match place with
      | some p => (t.attach parent object place parts).grow parent p.span
      | none => t.attach parent object place parts := by
  cases place <;> rfl

theorem addNode_none (t : Tree M O) (object : O) (place : Option Place)
    (parts : List (Part M O)) :
    t.addNode none object place parts =
      { t with nodes := t.nodes.push ⟨object, [], [], place, parts⟩ } := rfl

theorem size_attach (t : Tree M O) (parent : Nat) (object : O) (place : Option Place)
    (parts : List (Part M O)) :
    (t.attach parent object place parts).nodes.size = t.nodes.size + 1 := by
  simp [attach]

theorem getElem?_attach_of_lt {t : Tree M O} {parent x : Nat} {object : O}
    {place : Option Place} {parts : List (Part M O)} (hx : x < t.nodes.size) :
    (t.attach parent object place parts).nodes[x]? =
      if parent = x then
        (t.nodes[x]?).map fun n => { n with children := n.children ++ [t.nodes.size] }
      else t.nodes[x]? := by
  rw [attach, getElem?_modify]
  simp only [Array.getElem?_push_lt hx, Array.getElem?_eq_getElem hx]

theorem getElem?_attach_size {t : Tree M O} {parent : Nat} {object : O}
    {place : Option Place} {parts : List (Part M O)} (hp : parent < t.nodes.size) :
    (t.attach parent object place parts).nodes[t.nodes.size]? =
      some ⟨object, t.lineage parent, [], place, parts⟩ := by
  rw [attach, getElem?_modify, if_neg (by omega)]
  exact Array.getElem?_push_size

theorem lineage_attach {t : Tree M O} {parent x : Nat} {object : O}
    {place : Option Place} {parts : List (Part M O)} (hx : x < t.nodes.size) :
    (t.attach parent object place parts).lineage x = t.lineage x := by
  unfold lineage
  rw [getElem?_attach_of_lt hx]
  obtain ⟨n, hn⟩ := exists_node_of_lt hx
  rw [hn]
  by_cases hpx : parent = x
  · rw [if_pos hpx]
    rfl
  · rw [if_neg hpx]

/-- A new node below nodes that cover it makes nothing grow. -/
theorem addNode_of_covered {t : Tree M O} {parent : Nat} {object : O} {place : Place}
    {parts : List (Part M O)} (hp : parent < t.nodes.size)
    (h : ∀ x ∈ t.lineage parent, x < t.nodes.size ∧ ∀ n p, t.nodes[x]? = some n →
      n.place = some p → p.span.contains place.span = true) :
    t.addNode (some parent) object (some place) parts =
      t.attach parent object (some place) parts := by
  rw [addNode_some]
  refine grow_eq_self fun x hx n p hn hplace => ?_
  rw [lineage_attach hp] at hx
  obtain ⟨hlt, hcovers⟩ := h x hx
  rw [getElem?_attach_of_lt hlt] at hn
  split at hn
  · obtain ⟨k, hk, rfl⟩ := Option.map_eq_some_iff.1 hn
    exact hcovers k p hk hplace
  · exact hcovers n p hn hplace

@[simp] theorem source_addNode (t : Tree M O) (parent : Option Nat) (object : O)
    (place : Option Place) (parts : List (Part M O)) :
    (t.addNode parent object place parts).source = t.source := by
  cases parent <;> cases place <;> simp [addNode]

@[simp] theorem settings_addNode (t : Tree M O) (parent : Option Nat) (object : O)
    (place : Option Place) (parts : List (Part M O)) :
    (t.addNode parent object place parts).settings = t.settings := by
  cases parent <;> cases place <;> simp [addNode]

@[simp] theorem language_addNode (t : Tree M O) (parent : Option Nat) (object : O)
    (place : Option Place) (parts : List (Part M O)) :
    (t.addNode parent object place parts).language = t.language := by
  cases parent <;> cases place <;> simp [addNode]

@[simp] theorem marks_addNode (t : Tree M O) (parent : Option Nat) (object : O)
    (place : Option Place) (parts : List (Part M O)) :
    (t.addNode parent object place parts).marks = t.marks := by
  cases parent <;> cases place <;> simp [addNode]

@[simp] theorem complete_addNode (t : Tree M O) (parent : Option Nat) (object : O)
    (place : Option Place) (parts : List (Part M O)) :
    (t.addNode parent object place parts).complete = t.complete := by
  cases parent <;> cases place <;> simp [addNode]

@[simp] theorem size_addNode (t : Tree M O) (parent : Option Nat) (object : O)
    (place : Option Place) (parts : List (Part M O)) :
    (t.addNode parent object place parts).nodes.size = t.nodes.size + 1 := by
  cases parent <;> cases place <;> simp [addNode]

/-! ## Look-up -/

/-- What `Tree.newNode` does when it succeeds. -/
theorem newNode_eq_ok {m : M} {t t' : Tree M O} {parent : Option Nat} {object : O}
    (h : t.newNode m parent object = .ok t') :
    ∃ layout place, t.language.layout m object = some layout ∧
      placeOf t.source layout.origin = .ok place ∧
      t' = t.addNode parent object place layout.parts := by
  unfold newNode at h
  split at h
  · cases h
  · next layout hlayout =>
    cases hplace : placeOf t.source layout.origin with
    | error e =>
      rw [hplace] at h
      cases h
    | ok place =>
      rw [hplace] at h
      cases h
      exact ⟨layout, place, hlayout, hplace, rfl⟩

/-- An object with a layout gets a node. -/
theorem newNode_of_layout {m : M} {t : Tree M O} {parent : Option Nat} {object : O}
    {layout : Layout M O} {place : Option Place} (hlayout : t.language.layout m object = some layout)
    (hplace : placeOf t.source layout.origin = .ok place) :
    t.newNode m parent object = .ok (t.addNode parent object place layout.parts) := by
  unfold newNode
  simp only [hlayout, hplace]
  rfl

/-- A new tree has its root alone. -/
theorem node_of_ofRoot {language : Language M O} {m : M} {source : Text} {object : O} {t : Tree M O}
    (h : ofRoot language m source object = .ok t) :
    ∃ layout place, language.layout m object = some layout ∧
      placeOf (Source.ofText source) layout.origin = .ok place ∧
      t = addNode { language := language, source := Source.ofText source } none object place
        layout.parts ∧
      ∀ {id : Nat} {n : Node M O}, t.nodes[id]? = some n → n = ⟨object, [], [], place, layout.parts⟩ := by
  obtain ⟨layout, place, hlayout, hplace, rfl⟩ := newNode_eq_ok h
  refine ⟨layout, place, hlayout, hplace, rfl, fun {id n} hn => ?_⟩
  rw [addNode_none] at hn
  simp only [List.push_toArray, List.nil_append, List.getElem?_toArray] at hn
  rcases id with _ | id
  · simpa using hn.symm
  · simp at hn

variable [DecidableEq O]

/-- What `Tree.getNode` does when it succeeds: the node is there, or it is
added. -/
theorem getNode_cases {m : M} {t t' : Tree M O} {parent id : Nat} {object : O}
    (h : t.getNode m parent object = .ok (id, t')) :
    ∃ n, t.nodes[parent]? = some n ∧
      (t.below? n object = some id ∧ t' = t ∨
        t.below? n object = none ∧ id = t.nodes.size ∧
          ∃ layout place, t.language.layout m object = some layout ∧
            placeOf t.source layout.origin = .ok place ∧
            t' = t.addNode (some parent) object place layout.parts) := by
  unfold getNode at h
  cases hn : t.node parent with
  | error e =>
    rw [hn] at h
    cases h
  | ok n =>
    rw [hn] at h
    refine ⟨n, node_eq_ok.1 hn, ?_⟩
    simp only [bind, Except.bind] at h
    split at h
    · next child hbelow =>
      cases h
      exact Or.inl ⟨hbelow, rfl⟩
    · next hbelow =>
      cases hnew : t.newNode m (some parent) object with
      | error e =>
        rw [hnew] at h
        cases h
      | ok grown =>
        rw [hnew] at h
        cases h
        exact Or.inr ⟨hbelow, rfl, newNode_eq_ok hnew⟩

/-- A node that is there is found. -/
theorem getNode_of_below? {m : M} {t : Tree M O} {parent id : Nat} {object : O} {n : Node M O}
    (hn : t.nodes[parent]? = some n) (h : t.below? n object = some id) :
    t.getNode m parent object = .ok (id, t) := by
  unfold getNode
  rw [node_eq_ok.2 hn]
  simp only [bind, Except.bind, h]
  rfl

/-- A node that is not there yet is added. -/
theorem getNode_of_layout {m : M} {t : Tree M O} {parent : Nat} {object : O} {n : Node M O}
    {layout : Layout M O} {place : Option Place}
    (hn : t.nodes[parent]? = some n) (h : t.below? n object = none)
    (hlayout : t.language.layout m object = some layout)
    (hplace : placeOf t.source layout.origin = .ok place) :
    t.getNode m parent object =
      .ok (t.nodes.size, t.addNode (some parent) object place layout.parts) := by
  unfold getNode
  rw [node_eq_ok.2 hn]
  simp only [bind, Except.bind, h, newNode_of_layout hlayout hplace]
  rfl

/-- An object that is not there and has no layout is refused. -/
theorem getNode_of_no_layout {m : M} {t : Tree M O} {parent : Nat} {object : O} {n : Node M O}
    (hn : t.nodes[parent]? = some n) (h : t.below? n object = none)
    (hlayout : t.language.layout m object = none) :
    t.getNode m parent object = .error (.noLayout (t.language.describe m object)) := by
  unfold getNode newNode
  rw [node_eq_ok.2 hn]
  simp only [bind, Except.bind, h, hlayout]
  rfl

/-- A node below another is one of its children and ties the object. -/
theorem below?_eq_some {t : Tree M O} {n : Node M O} {object : O} {id : Nat}
    (h : t.below? n object = some id) :
    id ∈ n.children ∧ ∃ c, t.nodes[id]? = some c ∧ c.object = object := by
  unfold below? at h
  refine ⟨List.mem_of_find?_eq_some h, ?_⟩
  have hc := List.find?_some h
  cases hid : t.nodes[id]? with
  | none =>
    rw [hid] at hc
    cases hc
  | some c =>
    rw [hid] at hc
    exact ⟨c, rfl, by simpa using hc⟩

/-- A node below another stays the one for its object when more nodes come
behind it. -/
theorem below?_of_prefix {t u : Tree M O} {n n' : Node M O} {object : O} {id : Nat}
    (hchildren : n.children <+: n'.children)
    (hsame : ∀ x ∈ n.children, ∃ k k', t.nodes[x]? = some k ∧ u.nodes[x]? = some k' ∧
      k'.object = k.object)
    (h : t.below? n object = some id) : u.below? n' object = some id := by
  obtain ⟨more, hmore⟩ := hchildren
  have hany : ∀ x ∈ n.children, ((u.nodes[x]?).any fun k => k.object = object) =
      (t.nodes[x]?).any fun k => k.object = object := by
    intro x hx
    obtain ⟨k, k', hk, hk', hobject⟩ := hsame x hx
    rw [hk, hk', Option.any_some, Option.any_some, hobject]
  unfold below? at h ⊢
  rw [← hmore, List.find?_append, List.find?_congr hany, h]
  rfl

end Tree

end Reprint
