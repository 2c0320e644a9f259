import Reprint.Proofs.Tree.Searches
import Reprint.Proofs.WordList.Planted

/-!
# Searches in the tree of a document

`Seated` says that every entry of a document has its node, with its span.
A search on behalf of an entry is blocked by its items and by marks and by
nothing else (`Seated.free`, `Seated.blocked`).

* `Seated.findForward` finds a character that comes before all of those.
* `Seated.findBackward` looks for the separator in front of an item.  It
  finds the last one behind the item before (`Text.lastMatch`), and
  nothing if there is none.
* `Seated.mark` says that a mark within an entry makes nothing grow.
-/

namespace Reprint

namespace WordList

open Reprint.Tree

/-! ## Trees in which every entry has its node -/

/-- A node is the one of an entry, with its span. -/
structure Entry.Sits (text : Text) (e : Entry) (n : Node Model Nat) : Prop where
  object : n.object = e.address
  ancestors : n.ancestors = e.ancestors
  children : e.itemNodes <+: n.children
  span : n.span? = some (e.span text)

/-- Every entry below the root has its node, and there are no others. -/
structure Seated (text separator : Text) (r : Entry) (t : Tree Model Nat) : Prop where
  laid : r.IsLaid text
  language : t.language = WordList.language text separator
  source : t.source = .ofText text
  root : r.node = 0
  top : r.ancestors = []
  size : t.nodes.size = r.item.cells
  sits : ∀ {e : Entry}, r.Holds e → ∃ n, t.nodes[e.node]? = some n ∧ e.Sits text n

/-- No mark intersects the text between two offsets. -/
def Unmarked (text : Text) (t : Tree Model Nat) (a b : Nat) : Prop :=
  ∀ mark ∈ t.marks, ∃ c d, mark.span = window (.ofText text) c d ∧ c ≤ d ∧ d ≤ text.length ∧
    (d ≤ a ∨ b ≤ c)

theorem Unmarked.mono {text : Text} {t : Tree Model Nat} {a b c d : Nat} (h : Unmarked text t a b)
    (hac : a ≤ c) (hdb : d ≤ b) : Unmarked text t c d := by
  intro mark hmark
  obtain ⟨x, y, hspan, hxy, hy, hapart⟩ := h mark hmark
  exact ⟨x, y, hspan, hxy, hy, by omega⟩

namespace Seated

variable {text separator : Text} {r e c : Entry} {t : Tree Model Nat}

theorem charCount (h : Seated text separator r t) : t.source.charCount = text.length := by
  rw [h.source, Source.charCount_ofText]

theorem getNode {m : Model} (h : Seated text separator r t) (he : r.Holds e) (hc : c ∈ e.items) :
    t.getNode m e.node c.address = .ok (c.node, t) := by
  obtain ⟨n, hn, hsits⟩ := h.sits he
  refine getNode_item hn hsits.children (fun d hd => ?_) hc
  obtain ⟨k, hk, hsits'⟩ := h.sits (he.item hd)
  exact ⟨k, hk, hsits'.object⟩

theorem lineage (h : Seated text separator r t) (he : r.Holds e) : t.lineage e.node = e.lineage := by
  obtain ⟨n, hn, hsits⟩ := h.sits he
  rw [lineage_eq hn, hsits.ancestors]
  rfl

/-- Every node is the node of an entry. -/
theorem exists_entry (h : Seated text separator r t) {id : Nat} {n : Node Model Nat}
    (hn : t.nodes[id]? = some n) : ∃ d, r.Holds d ∧ d.node = id ∧ d.Sits text n := by
  have hlt := lt_size_of_node hn
  rw [h.size] at hlt
  obtain ⟨d, hd, hnode⟩ := r.exists_holds_node hlt
  rw [h.root, Nat.zero_add] at hnode
  obtain ⟨n', hn', hsits⟩ := h.sits hd
  rw [hnode, hn] at hn'
  cases hn'
  exact ⟨d, hd, hnode, hsits⟩

/-- A window within an entry, with none of its items in the way. -/
theorem free (h : Seated text separator r t) (he : r.Holds e) {a b : Nat} (hstart : e.start ≤ a)
    (hstop : b ≤ e.stop) (hmarks : Unmarked text t a b)
    (hitems : ∀ c ∈ e.items, c.stop ≤ a ∨ b ≤ c.start) {u v : Nat} (hu : a ≤ u) (huv : u ≤ v)
    (hv : v ≤ b) : t.blocks e.lineage (window t.source u v) = false := by
  have hbound := (h.laid.holds he).1.bounds
  have hcount := Source.charCount_ofText text
  rw [h.source]
  refine blocks_eq_false.2 ⟨fun id own hid hown => ?_, fun mark hmark => ?_⟩
  · obtain ⟨n, hn, hspan⟩ := spanOf_eq_some.1 hown
    obtain ⟨d, hd, rfl, hsits⟩ := h.exists_entry hn
    have hdbound := (h.laid.holds hd).1.bounds
    have hapart : d.stop ≤ a ∨ b ≤ d.start := by
      rcases Entry.apart h.laid he hd with hbelow | habove | hbefore | hbehind
      · cases hbelow with
        | refl => exact absurd List.mem_cons_self hid
        | @step _ c _ mem tail =>
          have hwithin := Entry.IsLaid.holds (Or.inl ((h.laid.holds he).1.item mem).1) tail
          have := hitems c mem
          omega
      · exact absurd (List.mem_cons_of_mem _ habove) hid
      · omega
      · omega
    rw [hsits.span, Option.some.injEq] at hspan
    rw [← hspan, Entry.span, ← Bool.not_eq_true, intersects_window hdbound.1 (by omega) huv (by omega)]
    omega
  · obtain ⟨c, d, hspan, hcd, hd, hapart⟩ := hmarks mark hmark
    rw [hspan, ← Bool.not_eq_true, intersects_window hcd (by omega) huv (by omega)]
    omega

/-- A window that reaches into an item. -/
theorem blocked (h : Seated text separator r t) (he : r.Holds e) (hc : c ∈ e.items) {u v : Nat}
    (hu : u < c.stop) (hv : c.start < v) (huv : u ≤ v) (hbound : v ≤ text.length) :
    t.blocks e.lineage (window t.source u v) = true := by
  obtain ⟨n, hn, hsits⟩ := h.sits (he.item hc)
  have hitem := (h.laid.holds he).1.item hc
  have hcbound := (h.laid.holds (he.item hc)).1.bounds
  have hcount := Source.charCount_ofText text
  have hmem := Entry.mem_items hc
  have hnot : c.node ∉ e.lineage := by
    intro hin
    rcases he.exists_of_mem_lineage hin with hin | ⟨a, ha, hae, hnode⟩
    · rw [h.top] at hin
      cases hin
    · have := hae.node_le
      omega
  refine blocks_of_node hn hnot hsits.span ?_
  rw [Entry.span, h.source, intersects_window hcbound.1 (by omega) huv (by omega)]
  omega

/-- A mark within an entry is made, and nothing grows. -/
theorem mark (h : Seated text separator r t) (he : r.Holds e) (role : Role) {a b : Nat}
    (hstart : e.start ≤ a) (hab : a ≤ b) (hstop : b ≤ e.stop) :
    t.mark e.node role (window (.ofText text) a b) =
      .ok { t with marks := t.marks ++ [⟨e.node, role, window (.ofText text) a b⟩] } := by
  have hbound := (h.laid.holds he).1.bounds
  have hcount := Source.charCount_ofText text
  rw [mark_of_valid (by rw [h.source]; exact validateBounds_window hab (by omega))]
  congr 1
  refine grow_eq_self fun x hx n p hn hp => ?_
  have hlineage : Tree.lineage { t with marks := t.marks ++ [⟨e.node, role, window (.ofText text) a b⟩] }
      e.node = t.lineage e.node := rfl
  rw [hlineage, h.lineage he] at hx
  rcases he.exists_of_mem_lineage hx with hx | ⟨d, hd, hde, rfl⟩
  · rw [h.top] at hx
    cases hx
  · obtain ⟨n', hn', hsits⟩ := h.sits hd
    have hn : t.nodes[d.node]? = some n := hn
    rw [hn] at hn'
    cases hn'
    have hspan := hsits.span
    have hdlaid := (h.laid.holds hd).1
    have hwithin := hdlaid.holds hde
    have hdbound := hdlaid.bounds
    rw [Node.span?, hp, Option.map_some, Option.some.injEq] at hspan
    rw [hspan, Entry.span, contains_window hdbound.1 (by omega) hab (by omega)]
    omega

/-! ## The two searches -/

/-- The first occurrence of a character that the text has behind an offset. -/
theorem findForward (h : Seated text separator r t) (he : r.Holds e) {a b : Nat} {ch : Char}
    (hstart : e.start ≤ a) (hab : a ≤ b) (hstop : b + 1 ≤ e.stop) (hmarks : Unmarked text t a (b + 1))
    (hitems : ∀ c ∈ e.items, c.stop ≤ a ∨ b + 1 ≤ c.start)
    (hother : ∀ j, a ≤ j → j < b → text.piece j (j + 1) ≠ [ch])
    (hmatch : text.piece b (b + 1) = [ch]) :
    t.findForward e.node (t.source.place a) [ch] = .ok (some (window (.ofText text) b (b + 1))) := by
  have hbound := (h.laid.holds he).1.bounds
  have hcount := h.charCount
  obtain ⟨n, hn, _⟩ := h.sits he
  have hslice : ∀ j, a ≤ j → j ≤ b →
      t.source.slice (window t.source j (j + 1)).toBounds = text.piece j (j + 1) := by
    intro j haj hjb
    rw [slice_window (by omega) (by omega), h.source, Source.text_ofText]
  have hwindow : t.firstWindow e.lineage [ch]
      (fun d => window t.source (a + d) (a + d + [ch].length))
      (t.source.charCount + 1 - (a + [ch].length)) 0 =
      some (window t.source (a + (0 + (b - a))) (a + (0 + (b - a)) + [ch].length)) := by
    refine firstWindow_of_match (by simp only [List.length_singleton]; omega) ?_ ?_ ?_
    · intro j hj
      exact h.free he hstart hstop hmarks hitems (by omega) (by omega)
        (by simp only [List.length_singleton]; omega)
    · intro j hj
      rw [List.length_singleton, hslice _ (by omega) (by omega)]
      exact hother _ (by omega) (by omega)
    · rw [List.length_singleton, hslice _ (by omega) (by omega)]
      have : a + (0 + (b - a)) = b := by omega
      rw [this]
      exact hmatch
  have hb : a + (0 + (b - a)) = b := by omega
  rw [hb, List.length_singleton, h.source] at hwindow
  unfold Tree.findForward Tree.search
  rw [Source.offset_place (by omega : a ≤ t.source.charCount)]
  simp only [Error.ofSource, bind, Except.bind]
  rw [if_neg (by simp only [List.length_singleton]; omega), node_eq_ok.2 hn, h.lineage he]
  simp only [List.length_singleton] at hwindow ⊢
  rw [h.source, hwindow]
  rfl

/-- The last separator between an item and the one before it. -/
theorem findBackward (h : Seated text separator r t) (he : r.Holds e) {before : Entry}
    (hbefore : before ∈ e.items) (hc : c ∈ e.items) (hle : before.stop ≤ c.start)
    (hitems : ∀ d ∈ e.items, d.stop ≤ before.stop ∨ c.start ≤ d.start)
    (hmarks : Unmarked text t before.stop c.start) {literal : Text} (hliteral : literal ≠ []) :
    t.findBackward e.node (t.source.place c.start) literal =
      .ok ((text.lastMatch literal before.stop c.start).map fun p =>
        window (.ofText text) p (p + literal.length)) := by
  have helaid := (h.laid.holds he).1
  have hbound := helaid.bounds
  have hitem := helaid.item hbefore
  have hitem' := helaid.item hc
  obtain ⟨n, hn, _⟩ := h.sits he
  refine findBackward_of_blocked hn h.source hle (by omega) hliteral (fun u v hu huv hv => ?_)
    fun u v hu hv huv hbound => ?_
  · rw [h.lineage he]
    exact h.free he (by omega) (by omega) hmarks hitems hu huv hv
  · rw [h.lineage he]
    exact h.blocked he hbefore hu (by omega) (by omega) (by omega)

end Seated

end WordList

end Reprint
