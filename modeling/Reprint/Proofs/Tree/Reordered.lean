import Reprint.Proofs.Margin
import Reprint.Proofs.Tree.Adopted
import Reprint.Proofs.Tree.Outward
import Reprint.Proofs.Tree.Revises
import Reprint.Proofs.Tree.Unedited

/-!
# Lists in a new order

A list whose items are in a new order is written anew: the piece of the source
that it covers is replaced by the texts of its items, each between the literals
that it needs at its new place (`Tree.respelled`).  An item that was not edited
goes in with its text from the source.

That text goes in like a new one, so its further lines are aligned with the line
that the owner of the list starts on (`revisePart_reordered`).  Nothing is
changed of it where there is nothing to align: `revisePart_respelled`.
`printSource_indentedPair` shows an item that is altered otherwise.
-/

namespace Reprint

variable {M O : Type}

/-! ## Text that alignment leaves as it is -/

namespace Text

/-- One line has nothing to hang. -/
theorem hang_of_not_mem (indentation : Text) {t : Text} (h : '\n' ∉ t) :
    hang indentation t = t := by
  rw [hang, lines_of_not_mem h]
  simp [unlines, List.intercalate]

theorem hang_of_nil (t : Text) : hang [] t = t := by
  have hrows : ∀ rows : List Text,
      (rows.map fun row => if isBlank row then row else [] ++ row) = rows := by
    intro rows
    conv_rhs => rw [← List.map_id rows]
    refine List.map_congr_left fun row _ => ?_
    split <;> rfl
  unfold hang
  cases hlines : lines t with
  | nil => rfl
  | cons first rest =>
    dsimp only
    rw [hrows, ← hlines, unlines_lines]

end Text

namespace Tree

/-- The indentation of the line that a node starts on. -/
def lineIndentation (t : Tree M O) (id : Nat) : Text :=
  match t.spanOf id with
  | some span => t.source.indentationOf span.start.line
  | none => []

theorem aligned_eq (t : Tree M O) (owner : Nat) (indent : Indent) (text : Text) :
    t.aligned owner indent text =
      if !t.settings.alignInsertions || indent = .reset then text
      else Text.hang (t.lineIndentation owner) text := by
  unfold aligned lineIndentation spanOf
  split
  · rfl
  · cases (t.nodes[owner]?).bind Node.span? with
    | some span => rfl
    | none => exact (Text.hang_of_nil text).symm

/-- There is nothing to align: inserted text is not aligned at all, or the line
that the owner starts on is not indented, or the text is one line. -/
theorem aligned_eq_self {t : Tree M O} {owner : Nat} {text : Text}
    (h : t.settings.alignInsertions = false ∨ t.lineIndentation owner = [] ∨ '\n' ∉ text)
    (indent : Indent) : t.aligned owner indent text = text := by
  rw [aligned_eq]
  rcases h with h | h | h
  · rw [if_pos (by simp [h])]
  · rw [h, Text.hang_of_nil, ite_self]
  · rw [Text.hang_of_not_mem _ h, ite_self]

namespace Alike

variable {t u : Tree M O}

theorem spanOf (h : Alike t u) (id : Nat) : u.spanOf id = t.spanOf id := by
  cases hn : t.nodes[id]? with
  | some n =>
    obtain ⟨p, hp⟩ := h.node hn
    rw [spanOf_eq hn, spanOf_eq hp]
    simp [Node.moved, Node.span?, Function.comp_def]
  | none =>
    have hnone : u.nodes[id]? = none := by
      rw [Array.getElem?_eq_none_iff] at hn ⊢
      rwa [h.size]
    rw [Tree.spanOf, Tree.spanOf, hn, hnone]

theorem aligned (h : Alike t u) (owner : Nat) (indent : Indent) (text : Text) :
    u.aligned owner indent text = t.aligned owner indent text := by
  rw [aligned_eq, aligned_eq, lineIndentation, lineIndentation, h.settings, h.source, h.spanOf]

/-- The node below another for an object is the same in an alike tree. -/
theorem below? [DecidableEq O] (h : Alike t u) (hsound : t.IsSound) {id c : Nat} {n n' : Node M O}
    {object : O} (hn : t.nodes[id]? = some n) (hn' : u.nodes[id]? = some n')
    (hc : t.below? n object = some c) : u.below? n' object = some c := by
  obtain ⟨p, hp⟩ := h.node hn
  rw [hn'] at hp
  cases hp
  refine below?_of_prefix (List.prefix_refl _) (fun x hx => ?_) hc
  obtain ⟨k, hk⟩ := exists_node_of_lt (hsound.child hn hx).2
  obtain ⟨q, hq⟩ := h.node hk
  exact ⟨k, k.moved q, hk, hq, rfl⟩

end Alike

/-! ## Items written anew -/

/-- The text of a node in the source. -/
def ownText (t : Tree M O) (id : Nat) : Text :=
  match t.spanOf id with
  | some span => t.source.slice span.toBounds
  | none => []

variable [DecidableEq O]

/-- The items of a list in the order of the model, the first of which has the
given index among `count`: each has its text from the source, between the
literals that it needs there. -/
def respelled (t : Tree M O) (frame : Frame) (list : ItemList M O) (count : Nat) :
    Nat → List O → List Text
  | _, [] => []
  | index, object :: rest =>
    let (lead, trail) := list.around frame index count
    (lead ++ ((list.item? object).map fun item => t.ownText item.node).getD [] ++ trail) ::
      respelled t frame list count (index + 1) rest

section Items

variable {t : Tree M O} {print : Nat → Margin → Job M O Text} {m : M} {owner : Nat}
  {unit : Margin} {n : Node M O}

/-- An object of which the node is there goes in with the text that the node
prints as. -/
theorem freshText_quiet (hsound : t.IsSound) (hn : t.nodes[owner]? = some n) {id : Nat} {object : O}
    {c : Node M O} (hbelow : t.below? n object = some id) (hc : t.nodes[id]? = some c)
    (hplace : c.place.isSome = true) (hprint : Faithful t print id) {indent : Indent}
    (hlevel : (unit.within indent).level = 0) (lead trail : Text) :
    Revision.Quiet t (freshText print m owner unit indent lead trail object)
      (· = t.aligned owner indent (lead ++ t.ownText id ++ trail)) := by
  obtain ⟨p, hp⟩ := Option.isSome_iff_exists.1 hplace
  have hown : t.ownText id = t.source.slice p.span.toBounds := by
    rw [ownText, spanOf_eq hc, Node.span?, hp, Option.map_some]
  unfold freshText
  refine .bind (P := fun text => text = some (t.ownText id)) (.onTree fun u hu => ?_)
    fun text htext => ?_
  · obtain ⟨q, hq⟩ := hu.node hn
    obtain ⟨v, hrun, hv⟩ := hprint c p hc hp unit u hu
    refine ⟨_, v, ?_, rfl, hv⟩
    have hget := getNode_of_below? (m := m) hq (hu.below? hsound hn hq hbelow)
    rw [hown]
    simp only [printBelow, bind, EStateM.bind, Job.get_eq, hget, Job.set_eq, hrun]
    rfl
  · rw [htext]
    refine .get_bind fun d hd => ?_
    rw [hd.aligned, Margin.apply, if_pos hlevel]
    exact .pure rfl

/-- The items of a list that is written anew. -/
theorem freshItems_quiet (hsound : t.IsSound) (hn : t.nodes[owner]? = some n) {frame : Frame}
    {list : ItemList M O} (count : Nat) (hlevel : (unit.within frame.indent).level = 0) :
    ∀ (objects : List O) (index : Nat),
      (∀ object ∈ objects, ∃ item c, list.item? object = some item ∧
        t.below? n object = some item.node ∧ t.nodes[item.node]? = some c ∧
        c.place.isSome = true ∧ Faithful t print item.node) →
      Revision.Quiet t (freshItems print m owner unit frame list count index objects)
        (· = ((t.respelled frame list count index objects).map
          (t.aligned owner frame.indent)).flatten)
  | [], _, _ => .pure rfl
  | object :: rest, index, h => by
    obtain ⟨item, c, hitem, hbelow, hc, hplace, hprint⟩ := h object List.mem_cons_self
    have hrest := freshItems_quiet hsound hn count hlevel rest (index + 1)
      fun o ho => h o (List.mem_cons_of_mem _ ho)
    rw [freshItems]
    refine .bind (freshText_quiet hsound hn hbelow hc hplace hprint hlevel _ _) fun text htext => ?_
    refine .bind hrest fun others hothers => .pure ?_
    rw [htext, hothers, respelled, hitem]
    rfl

end Items

omit [DecidableEq O] in
/-- Printing visits no other node from one that finds none. -/
theorem Reaches.eq_of_leaf {m : M} {t : Tree M O} {start id : Nat} (h : Reaches m t start id)
    (leaf : ∀ n, t.nodes[start]? = some n → ∀ c, ¬ Part.FindsAny m c n.parts) : id = start := by
  induction h with
  | refl => rfl
  | step _ node found ih =>
    subst ih
    exact absurd found (leaf _ node _)

end Tree

/-! ## The lists of a part -/

namespace Part

variable {m : M} {t : Tree M O} {owner : Nat} {frame : Frame} {list : ItemList M O}

mutual

theorem of_mem_lists : ∀ p : Part M O, (frame, list) ∈ p.lists m → p.Surveyed m t owner →
    (Part.items frame list).Surveyed m t owner ∧
      ∀ id, (Part.items frame list).Finds m id → p.Finds m id
  | .literal .., hmem, _ => by simp [lists] at hmem
  | .slot .., hmem, _ => by simp [lists] at hmem
  | .items .., hmem, h => by
    rw [lists, List.mem_singleton] at hmem
    cases hmem
    exact ⟨h, fun _ hid => hid⟩
  | .choice _ test yes none _, hmem, h => by
    rw [lists] at hmem
    simp only [Surveyed, Finds] at h ⊢
    split at hmem
    · next htest =>
      rw [if_pos htest] at h
      simp only [htest, if_true]
      simpa only [Surveyed, Finds] using of_mem_lists yes hmem h.2
    · cases hmem
  | .choice _ test yes (some other) _, hmem, h => by
    rw [lists] at hmem
    simp only [Surveyed, Finds] at h ⊢
    split at hmem
    · next htest =>
      rw [if_pos htest] at h
      simp only [htest, if_true]
      simpa only [Surveyed, Finds] using of_mem_lists yes hmem h.2
    · next htest =>
      rw [if_neg htest] at h
      simp only [htest, Bool.false_eq_true, if_false]
      simpa only [Surveyed, Finds] using of_mem_lists other hmem h.2
  | .group _ members _, hmem, h => by
    rw [lists] at hmem
    simp only [Surveyed] at h
    simpa only [Finds] using of_mem_listsOfAll members hmem h
termination_by structural p => p

/-- A list in surveyed parts is surveyed, and what it finds the parts find. -/
theorem of_mem_listsOfAll : ∀ parts : List (Part M O), (frame, list) ∈ listsOfAll m parts →
    SurveyedAll m t owner parts →
    (Part.items frame list).Surveyed m t owner ∧
      ∀ id, (Part.items frame list).Finds m id → FindsAny m id parts
  | [], hmem, _ => by simp [listsOfAll] at hmem
  | p :: rest, hmem, h => by
    simp only [SurveyedAll] at h
    rw [listsOfAll, List.mem_append] at hmem
    rcases hmem with hmem | hmem
    · obtain ⟨hsurveyed, hfinds⟩ := of_mem_lists p hmem h.1
      exact ⟨hsurveyed, fun id hid => Or.inl (hfinds id hid)⟩
    · obtain ⟨hsurveyed, hfinds⟩ := of_mem_listsOfAll rest hmem h.2
      exact ⟨hsurveyed, fun id hid => Or.inr (hfinds id hid)⟩
termination_by structural parts => parts

end

end Part

/-! ## The list as a whole -/

namespace Tree

variable [DecidableEq O]

omit [DecidableEq O] in
/-- The pieces of a list that is written anew change with nothing to align. -/
theorem map_aligned_eq_self {t : Tree M O} {owner : Nat} {pieces : List Text}
    (h : t.settings.alignInsertions = false ∨ t.lineIndentation owner = [] ∨
      ∀ piece ∈ pieces, '\n' ∉ piece) (indent : Indent) :
    pieces.map (t.aligned owner indent) = pieces := by
  conv_rhs => rw [← List.map_id pieces]
  refine List.map_congr_left fun piece hpiece => aligned_eq_self ?_ indent
  exact h.imp_right (Or.imp_right fun h => h piece hpiece)

/-- A list in a new order is replaced as a whole by the texts of its items. -/
theorem reviseItems_reordered {t : Tree M O} {print : Nat → Margin → Job M O Text} {m : M}
    {owner : Nat} {unit : Margin} {n : Node M O} (hsound : t.IsSound)
    (hn : t.nodes[owner]? = some n) {frame : Frame} {list : ItemList M O} {span : Span}
    (hcovered : frame.extent = some span) (hlevel : (unit.within frame.indent).level = 0)
    (hreordered : list.isReordered (list.supply m) = true)
    (hitems : ∀ object ∈ list.supply m, ∃ item c, list.item? object = some item ∧
      t.below? n object = some item.node ∧ t.nodes[item.node]? = some c ∧
      c.place.isSome = true ∧ Faithful t print item.node) {text : Text}
    (htext : text = ((t.respelled frame list (list.supply m).length 0 (list.supply m)).map
      (t.aligned owner frame.indent)).flatten) {d : Draft M O} (hd : Alike t d.tree)
    (hfits : d.patch.Compatible [⟨.replace, span, text⟩]) :
    ∃ u, reviseItems print m owner unit frame list d =
      .ok () ⟨u, d.patch.extend [⟨.replace, span, text⟩], span.stop⟩ ∧ Alike t u := by
  obtain ⟨found, d', hrun, hfound, hd', hpatch⟩ :=
    freshItems_quiet hsound hn (list.supply m).length hlevel (list.supply m) 0 hitems d hd
  rw [← htext] at hfound
  subst hfound
  rw [← hpatch] at hfits ⊢
  have hadd : d'.patch.replace span found = .ok (d'.patch.extend [⟨.replace, span, found⟩]) :=
    Patch.add_of_compatible hfits
  refine ⟨d'.tree, ?_, hd'⟩
  unfold reviseItems
  simp only [hreordered, hcovered, Option.isSome_some, Bool.and_self, if_true]
  show EStateM.bind (freshItems print m owner unit frame list _ 0 _) _ d = _
  unfold EStateM.bind
  rw [hrun]
  simp only [Revision.overwrite, bind, EStateM.bind, Revision.edit, hadd, Revision.moveTo]

section Located

variable {language : Language M O} {source : Text} {m m' : M} {t₀ t : Tree M O}
  {owner depth : Nat} {n : Node M O} {frame : Frame} {list : ItemList M O}

/-- Of a list that was located, an item that the model still lists can be
printed from the source, unless something was edited in it. -/
theorem exists_item_of_located
    (layouts : ∀ {m object layout}, language.layout m object = some layout →
      Part.AllNew layout.parts)
    (prepared : Prepared language source t₀) (located : locate m t₀ = .ok () t)
    (node : t.nodes[owner]? = some n) (visited : n.isLocated = true)
    (part : (frame, list) ∈ Part.listsOfAll m n.parts) (deep : t.nodes.size ≤ owner + 1 + depth)
    {object : O} (listed : ∃ item ∈ list.listed, item.object = object)
    (unedited : ∀ item ∈ list.listed, item.object = object → Unedited m m' t item.node)
    (settled : ∀ item ∈ list.listed, item.object = object → ∀ {id : Nat} {k : Node M O},
      Reaches m t item.node id → t.nodes[id]? = some k → Part.SettledAll m t k.parts) :
    ∃ item c, list.item? object = some item ∧ t.below? n object = some item.node ∧
      t.nodes[item.node]? = some c ∧ c.place.isSome = true ∧
      Faithful t (printWithin m' depth) item.node := by
  obtain ⟨ready, -⟩ := (prepared.unsearched layouts).locate located
  obtain ⟨wellFormed, adopted⟩ := locate_adopted layouts prepared located
  obtain ⟨surveyed, finds⟩ := Part.of_mem_listsOfAll _ part (ready.surveyed node visited)
  simp only [Part.Surveyed] at surveyed
  obtain ⟨item, hitem⟩ : ∃ item, list.item? object = some item := by
    obtain ⟨item, hmem, hobject⟩ := listed
    refine Option.isSome_iff_exists.1 ?_
    rw [ItemList.item?, List.find?_isSome]
    exact ⟨item, hmem, by simpa using hobject⟩
  have hmem : item ∈ list.listed := List.mem_of_find?_eq_some hitem
  obtain rfl : item.object = object := by simpa using List.find?_some hitem
  obtain ⟨hlt, c, hc, hobject, hlocated⟩ := surveyed.mem_later item hmem
  obtain ⟨p, hp, _⟩ := (c.isLocated_iff).1 hlocated
  have hfound : Part.FindsAny m item.node n.parts := finds _ (by
    rw [Part.Finds]
    exact ⟨item, hmem, rfl⟩)
  refine ⟨item, c, hitem, ?_, hc, by rw [hp]; rfl, ?_⟩
  · rw [← hobject]
    exact adopted.below?_eq wellFormed.toTied node hfound hc
  · exact Unedited.print_faithful (unedited item hmem rfl) ready (settled item hmem rfl)
      (by rw [isLocated_eq hc, hlocated]) (by omega)

/-- A list was located, and the model now lists items of it in another order,
some of them perhaps not at all.  If nothing was edited in the items that are
still listed, then the piece of the source that the list covers is replaced by
the texts that the items had there, in the new order, each between the literals
for its new place.  For this the further lines of that text must have nothing
to be aligned with. -/
theorem revisePart_respelled
    (layouts : ∀ {m object layout}, language.layout m object = some layout →
      Part.AllNew layout.parts)
    (prepared : Prepared language source t₀) (located : locate m t₀ = .ok () t)
    (node : t.nodes[owner]? = some n) (visited : n.isLocated = true)
    (part : (frame, list) ∈ Part.listsOfAll m n.parts) (deep : t.nodes.size ≤ owner + 1 + depth)
    {span : Span} (covered : frame.extent = some span) (keeps : frame.indent = .keep)
    (reordered : list.isReordered (list.supply m') = true)
    (listed : ∀ object ∈ list.supply m', ∃ item ∈ list.listed, item.object = object)
    (unedited : ∀ item ∈ list.listed, item.object ∈ list.supply m' → Unedited m m' t item.node)
    (settled : ∀ item ∈ list.listed, item.object ∈ list.supply m' →
      ∀ {id : Nat} {k : Node M O}, Reaches m t item.node id → t.nodes[id]? = some k →
        Part.SettledAll m t k.parts)
    {pieces : List Text}
    (pieces_eq : pieces = t.respelled frame list (list.supply m').length 0 (list.supply m'))
    (straight : t.settings.alignInsertions = false ∨ t.lineIndentation owner = [] ∨
      ∀ piece ∈ pieces, '\n' ∉ piece)
    {d : Draft M O} (alike : Alike t d.tree)
    (fits : d.patch.Compatible [⟨.replace, span, pieces.flatten⟩]) :
    ∃ u, revisePart (printWithin m' depth) m' owner t.settings.margin (.items frame list) d =
      .ok () ⟨u, d.patch.extend [⟨.replace, span, pieces.flatten⟩], span.stop⟩ ∧ Alike t u := by
  have ready := ((prepared.unsearched layouts).locate located).1
  have some_listed : list.listed.isEmpty = false := by
    rw [List.isEmpty_eq_false_iff]
    intro hnil
    simp [ItemList.isReordered, ItemList.inModelOrder, ItemList.inSourceOrder, ItemList.item?,
      hnil] at reordered
  rw [revisePart, some_listed, if_neg Bool.false_ne_true]
  refine reviseItems_reordered ready.sound node covered (by rw [keeps]; rfl) reordered
    (fun object hobject => ?_) ?_ alike fits
  · exact exists_item_of_located layouts prepared located node visited part deep
      (listed object hobject) (fun item hitem h => unedited item hitem (h ▸ hobject))
      fun item hitem h => settled item hitem (h ▸ hobject)
  · rw [← pieces_eq, map_aligned_eq_self straight]

end Located

/-- Two words with a comma between them, the second one on two lines.  The list
starts in the given column, and the model says whether the words are turned
around. -/
def turnedPair (column : Nat) : Language Bool Nat where
  layout _ object :=
    match object with
    | 0 => some
      { origin := some (.ok (.between ⟨1, column⟩ ⟨2, 1⟩))
        parts := [(Part.objects fun turned => if turned then [2, 1] else [1, 2]).joinedBy [',']] }
    | 1 => some
      { origin := some (.ok (.between ⟨1, column⟩ ⟨1, column + 1⟩)), parts := [.constant ['a']] }
    | 2 => some
      { origin := some (.ok (.between ⟨1, column + 2⟩ ⟨2, 1⟩))
        parts := [.constant ['b', '\n', 'c']] }
    | _ => none
  describe _ _ := ""
  size _ := 3

/-- A word that was found in the source. -/
def foundWord (text : Text) (span : Span) : Part Bool Nat :=
  .literal { extent := some span } (.constant text) { span? := some span }

theorem allNew_turnedPair {column : Nat} {m : Bool} {object : Nat} {layout : Layout Bool Nat}
    (h : (turnedPair column).layout m object = some layout) : Part.AllNew layout.parts := by
  match object with
  | 0 | 1 | 2 =>
    cases h
    simp [Part.AllNew, Part.IsNew, Part.joinedBy, Part.setLead, Part.setFirstLead, Part.mapFrame,
      Part.objects, Part.constant]
  | _ + 3 => cases h

/-- A word that was found has all that it needs, whatever the model, and printing
it visits no other node. -/
theorem spared_foundWord {t : Tree Bool Nat} {start : Nat} {k : Node Bool Nat} {text : Text}
    {span : Span} (hk : t.nodes[start]? = some k) (hparts : k.parts = [foundWord text span])
    (htext : t.source.extract span.toBounds = .ok text) :
    Unedited false true t start ∧ ∀ {id : Nat} {n : Node Bool Nat}, Reaches false t start id →
      t.nodes[id]? = some n → Part.SettledAll false t n.parts := by
  have hself : ∀ {id : Nat} {n : Node Bool Nat}, Reaches false t start id →
      t.nodes[id]? = some n → n.parts = [foundWord text span] := by
    intro id n hid hn
    obtain rfl : id = start := hid.eq_of_leaf fun j hj c hc => by
      rw [hk] at hj
      cases hj
      rw [hparts] at hc
      exact hc.elim not_false not_false
    rw [hk] at hn
    cases hn
    exact hparts
  refine ⟨fun hid hn => ?_, fun hid hn => ?_⟩
  · rw [hself hid hn]
    exact ⟨rfl, trivial⟩
  · rw [hself hid hn]
    exact ⟨⟨htext, trivial, trivial⟩, trivial⟩

/-- The words change places, and the one on two lines stays as it is because the
list starts a line that is not indented. -/
theorem revisePart_turnedPair :
    ∃ t₀ t n frame list u, Prepared (turnedPair 0) ['a', ',', 'b', '\n', 'c'] t₀ ∧
      locate false t₀ = .ok () t ∧ t.nodes[root]? = some n ∧ n.parts = [.items frame list] ∧
      revisePart (printWithin true 3) true root t.settings.margin (.items frame list)
        ⟨t, ⟨t.source, .between ⟨1, 0⟩ ⟨2, 1⟩, []⟩, ⟨1, 0⟩⟩ =
      .ok () ⟨u, ⟨t.source, .between ⟨1, 0⟩ ⟨2, 1⟩,
        [⟨.replace, .between ⟨1, 0⟩ ⟨2, 1⟩, ['b', '\n', 'c', ',', 'a']⟩]⟩, ⟨2, 1⟩⟩ := by
  have made : ∃ t₀, ofRoot (turnedPair 0) false ['a', ',', 'b', '\n', 'c'] 0 = .ok t₀ := ⟨_, rfl⟩
  obtain ⟨t₀, made⟩ := made
  obtain ⟨t, n, frame, list, first, second, located, node, parts, visited, size, covered, keeps,
      supply, reordered, items, ⟨node₁, parts₁⟩, ⟨node₂, parts₂⟩, pieces, indentation, source⟩ :
      ∃ t n frame list first second, locate false t₀ = .ok () t ∧ t.nodes[root]? = some n ∧
        n.parts = [Part.items frame list] ∧ n.isLocated = true ∧ t.nodes.size = 3 ∧
        frame.extent = some (.between ⟨1, 0⟩ ⟨2, 1⟩) ∧ frame.indent = .keep ∧
        list.supply true = [2, 1] ∧ list.isReordered [2, 1] = true ∧
        list.listed = [⟨1, 1, [], []⟩, ⟨2, 2, [','], []⟩] ∧
        (t.nodes[1]? = some first ∧ first.parts = [foundWord ['a'] (.between ⟨1, 0⟩ ⟨1, 1⟩)]) ∧
        (t.nodes[2]? = some second ∧
          second.parts = [foundWord ['b', '\n', 'c'] (.between ⟨1, 2⟩ ⟨2, 1⟩)]) ∧
        t.respelled frame list 2 0 [2, 1] = [['b', '\n', 'c'], [',', 'a']] ∧
        t.lineIndentation root = [] ∧ t.source = .ofText ['a', ',', 'b', '\n', 'c'] := by
    cases made
    exact ⟨_, _, _, _, _, _, rfl, rfl, rfl, rfl, rfl, rfl, rfl, rfl, rfl, rfl, ⟨rfl, rfl⟩,
      ⟨rfl, rfl⟩, rfl, rfl, rfl⟩
  have spared : ∀ item ∈ list.listed, Unedited false true t item.node ∧
      ∀ {id : Nat} {k : Node Bool Nat}, Reaches false t item.node id → t.nodes[id]? = some k →
        Part.SettledAll false t k.parts := by
    intro item hitem
    rw [items, List.mem_cons, List.mem_singleton] at hitem
    rcases hitem with rfl | rfl
    · exact spared_foundWord node₁ parts₁ (by rw [source]; rfl)
    · exact spared_foundWord node₂ parts₂ (by rw [source]; rfl)
  have listed : ∀ object ∈ list.supply true, ∃ item ∈ list.listed, item.object = object := by
    rw [supply, items]
    simp
  have fits : (⟨t.source, .between ⟨1, 0⟩ ⟨2, 1⟩, []⟩ : Patch).Compatible
      [⟨.replace, .between ⟨1, 0⟩ ⟨2, 1⟩, [['b', '\n', 'c'], [',', 'a']].flatten⟩] := by
    refine ⟨fun e he => ?_, List.pairwise_singleton _ _⟩
    rw [List.mem_singleton.1 he, source]
    exact ⟨rfl, rfl⟩
  obtain ⟨u, h, _⟩ := revisePart_respelled allNew_turnedPair (.root made) located node visited
    (by rw [parts]; exact List.mem_singleton.2 rfl)
    (show t.nodes.size ≤ root + 1 + 3 by rw [size]; decide) covered keeps
    (show list.isReordered (list.supply true) = true by rw [supply]; exact reordered) listed
    (fun item hitem _ => (spared item hitem).1) (fun item hitem _ => (spared item hitem).2)
    (show [['b', '\n', 'c'], [',', 'a']] = _ by rw [supply]; exact pieces.symm)
    (Or.inr (Or.inl indentation)) (d := ⟨t, ⟨t.source, .between ⟨1, 0⟩ ⟨2, 1⟩, []⟩, ⟨1, 0⟩⟩)
    (.refl t) fits
  exact ⟨t₀, t, n, frame, list, u, .root made, located, node, parts, h⟩

/-- On an indented line the word on two lines is altered: its second line, which
was not indented, now is. -/
theorem printSource_indentedPair :
    ∃ t₀ t n frame list v, Prepared (turnedPair 2) [' ', ' ', 'a', ',', 'b', '\n', 'c'] t₀ ∧
      locate false t₀ = .ok () t ∧ t.nodes[root]? = some n ∧ n.parts = [.items frame list] ∧
      frame.extent = some (.between ⟨1, 2⟩ ⟨2, 1⟩) ∧ frame.indent = .keep ∧
      t.respelled frame list 2 0 (list.supply true) = [['b', '\n', 'c'], [',', 'a']] ∧
      printSource false t = .ok [' ', ' ', 'a', ',', 'b', '\n', 'c'] v ∧
      ∃ w, printSource true t = .ok [' ', ' ', 'b', '\n', ' ', ' ', 'c', ',', 'a'] w := by
  have made : ∃ t₀, ofRoot (turnedPair 2) false [' ', ' ', 'a', ',', 'b', '\n', 'c'] 0 = .ok t₀ :=
    ⟨_, rfl⟩
  obtain ⟨t₀, made⟩ := made
  obtain ⟨t, n, frame, list, located, node, parts, covered, keeps, pieces, same, turned⟩ :
      ∃ t n frame list, locate false t₀ = .ok () t ∧ t.nodes[root]? = some n ∧
        n.parts = [Part.items frame list] ∧ frame.extent = some (.between ⟨1, 2⟩ ⟨2, 1⟩) ∧
        frame.indent = .keep ∧
        t.respelled frame list 2 0 (list.supply true) = [['b', '\n', 'c'], [',', 'a']] ∧
        (printSource false).result? t = some [' ', ' ', 'a', ',', 'b', '\n', 'c'] ∧
        (printSource true).result? t = some [' ', ' ', 'b', '\n', ' ', ' ', 'c', ',', 'a'] := by
    cases made
    exact ⟨_, _, _, _, rfl, rfl, rfl, rfl, rfl, rfl, by decide +kernel, by decide +kernel⟩
  obtain ⟨v, same⟩ := Job.result?_eq_some same
  obtain ⟨w, turned⟩ := Job.result?_eq_some turned
  exact ⟨t₀, t, n, frame, list, v, .root made, located, node, parts, covered, keeps, pieces, same, w,
    turned⟩

end Tree

end Reprint
