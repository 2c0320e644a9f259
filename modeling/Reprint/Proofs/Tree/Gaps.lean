import Reprint.Proofs.Tree.Apart
import Reprint.Proofs.Tree.Closest
import Reprint.Proofs.Tree.InPlace
import Reprint.Proofs.Tree.Traced

/-!
# The gaps that delimiters own

A delimiter owns its literal and the gap to what it delimits.  The search for it
passes over text that belongs to nobody, so there may be anything in the gap:
`printSource_comment` is a list that loses a comment with its last item.

* `Role.StandsNext` says that the literal stands next to the boundary, white space
  aside.  As the search finds the closest match, exactly then is the gap blank
  (`findOutward_gap`).
* `Tree.Claimed` is what belongs to others.  No delimiter owns any of it.
* `locate_gap` is the result for all delimiters of a tree that was located.
-/

namespace Reprint

namespace Text

/-- A text that another one begins with from an offset on. -/
theorem piece_of_prefix {t x : Text} {a : Nat} (h : x <+: t.drop a) :
    t.piece a (a + x.length) = x := by
  rw [piece, List.drop_take, Nat.add_sub_cancel_left]
  exact (List.prefix_iff_eq_take.1 h).symm

/-- A text that another one ends with up to an offset. -/
theorem piece_of_suffix {t x : Text} {b : Nat} (hb : b ≤ t.length) (h : x <:+ t.take b) :
    t.piece (b - x.length) b = x := by
  rw [List.suffix_iff_eq_drop, List.length_take, Nat.min_eq_left hb] at h
  exact h.symm

/-- A piece that is made of two texts. -/
theorem piece_eq_append {t x y : Text} {a c : Nat} (hac : a ≤ c) (hc : c ≤ t.length)
    (h : t.piece a c = x ++ y) :
    t.piece a (a + x.length) = x ∧ t.piece (a + x.length) c = y := by
  have hlength := congrArg List.length h
  rw [length_piece hc, List.length_append] at hlength
  rw [← piece_append (b := a + x.length) (by omega) (by omega)] at h
  exact List.append_inj h (by rw [length_piece (by omega)]; omega)

theorem isBlank_append (t u : Text) : isBlank (t ++ u) = (isBlank t && isBlank u) :=
  List.all_append

end Text

/-! ## One search -/

namespace Role

/-- A literal with the gap to what it delimits. -/
def join (role : Role) (literal gap : Text) : Text :=
  match role with
  | .lead => literal ++ gap
  | _ => gap ++ literal

/-- The end of a delimiter where that is which it delimits. -/
def boundary (role : Role) (span : Span) : Position :=
  match role with
  | .lead => span.stop
  | _ => span.start

/-- A literal stands outward from an offset of a text with only white space between
them. -/
def StandsNext (role : Role) (text literal : Text) (k : Nat) : Prop :=
  ∃ blank, Text.isBlank blank = true ∧
    match role with
    | .lead => role.join literal blank <:+ text.take k
    | _ => role.join literal blank <+: text.drop k

end Role

namespace Tree

variable {M O : Type}

/-- A piece of the source that belongs to somebody else than a searcher: it was
recorded, or it is the span of a node that does not enclose the search. -/
inductive Claimed (t : Tree M O) (enclosing : List Nat) : Span → Prop
  | mark {mark : Mark} : mark ∈ t.marks → Claimed t enclosing mark.span
  | span {id : Nat} {n : Node M O} {own : Span} : t.nodes[id]? = some n →
      id ∉ enclosing → n.span? = some own → Claimed t enclosing own

variable {t : Tree M O} {owner : Nat} {literal : Text}

theorem Claimed.apart {enclosing : List Nat} {own window : Span} (h : t.Claimed enclosing own)
    (hfree : t.blocks enclosing window = false) : own.intersects window = false := by
  rw [blocks_eq_false] at hfree
  cases h with
  | mark hmark => exact hfree.2 _ hmark
  | span hn hid hown => exact hfree.1 _ _ hid (spanOf_eq_some.2 ⟨_, hn, hown⟩)

/-- What was found behind a boundary. -/
theorem findForward_gap {boundary : Position} {window : Span} (hliteral : literal ≠ [])
    (hfind : t.findForward owner boundary literal = .ok (some window)) :
    ∃ k gap, t.source.offset boundary = .ok k ∧
      (Span.between boundary window.stop).start = boundary ∧
      t.source.extract (Span.between boundary window.stop).toBounds = .ok (gap ++ literal) ∧
      (Text.isBlank gap = true ↔
        ∃ blank, Text.isBlank blank = true ∧ blank ++ literal <+: t.source.text.drop k) ∧
      ∀ own, own.isEmpty = false → t.Claimed (t.lineage owner) own →
        own.intersects (Span.between boundary window.stop) = false := by
  obtain ⟨a, ha, rfl, hsearch⟩ := place_of_offset hfind
  obtain ⟨k, hk, rfl, hmatch, hcloser, hfree⟩ := search_cases hsearch
  have hlength : 0 < literal.length := List.length_pos_iff.2 hliteral
  have hbound : a + k + literal.length ≤ t.source.charCount := by omega
  have hspan : Span.between (t.source.place a)
      (window t.source (a + k) (a + k + literal.length)).stop =
        window t.source a (a + k + literal.length) := by
    rw [stop_window (by omega) hbound]
    rfl
  rw [slice_window (by omega) hbound] at hmatch
  rw [hspan]
  refine ⟨a, t.source.text.piece a (a + k), Source.offset_place ha, start_window (by omega) hbound,
    ?_, ⟨fun hgap => ⟨_, hgap, ?_⟩, ?_⟩, fun own hown hclaimed => ?_⟩
  · rw [extract_window (by omega) hbound, ← Text.piece_append (b := a + k) (by omega) (by omega),
      hmatch]
  · rw [← hmatch, Text.piece_append (by omega) (by omega), Text.piece, List.drop_take]
    exact List.take_prefix _ _
  · rintro ⟨blank, hblank, hprefix⟩
    have hcount : t.source.text.length = t.source.charCount := rfl
    have hends := hprefix.length_le
    rw [List.length_append, List.length_drop, hcount] at hends
    obtain ⟨hfirst, hsecond⟩ := Text.piece_eq_append (by omega)
      (by rw [List.length_append]; omega) (Text.piece_of_prefix hprefix)
    rw [List.length_append, ← Nat.add_assoc] at hsecond
    -- a literal that stood closer would have been found
    have hnot : ¬ blank.length < k := fun hlt => hcloser _ hlt (by
      rw [slice_window (by omega) (by omega), hsecond])
    rw [← hfirst, ← Text.piece_append (b := a + k) (by omega) (by omega), Text.isBlank_append,
      Bool.and_eq_true] at hblank
    exact hblank.1
  · exact apart_forward hown hlength k hbound fun j hj => hclaimed.apart (hfree j hj)

/-- What was found in front of a boundary. -/
theorem findBackward_gap {boundary : Position} {window : Span} (hliteral : literal ≠ [])
    (hfind : t.findBackward owner boundary literal = .ok (some window)) :
    ∃ k gap, t.source.offset boundary = .ok k ∧
      (Span.between window.start boundary).stop = boundary ∧
      t.source.extract (Span.between window.start boundary).toBounds = .ok (literal ++ gap) ∧
      (Text.isBlank gap = true ↔
        ∃ blank, Text.isBlank blank = true ∧ literal ++ blank <:+ t.source.text.take k) ∧
      ∀ own, own.isEmpty = false → t.Claimed (t.lineage owner) own →
        own.intersects (Span.between window.start boundary) = false := by
  obtain ⟨b, hb, rfl, hsearch⟩ := place_of_offset hfind
  obtain ⟨k, hk, rfl, hmatch, hcloser, hfree⟩ := search_cases hsearch
  have hlength : 0 < literal.length := List.length_pos_iff.2 hliteral
  have hbound : k + literal.length ≤ b := by omega
  have hspan : Span.between (window t.source (b - k - literal.length) (b - k)).start
      (t.source.place b) = window t.source (b - k - literal.length) b := by
    rw [start_window (by omega) (by omega)]
    rfl
  rw [slice_window (by omega) (by omega)] at hmatch
  rw [hspan]
  refine ⟨b, t.source.text.piece (b - k) b, Source.offset_place hb, stop_window (by omega) hb,
    ?_, ⟨fun hgap => ⟨_, hgap, ?_⟩, ?_⟩, fun own hown hclaimed => ?_⟩
  · rw [extract_window (by omega) hb, ← Text.piece_append (b := b - k) (by omega) (by omega),
      hmatch]
  · rw [← hmatch, Text.piece_append (by omega) (by omega), Text.piece]
    exact List.drop_suffix _ _
  · rintro ⟨blank, hblank, hsuffix⟩
    have hends := hsuffix.length_le
    have hcount : t.source.text.length = t.source.charCount := rfl
    rw [List.length_append, List.length_take, hcount, Nat.min_eq_left hb] at hends
    obtain ⟨hfirst, hsecond⟩ := Text.piece_eq_append (by omega) hb (Text.piece_of_suffix hb hsuffix)
    have hstart : b - (literal ++ blank).length + literal.length = b - blank.length := by
      rw [List.length_append]
      omega
    rw [hstart] at hfirst hsecond
    have hstart' : b - blank.length - literal.length = b - (literal ++ blank).length := by
      rw [List.length_append]
      omega
    have hnot : ¬ blank.length < k := fun hlt => hcloser _ hlt (by
      rw [slice_window (by omega) (by omega), hstart', hfirst])
    rw [← hsecond, ← Text.piece_append (b := b - k) (by omega) (by omega), Text.isBlank_append,
      Bool.and_eq_true] at hblank
    exact hblank.2
  · exact apart_backward hown hlength hb k hbound fun j hj => hclaimed.apart (hfree j hj)

/-- What was found on either side of a boundary. -/
theorem findOutward_gap {boundary : Position} {role : Role} {window : Span}
    (hliteral : literal ≠ [])
    (hfind : t.findOutward owner boundary literal role = .ok (some window)) :
    ∃ k gap, t.source.offset boundary = .ok k ∧
      role.boundary (outwardSpan boundary window role) = boundary ∧
      t.source.extract (outwardSpan boundary window role).toBounds =
        .ok (role.join literal gap) ∧
      (Text.isBlank gap = true ↔ role.StandsNext t.source.text literal k) ∧
      ∀ own, own.isEmpty = false → t.Claimed (t.lineage owner) own →
        own.intersects (outwardSpan boundary window role) = false := by
  cases role with
  | lead => exact findBackward_gap hliteral hfind
  | literal => exact findForward_gap hliteral hfind
  | trail => exact findForward_gap hliteral hfind

/-! ## All delimiters of a tree -/

/-- The delimiters of a tree: those around a node, found for its parent, and those
around a literal, found for the node that it is a part of.  The span is that of the
node or of the literal. -/
inductive Delimits (t : Tree M O) : Nat → Role → Option Span → Delimiter → Prop
  | before {id owner : Nat} {n : Node M O} : t.nodes[id]? = some n → n.parent = some owner →
      Delimits t owner .lead n.span? n.before
  | behind {id owner : Nat} {n : Node M O} : t.nodes[id]? = some n → n.parent = some owner →
      Delimits t owner .trail n.span? n.behind
  | lead {owner : Nat} {n : Node M O} {p : Part M O} {frame : Frame} {wording : Wording M}
      {place : LiteralPlace} : t.nodes[owner]? = some n → p ∈ n.parts →
      (Part.literal frame wording place).StandsIn p →
      Delimits t owner .lead place.span? place.before
  | trail {owner : Nat} {n : Node M O} {p : Part M O} {frame : Frame} {wording : Wording M}
      {place : LiteralPlace} : t.nodes[owner]? = some n → p ∈ n.parts →
      (Part.literal frame wording place).StandsIn p →
      Delimits t owner .trail place.span? place.behind

variable [DecidableEq O]

namespace Traced

variable {u : Tree M O}

/-- What is around a node was found from the ends of what it covered. -/
theorem flanked_node (h : Traced u t) {id : Nat} {n : Node M O} (hn : t.nodes[id]? = some n)
    (hparent : n.parent = some owner) :
    n.before = .empty ∧ n.behind = .empty ∨
      ∃ own core, n.span? = some own ∧ own.contains core = true ∧
        Flanked u t owner core n.before n.behind := by
  cases hown : n.span? with
  | none =>
    have hplace : n.place = none := Option.map_eq_none_iff.1 hown
    exact Or.inl ⟨by rw [Node.before, hplace]; rfl, by rw [Node.behind, hplace]; rfl⟩
  | some own =>
    obtain ⟨core, hcore, hflanked⟩ := h.around hn hparent hown
    exact Or.inr ⟨own, core, rfl, hcore, hflanked⟩

/-- A delimiter that is in the source was found from a position of what it
delimits. -/
theorem foundFrom (h : Traced u t) {role : Role} {core : Option Span} {span : Span}
    (hd : t.Delimits owner role core (.present literal span)) :
    ∃ own boundary, core = some own ∧ own.touches boundary = true ∧
      FoundFrom u t owner role boundary (.present literal span) := by
  have hstart : ∀ {own core : Span}, own.contains core = true → own.touches core.start = true :=
    fun hcore => Span.touches_of_contains hcore (Span.touches_start _)
  have hstop : ∀ {own core : Span}, own.contains core = true → own.touches core.stop = true :=
    fun hcore => Span.touches_of_contains hcore (Span.touches_stop _)
  generalize hdelimiter : Delimiter.present literal span = d at hd
  have hnot : d ≠ .empty := fun he => by rw [he] at hdelimiter; cases hdelimiter
  cases hd with
  | before hn hparent =>
    rcases h.flanked_node hn hparent with ⟨hnone, _⟩ | ⟨own, core, hown, hcore, hflanked⟩
    · exact absurd hnone hnot
    · exact ⟨own, core.start, hown, hstart hcore, hdelimiter ▸ hflanked.lead⟩
  | behind hn hparent =>
    rcases h.flanked_node hn hparent with ⟨_, hnone⟩ | ⟨own, core, hown, hcore, hflanked⟩
    · exact absurd hnone hnot
    · exact ⟨own, core.stop, hown, hstop hcore, hdelimiter ▸ hflanked.trail⟩
  | lead hn hp hin =>
    rcases h.parts hn _ hp _ hin with ⟨hnone, _⟩ | ⟨core, hcore, hflanked⟩
    · exact absurd hnone hnot
    · exact ⟨core, core.start, hcore, Span.touches_start core, hdelimiter ▸ hflanked.lead⟩
  | trail hn hp hin =>
    rcases h.parts hn _ hp _ hin with ⟨_, hnone⟩ | ⟨core, hcore, hflanked⟩
    · exact absurd hnone hnot
    · exact ⟨core, core.stop, hcore, Span.touches_stop core, hdelimiter ▸ hflanked.trail⟩

end Traced

omit [DecidableEq O] in
/-- What belonged to somebody before belongs to somebody later, possibly with more
around it. -/
theorem Claimed.extend {u s : Tree M O} (hextends : u.Extends s) {enclosing : List Nat}
    {own : Span} (h : Claimed { u with marks := s.marks } enclosing own) :
    ∃ own', own'.contains own = true ∧ s.Claimed enclosing own' := by
  cases h with
  | mark hmark => exact ⟨_, Span.contains_self _, .mark hmark⟩
  | span hn hid hown =>
    obtain ⟨n', hn', hkept⟩ := hextends.node hn
    obtain ⟨own', hown', hcontains⟩ := hkept.span hown
    exact ⟨own', hcontains, .span hn' hid hown'⟩

/-- After a tree was located for the first time, every delimiter that is in the
source borders on what it delimits.  It consists of its literal and a gap, which is
blank if and only if the literal stands next to the boundary, white space aside.  It
owns nothing that was recorded earlier or is the span of another node. -/
theorem locate_gap {language : Language M O} {source : Text} {m : M} {t : Tree M O}
    (layouts : ∀ {m object layout}, language.layout m object = some layout →
      Part.AllNew layout.parts) (prepared : Prepared language source t) {owner : Nat} {role : Role}
    {core : Option Span} {literal : Text} {span : Span}
    (h : ((locate m).after t).Delimits owner role core (.present literal span)) :
    (∃ own, core = some own ∧ own.touches (role.boundary span) = true) ∧
      (∃ k gap, (Source.ofText source).offset (role.boundary span) = .ok k ∧
        (Source.ofText source).extract span.toBounds = .ok (role.join literal gap) ∧
        (Text.isBlank gap = true ↔ role.StandsNext source literal k)) ∧
      ∃ earlier later, ((locate m).after t).marks = earlier ++ ⟨owner, role, span⟩ :: later ∧
        ∀ own, own.isEmpty = false →
          Claimed { (plant m root).after t with marks := earlier }
            (((locate m).after t).lineage owner) own → own.intersects span = false := by
  have htraced := locate_traced layouts prepared (m := m)
  have hsource := ((prepared.plant m root).unsearched layouts).source
  generalize (plant m root).after t = u at htraced hsource
  generalize (locate m).after t = v at htraced h
  obtain ⟨own, boundary, hcore, htouches, hfound⟩ := htraced.foundFrom h
  obtain ⟨s, s', window, hbefore, howner, hliteral, hfind, hspan, hmark, hafter⟩ :=
    hfound literal span rfl
  obtain ⟨k, gap, hoffset, hboundary, hextract, hgap, hfree⟩ := findOutward_gap hliteral hfind
  rw [← hspan] at hboundary hextract hfree
  rw [hbefore.source.trans hsource] at hoffset hextract hgap
  rw [Source.text_ofText] at hgap
  have hmarks : s'.marks = s.marks ++ [⟨owner, role, span⟩] := marks_mark hmark
  obtain ⟨later, hlater⟩ := hafter.marks
  rw [hmarks, List.append_assoc, List.singleton_append] at hlater
  refine ⟨⟨own, hcore, hboundary ▸ htouches⟩, ⟨k, gap, hboundary ▸ hoffset, hextract, hgap⟩,
    s.marks, later, hlater.symm, fun x hx hclaimed => ?_⟩
  obtain ⟨x', hcontains, hclaimed'⟩ := hclaimed.extend hbefore
  rw [((Extends.mark hmark).trans hafter).lineage howner] at hclaimed'
  have hapart := hfree x' (Span.isEmpty_of_contains hcontains hx) hclaimed'
  rw [Span.intersects_comm] at hapart ⊢
  exact Span.apart_of_contains hcontains hapart

/-- The comma in front of the second letter owns the blank behind it. -/
theorem locate_gap_spacedLetters :
    ∃ (t : Tree (List Nat) Nat), Prepared (letters 4 fun k => some (3 * (k - 1))) "a, b".toList t ∧
      ((locate [1, 2]).after t).Delimits 0 .lead (some (.between ⟨1, 3⟩ ⟨1, 4⟩))
        (.present [','] (.between ⟨1, 1⟩ ⟨1, 3⟩)) ∧
      ∃ gap, (Source.ofText "a, b".toList).extract ⟨⟨1, 1⟩, ⟨1, 3⟩⟩ = .ok (',' :: gap) ∧
        Text.isBlank gap = true := by
  have layouts : ∀ {m object layout},
      (letters 4 fun k => some (3 * (k - 1))).layout m object = some layout →
        Part.AllNew layout.parts := by
    intro m object layout h
    cases object <;> cases h <;> simp [Part.AllNew, Part.IsNew, Part.joinedBy, Part.objects,
      Part.setLead, Part.setFirstLead, Part.mapFrame, Part.constant]
  obtain ⟨t, made⟩ : ∃ t, ofRoot (letters 4 fun k => some (3 * (k - 1))) [1, 2] "a, b".toList 0 =
      .ok t := ⟨_, rfl⟩
  obtain ⟨n, hn, hparent, hspan, hbefore⟩ : ∃ n, ((locate [1, 2]).after t).nodes[2]? = some n ∧
      n.parent = some 0 ∧ n.span? = some (.between ⟨1, 3⟩ ⟨1, 4⟩) ∧
      n.before = .present [','] (.between ⟨1, 1⟩ ⟨1, 3⟩) := by
    cases made
    exact ⟨_, rfl, rfl, rfl, rfl⟩
  have delimits := Delimits.before hn hparent
  rw [hspan, hbefore] at delimits
  obtain ⟨_, ⟨k, gap, hoffset, hextract, hgap⟩, _⟩ := locate_gap layouts (.root made) delimits
  obtain rfl : 3 = k := Except.ok.inj hoffset
  exact ⟨t, .root made, delimits, gap, hextract, hgap.2 ⟨[' '], rfl, ⟨['a'], rfl⟩⟩⟩

/-- The second letter is taken out of the list.  The comma in front of it owns a
comment, and both go. -/
theorem printSource_comment :
    ∃ (t u : Tree (List Nat) Nat) (n : Node (List Nat) Nat),
      ofSource (letters 8 fun k => some (7 * (k - 1))) [1, 2] "a,/*x*/b".toList 0 = .ok t ∧
      t.nodes[2]? = some n ∧ n.before = .present [','] (.between ⟨1, 1⟩ ⟨1, 7⟩) ∧
      t.source.extract ⟨⟨1, 1⟩, ⟨1, 7⟩⟩ = .ok ",/*x*/".toList ∧
      Text.isBlank "/*x*/".toList = false ∧ printSource [1] t = .ok ['a'] u := by
  have checked : checkList (ofSource (letters 8 fun k => some (7 * (k - 1))) [1, 2]
      "a,/*x*/b".toList 0) (fun t _ _ =>
        decide ((t.nodes[2]?).map Node.before = some (.present [','] (.between ⟨1, 1⟩ ⟨1, 7⟩)) ∧
          t.source = .ofText "a,/*x*/b".toList ∧ (printSource [1]).result? t = some ['a'])) = true := by
    decide +kernel
  obtain ⟨t, _, _, _, made, _, _, checked⟩ := exists_of_checkList checked
  obtain ⟨before, source, printed⟩ := of_decide_eq_true checked
  obtain ⟨n, hn, hbefore⟩ := Option.map_eq_some_iff.1 before
  obtain ⟨u, printed⟩ := Job.result?_eq_some printed
  refine ⟨t, u, n, made, hn, hbefore, ?_, rfl, printed⟩
  rw [source]
  rfl

end Tree

end Reprint
