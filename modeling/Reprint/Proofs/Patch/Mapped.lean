import Reprint.Patch.Mapping
import Reprint.Proofs.Patch.Requests
import Reprint.Proofs.SourceMap.Decode
import Reprint.Proofs.SourceMap.Pins

/-!
# What the source map of a patch says

`Patch.Laid` follows the segments of a patch with the place reached so far, and
the map of the patch has the pins that are met (`Laid.foldlM_mapSegment`).
`Patch.KeptAt` is where a kept piece comes to stand in the text, and its pins
stand there too (`Laid.split`).

`Patch.Traces` is what the tokens of the map say: looking up a character of a
kept piece leads to the place where it comes from, and there is no token that
does not begin a kept piece or a line of one.  The tokens are read from the
written form of the map (`Laid.exists_tokens`).  Every sound patch has such a map
(`IsSound.maps`).
-/

namespace Reprint

theorem Text.unlines_cons (row : Text) (rest : List Text) :
    Text.unlines (row :: rest) = row ++ rest.flatMap ('\n' :: ·) := by
  induction rest generalizing row with
  | nil => simp [Text.unlines]
  | cons next rest ih =>
    rw [Text.unlines_cons_of_ne_nil (List.cons_ne_nil _ _), ih]
    rfl

/-- The first line of a text with the lines behind it. -/
theorem Text.exists_lines (t : Text) :
    ∃ row rest, t.lines = row :: rest ∧ t = row ++ rest.flatMap ('\n' :: ·) ∧
      ∀ r ∈ row :: rest, '\n' ∉ r := by
  obtain ⟨row, rest, hlines⟩ := List.exists_cons_of_ne_nil (Text.lines_ne_nil t)
  refine ⟨row, rest, hlines, ?_, fun r hr => ?_⟩
  · rw [← Text.unlines_cons, ← hlines, Text.unlines_lines]
  · rw [← hlines] at hr
    exact Text.not_mem_of_mem_lines hr

namespace Patch

open SourceMap Reprint.Tree

/-- Following the further lines of a copied text pins the start of each. -/
theorem mapRows_eq (m : SourceMap) (p : Position) {rows : List Text}
    (hrows : ∀ row ∈ rows, '\n' ∉ row) :
    mapRows m (p.line + 1) rows =
      m.follow (lineStarts m.here p (rows.flatMap ('\n' :: ·))) (rows.flatMap ('\n' :: ·)) := by
  induction rows generalizing m p with
  | nil => simp [mapRows, follow, lineStarts]
  | cons row rest ih =>
    have hrow : '\n' ∉ row := hrows row List.mem_cons_self
    have hline : (Position.mk (p.line + 1) row.length).line = p.line + 1 := rfl
    have hfeed : p.past '\n' = ⟨p.line + 1, 0⟩ := rfl
    have hsource : (p.past '\n').pastText row = ⟨p.line + 1, row.length⟩ := by
      rw [hfeed, Position.pastText_of_row hrow, Nat.zero_add]
    rw [mapRows, ← hline, ih _ _ fun r hr => hrows r (List.mem_cons_of_mem _ hr)]
    simp only [List.flatMap_cons, List.cons_append, lineStarts, if_true, lineStarts_append,
      lineStarts_of_row hrow, hsource]
    simp [follow, pin, write, Pin.token, hfeed]

/-- The pins of a segment that begins at a place. -/
def segmentPins (here : Position) (piece : Text) : Segment → List Pin
  | .kept bounds => copyPins here bounds.start piece
  | .fresh _ => []

/-- The map follows one segment. -/
theorem mapSegment_eq {s : Source} {segment : Segment} {piece : Text}
    (h : segmentText s segment = .ok piece) (m : SourceMap) :
    mapSegment s m segment = .ok (m.follow (segmentPins m.here piece segment) piece) := by
  cases segment with
  | fresh text =>
    cases h
    simp [mapSegment, segmentPins, follow, write]
  | kept bounds =>
    replace h : s.extract bounds = .ok piece := h
    obtain ⟨a, b, hab, hb, rfl, rfl⟩ := Source.exists_place_of_extract h
    by_cases heq : a = b
    · subst heq
      simp [mapSegment, Bounds.isEmpty, segmentPins, copyPins, follow]
    · have hne : s.place a ≠ s.place b := fun hplace =>
        heq ((Source.place_inj (by omega) hb).1 hplace)
      have hpiece : s.text.piece a b ≠ [] := by
        have hlength : (s.text.piece a b).length = b - a := Text.length_piece hb
        rw [← List.length_pos_iff]
        omega
      obtain ⟨row, rest, hlines, htext, hfeed⟩ := (s.text.piece a b).exists_lines
      have hrow : '\n' ∉ row := hfeed row List.mem_cons_self
      have hline : (s.place a).line = ((s.place a).pastText row).line := by
        rw [Position.pastText_of_row hrow]
      have hrows : mapSegment s m (.kept ⟨s.place a, s.place b⟩) =
          .ok (mapRows ((m.pin (s.place a)).write row) ((s.place a).line + 1) rest) := by
        rw [mapSegment, if_neg (by simpa [Bounds.isEmpty] using hne), h]
        simp only [bind, Except.bind, hlines]
        rfl
      rw [hrows, hline, mapRows_eq _ _ fun r hr => hfeed r (List.mem_cons_of_mem _ hr), segmentPins,
        copyPins, if_neg hpiece, htext, lineStarts_append, lineStarts_of_row hrow]
      simp [follow, pin, write, Pin.token]

/-! ## All segments -/

/-- The segments make a text, one after the other from a place on, with pins in
it. -/
inductive Laid (s : Source) : Position → List Segment → Text → List Pin → Prop
  | nil (here : Position) : Laid s here [] [] []
  | cons {here : Position} {segment : Segment} {piece text : Text} {rest : List Segment}
      {pins : List Pin} (head : segmentText s segment = .ok piece)
      (tail : Laid s (here.pastText piece) rest text pins) :
      Laid s here (segment :: rest) (piece ++ text) (segmentPins here piece segment ++ pins)

/-- The segments put the characters of the source from `a` to `b` at the offset
`g`. -/
inductive KeptAt (s : Source) : List Segment → Nat → Nat → Nat → Prop
  | head {a b : Nat} {rest : List Segment} (order : a ≤ b) (bound : b ≤ s.charCount) :
      KeptAt s (.kept ⟨s.place a, s.place b⟩ :: rest) 0 a b
  | tail {segment : Segment} {piece : Text} {rest : List Segment} {g a b : Nat}
      (text : segmentText s segment = .ok piece) (later : KeptAt s rest g a b) :
      KeptAt s (segment :: rest) (piece.length + g) a b

/-- The text of the patch has the characters of the source from `a` to `b` at
the offset `g`, kept as they are. -/
def Keeps (p : Patch) (g a b : Nat) : Prop := KeptAt p.source p.segments g a b

theorem KeptAt.le {s : Source} {segments : List Segment} {g a b : Nat} (h : KeptAt s segments g a b) :
    a ≤ b ∧ b ≤ s.charCount := by
  induction h with
  | head order bound => exact ⟨order, bound⟩
  | tail _ _ ih => exact ih

theorem exists_laid {s : Source} (here : Position) {segments : List Segment} {pieces : List Text}
    (h : segments.mapM (segmentText s) = .ok pieces) :
    ∃ pins, Laid s here segments pieces.flatten pins := by
  induction segments generalizing here pieces with
  | nil =>
    cases h
    exact ⟨[], .nil here⟩
  | cons segment rest ih =>
    rw [List.mapM_cons] at h
    cases hsegment : segmentText s segment with
    | error e =>
      rw [hsegment] at h
      cases h
    | ok piece =>
      cases hrest : rest.mapM (segmentText s) with
      | error e =>
        simp only [hsegment, hrest, bind, Except.bind, reduceCtorEq] at h
      | ok pieces' =>
        simp only [hsegment, hrest, bind, Except.bind, pure, Except.pure] at h
        cases h
        obtain ⟨pins, hpins⟩ := ih (here.pastText piece) hrest
        exact ⟨_, .cons hsegment hpins⟩

namespace Laid

variable {s : Source} {here : Position} {segments : List Segment} {text : Text} {pins : List Pin}

/-- The map follows all segments. -/
theorem foldlM_mapSegment (h : Laid s here segments text pins) {m : SourceMap}
    (hhere : m.here = here) : segments.foldlM (mapSegment s) m = .ok (m.follow pins text) := by
  induction h generalizing m with
  | nil here => simp [follow]; rfl
  | @cons here segment piece text rest pins head tail ih =>
    rw [List.foldlM_cons, mapSegment_eq head m, hhere]
    show rest.foldlM (mapSegment s) _ = _
    rw [ih (congrArg (Position.pastText · piece) hhere), follow_follow]

theorem segmentPins_bounds {segment : Segment} {piece : Text} {pin : Pin}
    (h : pin ∈ segmentPins here piece segment) :
    here ≤ pin.generated ∧ pin.generated ≤ here.pastText piece := by
  cases segment with
  | fresh text => cases h
  | kept bounds => exact copyPins_bounds h

/-- All pins lie within the text. -/
theorem bounds (h : Laid s here segments text pins) :
    ∀ pin ∈ pins, here ≤ pin.generated ∧ pin.generated ≤ here.pastText text := by
  induction h with
  | nil here => simp
  | @cons here segment piece text rest pins head tail ih =>
    intro pin hpin
    rw [Position.pastText_append]
    rcases List.mem_append.1 hpin with hin | hin
    · obtain ⟨hstart, hstop⟩ := segmentPins_bounds hin
      exact ⟨hstart, Position.le_trans hstop (Position.le_pastText _ _)⟩
    · obtain ⟨hstart, hstop⟩ := ih pin hin
      exact ⟨Position.le_trans (Position.le_pastText _ _) hstart, hstop⟩

/-- No pin lies before the one in front of it. -/
theorem pairwise (h : Laid s here segments text pins) :
    pins.Pairwise fun x y => x.generated ≤ y.generated := by
  induction h with
  | nil here => exact List.Pairwise.nil
  | @cons here segment piece text rest pins head tail ih =>
    refine List.pairwise_append.2 ⟨?_, ih, fun x hx y hy => ?_⟩
    · cases segment with
      | fresh text => exact List.Pairwise.nil
      | kept bounds => exact pairwise_copyPins _ _ _
    · exact Position.le_trans (segmentPins_bounds hx).2 (tail.bounds y hy).1

/-- What is kept stands at its offset, and so do its pins. -/
theorem split (h : Laid s here segments text pins) {g a b : Nat} (hkept : KeptAt s segments g a b) :
    ∃ before behind first last, text = before ++ s.text.piece a b ++ behind ∧ before.length = g ∧
      pins = first ++ copyPins (here.pastText before) (s.place a) (s.text.piece a b) ++ last ∧
      ∀ x ∈ last, here.pastText (before ++ s.text.piece a b) ≤ x.generated := by
  induction hkept generalizing here text pins with
  | @head a b rest order bound =>
    cases h with
    | @cons _ _ piece text _ pins head tail =>
      replace head : s.extract ⟨s.place a, s.place b⟩ = .ok piece := head
      rw [Source.extract_place order bound] at head
      cases head
      exact ⟨[], text, [], pins, rfl, rfl, rfl, fun x hx => (tail.bounds x hx).1⟩
  | @tail segment piece rest g a b htext later ih =>
    cases h with
    | @cons _ _ piece' text _ pins head tail =>
      cases htext.symm.trans head
      obtain ⟨before, behind, first, last, rfl, rfl, rfl, hlast⟩ := ih tail
      refine ⟨piece ++ before, behind, segmentPins here piece segment ++ first, last, ?_, ?_, ?_, ?_⟩
      · simp only [List.append_assoc]
      · rw [List.length_append]
      · rw [Position.pastText_append]
        simp only [List.append_assoc]
      · intro x hx
        have hle := hlast x hx
        rwa [← Position.pastText_append, ← List.append_assoc] at hle

/-- A character that is kept stands at its offset, and both of its places are
equally far behind the last pin before it. -/
theorem split_within (h : Laid s here segments text pins) {g a b k : Nat}
    (hkept : KeptAt s segments g a b) (hak : a ≤ k) (hkb : k < b) :
    ∃ before c behind first pin last n, text = before ++ c :: behind ∧
      before.length = g + (k - a) ∧ s.text[k]? = some c ∧ pins = first ++ pin :: last ∧
      here.pastText before = pin.generated.along n ∧ s.place k = pin.source.along n ∧
      ∀ x ∈ last, here.pastText before < x.generated := by
  obtain ⟨before, behind, first, last, rfl, rfl, rfl, hlast⟩ := h.split hkept
  have hb : b ≤ s.charCount := hkept.le.2
  obtain ⟨c, hc⟩ : ∃ c, s.text[k]? = some c :=
    ⟨_, List.getElem?_eq_getElem (Nat.lt_of_lt_of_le hkb hb)⟩
  have hpiece : s.text.piece a b = s.text.piece a k ++ c :: s.text.piece (k + 1) b := by
    rw [← Text.piece_append hak (Nat.le_of_lt hkb), ← Text.piece_append (Nat.le_succ k) hkb,
      Text.piece_succ hc]
    rfl
  have hlength : (s.text.piece a k).length = k - a :=
    Text.length_piece (by unfold Source.charCount at hb; omega)
  obtain ⟨earlier, pin, later, n, hpins, hgenerated, hsource, hlater⟩ :=
    exists_last_copyPins (here.pastText before) (s.place a) (s.text.piece a k)
      (List.cons_ne_nil c (s.text.piece (k + 1) b))
  rw [← Position.pastText_append] at hgenerated hlater
  rw [← Source.place_pastText hak (by omega)] at hsource
  refine ⟨before ++ s.text.piece a k, c, s.text.piece (k + 1) b ++ behind, first ++ earlier, pin,
    later ++ last, n, ?_, ?_, hc, ?_, hgenerated, hsource, fun x hx => ?_⟩
  · rw [hpiece]
    simp
  · rw [List.length_append, hlength]
  · rw [hpiece, hpins]
    simp
  · rcases List.mem_append.1 hx with hin | hin
    · exact hlater x hin
    · have hlt : here.pastText (before ++ s.text.piece a k) <
          here.pastText (before ++ s.text.piece a b) := by
        rw [hpiece, ← List.append_assoc, Position.pastText_append _ (before ++ s.text.piece a k)]
        exact Position.lt_pastText _ (List.cons_ne_nil _ _)
      exact Position.lt_of_lt_of_le hlt (hlast x hin)

/-- Where a kept piece and the lines of one begin there is a pin, and nowhere
else. -/
theorem exists_of_mem (h : Laid s here segments text pins) {pin : Pin} (hpin : pin ∈ pins) :
    ∃ g a b k, KeptAt s segments g a b ∧ a < b ∧
      (k = a ∨ a < k ∧ k ≤ b ∧ (s.place k).column = 0) ∧ g + (k - a) ≤ text.length ∧
      pin = ⟨here.pastText (text.take (g + (k - a))), s.place k⟩ := by
  induction h with
  | nil here => cases hpin
  | @cons here segment piece text rest pins head tail ih =>
    rcases List.mem_append.1 hpin with hin | hin
    · cases segment with
      | fresh text => cases hin
      | kept bounds =>
        obtain ⟨a, b, hab, hb, rfl, rfl⟩ := Source.exists_place_of_extract head
        obtain ⟨hne, y, z, hpiece, hy, rfl⟩ := exists_of_mem_copyPins hin
        obtain ⟨hyb, hrow⟩ := Text.piece_of_append hab hb hpiece
        have hpos := List.length_pos_iff.2 hne
        have hlength : (s.text.piece a b).length = b - a := Text.length_piece hb
        have hsource : s.place (a + y.length) = (s.place a).pastText y := by
          rw [Source.place_pastText (Nat.le_add_right a y.length) (by omega), hrow]
        have htake : (s.text.piece a b ++ text).take (0 + (a + y.length - a)) = y := by
          rw [hpiece, Nat.zero_add, Nat.add_sub_cancel_left, List.append_assoc, List.take_left]
        refine ⟨0, a, b, a + y.length, .head hab hb, by omega, ?_, ?_, ?_⟩
        · rcases hy with rfl | ⟨hsome, hcolumn⟩
          · exact Or.inl rfl
          · rw [← hsource] at hcolumn
            have hlong := List.length_pos_iff.2 hsome
            exact Or.inr ⟨by omega, hyb, hcolumn⟩
        · rw [List.length_append, hlength]
          omega
        · rw [htake, hsource]
    · obtain ⟨g, a, b, k, hkept, hab, hk, hlength, rfl⟩ := ih hin
      refine ⟨piece.length + g, a, b, k, .tail head hkept, hab, hk, ?_, ?_⟩
      · rw [List.length_append]
        omega
      · rw [Nat.add_assoc, List.take_length_add_append, Position.pastText_append]

end Laid

/-! ## Reading the map -/

/-- What the tokens of a map say about the text of a patch. -/
structure Traces (p : Patch) (text : Text) (tokens : List Token) : Prop where
  /-- A character that is kept leads to where it comes from. -/
  kept : ∀ {g a b k : Nat}, p.Keeps g a b → a ≤ k → k < b →
    text[g + (k - a)]? = p.source.text[k]? ∧
      LeadsTo tokens ((Source.ofText text).place (g + (k - a))) (p.source.place k)
  /-- A token stands where a kept piece begins or a line of one. -/
  starts : ∀ t ∈ tokens, ∃ g a b k, p.Keeps g a b ∧ a < b ∧
    (k = a ∨ a < k ∧ k ≤ b ∧ (p.source.place k).column = 0) ∧
    t = .exact ((Source.ofText text).place (g + (k - a))) (p.source.place k)

/-- A source map says where the text of a patch comes from, unless a text is too
long for numbers of 32 bits. -/
structure Maps (p : Patch) (text : Text) (m : SourceMap) : Prop where
  here : m.here = (Source.ofText text).stop
  /-- The characters that no edit covers are kept. -/
  keeps : ∀ k, p.source.index p.base.start ≤ k → k < p.source.index p.base.stop →
    covers p.source p.edits k = false → ∃ g a b, p.Keeps g a b ∧ a ≤ k ∧ k < b
  exists_tokens : p.source.charCount < UInt32.size → text.length < UInt32.size →
    ∃ tokens, decode m.mappings = some tokens ∧ p.Traces text tokens

/-- The pins say where the text comes from. -/
theorem Laid.traces {p : Patch} {text : Text} {pins : List Pin}
    (h : Laid p.source .origin p.segments text pins) :
    p.Traces text (pins.map fun pin => .exact pin.generated pin.source) where
  kept {g a b k} hkept hak hkb := by
    obtain ⟨before, c, behind, first, pin, last, n, rfl, hlength, hc, rfl, hgenerated, hsource,
      hlast⟩ := h.split_within hkept hak hkb
    have hplace : (Source.ofText (before ++ c :: behind)).place (g + (k - a)) =
        Position.origin.pastText before := by
      rw [← hlength, Source.place_ofText (by simp), List.take_left]
    constructor
    · rw [← hlength, hc, List.getElem?_append_right (Nat.le_refl _), Nat.sub_self]
      rfl
    · rw [hplace]
      refine leadsTo_of_last (fun x hx => ?_) hgenerated hsource hlast
      have hle := (h.bounds x hx).1
      rw [Position.le_def, Position.origin] at hle
      dsimp only at hle
      omega
  starts t ht := by
    obtain ⟨pin, hpin, rfl⟩ := List.mem_map.1 ht
    obtain ⟨g, a, b, k, hkept, hab, hk, hlength, rfl⟩ := h.exists_of_mem hpin
    refine ⟨g, a, b, k, hkept, hab, hk, ?_⟩
    rw [Source.place_ofText hlength]

/-- The map that has the pins. -/
theorem Laid.exists_tokens {p : Patch} {text : Text} {pins : List Pin}
    (h : Laid p.source .origin p.segments text pins) (hsource : p.source.charCount < UInt32.size)
    (htext : text.length < UInt32.size) (file : Text) :
    ∃ tokens, decode ((SourceMap.new file p.source.text).follow pins text).mappings = some tokens ∧
      p.Traces text tokens := by
  have hmap : ((SourceMap.new file p.source.text).follow pins text).tokens =
      pins.map fun pin => .exact pin.generated pin.source := by
    refine List.map_congr_left fun pin hpin => ?_
    obtain ⟨g, a, b, k, hkept, hab, hk, hlength, hpin⟩ := h.exists_of_mem hpin
    have hb := hkept.le
    rw [← Source.place_ofText hlength] at hpin
    rw [← Source.charCount_ofText] at htext hlength
    exact Pin.token_eq_exact htext hsource hlength (by omega) hpin
  have hlines : (pins.map fun pin => Token.exact pin.generated pin.source).Pairwise
      fun t u => t.line ≤ u.line := by
    refine List.Pairwise.map _ (fun x y hle => ?_) h.pairwise
    rw [Position.le_def] at hle
    show x.generated.line - 1 ≤ y.generated.line - 1
    omega
  have htraces := h.traces
  refine ⟨_, decode_mappings _ (by rw [hmap]; exact hlines), fun hkept hak hkb => ?_, fun t ht => ?_⟩
  · unfold LeadsTo
    rw [lookup_destutter, hmap]
    exact htraces.kept hkept hak hkb
  · refine htraces.starts t ?_
    rw [← hmap]
    exact (List.destutter_sublist _ _).mem ht

/-- A patch that has a text has a source map. -/
theorem exists_toSourceMap {p : Patch} {text : Text} (h : p.text = .ok text) (file : Text) :
    ∃ m, p.toSourceMap file = .ok m := by
  unfold Patch.text at h
  cases hpieces : p.segments.mapM (segmentText p.source) with
  | error e => simp only [hpieces, bind, Except.bind, reduceCtorEq] at h
  | ok pieces =>
    obtain ⟨pins, hlaid⟩ := exists_laid .origin hpieces
    exact ⟨_, hlaid.foldlM_mapSegment rfl⟩

/-- The characters that sorted edits do not cover are kept. -/
theorem Run.keptAt {s : Source} {a b : Nat} {edits : List Edit} {text : Text}
    (h : Run s a b edits text) {k : Nat} (hak : a ≤ k) (hkb : k < b)
    (hcovers : covers s edits k = false) :
    ∃ g c d, KeptAt s (segmentsFrom (s.place b) (s.place a) edits) g c d ∧ c ≤ k ∧ k < d := by
  induction h with
  | @nil a b order bound => exact ⟨0, a, b, .head order bound, hak, hkb⟩
  | @cons a b c d e rest text start order target tail ih =>
    have hle := tail.le
    have hstart : e.target.start = s.place c := by rw [target, start_window order (by omega)]
    have hstop : e.target.stop = s.place d := by rw [target, stop_window order (by omega)]
    rw [segmentsFrom, hstart, hstop]
    by_cases hkc : k < c
    · exact ⟨0, a, c, .head start (by omega), hak, hkc⟩
    · rw [covers, List.any_cons, hstart, hstop, Source.index_place (by omega),
        Source.index_place (by omega), Bool.or_eq_false_iff] at hcovers
      have hdk : d ≤ k := by
        have huncovered := hcovers.1
        simp at huncovered
        omega
      obtain ⟨g, x, y, hkept, hxk, hky⟩ := ih hdk hkb hcovers.2
      exact ⟨_, x, y, .tail (Source.extract_place start (by omega)) (.tail rfl hkept), hxk, hky⟩

/-- A sound patch has a text and a map from it. -/
theorem IsSound.maps {p : Patch} (h : p.IsSound) (file : Text) :
    ∃ text m, p.text = .ok text ∧ p.toSourceMap file = .ok m ∧ p.Maps text m := by
  obtain ⟨a, b, text, hbase, hsplices⟩ := h.splices
  obtain ⟨hab, hb⟩ := hsplices.le
  have hsegments : p.segments =
      segmentsFrom (p.source.place b) (p.source.place a) (Edit.sort p.edits) := by
    rw [segments, hbase, start_window hab hb, stop_window hab hb]
    rfl
  obtain ⟨pieces, hpieces, htext⟩ := hsplices.run.mapM_segments
  rw [← hsegments] at hpieces
  obtain ⟨pins, hlaid⟩ := exists_laid .origin hpieces
  rw [htext] at hlaid
  refine ⟨text, _, ?_, hlaid.foldlM_mapSegment rfl, ?_, fun k hstart hstop hcovers => ?_,
    fun hsource hlength => hlaid.exists_tokens hsource hlength file⟩
  · rw [Patch.text, hpieces, ← htext]
    rfl
  · have hplace := @Source.place_ofText text text.length (Nat.le_refl _)
    rw [List.take_length, ← Source.charCount_ofText, Source.place_charCount] at hplace
    exact hplace.symm
  · rw [hbase, start_window hab hb, Source.index_place (by omega)] at hstart
    rw [hbase, stop_window hab hb, Source.index_place hb] at hstop
    have hsorted : covers p.source (Edit.sort p.edits) k = false := by
      rw [← hcovers]
      exact (Edit.perm_sort p.edits).any_eq
    unfold Keeps
    rw [hsegments]
    exact hsplices.run.keptAt hstart hstop hsorted

end Patch

end Reprint
