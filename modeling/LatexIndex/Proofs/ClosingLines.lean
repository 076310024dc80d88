/-
LatexIndex/Proofs/ClosingLines.lean

The line on which a verbatim-like environment is closed.

Such an environment is closed on a later line than it begins on, or on the same
line (`ClosesAt`); in either case the marker after its begin is its end
(`exists_closesAt`), and no other directive of the line from the begin on is
read.  So the line may be cut after the delimiter (`ClosesAt.cut`): the
directives that are closed in the part that is left are those of the line
(`filter_directives_take`), except where an argument begins before the
environment and is closed after it.

The main theorem `rest_of_closing_line_skipped` says what this means for a text.
What follows the delimiter on its line is lost; with a line feed in between it
is found (`label_after_end_not_found`).
-/
import LatexIndex.Proofs.Directives
import LatexIndex.Proofs.KeySequences
import LatexIndex.Proofs.UnreadText

namespace LatexIndex.Markup

open Text

variable {line : List Char} {n pos stop : Nat} {d : Directive} {environment : String} {mode : Mode}
  {o c : Marker}

/-! ### A line that closes an environment -/

/-- Line number `n` closes the verbatim-like environment that `o` begins, at
position `pos`.  Either the environment is open when the line is read, or `o` is
on the line, with no such begin before it. -/
inductive ClosesAt (line : List Char) (n : Nat) (o : Marker) (pos : Nat) : Mode → Prop
  | later : closingPosition? o.name 0 line = some pos → ClosesAt line n o pos (.verbatim o.name)
  | beside {front back : List Directive} {d : Directive} {stop : Nat} :
      directives (stripComment line) = front ++ d :: back →
      (∀ e ∈ front, e.opensVerbatim? = none) → d.opensVerbatim? = some (o.name, stop) →
      o.line = n → o.column = byteColumn line d.start →
      closingPosition? o.name stop line = some pos → ClosesAt line n o pos .markup

theorem directiveFindings_closes {front : List Directive}
    (hfront : ∀ e ∈ front, e.opensVerbatim? = none)
    (hd : d.opensVerbatim? = some (environment, stop))
    (hpos : closingPosition? environment stop line = some pos) (back : List Directive) :
    directiveFindings line (front ++ d :: back)
      = (front.flatMap (·.findings line) ++
          [.opening environment (byteColumn line d.start),
            .closing environment (byteColumn line pos)], .markup) := by
  induction front with
  | nil =>
      obtain ⟨hfindings, -⟩ := Directive.findings_of_opensVerbatim? hd line
      simp only [List.nil_append, directiveFindings, hd, hpos, hfindings]
      rfl
  | cons e front ih =>
      obtain ⟨he, hmore⟩ := List.forall_mem_cons.mp hfront
      rw [List.cons_append, directiveFindings, he, ih hmore]
      simp

/-- Directives whose markers have an end right after the begin of a
verbatim-like environment. -/
theorem exists_directive_of_markersOn {ds : List Directive} {xs ys : List Marker}
    (h : markersOn n (directiveFindings line ds).1 = xs ++ o :: c :: ys)
    (ho : o.isOpen = true) (hverbatim : isVerbatim o.name = true) :
    ∃ front d back stop pos, ds = front ++ d :: back ∧ (∀ e ∈ front, e.opensVerbatim? = none) ∧
      d.opensVerbatim? = some (o.name, stop) ∧ o.line = n ∧ o.column = byteColumn line d.start ∧
      closingPosition? o.name stop line = some pos ∧
      c = ⟨o.name, n, byteColumn line pos, false⟩ := by
  induction ds generalizing xs with
  | nil => simp [directiveFindings, markersOn, markersOf] at h
  | cons d more ih =>
      rw [directiveFindings] at h
      rcases hopens : d.opensVerbatim? with - | ⟨environment, stop⟩
      · rw [hopens] at h
        dsimp only at h
        rw [markersOn_append] at h
        -- the marker of `d`, if there is one, is not `o`
        have hmore : ∃ xs', markersOn n (directiveFindings line more).1 = xs' ++ o :: c :: ys := by
          have hafter : Mode.after .markup (markersOn n (d.findings line)) = .markup :=
            Directive.after_findings hopens
          rcases d.markersOn_findings n line with hnil | ⟨_, _, _, _, hone, _⟩
          · rw [hnil] at h
            exact ⟨xs, h⟩
          · rw [hone] at h hafter
            rcases xs with - | ⟨x, xs⟩
            · rw [(List.cons.inj h).1] at hafter
              simp [Mode.after, ho, hverbatim] at hafter
            · exact ⟨xs, (List.cons.inj h).2⟩
        obtain ⟨xs', hmore⟩ := hmore
        obtain ⟨front, e, back, stop, pos, rfl, hfront, he⟩ := ih hmore
        exact ⟨d :: front, e, back, stop, pos, rfl, List.forall_mem_cons.mpr ⟨hopens, hfront⟩, he⟩
      · obtain ⟨hfindings, -⟩ := Directive.findings_of_opensVerbatim? hopens line
        rw [hopens, hfindings] at h
        dsimp only at h
        split at h
        · next pos hpos =>
            have hmarkers : [⟨environment, n, byteColumn line d.start, true⟩,
                ⟨environment, n, byteColumn line pos, false⟩] = xs ++ o :: c :: ys := h
            rcases xs with - | ⟨x, xs⟩
            · obtain ⟨rfl, hrest⟩ := List.cons.inj hmarkers
              obtain ⟨rfl, -⟩ := List.cons.inj hrest
              exact ⟨[], d, more, stop, pos, rfl, by simp, hopens, rfl, rfl, hpos, rfl⟩
            · have hlength := congrArg List.length hmarkers
              simp only [List.length_append, List.length_cons, List.length_nil] at hlength
              omega
        · have hlength := congrArg List.length h
          simp [markersOn, markersOf, Found.marker?] at hlength
          omega

/-- The line that a marker comes from, with the markers around it. -/
theorem exists_line_of_markersOf {lines : List (List Char)} {as bs : List Marker}
    (h : markersOf (foundFrom mode n lines) = as ++ c :: bs) :
    ∃ above line below xs ys, lines = above ++ line :: below ∧
      markersOn (n + above.length) (lineFindings (modeAfter mode above) line).1 = xs ++ c :: ys ∧
      as = markersOf (foundFrom mode n above) ++ xs := by
  induction lines generalizing mode n as with
  | nil => simp [foundFrom, markersOf] at h
  | cons text more ih =>
      rw [markersOf_foundFrom_cons] at h
      -- the marker is on the first line or on one of the others
      have hcases : (∃ ys, markersOn n (lineFindings mode text).1 = as ++ c :: ys) ∨
          ∃ as', as = markersOn n (lineFindings mode text).1 ++ as' ∧
            markersOf (foundFrom (lineFindings mode text).2 (n + 1) more) = as' ++ c :: bs := by
        rcases List.append_eq_append_iff.mp h with ⟨as', has, hmore⟩ | ⟨ys, hline, hrest⟩
        · exact .inr ⟨as', has, hmore⟩
        · rcases ys with - | ⟨y, ys⟩
          · exact .inr ⟨[], by simpa using hline.symm, hrest.symm⟩
          · obtain ⟨rfl, -⟩ := List.cons.inj hrest
            exact .inl ⟨ys, hline⟩
      rcases hcases with ⟨ys, hline⟩ | ⟨as', rfl, hmore⟩
      · exact ⟨[], text, more, as, ys, rfl, hline, rfl⟩
      · obtain ⟨above, line, below, xs, ys, rfl, hline, rfl⟩ := ih hmore
        refine ⟨text :: above, line, below, xs, ys, rfl, ?_, ?_⟩
        · rw [List.length_cons, Nat.add_comm above.length, ← Nat.add_assoc]
          exact hline
        · rw [markersOf_foundFrom_cons, List.append_assoc]

/-- **Where a verbatim-like environment is closed**: if its begin is followed by
another marker, that is its end, on a line that closes it. -/
theorem exists_closesAt {lines : List (List Char)} {as bs : List Marker}
    (h : markersOf (foundFrom .markup 0 lines) = as ++ o :: c :: bs)
    (ho : o.isOpen = true) (hverbatim : isVerbatim o.name = true) :
    ∃ above line below pos, lines = above ++ line :: below ∧
      ClosesAt line above.length o pos (modeAfter .markup above) ∧
      c = ⟨o.name, above.length, byteColumn line pos, false⟩ := by
  rw [List.append_cons] at h
  obtain ⟨above, line, below, xs, ys, rfl, hline, has⟩ := exists_line_of_markersOf h
  rw [Nat.zero_add, markersOn_lineFindings] at hline
  rcases List.eq_nil_or_concat xs with rfl | ⟨xs, x, rfl⟩
  · -- `o` is the last marker above the line
    have hmode : modeAfter .markup above = .verbatim o.name := by
      rw [List.append_nil] at has
      rw [modeAfter_eq _ 0, ← has, Mode.after, List.getLast?_concat]
      simp [ho, hverbatim]
    rw [hmode, bodyFindings] at hline
    split at hline
    · next pos hpos =>
        obtain ⟨rfl, -⟩ := List.cons.inj hline
        refine ⟨above, line, below, pos, rfl, ?_, rfl⟩
        rw [hmode]
        exact .later hpos
    · cases hline
  · -- `o` is the last marker before `c` on the line itself
    rw [List.concat_eq_append, ← List.append_assoc] at has
    obtain rfl := List.singleton_inj.mp (List.append_inj' has rfl).2
    rw [List.concat_eq_append, List.append_assoc, List.singleton_append] at hline
    rcases hmode : modeAfter .markup above with - | environment
    · rw [hmode, bodyFindings] at hline
      obtain ⟨front, d, back, stop, pos, hds, hfront, hd, hnumber, hcolumn, hpos, hc⟩ :=
        exists_directive_of_markersOn hline ho hverbatim
      refine ⟨above, line, below, pos, rfl, ?_, hc⟩
      rw [hmode]
      exact .beside hds hfront hd hnumber hcolumn hpos
    · -- a line in the body has one marker at most
      rw [hmode, bodyFindings] at hline
      have hlength := congrArg List.length hline
      split at hlength
      · simp [markersOn, markersOf, Found.marker?] at hlength
        omega
      · simp [markersOn, markersOf] at hlength

/-! ### What follows the end on its line -/

/-- Whether an argument on a line begins left of the begin `o` and is closed only
after the delimiter of the end `c`. -/
def argumentAcross (o c : Marker) (line : List Char) : Bool :=
  (directives (stripComment line)).any fun d =>
    byteColumn line d.start < o.column &&
      d.argument.stop?.any (c.column + bytes (closingDelimiter c.name) ≤ byteColumn line ·)

/-- The closed directives of a line that is cut after one of them. -/
theorem filter_directives_cut {kept tail : List Char} {left right : List Directive}
    (hline : directives (stripComment (kept ++ tail)) = left ++ d :: right)
    (hd : d.endsBefore kept.length = true) :
    ∃ right', (directives (stripComment kept)).filter Directive.isTerminated
      = left.filter (Directive.endsBefore kept.length) ++ d :: right' := by
  have hkept : (directives (stripComment kept)).filter Directive.isTerminated
      = (directives (stripComment (kept ++ tail))).filter (Directive.endsBefore kept.length) := by
    rw [← filter_directives_take, ← stripComment_take, List.take_left]
  rw [hkept, hline, List.filter_append, List.filter_cons_of_pos hd]
  exact ⟨_, rfl⟩

/-- What directives contribute if the first begin of a verbatim-like environment
among the closed ones is closed on the line. -/
theorem sequencesOn_closes {ds left right : List Directive}
    (hds : ds.filter Directive.isTerminated = left ++ d :: right)
    (hleft : ∀ e ∈ left, e.opensVerbatim? = none)
    (hd : d.opensVerbatim? = some (environment, stop))
    (hpos : closingPosition? environment stop line = some pos) :
    sequencesOn (directiveFindings line ds).1
        = sequencesOn (left.flatMap (·.findings line) ++
            [.opening environment (byteColumn line d.start),
              .closing environment (byteColumn line pos)]) ∧
      (directiveFindings line ds).2 = .markup := by
  obtain ⟨hfst, hsnd⟩ := directiveFindings_filter line ds
  rw [hds, directiveFindings_closes hleft hd hpos] at hfst hsnd
  exact ⟨hfst.symm, hsnd.symm⟩

/-- If no argument runs across the environment, those that begin before it are
closed before its end. -/
theorem endsBefore_of_not_across {kept tail : List Char} {left right : List Directive}
    (hline : directives (stripComment (kept ++ tail)) = left ++ d :: right)
    (ho : o.column = byteColumn (kept ++ tail) d.start)
    (hc : c.column + bytes (closingDelimiter c.name) = bytes kept)
    (hacross : argumentAcross o c (kept ++ tail) = false) :
    left.filter Directive.isTerminated = left.filter (Directive.endsBefore kept.length) := by
  refine List.filter_congr fun e he => Bool.eq_iff_iff.mpr ⟨fun hclosed => ?_, ?_⟩
  · obtain ⟨start, argument, harg⟩ := Directive.exists_of_isTerminated hclosed
    have hmem : e ∈ directives (stripComment (kept ++ tail)) := by
      rw [hline]
      exact List.mem_append_left _ he
    -- `e` stands left of `d`
    have hlt : byteColumn (kept ++ tail) e.start < o.column := by
      have hpairwise := pairwise_directivesFrom 0 (stripComment (kept ++ tail))
      have hstart : e.start < d.start := by
        rw [show directivesFrom 0 (stripComment (kept ++ tail)) = left ++ d :: right from hline]
          at hpairwise
        exact (List.pairwise_append.mp hpairwise).2.2 e he d List.mem_cons_self
      have hlast := (standing_directivesFrom hmem).lt_last
      have hlength := length_stripComment_le (kept ++ tail)
      rw [ho]
      exact byteColumn_lt hstart (by omega)
    rw [Directive.endsBefore_iff harg]
    by_contra hle
    have hcolumn : bytes kept ≤ byteColumn (kept ++ tail) (start + argument.length) := by
      rw [← byteColumn_front kept tail]
      exact byteColumn_le (Nat.le_of_not_lt hle) _
    have hnot := List.any_eq_false.mp hacross e hmem
    simp [hlt, harg, Argument.stop?, hc] at hnot
    omega
  · exact Directive.isTerminated_of_endsBefore

theorem start_le_of_endsBefore {text : List Char} (h : d ∈ directives text)
    (hends : d.endsBefore n = true) : d.start ≤ n := by
  obtain ⟨start, argument, harg⟩ :=
    Directive.exists_of_isTerminated (Directive.isTerminated_of_endsBefore hends)
  rw [Directive.endsBefore_iff harg] at hends
  have hstart := (standing_directivesFrom h).argument start argument harg
  omega

/-- What the directives of a line contribute that closes an environment, and what
those of the line up to the end of it do. -/
theorem directiveFindings_cut {kept tail : List Char} {left right : List Directive}
    (hline : directives (stripComment (kept ++ tail)) = left ++ d :: right)
    (hleft : ∀ e ∈ left, e.opensVerbatim? = none)
    (hd : d.opensVerbatim? = some (environment, stop)) (hstop : stop < kept.length)
    (hkept : closingPosition? environment stop kept = some pos) (hpos : pos ≤ kept.length)
    (htail : closingPosition? environment stop (kept ++ tail) = some pos) :
    (directiveFindings kept (directives (stripComment kept))).2 = .markup ∧
      (directiveFindings (kept ++ tail) (directives (stripComment (kept ++ tail)))).2 = .markup ∧
      (left.filter Directive.isTerminated = left.filter (Directive.endsBefore kept.length) →
        sequencesOn (directiveFindings kept (directives (stripComment kept))).1
          = sequencesOn
              (directiveFindings (kept ++ tail) (directives (stripComment (kept ++ tail)))).1) := by
  have hends : d.endsBefore kept.length = true := by
    obtain ⟨-, -, start, argument, harg, rfl⟩ := Directive.findings_of_opensVerbatim? hd []
    exact (Directive.endsBefore_iff harg).mpr hstop
  obtain ⟨right', hcut⟩ := filter_directives_cut hline hends
  have hfull : (directives (stripComment (kept ++ tail))).filter Directive.isTerminated
      = left.filter Directive.isTerminated ++ d :: right.filter Directive.isTerminated := by
    rw [hline, List.filter_append,
      List.filter_cons_of_pos (Directive.isTerminated_of_endsBefore hends)]
  obtain ⟨hkeptOn, hkeptMode⟩ :=
    sequencesOn_closes hcut (fun e he => hleft e (List.mem_of_mem_filter he)) hd hkept
  obtain ⟨htailOn, htailMode⟩ :=
    sequencesOn_closes hfull (fun e he => hleft e (List.mem_of_mem_filter he)) hd htail
  refine ⟨hkeptMode, htailMode, fun hsame => ?_⟩
  rw [hkeptOn, htailOn, hsame]
  -- columns are counted on the whole line, but only up to directives of its beginning
  have hle : ∀ e ∈ left ++ d :: right, e.endsBefore kept.length = true →
      e.start ≤ kept.length := by
    intro e he hends
    rw [← hline] at he
    exact start_le_of_endsBefore he hends
  have hfindings : (left.filter (Directive.endsBefore kept.length)).flatMap (·.findings kept)
      = (left.filter (Directive.endsBefore kept.length)).flatMap (·.findings (kept ++ tail)) := by
    refine List.flatMap_congr fun e he => ?_
    obtain ⟨hmem, hends⟩ := List.mem_filter.mp he
    exact (Directive.findings_of_begins (List.prefix_append kept tail)
      (hle e (List.mem_append_left _ hmem) hends)).symm
  rw [hfindings, byteColumn_of_le (hle d (by simp) hends), byteColumn_of_le hpos]

theorem closingPosition?_cut {front tail : List Char}
    (h : closingPosition? environment stop (front ++ closingDelimiter environment ++ tail)
      = some front.length) :
    stop ≤ front.length ∧
      closingPosition? environment stop (front ++ closingDelimiter environment)
        = some front.length := by
  obtain ⟨front', tail', heq, hlength, hstop, hany⟩ := closingPosition?_eq_some h
  rw [List.append_assoc, List.append_assoc] at heq
  obtain ⟨rfl, -⟩ := List.append_inj heq hlength.symm
  have hcut := hany []
  rw [List.append_nil] at hcut
  exact ⟨hstop, hcut⟩

theorem ClosesAt.exists_front (h : ClosesAt line n o pos mode) :
    ∃ front tail, line = front ++ closingDelimiter o.name ++ tail ∧ front.length = pos := by
  cases h with
  | later hpos | beside _ _ _ _ _ hpos =>
      obtain ⟨front, tail, hline, hlength, -⟩ := closingPosition?_eq_some hpos
      exact ⟨front, tail, hline, hlength⟩

/-- **A line that closes a verbatim-like environment** contributes what its part
up to the delimiter contributes, unless an argument runs across the
environment, and the next line is read as markup. -/
theorem ClosesAt.cut {front tail : List Char}
    (h : ClosesAt (front ++ closingDelimiter o.name ++ tail) n o front.length mode) :
    (bodyFindings (front ++ closingDelimiter o.name) mode).2 = .markup ∧
      (bodyFindings (front ++ closingDelimiter o.name ++ tail) mode).2 = .markup ∧
      ((o.line = n → argumentAcross o ⟨o.name, n, bytes front, false⟩
          (front ++ closingDelimiter o.name ++ tail) = false) →
        sequencesOn (bodyFindings (front ++ closingDelimiter o.name) mode).1
          = sequencesOn (bodyFindings (front ++ closingDelimiter o.name ++ tail) mode).1) := by
  cases h with
  | later hpos =>
      obtain ⟨-, hcut⟩ := closingPosition?_cut hpos
      simp only [bodyFindings, hcut, hpos]
      refine ⟨trivial, trivial, fun _ => ?_⟩
      rw [List.append_assoc, byteColumn_front, byteColumn_front]
  | beside hline hleft hd hnumber hcolumn hpos =>
      obtain ⟨hstop, hcut⟩ := closingPosition?_cut hpos
      have hlength : front.length < (front ++ closingDelimiter o.name).length := by
        rw [closingDelimiter_eq]
        simp
      obtain ⟨hcutMode, hlineMode, hsame⟩ := directiveFindings_cut hline hleft hd
        (Nat.lt_of_le_of_lt hstop hlength) hcut hlength.le hpos
      refine ⟨hcutMode, hlineMode, fun hacross => hsame ?_⟩
      exact endsBefore_of_not_across hline hcolumn (bytes_append _ _).symm (hacross hnumber)

/-! ### A text cut after an end -/

/-- The delimiter that ends an environment, as it is written. -/
def delimiter (environment : String) : String :=
  String.ofList (closingDelimiter environment)

/-- A text with the end of an environment in one of its lines. -/
structure ClosedText where
  /-- The lines above. -/
  above : String
  /-- The line up to the delimiter. -/
  front : String
  name : String
  /-- The rest of the line. -/
  tail : String
  /-- The end of the line. -/
  ending : String
  /-- The lines below. -/
  after : String
  isLine : LineIn above (front ++ delimiter name ++ tail) ending after

namespace ClosedText

/-- The text. -/
def text (t : ClosedText) : String :=
  t.above ++ (t.front ++ delimiter t.name ++ t.tail) ++ t.ending ++ t.after

/-- The text up to the delimiter and with it. -/
def before (t : ClosedText) : String :=
  t.above ++ (t.front ++ delimiter t.name)

/-- The text after the delimiter. -/
def rest (t : ClosedText) : String :=
  t.tail ++ t.ending ++ t.after

/-- The text with a line feed right after the delimiter. -/
def broken (t : ClosedText) : String :=
  t.before ++ "\n" ++ t.rest

/-- The marker of the end. -/
def closing (t : ClosedText) : Marker :=
  ⟨t.name, (scan t.above).lineCount, bytes t.front.toList, false⟩

/-- The line up to the delimiter and with it. -/
def cutLine (t : ClosedText) : List Char :=
  t.front.toList ++ closingDelimiter t.name

/-- How the line is read. -/
def lineMode (t : ClosedText) : Mode :=
  modeAfter .markup (sourceLines t.above.toList)

theorem sourceLines_cut (t : ClosedText) (ending after : String)
    (h : ending = "\n" ∨ ending = "" ∧ after = "") :
    sourceLines (t.before ++ ending ++ after).toList
      = sourceLines t.above.toList ++ t.cutLine :: sourceLines after.toList := by
  have hline : (t.front ++ delimiter t.name).toList = t.cutLine := by
    rw [String.toList_append, delimiter, String.toList_ofList]
    rfl
  have hin : LineIn t.above (t.front ++ delimiter t.name) ending after := by
    refine ⟨t.isLine.starts, ?_, h.imp_right .inr, .inl ?_⟩
    · have hfeed := t.isLine.feedless
      rw [String.toList_append, List.mem_append, not_or] at hfeed
      exact hfeed.1
    · intro hnil
      have hlist := congrArg String.toList hnil
      rw [hline, cutLine, closingDelimiter_eq] at hlist
      simp at hlist
  have hlast : (t.front ++ delimiter t.name).toList.getLast? ≠ some '\r' := by
    have hconcat : t.cutLine
        = t.front.toList ++ ("\\end\x7b".toList ++ t.name.toList) ++ ['}'] :=
      (List.append_assoc _ _ _).symm
    rw [hline, hconcat, List.getLast?_concat]
    decide
  rw [before, hin.sourceLines_of_last hlast, hline]

end ClosedText

/-- What is found in lines, one of them taken out. -/
theorem sequencesOf_foundFrom_line (above : List (List Char)) (line : List Char)
    (below : List (List Char)) :
    sequencesOf (foundFrom .markup 0 (above ++ line :: below))
      = sequencesOf (foundFrom .markup 0 above) ++
        sequencesOn (bodyFindings line (modeAfter .markup above)).1 ++
        sequencesOf (foundFrom (bodyFindings line (modeAfter .markup above)).2 0 below) := by
  rw [sequencesOf_foundFrom_append, sequencesOf_foundFrom_cons, sequencesOn_lineFindings,
    KeySequences.append_assoc]
  rfl

namespace ClosedText

variable (t : ClosedText)

theorem sequences_before :
    (scan t.before).sequences
      = (scan t.above).sequences ++ sequencesOn (bodyFindings t.cutLine t.lineMode).1 := by
  have hlines := t.sourceLines_cut "" "" (.inr ⟨rfl, rfl⟩)
  rw [String.append_empty, String.append_empty] at hlines
  rw [sequences_scan, hlines, sequencesOf_foundFrom_line]
  exact KeySequences.append_empty _

/-- With a line feed after the delimiter, what is found is what is found before
it and then what is found after it. -/
theorem sequences_broken (hmode : (bodyFindings t.cutLine t.lineMode).2 = .markup) :
    (scan t.broken).sequences = (scan t.before).sequences ++ (scan t.rest).sequences := by
  have hlines : sourceLines t.broken.toList = _ := t.sourceLines_cut "\n" t.rest (.inl rfl)
  rw [sequences_scan, hlines, sequencesOf_foundFrom_line, sequences_before]
  rw [lineMode] at hmode
  rw [hmode]
  rfl

/-- Without it, the rest of the line may be passed over. -/
theorem sequences_text
    (hlines : sourceLines t.text.toList
      = sourceLines t.above.toList ++ (t.cutLine ++ t.tail.toList) :: sourceLines t.after.toList)
    (hmode : (bodyFindings (t.cutLine ++ t.tail.toList) t.lineMode).2 = .markup)
    (hsame : sequencesOn (bodyFindings t.cutLine t.lineMode).1
      = sequencesOn (bodyFindings (t.cutLine ++ t.tail.toList) t.lineMode).1) :
    (scan t.text).sequences = (scan t.before).sequences ++ (scan t.after).sequences := by
  rw [sequences_scan, hlines, sequencesOf_foundFrom_line, sequences_before, hsame]
  rw [lineMode] at hmode ⊢
  rw [hmode]
  rfl

end ClosedText

/-- The text around the end of a verbatim-like environment. -/
theorem exists_closedText {text : String} {as bs : List Marker}
    (h : (scan text).markers = as ++ o :: c :: bs) (ho : o.isOpen = true)
    (hverbatim : isVerbatim o.name = true) :
    ∃ t : ClosedText, t.text = text ∧ t.name = o.name ∧ t.closing = c ∧
      sourceLines text.toList = sourceLines t.above.toList ++
        (t.cutLine ++ t.tail.toList) :: sourceLines t.after.toList ∧
      ClosesAt (t.cutLine ++ t.tail.toList) c.line o t.front.toList.length t.lineMode := by
  obtain ⟨above, line, below, pos, hlines, hcloses, rfl⟩ := exists_closesAt h ho hverbatim
  obtain ⟨before, ending, after, rfl, hin, rfl, rfl⟩ := exists_lineIn hlines
  obtain ⟨front, tail, rfl, rfl⟩ := hcloses.exists_front
  have hline : String.ofList (front ++ closingDelimiter o.name ++ tail)
      = String.ofList front ++ delimiter o.name ++ String.ofList tail := by
    rw [String.ofList_append, String.ofList_append]
    rfl
  rw [hline] at hin
  refine ⟨⟨before, String.ofList front, o.name, String.ofList tail, ending, after, hin⟩, ?_, rfl,
    ?_, ?_, ?_⟩
  · rw [hline]
    rfl
  · show Marker.mk o.name _ (bytes (String.ofList front).toList) false = _
    rw [String.toList_ofList, List.append_assoc, byteColumn_front]
    rfl
  · simpa [ClosedText.cutLine] using hlines
  · simpa [ClosedText.cutLine, ClosedText.lineMode] using hcloses

/-- Whether an argument runs across the environment from `o` to `c`, all of it on
one line. -/
def runsAcross (text : String) (o c : Marker) : Bool :=
  o.line == c.line && (sourceLines text.toList)[c.line]?.any (argumentAcross o c)

/-- **What follows the end of a verbatim-like environment on its line is not
read.**  A marker after the begin `o` of such an environment is its end; the text
can be cut after the delimiter.  With a line feed there, what is found is what is
found before the cut and then what is found in the rest of the text.  Without
it, the rest of the line is passed over, and what is found is what is found
before the cut and then what is found in the lines below.  So the line feed makes
no difference if nothing is found in the rest of the line.  The law for the text
as it is needs that no argument runs across the environment, since a line feed
would cut it in two. -/
theorem rest_of_closing_line_skipped {text : String} {as bs : List Marker}
    (h : (scan text).markers = as ++ o :: c :: bs) (ho : o.isOpen = true)
    (hverbatim : isVerbatim o.name = true) :
    ∃ t : ClosedText, t.text = text ∧ t.name = o.name ∧ t.closing = c ∧
      (scan t.broken).sequences = (scan t.before).sequences ++ (scan t.rest).sequences ∧
      (runsAcross text o c = false →
        (scan text).sequences = (scan t.before).sequences ++ (scan t.after).sequences ∧
        ((scan t.rest).sequences = (scan t.after).sequences →
          (scan t.broken).sequences = (scan text).sequences)) := by
  obtain ⟨t, rfl, hname, rfl, hlines, hcloses⟩ := exists_closedText h ho hverbatim
  have hline : t.cutLine = t.front.toList ++ closingDelimiter o.name := by
    rw [← hname]
    rfl
  rw [hline] at hcloses
  obtain ⟨hcutMode, hlineMode, hsame⟩ := hcloses.cut
  rw [← hline] at hcutMode hlineMode hsame
  have hbroken := t.sequences_broken hcutMode
  refine ⟨t, rfl, hname, rfl, hbroken, fun hacross => ?_⟩
  have htext : (scan t.text).sequences
      = (scan t.before).sequences ++ (scan t.after).sequences := by
    refine t.sequences_text hlines hlineMode (hsame fun hnumber => ?_)
    have hget : (sourceLines t.text.toList)[t.closing.line]?
        = some (t.cutLine ++ t.tail.toList) := by
      rw [hlines]
      exact List.getElem?_append_right (Nat.le_refl _) |>.trans (by simp)
    rw [runsAcross, hget, hnumber, beq_self_eq_true, Bool.true_and] at hacross
    rw [← hname]
    exact hacross
  refine ⟨htext, fun hrest => ?_⟩
  rw [hbroken, hrest, htext]

/-- A verbatim environment between two labels, all on one line. -/
def besideText : String :=
  "\\label{l}\\begin{verbatim}\\ref{x}\\end{verbatim}\\label{a}\n\\ref{r}\n"

theorem rest_of_closing_line_skipped_beside :
    (scan besideText).markers
      = [] ++ ⟨"verbatim", 0, 9, true⟩ :: ⟨"verbatim", 0, 32, false⟩ :: [] ∧
    runsAcross besideText ⟨"verbatim", 0, 9, true⟩ ⟨"verbatim", 0, 32, false⟩ = false ∧
    ∃ t : ClosedText, t.text = besideText ∧ t.name = "verbatim" ∧
      t.closing = ⟨"verbatim", 0, 32, false⟩ ∧
      (scan t.broken).sequences = (scan t.before).sequences ++ (scan t.rest).sequences ∧
      (scan besideText).sequences = (scan t.before).sequences ++ (scan t.after).sequences := by
  have hmarkers : (scan besideText).markers
      = [] ++ ⟨"verbatim", 0, 9, true⟩ :: ⟨"verbatim", 0, 32, false⟩ :: [] := by decide
  have hacross : runsAcross besideText ⟨"verbatim", 0, 9, true⟩ ⟨"verbatim", 0, 32, false⟩ = false := by
    decide
  obtain ⟨t, htext, hname, hclosing, hbroken, hskipped⟩ :=
    rest_of_closing_line_skipped hmarkers rfl (by decide)
  exact ⟨hmarkers, hacross, t, htext, hname, hclosing, hbroken, (hskipped hacross).1⟩

/-- A label right after the end of a verbatim environment is not found; with a
line feed between them it is. -/
theorem label_after_end_not_found :
    Marker.mk "verbatim" 1 0 false
      ∈ (scan "\\begin{verbatim}\n\\end{verbatim}\\label{a}\n").markers ∧
    (scan "\\begin{verbatim}\n\\end{verbatim}\\label{a}\n").sequences.labels = [] ∧
    (scan "\\begin{verbatim}\n\\end{verbatim}\n\\label{a}\n").sequences.labels = ["a"] := by
  decide

end LatexIndex.Markup
