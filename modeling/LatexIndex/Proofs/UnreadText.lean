/-
LatexIndex/Proofs/UnreadText.lean

What a scan does not read.

Outside verbatim-like environments a line is read up to its comment
(`bodyFindings_markup`), and in the body of one it is only searched for the
delimiter that ends it (`bodyFindings_verbatim`).  A line can pass something on
to later lines only through what is found on it and through the mode, so the
text of a comment and the lines of such a body may be replaced by other text:
what is found, modelines apart, stays as it is (`unread_text_changes_nothing`).

Replacing must leave a line in place.  A last line without a line end that is
emptied is a line no more, and the lines are then one fewer
(`emptied_line_not_counted`).
-/
import LatexIndex.Proofs.Concatenation
import LatexIndex.Proofs.Escapes

namespace LatexIndex

open Text

/-! ### A line in a text -/

namespace Text

/-- `line` is a line of the text `before ++ line ++ ending ++ after`: it starts
where a line starts, and it is ended by `ending` or else by the end of the text,
where an empty line would be none. -/
structure LineIn (before line ending after : String) : Prop where
  starts : EndsLine before
  feedless : '\n' ∉ line.toList
  ends : ending = "\n" ∨ ending = "\r\n" ∨ ending = "" ∧ after = ""
  present : line ≠ "" ∨ ending ≠ ""

/-- A line that the text ends after is there as it is. -/
theorem sourceLines_of_feedless {line : List Char} (hfeed : '\n' ∉ line) (hne : line ≠ []) :
    sourceLines line = [line] := by
  induction line using sourceLines.induct with
  | case1 => exact absurd rfl hne
  | case2 | case3 => simp at hfeed
  | case4 c rest hc hpair hnil =>
      have hrest : rest = [] := by
        by_contra hrest
        exact sourceLines_ne_nil hrest hnil
      rw [sourceLines.eq_4 c rest hc hpair, hnil, hrest]
  | case5 c rest hc hpair line more hlines ih =>
      have hrest : rest ≠ [] := by
        rintro rfl
        cases hlines
      rw [sourceLines_cons hc hpair (ih (fun hmem => hfeed (List.mem_cons_of_mem c hmem)) hrest)]

/-- **A line among the lines of its text**: the lines before it come from what
stands before it, those after it from what stands after it.  A carriage return
that it ends with may belong to its line end. -/
theorem LineIn.sourceLines_eq {before line ending after : String}
    (h : LineIn before line ending after) :
    ∃ content, (line.toList = content ∨ line.toList = content ++ ['\r']) ∧
      sourceLines (before ++ line ++ ending ++ after).toList
        = sourceLines before.toList ++ content :: sourceLines after.toList := by
  rw [String.append_assoc, String.append_assoc, sourceLines_append h.starts]
  -- what is left to say is how the line and its end are read
  suffices hline : ∃ content, (line.toList = content ∨ line.toList = content ++ ['\r']) ∧
      sourceLines (line ++ (ending ++ after)).toList = content :: sourceLines after.toList by
    obtain ⟨content, hcontent, hlines⟩ := hline
    exact ⟨content, hcontent, by rw [hlines]⟩
  simp only [String.toList_append]
  rcases h.ends with rfl | rfl | ⟨rfl, rfl⟩
  · refine ⟨chomp line.toList, chomp_cases line.toList, ?_⟩
    show sourceLines (line.toList ++ '\n' :: after.toList) = _
    rw [sourceLines_feed, sourceLines_chomp h.feedless, List.singleton_append]
  · refine ⟨line.toList, .inl rfl, ?_⟩
    have hfeed : '\n' ∉ line.toList ++ ['\r'] := by simpa using h.feedless
    show sourceLines (line.toList ++ '\r' :: '\n' :: after.toList) = _
    rw [List.append_cons, sourceLines_feed, sourceLines_chomp hfeed, chomp_return,
      List.singleton_append]
  · have hne : line.toList ≠ [] := by simpa using h.present
    refine ⟨line.toList, .inl rfl, ?_⟩
    show sourceLines (line.toList ++ []) = line.toList :: sourceLines []
    rw [List.append_nil, sourceLines_of_feedless h.feedless hne]
    rfl

/-- A line that ends with no carriage return is there as it is. -/
theorem LineIn.sourceLines_of_last {before line ending after : String}
    (h : LineIn before line ending after) (hlast : line.toList.getLast? ≠ some '\r') :
    sourceLines (before ++ line ++ ending ++ after).toList
      = sourceLines before.toList ++ line.toList :: sourceLines after.toList := by
  obtain ⟨content, hcontent | hcontent, hlines⟩ := h.sourceLines_eq
  · rw [hlines, hcontent]
  · rw [hcontent, List.getLast?_concat] at hlast
    exact absurd rfl hlast

theorem feed_notMem_of_mem_sourceLines {text line : List Char} (h : line ∈ sourceLines text) :
    '\n' ∉ line := by
  induction text using sourceLines.induct generalizing line with
  | case1 => cases h
  | case2 rest ih | case3 rest ih =>
      rcases List.mem_cons.mp h with rfl | h
      · exact List.not_mem_nil
      · exact ih h
  | case4 c rest hfeed hpair hnil =>
      rw [sourceLines.eq_4 c rest hfeed hpair, hnil] at h
      obtain rfl := List.mem_singleton.mp h
      exact fun hmem => hfeed (List.mem_singleton.mp hmem).symm
  | case5 c rest hfeed hpair first more hlines ih =>
      rw [sourceLines_cons hfeed hpair hlines] at h
      rw [hlines] at ih
      rcases List.mem_cons.mp h with rfl | h
      · rw [List.mem_cons, not_or]
        exact ⟨fun heq => hfeed heq.symm, ih List.mem_cons_self⟩
      · exact ih (List.mem_cons_of_mem first h)

/-- The first line of a text with its end, and the lines after it. -/
theorem exists_firstLine {text line : List Char} {lines : List (List Char)}
    (h : sourceLines text = line :: lines) :
    ∃ ending rest, text = line ++ ending ++ rest ∧ sourceLines rest = lines ∧
      (ending = ['\n'] ∨ ending = ['\r', '\n'] ∨ ending = [] ∧ rest = []) ∧
      (line ≠ [] ∨ ending ≠ []) ∧ (ending ≠ [] → sourceLines (line ++ ending) = [line]) := by
  induction text using sourceLines.induct generalizing line lines with
  | case1 => cases h
  | case2 rest =>
      obtain ⟨rfl, rfl⟩ := List.cons.inj h
      exact ⟨['\n'], rest, rfl, rfl, .inl rfl, .inr (by simp), fun _ => rfl⟩
  | case3 rest =>
      obtain ⟨rfl, rfl⟩ := List.cons.inj h
      exact ⟨['\r', '\n'], rest, rfl, rfl, .inr (.inl rfl), .inr (by simp), fun _ => rfl⟩
  | case4 c rest hfeed hpair hnil =>
      rw [sourceLines.eq_4 c rest hfeed hpair, hnil] at h
      obtain ⟨rfl, rfl⟩ := List.cons.inj h
      have hrest : rest = [] := by
        by_contra hrest
        exact sourceLines_ne_nil hrest hnil
      exact ⟨[], [], by rw [hrest]; rfl, rfl, .inr (.inr ⟨rfl, rfl⟩), .inl (by simp),
        fun hne => absurd rfl hne⟩
  | case5 c rest hfeed hpair first more hlines ih =>
      rw [sourceLines_cons hfeed hpair hlines] at h
      obtain ⟨rfl, rfl⟩ := List.cons.inj h
      obtain ⟨ending, rest', rfl, hrest, hending, -, hone⟩ := ih hlines
      refine ⟨ending, rest', rfl, hrest, hending, .inl (by simp), fun hne => ?_⟩
      refine sourceLines_cons hfeed (fun more' hc heq => ?_) (hone hne)
      exact hpair (more' ++ rest') hc (congrArg (· ++ rest') heq)

/-- Lines are cut off from a text one after the other. -/
theorem exists_above {text line : List Char} {lines below : List (List Char)}
    (h : sourceLines text = lines ++ line :: below) :
    ∃ above ending after, text = above ++ line ++ ending ++ after ∧
      (above = [] ∨ above.getLast? = some '\n') ∧
      (ending = ['\n'] ∨ ending = ['\r', '\n'] ∨ ending = [] ∧ after = []) ∧
      (line ≠ [] ∨ ending ≠ []) ∧ sourceLines above = lines ∧ sourceLines after = below := by
  induction lines generalizing text with
  | nil =>
      obtain ⟨ending, after, rfl, hafter, hending, hpresent, -⟩ := exists_firstLine h
      exact ⟨[], ending, after, rfl, .inl rfl, hending, hpresent, rfl, hafter⟩
  | cons first lines ih =>
      obtain ⟨feed, rest, rfl, hrest, hfeed, -, hone⟩ := exists_firstLine h
      obtain ⟨above, ending, after, rfl, habove, hending, hpresent, hlines, hafter⟩ := ih hrest
      -- a line follows, so the first one is ended
      have hlast : ∃ init, feed = init ++ ['\n'] := by
        rcases hfeed with rfl | rfl | ⟨-, hnil⟩
        · exact ⟨[], rfl⟩
        · exact ⟨['\r'], rfl⟩
        · rw [hnil] at hrest
          cases lines <;> cases hrest
      obtain ⟨init, rfl⟩ := hlast
      refine ⟨first ++ (init ++ ['\n']) ++ above, ending, after, by simp, .inr ?_, hending,
        hpresent, ?_, hafter⟩
      · rcases habove with rfl | habove
        · simp
        · rw [List.getLast?_append, habove]
          rfl
      · have hseam := sourceLines_feed (first ++ init) above
        have hfirst := hone (by simp)
        rw [← List.append_assoc] at hfirst
        rw [hfirst, hlines] at hseam
        rw [← List.append_assoc, ← List.append_cons, hseam]
        rfl

/-- **Every line of a text is a line in it.** -/
theorem exists_lineIn {text : String} {lines below : List (List Char)} {line : List Char}
    (h : sourceLines text.toList = lines ++ line :: below) :
    ∃ above ending after : String, text = above ++ String.ofList line ++ ending ++ after ∧
      LineIn above (String.ofList line) ending after ∧ sourceLines above.toList = lines ∧
      sourceLines after.toList = below := by
  have hfeedless : '\n' ∉ line := feed_notMem_of_mem_sourceLines (by rw [h]; simp)
  obtain ⟨above, ending, after, htext, habove, hending, hpresent, hlines, hafter⟩ := exists_above h
  refine ⟨String.ofList above, String.ofList ending, String.ofList after, ?_, ⟨?_, ?_, ?_, ?_⟩, ?_, ?_⟩
  · rw [← String.toList_inj, htext]
    simp
  · exact habove.imp (fun hnil => by rw [hnil]) (fun hlast => by rwa [String.toList_ofList])
  · rwa [String.toList_ofList]
  · rcases hending with rfl | rfl | ⟨rfl, rfl⟩
    · exact .inl rfl
    · exact .inr (.inl rfl)
    · exact .inr (.inr ⟨rfl, rfl⟩)
  · exact hpresent.imp (by simp) (by simp)
  · rwa [String.toList_ofList]
  · rwa [String.toList_ofList]

/-- A text is found nowhere exactly if it is no part. -/
theorem find?_eq_none_iff {needle text : List Char} :
    find? needle text = none ↔ ¬ needle <:+: text := by
  induction text with
  | nil => simp [find?]
  | cons c rest ih =>
      rw [find?, List.infix_cons_iff]
      split
      · next hpre => simp [List.isPrefixOf_iff_prefix.mp hpre]
      · next hpre =>
          rw [List.isPrefixOf_iff_prefix] at hpre
          rw [Option.map_eq_none_iff, ih]
          simp [hpre]

end Text

namespace Markup

variable {line kept : List Char} {ds : List Directive} {s t : Scan}

/-! ### What is read of a line -/

/-- The directives of a line that begins no verbatim-like environment contribute
one after the other. -/
theorem directiveFindings_of_plain (h : ∀ d ∈ ds, d.opensVerbatim? = none) (line : List Char) :
    directiveFindings line ds = (ds.flatMap (·.findings line), .markup) := by
  induction ds with
  | nil => rfl
  | cons d more ih =>
      obtain ⟨hd, hmore⟩ := List.forall_mem_cons.mp h
      rw [directiveFindings, hd, ih hmore]
      rfl

theorem Directive.findings_of_begins {d : Directive} (h : kept <+: line)
    (hd : d.start ≤ kept.length) : d.findings line = d.findings kept := by
  obtain ⟨rest, rfl⟩ := h
  simp only [Directive.findings, byteColumn, List.take_append_of_le_length hd]

/-- **Outside verbatim-like environments a line is read up to its comment**,
unless that part of it begins one. -/
theorem bodyFindings_markup
    (h : ∀ d ∈ directives (stripComment line), d.opensVerbatim? = none) :
    bodyFindings line .markup
      = ((directives (stripComment line)).flatMap (·.findings (stripComment line)), .markup) := by
  rw [bodyFindings, directiveFindings_of_plain h]
  congr 1
  -- columns are counted on the whole line, but only up to a directive
  refine List.flatMap_congr fun d hd => Directive.findings_of_begins (stripComment_begins line) ?_
  have hlast := (standing_directivesFrom hd).lt_last
  omega

/-- **In the body of a verbatim-like environment** a line without the delimiter
that ends it contributes nothing. -/
theorem bodyFindings_verbatim {environment : String}
    (h : ¬ closingDelimiter environment <:+: line) :
    bodyFindings line (.verbatim environment) = ([], .verbatim environment) := by
  rw [bodyFindings, closingPosition?, List.drop_zero, find?_eq_none_iff.mpr h]
  rfl

/-! ### Scans that differ in their modelines -/

/-- Whether a finding is a modeline. -/
def Finding.isModeline : Finding → Bool
  | .modeline _ => true
  | _ => false

/-- Everything found, modelines apart. -/
def Scan.body (s : Scan) : List Found :=
  s.found.filter (!·.finding.isModeline)

/-- Two scans that differ in their modelines at most. -/
structure Scan.SameBody (s t : Scan) : Prop where
  inclusions : s.inclusions = t.inclusions
  labels : s.labels = t.labels
  citations : s.citations = t.citations
  references : s.references = t.references
  bibitems : s.bibitems = t.bibitems
  bibliographies : s.bibliographies = t.bibliographies
  markers : s.markers = t.markers
  declaresRoot : s.declaresRoot = t.declaresRoot
  lineCount : s.lineCount = t.lineCount
  faults : s.faults = t.faults

/-- A view that passes modelines over is a view of the body. -/
theorem Scan.filterMap_body {α : Type} {view : Found → Option α}
    (h : ∀ n target, view ⟨n, .modeline target⟩ = none) (s : Scan) :
    s.body.filterMap view = s.found.filterMap view := by
  rw [body, List.filterMap_filter]
  refine List.filterMap_congr fun f _ => ?_
  rcases f with ⟨n, finding⟩
  cases finding with
  | modeline target => exact (h n target).symm
  | _ => rfl

theorem Scan.declaresRoot_body (s : Scan) :
    s.body.any (·.finding = .documentClass) = s.declaresRoot := by
  rw [body, List.any_filter, declaresRoot]
  congr 1
  funext f
  rcases f with ⟨n, finding⟩
  cases finding <;> simp [Finding.isModeline]

theorem faultsFrom_filter (opened : List (String × Nat)) (found : List Found) :
    faultsFrom opened (found.filter (!·.finding.isModeline)) = faultsFrom opened found := by
  induction found generalizing opened with
  | nil => rfl
  | cons f more ih =>
      rcases f with ⟨n, finding⟩
      cases finding with
      | modeline target => exact ih opened
      | closing name column =>
          rw [List.filter_cons_of_pos rfl]
          rcases opened with - | ⟨⟨inner, openedOn⟩, outer⟩ <;> simp only [faultsFrom, ih]
      | _ =>
          rw [List.filter_cons_of_pos rfl]
          simp only [faultsFrom, ih]

/-- Scans with one body differ in their modelines at most. -/
theorem Scan.sameBody_of_body (hbody : s.body = t.body) (hcount : s.lineCount = t.lineCount) :
    s.SameBody t := by
  have hview : ∀ {α : Type} {view : Found → Option α},
      (∀ n target, view ⟨n, .modeline target⟩ = none) →
      s.found.filterMap view = t.found.filterMap view := by
    intro α view h
    rw [← s.filterMap_body h, hbody, t.filterMap_body h]
  exact
    { inclusions := hview fun _ _ => rfl
      labels := hview fun _ _ => rfl
      citations := hview fun _ _ => rfl
      references := hview fun _ _ => rfl
      bibitems := hview fun _ _ => rfl
      bibliographies := hview fun _ _ => rfl
      markers := hview fun _ _ => rfl
      declaresRoot := by rw [← s.declaresRoot_body, hbody, t.declaresRoot_body]
      lineCount := hcount
      faults := by
        have hfaults := congrArg (faultsFrom []) hbody
        rwa [body, body, faultsFrom_filter, faultsFrom_filter] at hfaults }

/-! ### Replacing a line -/

theorem filter_lineFindings (n : Nat) (mode : Mode) (line : List Char) :
    ((lineFindings mode line).1.map (Found.mk n)).filter (!·.finding.isModeline)
      = ((bodyFindings line mode).1.map (Found.mk n)).filter (!·.finding.isModeline) := by
  rw [lineFindings]
  dsimp only
  rw [List.map_append, List.filter_append]
  rcases modeline? line with - | target <;> rfl

/-- A line may be replaced by one that contributes the same apart from its
modeline. -/
theorem sameBody_scanLines {above below : List (List Char)} {line' : List Char}
    (h : bodyFindings line (modeAfter .markup above)
      = bodyFindings line' (modeAfter .markup above)) :
    (scanLines (above ++ line :: below)).SameBody (scanLines (above ++ line' :: below)) := by
  refine Scan.sameBody_of_body ?_ (by simp [scanLines])
  have hnext : (lineFindings (modeAfter .markup above) line).2
      = (lineFindings (modeAfter .markup above) line').2 := by
    simp only [lineFindings, h]
  simp only [Scan.body, scanLines, foundFrom_append, foundFrom_cons, List.filter_append,
    filter_lineFindings, h, hnext]

/-- How the lines inside a verbatim-like environment, or inside none, are
read. -/
def Mode.inside : Option String → Mode
  | none => .markup
  | some environment => .verbatim environment

/-- The mode in which the line after a text is read. -/
theorem modeAfter_text (text : String) :
    modeAfter .markup (sourceLines text.toList) = Mode.inside (scan text).openVerbatim? := by
  have hmarkers : markersOf (foundFrom .markup 0 (sourceLines text.toList))
      = (scan text).markers := rfl
  rw [modeAfter_eq _ 0, hmarkers, Scan.openVerbatim?, Mode.after]
  rcases (scan text).markers.getLast? with - | m
  · rfl
  · dsimp only
    split <;> rfl

/-- A line of a text may be replaced by another if neither, with or without a
carriage return at its end, contributes anything that the other does not. -/
theorem sameBody_scan {before line line' ending after : String} {mode : Mode}
    {findings : List Finding × Mode} (hmode : modeAfter .markup (sourceLines before.toList) = mode)
    (h : LineIn before line ending after) (h' : LineIn before line' ending after)
    (hline : ∀ content, line.toList = content ∨ line.toList = content ++ ['\r'] →
      bodyFindings content mode = findings)
    (hline' : ∀ content, line'.toList = content ∨ line'.toList = content ++ ['\r'] →
      bodyFindings content mode = findings) :
    (scan (before ++ line ++ ending ++ after)).SameBody
      (scan (before ++ line' ++ ending ++ after)) := by
  obtain ⟨content, hcontent, hlines⟩ := h.sourceLines_eq
  obtain ⟨content', hcontent', hlines'⟩ := h'.sourceLines_eq
  rw [scan, scan, hlines, hlines']
  refine sameBody_scanLines ?_
  rw [hmode, hline content hcontent, hline' content' hcontent']

/-- A comment is a comment without the carriage return it may end with. -/
theorem stripComment_content {comment content : List Char}
    (h : stripComment (kept ++ '%' :: comment) = kept)
    (hcontent : kept ++ '%' :: comment = content ∨ kept ++ '%' :: comment = content ++ ['\r']) :
    stripComment content = kept := by
  rcases hcontent with rfl | hcontent
  · exact h
  · rcases List.eq_nil_or_concat comment with rfl | ⟨init, c, rfl⟩
    · -- the sign itself is no carriage return
      have hlast := (List.append_inj' hcontent rfl).2
      simp at hlast
    · rw [List.concat_eq_append, ← List.cons_append, ← List.append_assoc] at hcontent
      rw [← (List.append_inj' hcontent rfl).1]
      exact stripComment_replace h init

/-- **Comments and the bodies of verbatim-like environments are not read.**

* A line outside verbatim-like environments whose part before the comment begins
  none: its comment may be replaced by any other.
* A line in the body of such an environment without the delimiter that ends it:
  it may be replaced by any other line without it.

The scan of the text stays the same in both cases, modelines apart. -/
theorem unread_text_changes_nothing (before ending after : String) :
    (∀ kept comment comment' : String, LineIn before (kept ++ "%" ++ comment) ending after →
      '\n' ∉ comment'.toList →
      stripComment (kept ++ "%" ++ comment).toList = kept.toList →
      (scan before).openVerbatim? = none →
      (∀ d ∈ directives kept.toList, d.opensVerbatim? = none) →
      (scan (before ++ (kept ++ "%" ++ comment) ++ ending ++ after)).SameBody
        (scan (before ++ (kept ++ "%" ++ comment') ++ ending ++ after))) ∧
    (∀ environment line line' : String, LineIn before line ending after →
      LineIn before line' ending after →
      (scan before).openVerbatim? = some environment →
      ¬ closingDelimiter environment <:+: line.toList →
      ¬ closingDelimiter environment <:+: line'.toList →
      (scan (before ++ line ++ ending ++ after)).SameBody
        (scan (before ++ line' ++ ending ++ after))) := by
  constructor
  · intro kept comment comment' hline hfeed hkept hopen hplain
    have hmode : modeAfter .markup (sourceLines before.toList) = .markup := by
      rw [modeAfter_text, hopen, Mode.inside]
    have hline' : LineIn before (kept ++ "%" ++ comment') ending after :=
      { starts := hline.starts
        feedless := by
          have hkeptfeed := hline.feedless
          simp only [String.toList_append, List.mem_append, not_or] at hkeptfeed ⊢
          exact ⟨hkeptfeed.1, hfeed⟩
        ends := hline.ends
        present := by
          refine .inl fun hempty => ?_
          have hchars := congrArg String.toList hempty
          simp [String.toList_append] at hchars }
    -- either comment leaves the same part to be read
    have hread : ∀ comment content, stripComment (kept.toList ++ '%' :: comment) = kept.toList →
        (kept.toList ++ '%' :: comment = content ∨
          kept.toList ++ '%' :: comment = content ++ ['\r']) →
        bodyFindings content .markup
          = ((directives kept.toList).flatMap (·.findings kept.toList), .markup) := by
      intro comment content hstrip hcontent
      have hcut := stripComment_content hstrip hcontent
      rw [bodyFindings_markup (by rwa [hcut]), hcut]
    have hsplit : ∀ comment : String, (kept ++ "%" ++ comment).toList
        = kept.toList ++ '%' :: comment.toList := by simp
    rw [hsplit] at hkept
    exact sameBody_scan hmode hline hline'
      (fun content hcontent => hread _ content hkept (by rwa [hsplit] at hcontent))
      fun content hcontent =>
        hread _ content (stripComment_replace hkept _) (by rwa [hsplit] at hcontent)
  · intro environment line line' hline hline' hopen hfree hfree'
    have hmode : modeAfter .markup (sourceLines before.toList) = .verbatim environment := by
      rw [modeAfter_text, hopen, Mode.inside]
    have hbody : ∀ line content : List Char, ¬ closingDelimiter environment <:+: line →
        (line = content ∨ line = content ++ ['\r']) →
        bodyFindings content (.verbatim environment) = ([], .verbatim environment) := by
      intro line content hfree hcontent
      refine bodyFindings_verbatim fun hinfix => hfree ?_
      rcases hcontent with rfl | rfl
      · exact hinfix
      · exact hinfix.trans (List.prefix_append content ['\r']).isInfix
    exact sameBody_scan hmode hline hline' (fun content => hbody _ content hfree)
      fun content => hbody _ content hfree'

/-- The replaced line of a text in both cases, with markup in the place of a comment
that nothing closes, and an end of another environment in the place of a label. -/
theorem unread_text_changes_nothing_unclosed :
    (scan ("\\begin{a}\n" ++ ("5\\% \\label{l}" ++ "%" ++ " none") ++ "\n" ++ "\\end{a}")).SameBody
      (scan ("\\begin{a}\n" ++ ("5\\% \\label{l}" ++ "%" ++ "\\begin{verbatim}\r") ++ "\n" ++
        "\\end{a}")) ∧
    (scan ("\\begin{minted}\n" ++ "\\label{l}" ++ "\r\n" ++ "\\end{minted}")).SameBody
      (scan ("\\begin{minted}\n" ++ "\\end{a}" ++ "\r\n" ++ "\\end{minted}")) := by
  constructor
  · refine (unread_text_changes_nothing "\\begin{a}\n" "\n" "\\end{a}").1 "5\\% \\label{l}" " none"
      "\\begin{verbatim}\r" ⟨?_, ?_, .inl rfl, .inr ?_⟩ ?_ ?_ ?_ ?_ <;> decide
  · refine (unread_text_changes_nothing "\\begin{minted}\n" "\r\n" "\\end{minted}").2 "minted"
      "\\label{l}" "\\end{a}" ⟨?_, ?_, .inr (.inl rfl), .inr ?_⟩
      ⟨?_, ?_, .inr (.inl rfl), .inr ?_⟩ ?_ (find?_eq_none_iff.mp ?_)
      (find?_eq_none_iff.mp ?_) <;> decide

/-- The last line of a text, without a line end and in a verbatim body, replaced
by nothing: the text has one line fewer. -/
theorem emptied_line_not_counted :
    ¬ ∀ before line line' ending after environment : String, LineIn before line ending after →
      '\n' ∉ line'.toList → (scan before).openVerbatim? = some environment →
      ¬ closingDelimiter environment <:+: line.toList →
      ¬ closingDelimiter environment <:+: line'.toList →
      (scan (before ++ line ++ ending ++ after)).SameBody
        (scan (before ++ line' ++ ending ++ after)) := by
  intro h
  have hline : LineIn "\\begin{verbatim}\n" "x" "" "" :=
    ⟨by decide, by decide, .inr (.inr ⟨rfl, rfl⟩), .inl (by decide)⟩
  have hsame := h "\\begin{verbatim}\n" "x" "" "" "" "verbatim" hline (by decide) (by decide)
    (find?_eq_none_iff.mp (by decide)) (find?_eq_none_iff.mp (by decide))
  have hcount : (scan ("\\begin{verbatim}\n" ++ "x" ++ "" ++ "")).lineCount
      ≠ (scan ("\\begin{verbatim}\n" ++ "" ++ "" ++ "")).lineCount := by decide
  exact hcount hsame.lineCount

end Markup

end LatexIndex
