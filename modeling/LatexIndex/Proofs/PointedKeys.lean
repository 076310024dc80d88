/-
LatexIndex/Proofs/PointedKeys.lean

What the cursor points at and what the scan records.

Two readers go over the directives of a line.  The scan sorts a command by its
role and takes the keys of its argument; the cursor sorts it anew, in another
order and with other rules about upper case, and cuts the argument for itself.
They agree about commands: what the cursor takes for a citation, a reference or
an inclusion is one for the scan as well (`Role.ofName?_of_citesKeys`,
`Role.ofName?_of_isReference`, `Role.ofName?_of_kind`).  They agree about the
keys of a citation.  They do not about the other arguments: the cursor points at
an inclusion of nothing, which the scan passes over, and it takes a list of
labels for one label, of which the scan records the members.  Nothing else keeps
them apart (`pointed_key_recorded_iff`).
-/
import LatexIndex.Proofs.Delimiters
import LatexIndex.Proofs.LineNumbers
import LatexIndex.Proofs.Pointing

namespace LatexIndex

open Text Markup Cursor

/-! ### Keys between commas -/

namespace Text

theorem contains_iff_infix {needle text : List Char} :
    contains needle text = true ↔ needle <:+: text := by
  rw [contains, Option.isSome_iff_ne_none, Ne, find?_eq_none_iff, not_not]

theorem trim_cons_blank {c : Char} (hc : isBlank c = true) (text : List Char) :
    trim (c :: text) = trim text := by
  have hblank : ∀ d ∈ [c], isBlank d = true := by simpa using hc
  exact congrArg trimEnd (trimStart_append hblank)

theorem trim_concat_blank {c : Char} (hc : isBlank c = true) (text : List Char) :
    trim (text ++ [c]) = trim text := by
  rw [trim, trim, trimStart, trimStart, List.dropWhile_append]
  split
  · next hnil =>
      rw [List.isEmpty_iff.mp hnil, List.dropWhile_cons_of_pos hc]
      rfl
  · exact trimEnd_append (by simpa using hc)

theorem mem_trim {c : Char} {text : List Char} (hc : isBlank c = false) (h : c ∈ text) :
    c ∈ trim text := by
  have hdrop : ∀ cs : List Char, c ∈ cs → c ∈ cs.dropWhile isBlank := by
    intro cs hcs
    rw [← List.takeWhile_append_dropWhile (p := isBlank) (l := cs)] at hcs
    rcases List.mem_append.mp hcs with hcs | hcs
    · rw [List.mem_takeWhile_imp hcs] at hc
      cases hc
    · exact hcs
  exact List.mem_reverse.mpr (hdrop _ (List.mem_reverse.mpr (hdrop _ h)))

end Text

namespace Markup

variable {argument line : List Char} {key : String} {name : String} {d : Directive} {start : Nat}

theorem comma_ne_of_isBlank {c : Char} (hc : isBlank c = true) : c ≠ ',' := by
  rintro rfl
  exact absurd hc (by decide)

/-- Blanks around an argument are around its keys. -/
theorem splitKeys_trim (argument : List Char) : splitKeys (trim argument) = splitKeys argument := by
  have hstart : ∀ text, splitKeys (trimStart text) = splitKeys text := by
    intro text
    induction text with
    | nil => rfl
    | cons c text ih =>
        by_cases hc : isBlank c = true
        · obtain ⟨first, more, htext, hcons⟩ := splitOn_cons_of_ne (comma_ne_of_isBlank hc) text
          rw [trimStart, List.dropWhile_cons_of_pos hc]
          refine ih.trans ?_
          rw [splitKeys, splitKeys, htext, hcons, List.map_cons, List.map_cons, trim_cons_blank hc]
        · rw [trimStart, List.dropWhile_cons_of_neg hc]
  have hend : ∀ text, splitKeys (trimEnd text) = splitKeys text := by
    intro text
    induction text using List.reverseRecOn with
    | nil => rfl
    | append_singleton text c ih =>
        rw [trimEnd, List.reverse_append]
        by_cases hc : isBlank c = true
        · have hcomma : ',' ∉ [c] := by simpa using (comma_ne_of_isBlank hc).symm
          obtain ⟨init, last, htext, hconcat⟩ := splitOn_append hcomma text
          rw [List.reverse_singleton, List.singleton_append, List.dropWhile_cons_of_pos hc]
          refine ih.trans ?_
          rw [splitKeys, splitKeys, htext, hconcat, List.map_append, List.map_append,
            List.map_singleton, List.map_singleton, trim_concat_blank hc]
        · rw [List.reverse_singleton, List.singleton_append, List.dropWhile_cons_of_neg hc,
            List.reverse_cons, List.reverse_reverse]
  rw [trim, hend, hstart]

theorem comma_notMem_of_mem_splitKeys (h : key ∈ splitKeys argument) : ',' ∉ key.toList := by
  obtain ⟨part, hpart, rfl⟩ := List.mem_map.mp (List.mem_filter.mp h).1
  rw [String.toList_ofList]
  have hinside := trim_infix part
  exact fun hmem => notMem_of_mem_splitOn hpart (hinside.subset hmem)

/-- An argument without a comma is one key. -/
theorem mem_splitKeys_of_commaless (hcomma : ',' ∉ trim argument)
    (hne : String.ofList (trim argument) ≠ "") :
    String.ofList (trim argument) ∈ splitKeys argument := by
  have hall : ',' ∉ argument := fun hmem => hcomma (mem_trim (by decide) hmem)
  rw [splitKeys, List.splitOn_eq_singleton hall]
  exact List.mem_filter.mpr ⟨List.mem_singleton_self _, decide_eq_true hne⟩

/-! ### One command, two readers -/

theorem isCitation_of_citesKeys (h : citesKeys name = true) : isCitation name = true := by
  have hlower : ∀ word : List Char, word <:+: name.toList →
      asciiLower word <:+: asciiLower name.toList := fun word hword => hword.map Char.toLower
  rw [citesKeys, Bool.or_eq_true, contains_iff_infix, contains_iff_infix] at h
  rw [isCitation, contains_iff_infix]
  rcases h with h | h
  · exact hlower _ h
  · exact hlower _ h

/-- What the cursor takes for a citation is one for the scan. -/
theorem Role.ofName?_of_citesKeys (h : citesKeys name = true) :
    Role.ofName? name = some .citation := by
  have hne : ∀ other, citesKeys other = false → name ≠ other := by
    rintro other hother rfl
    rw [h] at hother
    cases hother
  have hbibliography : isBibliography name = false := by
    have hall : ∀ n ∈ ["bibliography", "addbibresource"], citesKeys n = false := by decide
    exact decide_eq_false fun hmem => hne name (hall name hmem) rfl
  have hreference : isReference name = false := by
    rw [← Bool.not_eq_true]
    exact fun href => hne name (of_isReference href).2 rfl
  simp [Role.ofName?, Cursor.ofName?_of_citesKeys h, hne "label" (by decide),
    hne "bibitem" (by decide), hne "documentclass" (by decide), hbibliography, hreference,
    isCitation_of_citesKeys h]

theorem Role.ofName?_of_isReference (h : isReference name = true) :
    Role.ofName? name = some .reference := by
  have hall : ∀ n ∈ ["ref", "eqref", "pageref", "autoref", "cref", "Cref", "nameref", "vref"],
      Role.ofName? n = some .reference := by decide
  exact hall name (of_decide_eq_true h)

theorem Role.ofName?_of_kind {kind : IncludeKind} (h : IncludeKind.ofName? name = some kind) :
    Role.ofName? name = some (.inclusion kind) := by
  rw [Role.ofName?, h]

theorem Directive.findings_of_role {role : Role} (hd : d.argument = .closed start argument)
    (hrole : Role.ofName? d.name = some role) (line : List Char) :
    d.findings line = role.findings (byteColumn line d.start) argument := by
  rw [Directive.findings, hd]
  simp only [hrole]

theorem Role.mem_splitKeys_of_reference {role : Role} {column : Nat}
    (h : Finding.reference key ∈ role.findings column argument) : key ∈ splitKeys argument := by
  cases role with
  | inclusion kind =>
      simp only [findings] at h
      split at h
      · cases h
      · cases List.mem_singleton.mp h
  | reference =>
      obtain ⟨other, hmem, heq⟩ := List.mem_map.mp h
      cases heq
      exact hmem
  | label | bibitem | bibliography | citation =>
      obtain ⟨other, -, heq⟩ := List.mem_map.mp h
      cases heq
  | documentClass | opening | closing => cases List.mem_singleton.mp h

theorem Directive.exists_of_reference (d : Directive)
    (h : Finding.reference key ∈ d.findings line) :
    ∃ start argument, d.argument = .closed start argument ∧ key ∈ splitKeys argument := by
  rw [Directive.findings] at h
  split at h
  · cases h
  · cases List.mem_singleton.mp h
  · next start argument hargument =>
      split at h
      · exact ⟨start, argument, hargument, Role.mem_splitKeys_of_reference h⟩
      · cases h

/-! ### One line alone -/

section Line

variable {line : String} {finding : Finding}

/-- What is found in a line without line end that begins no verbatim-like
environment: its modeline, and what each of its directives contributes. -/
theorem found_scan_line (hfeed : '\n' ∉ line.toList)
    (hplain : ∀ d ∈ directives (stripComment line.toList), d.opensVerbatim? = none) :
    (scan line).found = ((modeline? line.toList).toList.map Finding.modeline ++
      (directives (stripComment line.toList)).flatMap
        (·.findings (stripComment line.toList))).map (⟨0, ·⟩) := by
  by_cases hne : line.toList = []
  · obtain rfl := String.toList_eq_nil_iff.mp hne
    rfl
  · rw [scan, sourceLines_of_feedless hfeed hne, scanLines, foundFrom_cons, lineFindings,
      bodyFindings_markup hplain]
    exact List.append_nil _

/-- A directive of the line contributes to what is found on it. -/
theorem mem_found_of_directive (hfeed : '\n' ∉ line.toList)
    (hplain : ∀ d ∈ directives (stripComment line.toList), d.opensVerbatim? = none)
    (hd : d ∈ directives (stripComment line.toList))
    (hf : finding ∈ d.findings (stripComment line.toList)) : ⟨0, finding⟩ ∈ (scan line).found := by
  rw [found_scan_line hfeed hplain]
  exact List.mem_map_of_mem (List.mem_append_right _ (List.mem_flatMap.mpr ⟨d, hd, hf⟩))

/-- No reference that is recorded holds a comma. -/
theorem comma_notMem_of_mem_references (hfeed : '\n' ∉ line.toList)
    (hplain : ∀ d ∈ directives (stripComment line.toList), d.opensVerbatim? = none)
    {o : Occurrence} (h : o ∈ (scan line).references) : ',' ∉ o.key.toList := by
  obtain ⟨f, hf, ho⟩ := List.mem_filterMap.mp h
  rw [found_scan_line hfeed hplain] at hf
  obtain ⟨finding, hfinding, rfl⟩ := List.mem_map.mp hf
  obtain ⟨key, hkey, rfl⟩ := Option.map_eq_some_iff.mp ho
  cases finding <;> cases hkey
  rcases List.mem_append.mp hfinding with hmem | hmem
  · obtain ⟨target, -, hother⟩ := List.mem_map.mp hmem
    cases hother
  · obtain ⟨d, -, hmem⟩ := List.mem_flatMap.mp hmem
    obtain ⟨start, argument, -, hkey⟩ := d.exists_of_reference hmem
    exact comma_notMem_of_mem_splitKeys hkey

/-- An inclusion that is recorded names something. -/
theorem target_ne_empty_of_mem_inclusions {text : String} {i : Inclusion}
    (h : i ∈ (scan text).inclusions) : i.target ≠ "" := by
  have hkeys : ⟨i.target, i.line⟩ ∈ (scan text).keys :=
    List.mem_append_right _ (List.mem_map_of_mem h)
  obtain ⟨line, -, hwritten⟩ := written_of_mem_keys hkeys
  intro hempty
  exact hwritten.solid.ne_nil (congrArg String.toList hempty)

end Line

end Markup

/-! ### What is pointed at -/

namespace Cursor

variable {line argument : List Char} {name key : String} {start cursor position : Nat}

/-- What is pointed at is told by one directive of the line. -/
theorem exists_directive_of_targetAt? {t : Target} (h : targetAt? line position = some t) :
    ∃ d ∈ directives (stripComment line), ∃ start argument,
      d.argument = .closed start argument ∧
        targetOf? d.name start argument (min position line.length) = some t := by
  rcases hfind : (directives (stripComment line)).find? (covers (min position line.length))
    with - | d
  · simp [targetAt?, hfind] at h
  · obtain ⟨start, argument, hargument, -⟩ := covers_iff.mp (List.find?_some hfind)
    refine ⟨d, List.mem_of_find?_eq_some hfind, start, argument, hargument, ?_⟩
    rwa [← targetAt?_of_outermost (find?_covers_iff.mp hfind) hargument]

/-- What is cited is a key of the argument. -/
theorem mem_splitKeys_of_citedKey? (h : citedKey? start argument cursor = some key) :
    key ∈ splitKeys argument := by
  obtain ⟨part, hpart, rfl⟩ := Option.map_eq_some_iff.mp h
  have hmem : part ∈ (keyPartsFrom start (argument.splitOn ',')).filter (·.key ≠ "") := by
    rcases Option.or_eq_some_iff.mp hpart with hunder | ⟨-, hfirst⟩
    · exact List.mem_of_find?_eq_some hunder
    · exact List.mem_of_head? hfirst
  rw [splitKeys, ← map_key_keyPartsFrom start]
  exact List.mem_map_of_mem hmem

theorem targetOf?_eq_citation (h : targetOf? name start argument cursor = some (.citation key)) :
    citesKeys name = true ∧ key ∈ splitKeys argument := by
  rw [targetOf?] at h
  split at h
  · cases h
  · split at h
    · next hcites =>
        obtain ⟨cited, hcited, heq⟩ := Option.map_eq_some_iff.mp h
        cases heq
        exact ⟨hcites, mem_splitKeys_of_citedKey? hcited⟩
    · split at h <;> cases h

theorem targetOf?_eq_inclusion (h : targetOf? name start argument cursor = some (.inclusion key)) :
    (∃ kind, IncludeKind.ofName? name = some kind) ∧ key = String.ofList (trim argument) := by
  rw [targetOf?] at h
  split at h
  · next hkind =>
      cases h
      exact ⟨Option.isSome_iff_exists.mp hkind, rfl⟩
  · split at h
    · obtain ⟨cited, -, heq⟩ := Option.map_eq_some_iff.mp h
      cases heq
    · split at h <;> cases h

theorem targetOf?_eq_label (h : targetOf? name start argument cursor = some (.label key)) :
    isReference name = true ∧ key = String.ofList (trim argument) ∧ key ≠ "" := by
  rw [targetOf?] at h
  split at h
  · cases h
  · split at h
    · obtain ⟨cited, -, heq⟩ := Option.map_eq_some_iff.mp h
      cases heq
    · split at h
      · next hlabel =>
          cases h
          rw [Bool.and_eq_true, decide_eq_true_iff] at hlabel
          exact ⟨hlabel.1, rfl, hlabel.2⟩
      · cases h

/-- **What the cursor points at is recorded, if it is a key.**  In a line that
begins no verbatim-like environment a citation that is pointed at is always among
those the scan records.  An inclusion is exactly if its argument is not blank, and
a label exactly if there is no comma in it; of a list of labels, which is pointed
at as if it were one, the scan records every member. -/
theorem pointed_key_recorded_iff {line : String} (hfeed : '\n' ∉ line.toList)
    (hplain : ∀ d ∈ directives (stripComment line.toList), d.opensVerbatim? = none)
    (position : Nat) :
    (∀ key, targetAt? line.toList position = some (.citation key) →
      ⟨key, 0⟩ ∈ (scan line).citations) ∧
    (∀ name, targetAt? line.toList position = some (.inclusion name) →
      ((∃ kind, ⟨kind, name, 0⟩ ∈ (scan line).inclusions) ↔ name ≠ "")) ∧
    (∀ key, targetAt? line.toList position = some (.label key) →
      (⟨key, 0⟩ ∈ (scan line).references ↔ ',' ∉ key.toList) ∧
      ∀ member ∈ splitKeys key.toList, ⟨member, 0⟩ ∈ (scan line).references) := by
  refine ⟨fun key h => ?_, fun name h => ?_, fun key h => ?_⟩
  · obtain ⟨d, hd, start, argument, hargument, htarget⟩ := exists_directive_of_targetAt? h
    obtain ⟨hcites, hkey⟩ := targetOf?_eq_citation htarget
    refine List.mem_filterMap.mpr ⟨⟨0, .citation key⟩, ?_, rfl⟩
    refine mem_found_of_directive hfeed hplain hd ?_
    rw [Directive.findings_of_role hargument (Role.ofName?_of_citesKeys hcites)]
    exact List.mem_map_of_mem hkey
  · obtain ⟨d, hd, start, argument, hargument, htarget⟩ := exists_directive_of_targetAt? h
    obtain ⟨⟨kind, hkind⟩, rfl⟩ := targetOf?_eq_inclusion htarget
    constructor
    · rintro ⟨kind, hmem⟩
      exact target_ne_empty_of_mem_inclusions hmem
    · intro hne
      refine ⟨kind, List.mem_filterMap.mpr ⟨⟨0, .inclusion kind _⟩, ?_, rfl⟩⟩
      refine mem_found_of_directive hfeed hplain hd ?_
      rw [Directive.findings_of_role hargument (Role.ofName?_of_kind hkind)]
      simp [Role.findings, hne]
  · obtain ⟨d, hd, start, argument, hargument, htarget⟩ := exists_directive_of_targetAt? h
    obtain ⟨hreference, rfl, hne⟩ := targetOf?_eq_label htarget
    have hrecorded : ∀ member ∈ splitKeys argument, ⟨member, 0⟩ ∈ (scan line).references := by
      intro member hmember
      refine List.mem_filterMap.mpr ⟨⟨0, .reference member⟩, ?_, rfl⟩
      refine mem_found_of_directive hfeed hplain hd ?_
      rw [Directive.findings_of_role hargument (Role.ofName?_of_isReference hreference)]
      exact List.mem_map_of_mem hmember
    rw [String.toList_ofList, splitKeys_trim]
    refine ⟨⟨fun hmem => ?_, fun hcomma => ?_⟩, hrecorded⟩
    · have hcomma := comma_notMem_of_mem_references hfeed hplain hmem
      rwa [String.toList_ofList] at hcomma
    · exact hrecorded _ (mem_splitKeys_of_commaless hcomma hne)

/-- A citation, an inclusion and a list of labels, before a comment. -/
def threeTargets : String :=
  "\\Parencite\x7ba, b\x7d\\input\x7b c \x7d\\cref\x7bx, y\x7d% \\begin\x7bverbatim\x7d"

theorem pointed_key_recorded_iff_three :
    '\n' ∉ threeTargets.toList ∧
    (∀ d ∈ directives (stripComment threeTargets.toList), d.opensVerbatim? = none) ∧
    (targetAt? threeTargets.toList 14 = some (.citation "b") ∧
      ⟨"b", 0⟩ ∈ (scan threeTargets).citations) ∧
    (targetAt? threeTargets.toList 24 = some (.inclusion "c") ∧
      ∃ kind, ⟨kind, "c", 0⟩ ∈ (scan threeTargets).inclusions) ∧
    (targetAt? threeTargets.toList 36 = some (.label "x, y") ∧
      ⟨"x, y", 0⟩ ∉ (scan threeTargets).references ∧
      ⟨"y", 0⟩ ∈ (scan threeTargets).references) := by
  have hfeed : '\n' ∉ threeTargets.toList := by decide
  have hplain : ∀ d ∈ directives (stripComment threeTargets.toList), d.opensVerbatim? = none := by
    decide
  have hcitation : targetAt? threeTargets.toList 14 = some (.citation "b") := by decide
  have hinclusion : targetAt? threeTargets.toList 24 = some (.inclusion "c") := by decide
  have hlabel : targetAt? threeTargets.toList 36 = some (.label "x, y") := by decide
  obtain ⟨hlist, hmembers⟩ :=
    (pointed_key_recorded_iff hfeed hplain 36).2.2 _ hlabel
  refine ⟨hfeed, hplain, ⟨hcitation, ?_⟩, ⟨hinclusion, ?_⟩, hlabel, ?_, ?_⟩
  · exact (pointed_key_recorded_iff hfeed hplain 14).1 _ hcitation
  · exact ((pointed_key_recorded_iff hfeed hplain 24).2.1 _ hinclusion).mpr (by decide)
  · exact fun hmem => hlist.mp hmem (by decide)
  · exact hmembers "y" (by decide)

/-- The cursor points at an inclusion of nothing and at a list of labels as if it
were one label; the scan records neither. -/
theorem blank_inclusion_and_label_list_not_recorded :
    ('\n' ∉ "\\include\x7b\x7d".toList ∧
      (∀ d ∈ directives (stripComment "\\include\x7b\x7d".toList), d.opensVerbatim? = none) ∧
      targetAt? "\\include\x7b\x7d".toList 0 = some (.inclusion "") ∧
      ∀ kind, ⟨kind, "", 0⟩ ∉ (scan "\\include\x7b\x7d").inclusions) ∧
    ('\n' ∉ "\\cref\x7ba,b\x7d".toList ∧
      (∀ d ∈ directives (stripComment "\\cref\x7ba,b\x7d".toList), d.opensVerbatim? = none) ∧
      targetAt? "\\cref\x7ba,b\x7d".toList 8 = some (.label "a,b") ∧
      ⟨"a,b", 0⟩ ∉ (scan "\\cref\x7ba,b\x7d").references) := by
  have hnone : (scan "\\include\x7b\x7d").inclusions = [] := by decide
  refine ⟨⟨by decide, by decide, by decide, ?_⟩, by decide, by decide, by decide, by decide⟩
  intro kind hmem
  rw [hnone] at hmem
  cases hmem

end Cursor

end LatexIndex
