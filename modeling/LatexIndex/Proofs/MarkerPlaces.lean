/-
LatexIndex/Proofs/MarkerPlaces.lean

Where markers stand, and where their nesting breaks.

A marker is written: on its line, at its byte column, there is the backslash of a
`\begin` or an `\end` with the name of the environment as its argument
(`Marker.StandsOn`).  For a marker that comes from a directive this is what the
directive says.  The end of a verbatim-like environment is found as a piece of
text, but the names of these environments are such that this piece of text is a
directive too (`standsOn_closing`).

The faults in the nesting of environments are those of a reader with a stack.
While no marker meets one, the markers so far can be continued to well nested
ones, and the first marker that meets one is the first after which they cannot
(`nesting_cases`).
-/
import LatexIndex.Proofs.Directives
import LatexIndex.Proofs.Nesting
import LatexIndex.Proofs.UnreadText

namespace LatexIndex.Markup

open Text

variable {line kept : List Char} {n : Nat} {m : Marker} {d : Directive} {environment : String}
  {mode : Mode}

/-! ### Markers in their lines -/

/-- The command that a marker is written with. -/
def Marker.command (m : Marker) : String :=
  if m.isOpen then "begin" else "end"

/-- A marker is written on a line as the directive `d`: the command of `d` is
that of the marker, its argument is the name of the environment, and its
backslash stands at the byte column of the marker. -/
structure Marker.WrittenAs (m : Marker) (d : Directive) (line : List Char) : Prop where
  directive : d ∈ directives line
  command : d.name = m.command
  name : ∃ start argument, d.argument = .closed start argument ∧
    String.ofList (trim argument) = m.name
  column : ∃ front back, line = front ++ '\\' :: (m.command.toList ++ back) ∧
    front.length = d.start ∧ bytes front = m.column

/-- A marker is written on a line. -/
def Marker.StandsOn (m : Marker) (line : List Char) : Prop :=
  ∃ d, m.WrittenAs d line

/-- The marker of a directive is written as that directive. -/
theorem Directive.standsOn_of_mem (hbegins : kept <+: line) (hd : d ∈ directives kept)
    (hm : m ∈ markersOn n (d.findings line)) : m.StandsOn line := by
  rcases d.markersOn_findings n line with hnil | ⟨start, argument, isOpen, harg, hone, hname⟩
  · rw [hnil] at hm
    cases hm
  · rw [hone] at hm
    obtain rfl := List.mem_singleton.mp hm
    have hline := mem_directives_of_begins hbegins hd harg
    refine ⟨d, hline, hname, ⟨start, argument, harg, rfl⟩, ?_⟩
    obtain ⟨front, written, rest, rfl, hfront, ⟨back, rfl⟩, -⟩ :=
      exists_of_mem_directives hline harg
    refine ⟨front, back ++ (argument ++ '}' :: rest), ?_, hfront, ?_⟩
    · rw [hname, List.append_assoc]
      rfl
    · show bytes front = byteColumn _ d.start
      rw [← hfront, byteColumn_front]

/-- The names of verbatim-like environments have no blanks, braces or
backslashes. -/
theorem plain_of_isVerbatim (h : isVerbatim environment = true) :
    (∀ c ∈ environment.toList, isBlank c = false) ∧
      ∀ c ∈ environment.toList, c ≠ '\\' ∧ c ≠ '{' ∧ c ≠ '}' := by
  have hall : environment.toList.all
      (fun c => !isBlank c && c != '\\' && c != '{' && c != '}') = true := by
    simp only [isVerbatim, List.mem_cons, List.not_mem_nil, or_false, decide_eq_true_eq] at h
    rcases h with rfl | rfl | rfl | rfl | rfl <;> decide
  rw [List.all_eq_true] at hall
  constructor <;> intro c hc <;> have hplain := hall c hc <;> simp at hplain
  · exact hplain.1.1.1
  · exact ⟨hplain.1.1.2, hplain.1.2, hplain.2⟩

/-- The end of a verbatim-like environment is written as a directive. -/
theorem standsOn_closing {start pos : Nat} (hverbatim : isVerbatim environment = true)
    (h : closingPosition? environment start line = some pos) :
    (Marker.mk environment n (byteColumn line pos) false).StandsOn line := by
  obtain ⟨hblank, hplain⟩ := plain_of_isVerbatim hverbatim
  obtain ⟨front, rest, rfl, rfl, -⟩ := closingPosition?_eq_some h
  have hline : front ++ closingDelimiter environment ++ rest
      = front ++ '\\' :: ("end".toList ++ '{' :: (environment.toList ++ '}' :: rest)) := by
    simp [closingDelimiter_eq]
  have hname : String.ofList ("end".toList.takeWhile isLetter) = "end" := by decide
  rw [hline]
  refine ⟨⟨front.length, "end", .closed (front.length + 5) environment.toList⟩, ?_, hname, ?_, ?_⟩
  · refine mem_directivesFrom_iff.mpr ⟨front, _, rfl, ?_⟩
    rw [Nat.zero_add]
    exact directiveAt?_end hplain front.length rest
  · exact ⟨_, _, rfl, by rw [trim_of_blankless hblank, String.ofList_toList]⟩
  · exact ⟨front, '{' :: (environment.toList ++ '}' :: rest), rfl, rfl,
      (byteColumn_front front _).symm⟩

theorem standsOn_directiveFindings {ds : List Directive} (hbegins : kept <+: line)
    (hds : ∀ d ∈ ds, d ∈ directives kept) (hm : m ∈ markersOn n (directiveFindings line ds).1) :
    m.StandsOn line := by
  induction ds with
  | nil => cases hm
  | cons d more ih =>
      obtain ⟨hd, hmore⟩ := List.forall_mem_cons.mp hds
      rw [directiveFindings] at hm
      -- a verbatim-like environment that begins here brings its own end along
      rcases hopens : d.opensVerbatim? with - | ⟨environment, stop⟩
      · rw [hopens] at hm
        dsimp only at hm
        rw [markersOn_append, List.mem_append] at hm
        exact hm.elim (d.standsOn_of_mem hbegins hd) (ih hmore)
      · obtain ⟨-, hverbatim, -⟩ := Directive.findings_of_opensVerbatim? hopens line
        rw [hopens] at hm
        dsimp only at hm
        split at hm
        · next pos hpos =>
            rw [markersOn_append, List.mem_append] at hm
            rcases hm with hm | hm
            · exact d.standsOn_of_mem hbegins hd hm
            · obtain rfl := List.mem_singleton.mp hm
              exact standsOn_closing hverbatim hpos
        · exact d.standsOn_of_mem hbegins hd hm

/-- The mode names a verbatim-like environment if it names one at all. -/
def Mode.Sound : Mode → Prop
  | .markup => True
  | .verbatim environment => isVerbatim environment = true

theorem Mode.Sound.after (h : mode.Sound) (markers : List Marker) : (mode.after markers).Sound := by
  unfold Mode.after
  split
  · exact h
  · split
    · next hbegin => exact (Bool.and_eq_true_iff.mp hbegin).2
    · trivial

theorem standsOn_lineFindings (hmode : mode.Sound)
    (hm : m ∈ markersOn n (lineFindings mode line).1) : m.StandsOn line := by
  rw [markersOn_lineFindings] at hm
  cases mode with
  | markup => exact standsOn_directiveFindings (stripComment_begins line) (fun _ hd => hd) hm
  | verbatim environment =>
      rw [bodyFindings] at hm
      split at hm
      · next pos hpos =>
          obtain rfl := List.mem_singleton.mp hm
          exact standsOn_closing hmode hpos
      · cases hm

/-- **Markers are written on their lines.** -/
theorem standsOn_of_mem_foundFrom {lines : List (List Char)} (hmode : mode.Sound)
    (hm : m ∈ markersOf (foundFrom mode n lines)) :
    ∃ k line, m.line = n + k ∧ lines[k]? = some line ∧ m.StandsOn line := by
  induction lines generalizing mode n with
  | nil => cases hm
  | cons text more ih =>
      rw [markersOf_foundFrom_cons, List.mem_append] at hm
      rcases hm with hm | hm
      · exact ⟨0, text, line_of_mem_markersOn hm, rfl, standsOn_lineFindings hmode hm⟩
      · -- the mode of the next line is told by markers, whose names are looked up
        have hnext : (lineFindings mode text).2.Sound := by
          rw [snd_lineFindings n]
          exact hmode.after _
        obtain ⟨k, line, hline, hk, hstands⟩ := ih hnext hm
        exact ⟨k + 1, line, by omega, hk, hstands⟩

/-! ### Where nesting breaks -/

/-- Markers that can be continued to well nested ones. -/
def Nestable (markers : List Marker) : Prop :=
  ∃ more, Nested (markers ++ more)

/-- The environment whose end is at fault. -/
def Fault.ended? : Fault → Option String
  | unterminated _ => none
  | mismatched name _ _ => some name
  | unopened name => some name

/-- Whether a fault is one of the nesting of environments. -/
def LineFault.isOfNesting (f : LineFault) : Bool :=
  f.fault.ended?.isSome

/-- Whatever is open can be ended. -/
theorem stackAfter_ends (names : List String) :
    stackAfter true names (names.map fun name => ⟨name, 0, 0, false⟩) = some [] := by
  induction names with
  | nil => rfl
  | cons name names ih =>
      rw [List.map_cons, stackAfter_cons]
      show (Marker.stack true (name :: names) ⟨name, 0, 0, false⟩).bind _ = _
      rw [Marker.stack_pop (m := ⟨name, 0, 0, false⟩) Bool.false_ne_true, Option.bind_some, ih]

/-- **What can be continued to well nested markers** is what a reader with a
stack can read. -/
theorem nestable_iff {markers : List Marker} :
    Nestable markers ↔ ∃ names, stackAfter true [] markers = some names := by
  constructor
  · rintro ⟨more, h⟩
    obtain ⟨names, hnames, -⟩ := exists_stackAfter h
    exact ⟨names, hnames⟩
  · rintro ⟨names, hnames⟩
    refine ⟨names.map fun name => ⟨name, 0, 0, false⟩, ?_⟩
    rw [nested_iff, stackAfter_append, hnames, Option.bind_some, stackAfter_ends]

instance (markers : List Marker) : Decidable (Nestable markers) :=
  decidable_of_iff ((stackAfter true [] markers).isSome = true)
    (Option.isSome_iff_exists.trans nestable_iff.symm)

/-- Markers are read with a stack, and `first?` is the fault of the first of them
that cannot be read. -/
inductive FirstBreak : List String → List Marker → Option LineFault → Prop
  | nil {names : List String} : FirstBreak names [] none
  | here {names : List String} {m : Marker} {markers : List Marker} {fault : Fault} :
      m.stack true names = none → fault.ended? = some m.name →
      FirstBreak names (m :: markers) (some ⟨m.line, fault⟩)
  | later {names names' : List String} {m : Marker} {markers : List Marker}
      {first? : Option LineFault} :
      m.stack true names = some names' → FirstBreak names' markers first? →
      FirstBreak names (m :: markers) first?

/-- **The faults of nesting** start at the first marker that cannot be read with
the stack of open environments. -/
theorem firstBreak_faultsFrom (opened : List (String × Nat)) (found : List Found) :
    FirstBreak (opened.map Prod.fst) (markersOf found)
      ((faultsFrom opened found).find? LineFault.isOfNesting) := by
  induction found generalizing opened with
  | nil => exact .nil
  | cons f more ih =>
      rcases f with ⟨n, finding⟩
      cases finding with
      | opening name column => exact .later (Marker.stack_push rfl) (ih ((name, n) :: opened))
      | closing name column =>
          -- nothing is open, or the innermost environment is, or is not, the one that ends
          rcases opened with - | ⟨⟨inner, openedOn⟩, outer⟩
          · exact .here rfl rfl
          · rw [faultsFrom]
            dsimp only
            split
            · next hname =>
                refine .later ?_ (ih outer)
                rw [List.map_cons, hname]
                exact Marker.stack_pop Bool.false_ne_true
            · next hname => exact .here (by simp [Marker.stack, hname]) rfl
      | _ => exact ih opened

theorem FirstBreak.exists_stackAfter {names : List String} {markers : List Marker}
    (h : FirstBreak names markers none) :
    ∃ names', stackAfter true names markers = some names' := by
  generalize hfirst : (none : Option LineFault) = first? at h
  induction h with
  | nil => exact ⟨_, rfl⟩
  | here => cases hfirst
  | later hm _ ih =>
      rw [stackAfter_cons, hm, Option.bind_some]
      exact ih hfirst

theorem FirstBreak.exists_marker {names : List String} {markers : List Marker} {f : LineFault}
    (h : FirstBreak names markers (some f)) :
    ∃ before m after names', markers = before ++ m :: after ∧
      stackAfter true names before = some names' ∧ m.stack true names' = none ∧
      f.line = m.line ∧ f.fault.ended? = some m.name := by
  generalize hfirst : some f = first? at h
  induction h with
  | nil => cases hfirst
  | here hm hname =>
      obtain rfl := Option.some.inj hfirst
      exact ⟨[], _, _, _, rfl, rfl, hm, rfl, hname⟩
  | @later names names' m markers first? hm _ ih =>
      obtain ⟨before, m', after, names'', rfl, hbefore, hm', hf⟩ := ih hfirst
      refine ⟨m :: before, m', after, names'', rfl, ?_, hm', hf⟩
      rw [stackAfter_cons, hm, Option.bind_some, hbefore]

/-- What cannot be continued to well nested markers cannot be continued so after
more of them. -/
theorem Nestable.of_append {as bs : List Marker} (h : Nestable (as ++ bs)) : Nestable as := by
  obtain ⟨more, hmore⟩ := h
  exact ⟨bs ++ more, by rwa [← List.append_assoc]⟩

/-- The first fault of nesting is at the first marker after which markers cannot
be continued to well nested ones. -/
theorem FirstBreak.exists_not_nestable {markers : List Marker} {f : LineFault}
    (h : FirstBreak [] markers (some f)) :
    ∃ before m after, markers = before ++ m :: after ∧ Nestable before ∧
      ¬ Nestable (before ++ [m]) ∧ f.line = m.line ∧ f.fault.ended? = some m.name := by
  obtain ⟨before, m, after, names, rfl, hbefore, hm, hf⟩ := h.exists_marker
  refine ⟨before, m, after, rfl, nestable_iff.mpr ⟨names, hbefore⟩, ?_, hf⟩
  rw [nestable_iff, stackAfter_append, hbefore, Option.bind_some, stackAfter_cons, hm]
  rintro ⟨_, h⟩
  cases h

/-- **Markers are in order, each where it is written, and the faults of nesting
are where nesting breaks.**  The markers of a document are in strictly increasing
order of line and byte column, and at its column on its line stands the backslash
of the `\begin` or `\end` that it comes from.  There is a fault of nesting
exactly if the markers cannot be continued to well nested ones, and the first one
is on the line of the first marker after which they cannot. -/
theorem markers_in_order_faults_at_breaks (text : String) :
    (scan text).markers.Pairwise
      (fun a b => a.line < b.line ∨ a.line = b.line ∧ a.column < b.column) ∧
    (∀ m ∈ (scan text).markers,
      ∃ line, (sourceLines text.toList)[m.line]? = some line ∧ m.StandsOn line) ∧
    ((∃ f ∈ (scan text).faults, f.isOfNesting = true) ↔ ¬ Nestable (scan text).markers) ∧
    ∀ f, (scan text).faults.find? LineFault.isOfNesting = some f →
      ∃ before m after, (scan text).markers = before ++ m :: after ∧ Nestable before ∧
        ¬ Nestable (before ++ [m]) ∧ f.line = m.line ∧ f.fault.ended? = some m.name := by
  have hbreak : FirstBreak [] (scan text).markers
      ((scan text).faults.find? LineFault.isOfNesting) := firstBreak_faultsFrom [] _
  refine ⟨(pairwise_markers text).imp follows_iff.mp, fun m hm => ?_, ?_, fun f hf => ?_⟩
  · obtain ⟨k, line, hk, hline, hstands⟩ :=
      standsOn_of_mem_foundFrom (show Mode.Sound .markup from trivial) hm
    rw [Nat.zero_add] at hk
    exact ⟨line, hk ▸ hline, hstands⟩
  · rw [← List.find?_isSome]
    rcases hfirst : (scan text).faults.find? LineFault.isOfNesting with - | f
    · rw [hfirst] at hbreak
      simpa using nestable_iff.mpr hbreak.exists_stackAfter
    · rw [hfirst] at hbreak
      obtain ⟨before, m, after, hmarkers, -, hnot, -⟩ := hbreak.exists_not_nestable
      simp only [Option.isSome_some, true_iff]
      rw [hmarkers, List.append_cons]
      exact fun h => hnot h.of_append
  · rw [hf] at hbreak
    exact hbreak.exists_not_nestable

/-- A verbatim environment closed on the line it begins on, after a character of
two bytes, and an end of the wrong name on the next line. -/
def crossedText : String :=
  "é\\begin{a}\\begin{verbatim}x\\end{verbatim}\n\\end{b}\n"

theorem markers_in_order_faults_at_breaks_crossed :
    (∃ line, (sourceLines crossedText.toList)[0]? = some line ∧
      (Marker.mk "verbatim" 0 28 false).StandsOn line) ∧
    (scan crossedText).faults.find? LineFault.isOfNesting
      = some ⟨1, .mismatched "b" "a" 0⟩ ∧
    ∃ before m after, (scan crossedText).markers = before ++ m :: after ∧ Nestable before ∧
      ¬ Nestable (before ++ [m]) ∧ 1 = m.line ∧ some "b" = some m.name := by
  obtain ⟨-, hstands, -, hfirst⟩ := markers_in_order_faults_at_breaks crossedText
  have hfault : (scan crossedText).faults.find? LineFault.isOfNesting
      = some ⟨1, .mismatched "b" "a" 0⟩ := by decide
  exact ⟨hstands ⟨"verbatim", 0, 28, false⟩ (by decide), hfault, hfirst _ hfault⟩

end LatexIndex.Markup
