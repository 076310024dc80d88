/-
LatexIndex/Proofs/Concatenation.lean

Scanning one text after another.

A scan goes from line to line, and all that it carries along is the mode in
which the next line is read.  Markers tell the mode, so a text that ends with a
line end and whose last marker begins no verbatim-like environment has no
influence on what follows it: the scan of the two texts is the scan of the first
and then that of the second, further down (`scan_append`).

The views of a scan are views of one list, so the law of the scan is the law of
each of them (`scan_compositional`).  Faults in the nesting of environments are
the one thing it does not hold of: an end may belong to a begin in the text
before.
-/
import LatexIndex.Proofs.Markers

namespace LatexIndex

open Text

/-! ### Lines -/

namespace Text

/-- The text is empty or its last line is ended. -/
def EndsLine (text : String) : Prop :=
  text = "" ∨ text.toList.getLast? = some '\n'

instance (text : String) : Decidable (EndsLine text) :=
  inferInstanceAs (Decidable (_ ∨ _))

/-- A character that ends no line goes before the first line of the rest. -/
theorem sourceLines_cons {c : Char} {rest line : List Char} {lines : List (List Char)}
    (hfeed : c = '\n' → False) (hpair : ∀ rest', c = '\r' → rest = '\n' :: rest' → False)
    (h : sourceLines rest = line :: lines) : sourceLines (c :: rest) = (c :: line) :: lines := by
  rw [sourceLines.eq_4 c rest hfeed hpair, h]

theorem sourceLines_ne_nil {text : List Char} (h : text ≠ []) : sourceLines text ≠ [] := by
  fun_cases sourceLines text with
  | case1 => exact absurd rfl h
  | case2 | case3 | case4 | case5 => exact List.cons_ne_nil _ _

/-- What follows a line feed does not touch the lines before it. -/
theorem sourceLines_feed (before after : List Char) :
    sourceLines (before ++ '\n' :: after)
      = sourceLines (before ++ ['\n']) ++ sourceLines after := by
  induction before using sourceLines.induct with
  | case1 => simp [sourceLines]
  | case2 rest ih => simp [sourceLines, ih]
  | case3 rest ih => simp [sourceLines, ih]
  | case4 c rest hfeed hpair _ ih | case5 c rest hfeed hpair _ _ _ ih =>
      rcases rest with - | ⟨d, rest⟩
      · -- the line feed may be the second half of a line end
        by_cases hc : c = '\r'
        · simp [hc, sourceLines]
        · simp [sourceLines.eq_4 c _ hfeed fun _ hc' _ => hc hc', sourceLines]
      · have hpair' : ∀ more rest', c = '\r' → d :: rest ++ more = '\n' :: rest' → False := by
          intro more rest' hc heq
          exact hpair rest hc (by rw [(List.cons.inj heq).1])
        have hne : sourceLines (d :: rest ++ ['\n']) ≠ [] := sourceLines_ne_nil (by simp)
        obtain ⟨line, lines, hlines⟩ := List.exists_cons_of_ne_nil hne
        rw [hlines, List.cons_append] at ih
        have hfirst := sourceLines_cons hfeed (hpair' ['\n']) hlines
        have hboth := sourceLines_cons hfeed (hpair' ('\n' :: after)) ih
        calc sourceLines (c :: (d :: rest ++ '\n' :: after))
            = (c :: line) :: (lines ++ sourceLines after) := hboth
          _ = sourceLines (c :: (d :: rest ++ ['\n'])) ++ sourceLines after := by
              rw [hfirst, List.cons_append]

/-- **Lines of two texts**: if the first ends its last line, they are the lines
of the first and the lines of the second. -/
theorem sourceLines_append {before : String} (h : EndsLine before) (after : String) :
    sourceLines (before ++ after).toList
      = sourceLines before.toList ++ sourceLines after.toList := by
  rw [String.toList_append]
  rcases h with rfl | h
  · rfl
  · obtain ⟨init, hinit⟩ := List.getLast?_eq_some_iff.mp h
    rw [hinit, List.append_assoc]
    exact sourceLines_feed init after.toList

/-- A line without the carriage return that belongs to a line feed after it. -/
def chomp : List Char → List Char
  | [] => []
  | ['\r'] => []
  | c :: rest => c :: chomp rest

theorem chomp_cases (line : List Char) : line = chomp line ∨ line = chomp line ++ ['\r'] := by
  fun_induction chomp line with
  | case1 => exact .inl rfl
  | case2 => exact .inr rfl
  | case3 c rest _ ih => exact ih.imp (congrArg (c :: ·)) (congrArg (c :: ·))

theorem chomp_return (line : List Char) : chomp (line ++ ['\r']) = line := by
  induction line with
  | nil => rfl
  | cons c line ih =>
      rw [List.cons_append, chomp.eq_3 c _ (by simp), ih]

/-- A text without line feeds is one line when a line feed follows it. -/
theorem sourceLines_chomp {line : List Char} (h : '\n' ∉ line) :
    sourceLines (line ++ ['\n']) = [chomp line] := by
  fun_induction chomp line with
  | case1 | case2 => rfl
  | case3 c rest hreturn ih =>
      obtain ⟨hfeed, hrest⟩ := not_or.mp (mt List.mem_cons.mpr h)
      refine sourceLines_cons (fun hc => hfeed hc.symm) (fun rest' hc heq => ?_) (ih hrest)
      rcases rest with - | ⟨d, rest⟩
      · exact hreturn hc rfl
      · exact hrest (by rw [(List.cons.inj heq).1]; exact List.mem_cons_self)

end Text

namespace Markup

/-! ### Moving down -/

/-- The same finding, `n` lines further down. -/
def Found.down (n : Nat) (f : Found) : Found :=
  { f with line := n + f.line }

/-- The same inclusion, `n` lines further down. -/
def Inclusion.down (n : Nat) (i : Inclusion) : Inclusion :=
  { i with line := n + i.line }

/-- The same occurrence, `n` lines further down. -/
def Occurrence.down (n : Nat) (o : Occurrence) : Occurrence :=
  { o with line := n + o.line }

/-- The same marker, `n` lines further down. -/
def Marker.down (n : Nat) (m : Marker) : Marker :=
  { m with line := n + m.line }

theorem Found.inclusion?_down (n : Nat) (f : Found) :
    (f.down n).inclusion? = f.inclusion?.map (Inclusion.down n) := by
  rcases f with ⟨line, finding⟩
  cases finding <;> rfl

theorem Found.occurrence?_down (pick : Finding → Option String) (n : Nat) (f : Found) :
    (f.down n).occurrence? pick = (f.occurrence? pick).map (Occurrence.down n) := by
  simp only [occurrence?, down, Option.map_map]
  rfl

theorem Found.marker?_down (n : Nat) (f : Found) :
    (f.down n).marker? = f.marker?.map (Marker.down n) := by
  rcases f with ⟨line, finding⟩
  cases finding <;> rfl

theorem foundFrom_down (mode : Mode) (n k : Nat) (lines : List (List Char)) :
    foundFrom mode (n + k) lines = (foundFrom mode k lines).map (Found.down n) := by
  induction lines generalizing mode k with
  | nil => rfl
  | cons text more ih =>
      rw [foundFrom_cons, foundFrom_cons, List.map_append, List.map_map, Nat.add_assoc, ih]
      rfl

/-! ### One scan after another -/

/-- The scan of a text that is followed by a text with the scan `t`. -/
def Scan.followedBy (s t : Scan) : Scan :=
  ⟨s.found ++ t.found.map (Found.down s.lineCount), s.lineCount + t.lineCount⟩

/-- The verbatim-like environment that is open at the end of a text. -/
def Scan.openVerbatim? (s : Scan) : Option String :=
  match s.markers.getLast? with
  | none => none
  | some m => if m.isOpen && isVerbatim m.name then some m.name else none

theorem Scan.after_markers {s : Scan} (h : s.openVerbatim? = none) :
    Mode.after .markup s.markers = .markup := by
  rw [openVerbatim?] at h
  rw [Mode.after]
  rcases hlast : s.markers.getLast? with - | m
  · rfl
  · rw [hlast] at h
    dsimp only at h ⊢
    rw [ite_eq_right_iff] at h
    exact if_neg fun hbegin => Option.some_ne_none _ (h hbegin)

theorem foundFrom_append (mode : Mode) (n : Nat) (as bs : List (List Char)) :
    foundFrom mode n (as ++ bs)
      = foundFrom mode n as ++ foundFrom (modeAfter mode as) (n + as.length) bs := by
  induction as generalizing mode n with
  | nil => rfl
  | cons text more ih =>
      rw [List.cons_append, foundFrom_cons, foundFrom_cons, List.append_assoc, ih,
        List.length_cons, Nat.add_right_comm, Nat.add_assoc]
      rfl

/-- **The scan of two texts**: if the first ends its last line and leaves no
verbatim-like environment open, it is the scan of the first followed by the scan
of the second. -/
theorem scan_append {before : String} (hend : EndsLine before)
    (hopen : (scan before).openVerbatim? = none) (after : String) :
    scan (before ++ after) = (scan before).followedBy (scan after) := by
  have hmode : modeAfter .markup (sourceLines before.toList) = .markup := by
    rw [modeAfter_eq _ 0]
    exact Scan.after_markers hopen
  rw [scan, sourceLines_append hend, scanLines, foundFrom_append, hmode, List.length_append,
    Nat.add_comm 0, foundFrom_down]
  rfl

namespace Scan

/-- A view of one scan after another is the view of the one and then that of the
other, further down. -/
theorem filterMap_followedBy {α : Type} {view : Found → Option α} {down : Nat → α → α}
    (h : ∀ n f, view (f.down n) = (view f).map (down n)) (s t : Scan) :
    (s.followedBy t).found.filterMap view
      = s.found.filterMap view ++ (t.found.filterMap view).map (down s.lineCount) := by
  rw [followedBy, List.filterMap_append, List.filterMap_map, List.map_filterMap]
  congr 2
  funext f
  exact h s.lineCount f

theorem occurrences_followedBy (pick : Finding → Option String) (s t : Scan) :
    (s.followedBy t).occurrences pick
      = s.occurrences pick ++ (t.occurrences pick).map (Occurrence.down s.lineCount) :=
  filterMap_followedBy (Found.occurrence?_down pick) s t

theorem markers_followedBy (s t : Scan) :
    (s.followedBy t).markers = s.markers ++ t.markers.map (Marker.down s.lineCount) :=
  filterMap_followedBy Found.marker?_down s t

theorem declaresRoot_followedBy (s t : Scan) :
    (s.followedBy t).declaresRoot = (s.declaresRoot || t.declaresRoot) := by
  simp only [declaresRoot, followedBy, List.any_append, List.any_map]
  rfl

theorem openVerbatim?_followedBy {s t : Scan} (hs : s.openVerbatim? = none)
    (ht : t.openVerbatim? = none) : (s.followedBy t).openVerbatim? = none := by
  rw [openVerbatim?] at hs ht ⊢
  rw [markers_followedBy, List.getLast?_append, List.getLast?_map]
  rcases hlast : t.markers.getLast? with - | m
  · exact hs
  · rw [hlast] at ht
    exact ht

end Scan

theorem line_lt_of_mem_found {text : String} {f : Found} (h : f ∈ (scan text).found) :
    f.line < (scan text).lineCount := by
  have hline := (line_of_mem_foundFrom h).2
  rwa [Nat.zero_add] at hline

/-- What is found on the lines of a scan other than number `n`. -/
def Scan.elsewhere (s : Scan) (n : Nat) : List Found :=
  s.found.filter (·.line ≠ n)

/-- **A line has no influence on other lines** unless it opens a verbatim-like
environment: what is found elsewhere is what is found before and after it. -/
theorem elsewhere_scan {before line : String} (hend : EndsLine before)
    (hopen : (scan before).openVerbatim? = none) (hline : '\n' ∉ line.toList)
    (hplain : (scan (line ++ "\n")).openVerbatim? = none) (after : String) :
    (scan (before ++ (line ++ "\n") ++ after)).elsewhere (scan before).lineCount
      = (scan before).found ++
        (scan after).found.map (Found.down ((scan before).lineCount + 1)) := by
  have hone : (scan (line ++ "\n")).lineCount = 1 := by
    show (sourceLines (line ++ "\n").toList).length = 1
    rw [String.toList_append]
    exact congrArg List.length (sourceLines_chomp hline)
  have hfeed : EndsLine (before ++ (line ++ "\n")) := by
    right
    simp [String.toList_append]
  have hnext : (scan (before ++ (line ++ "\n"))).openVerbatim? = none := by
    rw [scan_append hend hopen]
    exact Scan.openVerbatim?_followedBy hopen hplain
  rw [scan_append hfeed hnext, scan_append hend hopen]
  simp only [Scan.elsewhere, Scan.followedBy, List.filter_append, hone]
  -- the lines before have smaller numbers, the line itself has number `n`
  have hbefore : (scan before).found.filter (·.line ≠ (scan before).lineCount)
      = (scan before).found := by
    rw [List.filter_eq_self]
    intro f hf
    simpa using Nat.ne_of_lt (line_lt_of_mem_found hf)
  have hown : ((scan (line ++ "\n")).found.map (Found.down (scan before).lineCount)).filter
      (·.line ≠ (scan before).lineCount) = [] := by
    rw [List.filter_eq_nil_iff]
    intro f hf
    obtain ⟨g, hg, rfl⟩ := List.mem_map.mp hf
    have hlt := line_lt_of_mem_found hg
    rw [hone, Nat.lt_one_iff] at hlt
    simp [Found.down, hlt]
  have hafter : ((scan after).found.map (Found.down ((scan before).lineCount + 1))).filter
      (·.line ≠ (scan before).lineCount)
        = (scan after).found.map (Found.down ((scan before).lineCount + 1)) := by
    rw [List.filter_eq_self]
    intro f hf
    obtain ⟨g, -, rfl⟩ := List.mem_map.mp hf
    have hne : (g.down ((scan before).lineCount + 1)).line ≠ (scan before).lineCount := by
      show (scan before).lineCount + 1 + g.line ≠ (scan before).lineCount
      omega
    simpa using hne
  rw [hbefore, hown, hafter, List.append_nil]

/-- **Scanning is compositional over lines.**  If a text ends its last line and
leaves no verbatim-like environment open, what is found in it and a text after
it is what is found in the one and then what is found in the other, further
down.  So a line that opens no such environment, whatever is wrong with it, may
be replaced by another without changing what is found on any other line. -/
theorem scan_compositional {before : String} (hend : EndsLine before)
    (hopen : (scan before).openVerbatim? = none) (after : String) :
    (scan (before ++ after)).inclusions = (scan before).inclusions ++
      (scan after).inclusions.map (Inclusion.down (scan before).lineCount) ∧
    (scan (before ++ after)).labels = (scan before).labels ++
      (scan after).labels.map (Occurrence.down (scan before).lineCount) ∧
    (scan (before ++ after)).citations = (scan before).citations ++
      (scan after).citations.map (Occurrence.down (scan before).lineCount) ∧
    (scan (before ++ after)).references = (scan before).references ++
      (scan after).references.map (Occurrence.down (scan before).lineCount) ∧
    (scan (before ++ after)).bibitems = (scan before).bibitems ++
      (scan after).bibitems.map (Occurrence.down (scan before).lineCount) ∧
    (scan (before ++ after)).bibliographies = (scan before).bibliographies ++
      (scan after).bibliographies.map (Occurrence.down (scan before).lineCount) ∧
    (scan (before ++ after)).markers = (scan before).markers ++
      (scan after).markers.map (Marker.down (scan before).lineCount) ∧
    (scan (before ++ after)).modelines = (scan before).modelines ++
      (scan after).modelines.map (Occurrence.down (scan before).lineCount) ∧
    (scan (before ++ after)).lineCount = (scan before).lineCount + (scan after).lineCount ∧
    (scan (before ++ after)).declaresRoot
      = ((scan before).declaresRoot || (scan after).declaresRoot) ∧
    ∀ line line' : String, '\n' ∉ line.toList → '\n' ∉ line'.toList →
      (scan (line ++ "\n")).openVerbatim? = none →
      (scan (line' ++ "\n")).openVerbatim? = none →
      (scan (before ++ (line ++ "\n") ++ after)).elsewhere (scan before).lineCount
        = (scan (before ++ (line' ++ "\n") ++ after)).elsewhere (scan before).lineCount := by
  rw [scan_append hend hopen after]
  refine ⟨Scan.filterMap_followedBy Found.inclusion?_down _ _,
    Scan.occurrences_followedBy _ _ _, Scan.occurrences_followedBy _ _ _,
    Scan.occurrences_followedBy _ _ _, Scan.occurrences_followedBy _ _ _,
    Scan.occurrences_followedBy _ _ _, Scan.markers_followedBy _ _,
    Scan.occurrences_followedBy _ _ _, rfl, Scan.declaresRoot_followedBy _ _, ?_⟩
  intro line line' hline hline' hplain hplain'
  rw [elsewhere_scan hend hopen hline hplain, elsewhere_scan hend hopen hline' hplain']

/-- An inclusion inside a verbatim environment, and a label that is not
closed. -/
def brokenText : String :=
  "\\begin{verbatim}\n\\input{no}\n\\end{verbatim}\n\\label\x7ba\n"

theorem scan_compositional_broken :
    EndsLine brokenText ∧ (scan brokenText).openVerbatim? = none ∧
      (scan (brokenText ++ "\\label{b}\\end{x}\n")).labels = [⟨"b", 4⟩] ∧
      (scan (brokenText ++ ("\\label\x7bc" ++ "\n") ++ "\\label{b}\n")).elsewhere 4
        = (scan (brokenText ++ ("\\label{c}" ++ "\n") ++ "\\label{b}\n")).elsewhere 4 := by
  have hend : EndsLine brokenText := by decide
  have hopen : (scan brokenText).openVerbatim? = none := by decide
  refine ⟨hend, hopen, ?_, ?_⟩
  · obtain ⟨-, hlabels, -⟩ := scan_compositional hend hopen "\\label{b}\\end{x}\n"
    rw [hlabels]
    decide
  · obtain ⟨-, -, -, -, -, -, -, -, -, -, hlines⟩ :=
      scan_compositional hend hopen "\\label{b}\n"
    exact hlines "\\label\x7bc" "\\label{c}" (by decide) (by decide) (by decide) (by decide)

end Markup

end LatexIndex
