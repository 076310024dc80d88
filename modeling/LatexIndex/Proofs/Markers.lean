/-
LatexIndex/Proofs/Markers.lean

The markers that a scan finds.

A directive contributes at most one marker, at its own column, a `begin` a begin
and an `end` an end (`Directive.markersOn_findings`); a verbatim-like
environment that is closed on the line it begins on contributes its end as
well.  Two facts follow that need nothing else about directives.

* *Mode.*  The mode in which the next line is read can be told from the markers
  so far: a verbatim-like environment is open exactly if its begin is the last
  of them (`snd_lineFindings`, `modeAfter_eq`).
* *Order.*  The markers of a document are in strictly increasing order of line
  and column (`pairwise_markers`).  Directives start at increasing positions,
  and a byte column grows with every character before it.
-/
import Mathlib.Data.List.Basic
import LatexIndex.Markup.Environment
import LatexIndex.Proofs.Escapes

namespace LatexIndex.Markup

open Text

variable {text : List Char} {d : Directive} {mode : Mode} {n : Nat}

/-! ### The markers of a line -/

/-- The markers among what was found. -/
def markersOf (found : List Found) : List Marker :=
  found.filterMap Found.marker?

/-- The markers among the findings of a line. -/
def markersOn (line : Nat) (findings : List Finding) : List Marker :=
  markersOf (findings.map (⟨line, ·⟩))

@[simp] theorem markersOn_append (n : Nat) (as bs : List Finding) :
    markersOn n (as ++ bs) = markersOn n as ++ markersOn n bs := by
  simp [markersOn, markersOf]

theorem line_of_marker? {f : Found} {m : Marker} (h : f.marker? = some m) : m.line = f.line := by
  unfold Found.marker? at h
  split at h
  · obtain rfl := Option.some.inj h
    rfl
  · obtain rfl := Option.some.inj h
    rfl
  · cases h

theorem line_of_mem_markersOn {findings : List Finding} {m : Marker}
    (h : m ∈ markersOn n findings) : m.line = n := by
  obtain ⟨f, hf, hm⟩ := List.mem_filterMap.mp h
  obtain ⟨finding, -, rfl⟩ := List.mem_map.mp hf
  exact line_of_marker? hm

/-- Keys are no markers. -/
theorem markersOn_map {keys : List String} {make : String → Finding}
    (h : ∀ key, Found.marker? ⟨n, make key⟩ = none) : markersOn n (keys.map make) = [] := by
  simp [markersOn, markersOf, h]

theorem Role.ofName?_begin : Role.ofName? "begin" = some .opening := by
  decide

theorem Role.eq_begin_of_opening {name : String} (h : Role.ofName? name = some .opening) :
    name = "begin" := by
  unfold Role.ofName? at h
  split at h
  · cases h
  · grind

theorem Role.eq_end_of_closing {name : String} (h : Role.ofName? name = some .closing) :
    name = "end" := by
  unfold Role.ofName? at h
  split at h
  · cases h
  · grind

/-- The markers of a directive by its role: those that begin or end an
environment have one, the others none. -/
theorem Role.markersOn_findings (role : Role) (column : Nat) (argument : List Char) :
    markersOn n (role.findings column argument)
      = match role with
        | .opening => [⟨String.ofList (trim argument), n, column, true⟩]
        | .closing => [⟨String.ofList (trim argument), n, column, false⟩]
        | _ => [] := by
  cases role with
  | inclusion kind =>
      unfold findings
      dsimp only
      split <;> rfl
  | documentClass | opening | closing => rfl
  | label | bibitem | bibliography | reference | citation => exact markersOn_map fun _ => rfl

/-- **What a directive contributes to the markers** of its line: nothing, or one
marker at its own column, a begin if the directive is a `begin` and an end if it
is an `end`. -/
theorem Directive.markersOn_findings (n : Nat) (text : List Char) (d : Directive) :
    markersOn n (d.findings text) = [] ∨
      ∃ start argument isOpen, d.argument = .closed start argument ∧
        markersOn n (d.findings text)
          = [⟨String.ofList (trim argument), n, byteColumn text d.start, isOpen⟩] ∧
        d.name = if isOpen then "begin" else "end" := by
  unfold Directive.findings
  split
  · exact .inl rfl
  · exact .inl rfl
  · next start argument harg =>
      split
      · next role hrole =>
          rw [Role.markersOn_findings]
          cases role with
          | opening =>
              exact .inr ⟨start, argument, true, harg, rfl, Role.eq_begin_of_opening hrole⟩
          | closing => exact .inr ⟨start, argument, false, harg, rfl, Role.eq_end_of_closing hrole⟩
          | _ => exact .inl rfl
      · exact .inl rfl

/-- What a directive contributes that begins a verbatim-like environment. -/
theorem Directive.findings_of_opensVerbatim? {environment : String} {stop : Nat}
    (h : d.opensVerbatim? = some (environment, stop)) (text : List Char) :
    d.findings text = [.opening environment (byteColumn text d.start)] ∧
      isVerbatim environment = true ∧
      ∃ start argument, d.argument = .closed start argument ∧
        stop = start + argument.length := by
  unfold Directive.opensVerbatim? at h
  split at h
  · next start argument harg =>
      simp only [Bool.and_eq_true, decide_eq_true_eq, Option.ite_none_right_eq_some,
        Option.some.injEq, Prod.mk.injEq] at h
      obtain ⟨⟨hname, hverbatim⟩, rfl, rfl⟩ := h
      refine ⟨?_, hverbatim, start, argument, harg, rfl⟩
      simp only [Directive.findings, harg, hname, Role.ofName?_begin]
      rfl
  · cases h

/-- Modelines are no markers. -/
theorem markersOn_lineFindings (n : Nat) (mode : Mode) (text : List Char) :
    markersOn n (lineFindings mode text).1 = markersOn n (bodyFindings text mode).1 := by
  have hmodeline : markersOn n ((modeline? text).toList.map .modeline) = [] :=
    markersOn_map fun _ => rfl
  rw [lineFindings]
  dsimp only
  rw [markersOn_append, hmodeline, List.nil_append]

/-! ### The mode of the next line -/

/-- The mode that markers lead to: the last of them decides. -/
def Mode.after (mode : Mode) (markers : List Marker) : Mode :=
  match markers.getLast? with
  | none => mode
  | some m => if m.isOpen && isVerbatim m.name then .verbatim m.name else .markup

theorem Mode.after_append (mode : Mode) (as bs : List Marker) :
    mode.after (as ++ bs) = (mode.after as).after bs := by
  rcases hb : bs.getLast? with - | m <;> simp [after, List.getLast?_append, hb]

/-- A directive that begins no verbatim-like environment leaves none open. -/
theorem Directive.after_findings (h : d.opensVerbatim? = none) :
    Mode.after .markup (markersOn n (d.findings text)) = .markup := by
  rcases d.markersOn_findings n text with hnil | ⟨start, argument, isOpen, harg, hone, hname⟩
  · rw [hnil]
    rfl
  · rw [hone]
    cases isOpen with
    | false => rfl
    | true =>
        have hverbatim : isVerbatim (String.ofList (trim argument)) = false := by
          simpa [opensVerbatim?, harg, hname] using h
        simp [Mode.after, hverbatim]

theorem snd_directiveFindings (n : Nat) (text : List Char) (ds : List Directive) :
    (directiveFindings text ds).2
      = Mode.after .markup (markersOn n (directiveFindings text ds).1) := by
  induction ds with
  | nil => rfl
  | cons d more ih =>
      rw [directiveFindings]
      rcases hopens : d.opensVerbatim? with - | ⟨environment, stop⟩
      · dsimp only
        rw [markersOn_append, Mode.after_append, Directive.after_findings hopens, ih]
      · obtain ⟨hfindings, hverbatim, -⟩ :=
          Directive.findings_of_opensVerbatim? hopens text
        dsimp only
        rw [hfindings]
        split
        · rfl
        · simp [markersOn, markersOf, Found.marker?, Mode.after, hverbatim]

/-- **The mode of the next line** is told by the markers of a line. -/
theorem snd_lineFindings (n : Nat) (mode : Mode) (text : List Char) :
    (lineFindings mode text).2 = mode.after (markersOn n (lineFindings mode text).1) := by
  rw [markersOn_lineFindings]
  show (bodyFindings text mode).2 = _
  cases mode with
  | markup => exact snd_directiveFindings n text _
  | verbatim environment =>
      rw [bodyFindings]
      split <;> rfl

/-- The mode in which the line after the given ones is read. -/
def modeAfter (mode : Mode) (lines : List (List Char)) : Mode :=
  lines.foldl (fun mode line => (lineFindings mode line).2) mode

theorem foundFrom_cons (mode : Mode) (n : Nat) (text : List Char) (more : List (List Char)) :
    foundFrom mode n (text :: more)
      = (lineFindings mode text).1.map (⟨n, ·⟩) ++
        foundFrom (lineFindings mode text).2 (n + 1) more :=
  rfl

theorem markersOf_foundFrom_cons (mode : Mode) (n : Nat) (text : List Char)
    (more : List (List Char)) :
    markersOf (foundFrom mode n (text :: more))
      = markersOn n (lineFindings mode text).1 ++
        markersOf (foundFrom (lineFindings mode text).2 (n + 1) more) :=
  List.filterMap_append

/-- The mode after some lines is told by their markers. -/
theorem modeAfter_eq (mode : Mode) (n : Nat) (lines : List (List Char)) :
    modeAfter mode lines = mode.after (markersOf (foundFrom mode n lines)) := by
  induction lines generalizing mode n with
  | nil => rfl
  | cons text more ih =>
      rw [markersOf_foundFrom_cons, Mode.after_append, ← snd_lineFindings, ← ih]
      rfl

/-! ### Positions on a line -/

theorem le_of_readArgument {pos start : Nat} {argument : List Char}
    (h : readArgument pos text = .closed start argument) : pos ≤ start := by
  unfold readArgument at h
  split at h
  · dsimp only at h
    split at h
    · obtain ⟨rfl, -⟩ := Argument.closed.inj h
      exact Nat.le_add_right _ _
    · cases h
  · cases h

/-- A directive starts at its backslash, and its argument after that. -/
theorem start_of_directiveAt? {pos : Nat} (h : directiveAt? pos text = some d) :
    d.start = pos ∧
      ∀ start argument, d.argument = .closed start argument → pos < start := by
  unfold directiveAt? at h
  split at h
  · split at h
    · obtain rfl := Option.some.inj h
      refine ⟨rfl, fun start argument harg => ?_⟩
      have hle := le_of_readArgument harg
      omega
    · cases h
  · cases h

/-- Where the directives of a line stand. -/
structure Standing (first last : Nat) (d : Directive) : Prop where
  first_le : first ≤ d.start
  lt_last : d.start < last
  argument : ∀ start argument, d.argument = .closed start argument → d.start < start

theorem standing_directivesFrom {pos : Nat} (h : d ∈ directivesFrom pos text) :
    Standing pos (pos + text.length) d := by
  induction text generalizing pos with
  | nil => cases h
  | cons c rest ih =>
      rw [directivesFrom, List.mem_append] at h
      rw [List.length_cons]
      rcases h with h | h
      · split at h
        · obtain ⟨hstart, harg⟩ := start_of_directiveAt? (Option.mem_toList.mp h)
          exact ⟨by omega, by omega, by rwa [hstart]⟩
        · cases h
      · obtain ⟨hfirst, hlast, harg⟩ := ih h
        exact ⟨by omega, by omega, harg⟩

theorem pairwise_directivesFrom (pos : Nat) (text : List Char) :
    (directivesFrom pos text).Pairwise fun a b => a.start < b.start := by
  induction text generalizing pos with
  | nil => exact .nil
  | cons c rest ih =>
      rw [directivesFrom, List.pairwise_append]
      refine ⟨?_, ih (pos + 1), fun a ha b hb => ?_⟩
      · split
        · rcases directiveAt? pos rest with - | d <;> simp
        · exact .nil
      · split at ha
        · obtain ⟨hstart, -⟩ := start_of_directiveAt? (Option.mem_toList.mp ha)
          have hfirst := (standing_directivesFrom hb).first_le
          omega
        · cases ha

/-- Byte columns grow with positions, up to the end of the line. -/
theorem byteColumn_lt {i j : Nat} (hij : i < j) (hi : i < text.length) :
    byteColumn text i < byteColumn text j := by
  induction text generalizing i j with
  | nil => cases hi
  | cons c rest ih =>
      obtain ⟨j, rfl⟩ := Nat.exists_eq_add_of_lt hij
      have hc := c.utf8Size_pos
      cases i with
      | zero =>
          rw [Nat.zero_add]
          simp only [byteColumn, List.take_zero, List.take_succ_cons, bytes]
          omega
      | succ i =>
          have hrest := ih (i := i) (j := i + j + 1) (by omega) (Nat.lt_of_succ_lt_succ hi)
          rw [show i + 1 + j + 1 = (i + j + 1) + 1 by omega]
          simp only [byteColumn, List.take_succ_cons, bytes] at hrest ⊢
          omega

/-! ### The order of markers -/

/-- Directives at growing positions contribute markers at growing columns, each
at or after a directive. -/
theorem rising_directiveFindings {ds : List Directive}
    (hds : ∀ d ∈ ds, Standing 0 text.length d)
    (hpairwise : ds.Pairwise fun a b => a.start < b.start) :
    (markersOn n (directiveFindings text ds).1).Pairwise (fun a b => a.column < b.column) ∧
      ∀ m ∈ markersOn n (directiveFindings text ds).1,
        ∃ d ∈ ds, byteColumn text d.start ≤ m.column := by
  induction ds with
  | nil => exact ⟨.nil, fun m hm => nomatch hm⟩
  | cons d more ih =>
      obtain ⟨hlater, hmore⟩ := List.pairwise_cons.mp hpairwise
      obtain ⟨hd, hstanding⟩ := List.forall_mem_cons.mp hds
      rw [directiveFindings]
      rcases hopens : d.opensVerbatim? with - | ⟨environment, stop⟩
      · obtain ⟨hrising, hafter⟩ := ih hstanding hmore
        -- the marker of `d`, if there is one, stands at `d`
        have hown : (markersOn n (d.findings text)).Pairwise (fun a b => a.column < b.column) ∧
            ∀ m ∈ markersOn n (d.findings text), m.column = byteColumn text d.start := by
          rcases d.markersOn_findings n text with hnil | ⟨_, _, _, _, hone, _⟩
          · simp [hnil]
          · simp [hone]
        dsimp only
        rw [markersOn_append]
        refine ⟨List.pairwise_append.mpr ⟨hown.1, hrising, fun a ha b hb => ?_⟩, fun m hm => ?_⟩
        · obtain ⟨e, he, hle⟩ := hafter b hb
          have hlt := byteColumn_lt (hlater e he) hd.lt_last
          have ha := hown.2 a ha
          omega
        · rcases List.mem_append.mp hm with hm | hm
          · exact ⟨d, List.mem_cons_self, Nat.le_of_eq (hown.2 m hm).symm⟩
          · obtain ⟨e, he, hle⟩ := hafter m hm
            exact ⟨e, List.mem_cons_of_mem d he, hle⟩
      · obtain ⟨hfindings, -, start, argument, harg, rfl⟩ :=
          Directive.findings_of_opensVerbatim? hopens text
        have hstart := hd.argument start argument harg
        dsimp only
        rw [hfindings]
        split
        · next pos hpos =>
            -- the end is looked for after the argument of the begin
            obtain ⟨offset, -, rfl⟩ := Option.map_eq_some_iff.mp hpos
            have hlt := byteColumn_lt (show d.start < start + argument.length + offset by omega)
              hd.lt_last
            simp [markersOn, markersOf, Found.marker?, hlt, Nat.le_of_lt hlt]
        · simp [markersOn, markersOf, Found.marker?]

/-- The columns of the markers of a line grow. -/
theorem rising_lineFindings (n : Nat) (mode : Mode) (text : List Char) :
    (markersOn n (lineFindings mode text).1).Pairwise fun a b => a.column < b.column := by
  rw [markersOn_lineFindings]
  cases mode with
  | markup =>
      refine (rising_directiveFindings (fun d hd => ?_) (pairwise_directivesFrom 0 _)).1
      obtain ⟨hfirst, hlast, harg⟩ := standing_directivesFrom hd
      have hlength := length_stripComment_le text
      exact ⟨hfirst, by omega, harg⟩
  | verbatim environment =>
      rw [bodyFindings]
      split <;> simp [markersOn, markersOf, Found.marker?]

/-- What is found on the lines from number `n` on is on one of them. -/
theorem line_of_mem_foundFrom {lines : List (List Char)} {f : Found}
    (h : f ∈ foundFrom mode n lines) : n ≤ f.line ∧ f.line < n + lines.length := by
  induction lines generalizing mode n with
  | nil => cases h
  | cons text more ih =>
      rw [foundFrom_cons, List.mem_append, List.mem_map] at h
      rw [List.length_cons]
      rcases h with ⟨finding, -, rfl⟩ | h
      · dsimp only
        omega
      · have hline := ih h
        omega

theorem line_of_mem_markersOf {lines : List (List Char)} {m : Marker}
    (h : m ∈ markersOf (foundFrom mode n lines)) : n ≤ m.line ∧ m.line < n + lines.length := by
  obtain ⟨f, hf, hm⟩ := List.mem_filterMap.mp h
  rw [line_of_marker? hm]
  exact line_of_mem_foundFrom hf

theorem follows_iff {a b : Marker} :
    b.follows a = true ↔ a.line < b.line ∨ a.line = b.line ∧ a.column < b.column := by
  simp [Marker.follows]

theorem pairwise_foundFrom (mode : Mode) (n : Nat) (lines : List (List Char)) :
    (markersOf (foundFrom mode n lines)).Pairwise fun a b => b.follows a = true := by
  induction lines generalizing mode n with
  | nil => exact .nil
  | cons text more ih =>
      rw [markersOf_foundFrom_cons, List.pairwise_append]
      refine ⟨?_, ih _ (n + 1), fun a ha b hb => ?_⟩
      · refine (rising_lineFindings n mode text).imp_of_mem fun ha hb hlt => ?_
        rw [follows_iff, line_of_mem_markersOn ha, line_of_mem_markersOn hb]
        exact .inr ⟨rfl, hlt⟩
      · have hline := line_of_mem_markersOf hb
        rw [follows_iff, line_of_mem_markersOn ha]
        exact .inl hline.1

/-- **The markers of a document are in order**: each stands on a later line than
the one before it, or on the same line further right. -/
theorem pairwise_markers (text : String) :
    (scan text).markers.Pairwise fun a b => b.follows a = true :=
  pairwise_foundFrom .markup 0 _

end LatexIndex.Markup
