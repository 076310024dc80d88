/-
LatexIndex/Proofs/OpenEnvironments.lean

The scan that keeps the open environments as it goes.

`scan` only finds; the faults of nesting are read off the findings afterwards,
by one stack that every begin and every end goes through (`faultsFrom`).  A
scanner that has no second pass updates the stack while it reads, and it does so
in four places that do not look alike:

* the begin of an environment that is read as markup is put on the stack;
* an end that is read as markup takes the innermost environment off, whatever
  its name is, with a fault if the names differ or nothing is open;
* a verbatim-like environment that is closed on the line it begins on does not
  touch the stack, and one that is not is put on it;
* the end of a verbatim-like environment on a later line takes the innermost
  environment off only if it has that name, and is never at fault.

`Walk` is that scanner.  It finds the same, and warns of the same
(`walk_eq_scan`): the two updates that the last two places leave out cancel, and
in verbatim text the innermost open environment is always the one being read
(`Walk.InStep`).
-/
import LatexIndex.Proofs.Markers

namespace LatexIndex.Markup

open Text

/-- A scan under way. -/
structure Walk where
  found : List Found
  faults : List LineFault
  /-- The open environments, innermost first, each with the line it was opened on. -/
  opened : List (String × Nat)
  /-- The mode of the next line. -/
  mode : Mode

namespace Walk

/-! ### Reading with a stack -/

/-- Something is found on line `n`. -/
def note (w : Walk) (n : Nat) (finding : Finding) : Walk :=
  { w with found := w.found ++ [⟨n, finding⟩] }

/-- Something is wrong on line `n`. -/
def warn (w : Walk) (n : Nat) (fault : Fault) : Walk :=
  { w with faults := w.faults ++ [⟨n, fault⟩] }

/-- An environment is open from line `n` on. -/
def enter (w : Walk) (n : Nat) (name : String) : Walk :=
  { w with opened := (name, n) :: w.opened }

/-- An end that is read as markup: the innermost environment is closed by it,
whatever its name is. -/
def leave (w : Walk) (n : Nat) (name : String) : Walk :=
  match w.opened with
  | [] => w.warn n (.unopened name)
  | (inner, openedOn) :: outer =>
    let w := { w with opened := outer }
    if inner = name then w else w.warn n (.mismatched name inner openedOn)

/-- The end of a verbatim-like environment that began on an earlier line: the
innermost environment is closed if it has that name. -/
def leaveVerbatim (w : Walk) (name : String) : Walk :=
  match w.opened with
  | [] => w
  | (inner, _) :: outer => if inner = name then { w with opened := outer } else w

/-- A finding of line `n` that is read as markup. -/
def meet (w : Walk) (n : Nat) (finding : Finding) : Walk :=
  match finding with
  | .unterminated command => (w.warn n (.unterminated command)).note n finding
  | .opening name _ => (w.note n finding).enter n name
  | .closing name _ => (w.leave n name).note n finding
  | _ => w.note n finding

/-- Reads directives of line `n` in turn, up to the first that begins a
verbatim-like environment. -/
def readDirectives (w : Walk) (n : Nat) (line : List Char) : List Directive → Walk
  | [] => w
  | d :: more =>
    match d.opensVerbatim? with
    | some (environment, stop) =>
      let w := w.note n (.opening environment (byteColumn line d.start))
      match closingPosition? environment stop line with
      | some pos => w.note n (.closing environment (byteColumn line pos))
      | none => { w.enter n environment with mode := .verbatim environment }
    | none => ((d.findings line).foldl (·.meet n) w).readDirectives n line more

/-- Reads line `n` apart from its modeline. -/
def readBody (w : Walk) (n : Nat) (line : List Char) : Walk :=
  match w.mode with
  | .markup => w.readDirectives n line (directives (stripComment line))
  | .verbatim environment =>
    match closingPosition? environment 0 line with
    | some pos =>
      let w := w.note n (.closing environment (byteColumn line pos))
      { w.leaveVerbatim environment with mode := .markup }
    | none => w

/-- Takes the modeline of line `n`, which is seen in both modes. -/
def readModeline (w : Walk) (n : Nat) (line : List Char) : Walk :=
  match modeline? line with
  | some target => w.note n (.modeline target)
  | none => w

/-- Reads line `n`. -/
def readLine (w : Walk) (n : Nat) (line : List Char) : Walk :=
  (w.readModeline n line).readBody n line

/-- Reads the lines from number `n` on. -/
def readLines (w : Walk) (n : Nat) : List (List Char) → Walk
  | [] => w
  | line :: more => (w.readLine n line).readLines (n + 1) more

end Walk

/-- The scan of a document with the stack kept as it goes. -/
def walk (text : String) : Walk :=
  Walk.readLines ⟨[], [], [], .markup⟩ 0 (sourceLines text.toList)

namespace Walk

variable {w w' w'' : Walk} {n : Nat}

/-! ### What reading leaves -/

/-- Between `w` and `w'` lie the given findings, and whatever comes after them
has the faults from the stack of `w'` that it has from that of `w`. -/
structure Finds (w : Walk) (found : List Found) (w' : Walk) : Prop where
  noted : w'.found = w.found ++ found
  warned : ∀ more, w'.faults ++ faultsFrom w'.opened more
    = w.faults ++ faultsFrom w.opened (found ++ more)

theorem Finds.refl (w : Walk) : w.Finds [] w where
  noted := (List.append_nil _).symm
  warned _ := rfl

theorem Finds.trans {as bs : List Found} (h : w.Finds as w') (h' : w'.Finds bs w'') :
    w.Finds (as ++ bs) w'' where
  noted := by rw [h'.noted, h.noted, List.append_assoc]
  warned more := by rw [h'.warned, h.warned, List.append_assoc]

/-- The end of the innermost environment closes it. -/
theorem faultsFrom_closing (name : String) (column openedOn : Nat) (outer : List (String × Nat))
    (more : List Found) :
    faultsFrom ((name, openedOn) :: outer) (⟨n, .closing name column⟩ :: more)
      = faultsFrom outer more := by
  rw [faultsFrom]
  exact if_pos rfl

/-- What is read as markup goes through the stack as it does afterwards. -/
theorem finds_meet (w : Walk) (n : Nat) (finding : Finding) :
    w.Finds [⟨n, finding⟩] (w.meet n finding) := by
  cases finding with
  | unterminated command => exact ⟨rfl, fun more => List.append_assoc ..⟩
  | closing name column =>
      rcases w with ⟨found, faults, - | ⟨⟨inner, openedOn⟩, outer⟩, mode⟩
      · exact ⟨rfl, fun more => List.append_assoc ..⟩
      · by_cases hname : inner = name
        · subst hname
          simp only [meet, leave, if_true]
          exact ⟨rfl, fun more => congrArg _ (faultsFrom_closing ..).symm⟩
        · simp only [meet, leave, if_neg hname]
          refine ⟨rfl, fun more => ?_⟩
          rw [List.singleton_append, faultsFrom]
          simp only [if_neg hname]
          exact List.append_assoc ..
  | _ => exact ⟨rfl, fun more => rfl⟩

theorem mode_meet (w : Walk) (n : Nat) (finding : Finding) :
    (w.meet n finding).mode = w.mode := by
  fun_cases meet w n finding with
  | case3 => fun_cases leave <;> rfl
  | _ => rfl

/-- The findings of a directive are met one after the other. -/
theorem finds_foldl_meet (w : Walk) (n : Nat) (findings : List Finding) :
    w.Finds (findings.map (⟨n, ·⟩)) (findings.foldl (·.meet n) w) ∧
      (findings.foldl (·.meet n) w).mode = w.mode := by
  induction findings generalizing w with
  | nil => exact ⟨.refl w, rfl⟩
  | cons finding more ih =>
      obtain ⟨hfinds, hmode⟩ := ih (w.meet n finding)
      exact ⟨(finds_meet w n finding).trans hfinds, hmode.trans (mode_meet w n finding)⟩

/-- A begin and its end have no part in the stack if nothing is between them. -/
theorem finds_opening_closing (w : Walk) (n : Nat) (name : String) (column column' : Nat) :
    w.Finds [⟨n, .opening name column⟩, ⟨n, .closing name column'⟩]
      ((w.note n (.opening name column)).note n (.closing name column')) where
  noted := List.append_assoc ..
  warned _ := congrArg _ (faultsFrom_closing ..).symm

/-- The end of a verbatim-like environment that is the innermost open one. -/
theorem finds_leaveVerbatim {name : String} {openedOn : Nat} {outer : List (String × Nat)}
    (h : w.opened = (name, openedOn) :: outer) (column : Nat) :
    w.Finds [⟨n, .closing name column⟩]
      ((w.note n (.closing name column)).leaveVerbatim name) := by
  obtain ⟨found, faults, opened, mode⟩ := w
  subst h
  simp only [note, leaveVerbatim, if_true]
  exact ⟨rfl, fun more => congrArg _ (faultsFrom_closing ..).symm⟩

/-- In verbatim text the innermost open environment is the one that is read. -/
def InStep (w : Walk) : Prop :=
  ∀ name, w.mode = .verbatim name → ∃ openedOn outer, w.opened = (name, openedOn) :: outer

theorem inStep_of_markup (h : w.mode = .markup) : w.InStep := by
  intro name hname
  cases h.symm.trans hname

/-- Line `n` was read from `w` to `w'`, with what is found on it and the mode of
the next line as given. -/
structure Reads (w : Walk) (n : Nat) (outcome : List Finding × Mode) (w' : Walk) : Prop where
  finds : w.Finds (outcome.1.map (⟨n, ·⟩)) w'
  mode : w'.mode = outcome.2
  inStep : w'.InStep

/-! ### Every line is read as it is scanned -/

theorem reads_readDirectives (hmode : w.mode = .markup) (n : Nat) (line : List Char)
    (ds : List Directive) :
    w.Reads n (directiveFindings line ds) (w.readDirectives n line ds) := by
  induction ds generalizing w with
  | nil => exact ⟨.refl w, hmode, inStep_of_markup hmode⟩
  | cons d more ih =>
      rw [directiveFindings, readDirectives]
      rcases hopens : d.opensVerbatim? with - | ⟨environment, stop⟩
      · obtain ⟨hfinds, hkept⟩ := finds_foldl_meet w n (d.findings line)
        obtain ⟨hrest, hnext, hstep⟩ := ih (hkept.trans hmode)
        refine ⟨?_, hnext, hstep⟩
        rw [List.map_append]
        exact hfinds.trans hrest
      · dsimp only
        rw [(Directive.findings_of_opensVerbatim? hopens line).1]
        -- closed on this line, or open for the lines to come
        rcases closingPosition? environment stop line with - | pos
        · obtain ⟨hnoted, hwarned⟩ :=
            finds_meet w n (.opening environment (byteColumn line d.start))
          refine ⟨⟨hnoted, hwarned⟩, rfl, fun name h => ?_⟩
          cases h
          exact ⟨n, w.opened, rfl⟩
        · exact ⟨finds_opening_closing .., hmode, inStep_of_markup hmode⟩

theorem reads_readBody (h : w.InStep) (n : Nat) (line : List Char) :
    w.Reads n (bodyFindings line w.mode) (w.readBody n line) := by
  rw [readBody]
  rcases hmode : w.mode with - | environment
  · exact reads_readDirectives hmode n line _
  · obtain ⟨openedOn, outer, hopened⟩ := h environment hmode
    dsimp only [bodyFindings]
    rcases closingPosition? environment 0 line with - | pos
    · exact ⟨.refl w, hmode, h⟩
    · obtain ⟨hnoted, hwarned⟩ :=
        finds_leaveVerbatim (n := n) hopened (byteColumn line pos)
      exact ⟨⟨hnoted, hwarned⟩, rfl, inStep_of_markup rfl⟩

theorem finds_readModeline (w : Walk) (n : Nat) (line : List Char) :
    w.Finds (((modeline? line).toList.map .modeline).map (⟨n, ·⟩)) (w.readModeline n line) ∧
      (w.readModeline n line).mode = w.mode ∧ (w.readModeline n line).opened = w.opened := by
  rw [readModeline]
  rcases modeline? line with - | target
  · exact ⟨.refl w, rfl, rfl⟩
  · exact ⟨finds_meet w n (.modeline target), rfl, rfl⟩

/-- One line: it is read as it is scanned, and the stack stays in step with the
mode. -/
theorem reads_readLine (h : w.InStep) (n : Nat) (line : List Char) :
    w.Reads n (lineFindings w.mode line) (w.readLine n line) := by
  obtain ⟨hmodeline, hmode, hopened⟩ := finds_readModeline w n line
  have hin : (w.readModeline n line).InStep := by rwa [InStep, hmode, hopened]
  obtain ⟨hbody, hnext, hstep⟩ := reads_readBody hin n line
  rw [hmode] at hbody hnext
  rw [lineFindings]
  refine ⟨?_, hnext, hstep⟩
  rw [List.map_append]
  exact hmodeline.trans hbody

/-- All lines: they are read as they are scanned. -/
theorem finds_readLines (h : w.InStep) (n : Nat) (lines : List (List Char)) :
    w.Finds (foundFrom w.mode n lines) (w.readLines n lines) := by
  induction lines generalizing w n with
  | nil => exact .refl w
  | cons line more ih =>
      obtain ⟨hline, hmode, hstep⟩ := reads_readLine h n line
      have hmore := ih hstep (n + 1)
      rw [hmode] at hmore
      exact hline.trans hmore

end Walk

/-- **The scan that keeps the stack as it goes** finds the same and warns of the
same. -/
theorem walk_eq_scan (text : String) :
    (walk text).found = (scan text).found ∧ (walk text).faults = (scan text).faults := by
  have hfinds := Walk.finds_readLines (w := ⟨[], [], [], .markup⟩) (Walk.inStep_of_markup rfl) 0
    (sourceLines text.toList)
  refine ⟨hfinds.noted, ?_⟩
  have hwarned := hfinds.warned []
  rwa [faultsFrom, List.append_nil, List.append_nil] at hwarned

end LatexIndex.Markup
