/-
LatexIndex/Markup/Scan.lean

Scanning a whole document.

A scan is the list of everything found, line by line, with the number of
lines; labels, citations, environment markers and the rest are views of that
one list.  Faults in the nesting of environments are read off the same list
with a stack, so they need no state during the scan itself: an end that does
not match the innermost open environment discards that environment.  A scan that
keeps the stack as it goes comes to the same (`walk_eq_scan`).
-/
import LatexIndex.Markup.Finding
import LatexIndex.Text.Lines

namespace LatexIndex.Markup

open Text

/-- A finding with the line it is on, counted from zero. -/
structure Found where
  line : Nat
  finding : Finding
  deriving DecidableEq, Repr

/-- Everything found in a document. -/
structure Scan where
  found : List Found
  lineCount : Nat
  deriving DecidableEq, Repr

/-! ### Views of a scan -/

/-- A key, or a name, and the line it is on. -/
structure Occurrence where
  key : String
  line : Nat
  deriving DecidableEq, Repr

/-- A file pulled in on a line, as written. -/
structure Inclusion where
  kind : IncludeKind
  target : String
  line : Nat
  deriving DecidableEq, Repr

/-- The begin or the end of an environment. -/
structure Marker where
  name : String
  line : Nat
  /-- Byte column of the backslash. -/
  column : Nat
  isOpen : Bool
  deriving DecidableEq, Repr

/-- What is wrong on a line. -/
inductive Fault where
  /-- The argument of `command` runs off the line. -/
  | unterminated (command : String)
  /-- The end of `name` meets the open environment `opened`. -/
  | mismatched (name opened : String) (openedOn : Nat)
  /-- The end of `name` meets no open environment. -/
  | unopened (name : String)
  deriving DecidableEq, Repr

/-- The wording of a fault; line numbers are shown from one. -/
def Fault.message : Fault → String
  | unterminated command => s!"unterminated argument to \\{command}"
  | mismatched name opened openedOn =>
    "\\end\x7b" ++ name ++ "\x7d does not match \\begin\x7b" ++ opened ++
      s!"\x7d on line {openedOn + 1}"
  | unopened name => "\\end\x7b" ++ name ++ "\x7d without a matching \\begin"

/-- A fault and the line it is on. -/
structure LineFault where
  line : Nat
  fault : Fault
  deriving DecidableEq, Repr

namespace Found

/-- The key of a finding, when `pick` selects it. -/
def occurrence? (pick : Finding → Option String) (f : Found) : Option Occurrence :=
  (pick f.finding).map fun key => ⟨key, f.line⟩

/-- The file pulled in by a finding. -/
def inclusion? (f : Found) : Option Inclusion :=
  match f.finding with
  | .inclusion kind target => some ⟨kind, target, f.line⟩
  | _ => none

/-- The environment marker of a finding. -/
def marker? (f : Found) : Option Marker :=
  match f.finding with
  | .opening name column => some ⟨name, f.line, column, true⟩
  | .closing name column => some ⟨name, f.line, column, false⟩
  | _ => none

end Found

/-- The faults of a list of findings, given the open environments around it,
innermost first, each with the line it was opened on. -/
def faultsFrom (opened : List (String × Nat)) : List Found → List LineFault
  | [] => []
  | f :: more =>
    match f.finding with
    | .unterminated command => ⟨f.line, .unterminated command⟩ :: faultsFrom opened more
    | .opening name _ => faultsFrom ((name, f.line) :: opened) more
    | .closing name _ =>
      match opened with
      | [] => ⟨f.line, .unopened name⟩ :: faultsFrom [] more
      | (inner, openedOn) :: outer =>
        if inner = name then faultsFrom outer more
        else ⟨f.line, .mismatched name inner openedOn⟩ :: faultsFrom outer more
    | _ => faultsFrom opened more

namespace Scan

/-- The files pulled in, in order. -/
def inclusions (s : Scan) : List Inclusion :=
  s.found.filterMap Found.inclusion?

/-- The keys that `pick` selects, in order. -/
def occurrences (s : Scan) (pick : Finding → Option String) : List Occurrence :=
  s.found.filterMap (Found.occurrence? pick)

/-- Labels defined. -/
def labels (s : Scan) : List Occurrence :=
  s.occurrences fun | .label key => some key | _ => none

/-- Bibliography keys cited. -/
def citations (s : Scan) : List Occurrence :=
  s.occurrences fun | .citation key => some key | _ => none

/-- Labels referred to. -/
def references (s : Scan) : List Occurrence :=
  s.occurrences fun | .reference key => some key | _ => none

/-- Keys of hand-written bibliography items. -/
def bibitems (s : Scan) : List Occurrence :=
  s.occurrences fun | .bibitem key => some key | _ => none

/-- Bibliography files named. -/
def bibliographies (s : Scan) : List Occurrence :=
  s.occurrences fun | .bibliography name => some name | _ => none

/-- Masters named in modelines. -/
def modelines (s : Scan) : List Occurrence :=
  s.occurrences fun | .modeline target => some target | _ => none

/-- Begins and ends of environments. -/
def markers (s : Scan) : List Marker :=
  s.found.filterMap Found.marker?

/-- Whether the document declares a document class, which makes it a master. -/
def declaresRoot (s : Scan) : Bool :=
  s.found.any (·.finding = .documentClass)

/-- What is wrong in the document, in order. -/
def faults (s : Scan) : List LineFault :=
  faultsFrom [] s.found

end Scan

/-! ### Scanning -/

/-- Everything found on the lines from number `line` on, the first of them
read in the given mode. -/
def foundFrom (mode : Mode) (line : Nat) : List (List Char) → List Found
  | [] => []
  | text :: more =>
    let (findings, next) := lineFindings mode text
    findings.map (⟨line, ·⟩) ++ foundFrom next (line + 1) more

/-- The scan of a document given by its lines. -/
def scanLines (lines : List (List Char)) : Scan :=
  ⟨foundFrom .markup 0 lines, lines.length⟩

/-- The scan of a document. -/
def scan (text : String) : Scan :=
  scanLines (sourceLines text.toList)

end LatexIndex.Markup
