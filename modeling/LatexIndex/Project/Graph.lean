/-
LatexIndex/Project/Graph.lean

The include graph of a project.

Its vertices are the documents that were reached from the master, in the
order in which they were; its edges are the inclusions that were followed.
What became of every inclusion is kept in one list of *records*, in the
order in which they were met; edges, cycles, inclusions that lead nowhere
and warnings are views of that list.  Filling each of these lists by itself, and
numbering the documents on the way, comes to the same (`ledger_eq_graph`).

A document is named by its own path, exactly as it is written there, so two
names are equal when they name one document.
-/
import LatexIndex.Project.Document

namespace LatexIndex

open Markup

/-- What became of an inclusion. -/
inductive Outcome where
  /-- It leads to the document at this path. -/
  | edge (target : Path)
  /-- The file it names reaches the document it is in. -/
  | cycle (target : Path)
  /-- There is nothing to read under that name. -/
  | missing
  /-- What is there could not be read. -/
  | unreadable (target : Path) (reason : ReadError)
  deriving DecidableEq, Repr

/-- An inclusion of a document and what became of it. -/
structure Record where
  source : Path
  inclusion : Inclusion
  outcome : Outcome
  deriving DecidableEq, Repr

/-- An inclusion that was followed. -/
structure Edge where
  source : Path
  target : Path
  inclusion : Inclusion
  deriving DecidableEq, Repr

/-- An inclusion that would have closed a cycle. -/
structure CycleEdge where
  source : Path
  target : Path
  line : Nat
  deriving DecidableEq, Repr

/-- An inclusion that leads to nothing readable. -/
structure DeadEnd where
  source : Path
  name : String
  line : Nat
  deriving DecidableEq, Repr

namespace Record

/-- The edge of a record. -/
def edge? (r : Record) : Option Edge :=
  match r.outcome with
  | .edge target => some ⟨r.source, target, r.inclusion⟩
  | _ => none

/-- The cycle of a record. -/
def cycle? (r : Record) : Option CycleEdge :=
  match r.outcome with
  | .cycle target => some ⟨r.source, target, r.inclusion.line⟩
  | _ => none

/-- The dead end of a record. -/
def deadEnd? (r : Record) : Option DeadEnd :=
  match r.outcome with
  | .missing => some ⟨r.source, r.inclusion.target, r.inclusion.line⟩
  | .unreadable _ _ => some ⟨r.source, r.inclusion.target, r.inclusion.line⟩
  | _ => none

/-- The warning about a record; an inclusion that was followed gives none. -/
def warning? (r : Record) : Option Warning :=
  let line := some r.inclusion.line
  match r.outcome with
  | .edge _ => none
  | .cycle target => some { (Failure.cycle r.source target).toWarning with line }
  | .missing =>
    some ⟨.unreadable, r.source, line, s!"included file `{r.inclusion.target}` not found"⟩
  | .unreadable target reason =>
    some { (Failure.unreadable target reason).toWarning with path := r.source, line }

end Record

/-- The documents of a project and what became of their inclusions. -/
structure Graph where
  /-- In the order in which they were reached, the master first. -/
  documents : List Document
  /-- In the order in which they were met. -/
  records : List Record
  deriving DecidableEq, Repr

namespace Graph

/-- The inclusions that were followed, oldest first. -/
def edges (g : Graph) : List Edge :=
  g.records.filterMap Record.edge?

/-- The inclusions that would have closed a cycle. -/
def cycles (g : Graph) : List CycleEdge :=
  g.records.filterMap Record.cycle?

/-- The inclusions that lead to nothing readable. -/
def deadEnds (g : Graph) : List DeadEnd :=
  g.records.filterMap Record.deadEnd?

/-- The warnings about inclusions. -/
def warnings (g : Graph) : List Warning :=
  g.records.filterMap Record.warning?

/-- The document at a path. -/
def document? (g : Graph) (path : Path) : Option Document :=
  g.documents.find? (·.path.same path)

/-- Whether there is a document at a path. -/
def contains (g : Graph) (path : Path) : Bool :=
  (g.document? path).isSome

/-- How many documents were reached before the one at a path. -/
def index? (g : Graph) (path : Path) : Option Nat :=
  g.documents.findIdx? (·.path.same path)

/-- The edges out of the document at a path by line, of one line the newest
first. -/
def inclusionsOf (g : Graph) (path : Path) : List Edge :=
  match g.document? path with
  | some d => ((g.edges.filter (·.source = d.path)).reverse).mergeSort
      fun a b => a.inclusion.line ≤ b.inclusion.line
  | none => []

/-- The sources of the edges into the document at a path, newest first. -/
def includersOf (g : Graph) (path : Path) : List Path :=
  match g.document? path with
  | some d => ((g.edges.filter (·.target = d.path)).reverse).map (·.source)
  | none => []

/-! ### Reachability -/

section Reachability

variable {α : Type} [DecidableEq α]

/-- The vertices together with those one arc further that are not among them. -/
def spread (arcs : List (α × α)) (vertices : List α) : List α :=
  arcs.foldl (fun vertices (source, target) =>
    if source ∈ vertices && target ∉ vertices then vertices ++ [target] else vertices) vertices

/-- The vertices that can be reached in as many rounds. -/
def spreadTimes (arcs : List (α × α)) : Nat → List α → List α
  | 0, vertices => vertices
  | rounds + 1, vertices => spreadTimes arcs rounds (spread arcs vertices)

/-- Whether following arcs from `source`, perhaps none, leads to `target`.
Each round that reaches anything new uses up an arc, so as many rounds as
there are arcs reach everything. -/
def connects (arcs : List (α × α)) (source target : α) : Bool :=
  target ∈ spreadTimes arcs arcs.length [source]

end Reachability

/-- Whether following edges from `source`, perhaps none, leads to `target`. -/
def reaches (g : Graph) (source target : Path) : Bool :=
  connects (g.edges.map fun e => (e.source, e.target)) source target

end Graph

end LatexIndex
