/-
LatexIndex/Project/Explore.lean

Building the include graph.

Documents are taken in the order in which they were reached, and the
inclusions of each in the order in which they are written.  An inclusion is
resolved from the master's directory first and from the document's own
directory after that.  If it leads to a document of the graph, it becomes an
edge unless that document already reaches the one it is in; if it leads to a
new file that can be read, the file becomes the next document.

Only so many different paths can lead to a file or buffer (`knownPaths`), and
every document of the graph has one of its own, so the exploration ends.
-/
import LatexIndex.Project.Graph

namespace LatexIndex

open Markup

/-- The ways a path without `.` may begin before the names. -/
def Part.beginnings : List (List Part) :=
  [[], [.up], [.root], [.root, .up]]

/-- The parts of every plain path that may lead to a place: some beginning,
and then names that the place ends with. -/
def Disk.partsTo (place : Place) : List (List Part) :=
  (List.range (place.length + 1)).flatMap fun n =>
    Part.beginnings.map (· ++ (place.drop n).map .name)

/-- The parts of every plain path that may lead to something to be read. -/
def Sources.knownPaths (sources : Sources) : List (List Part) :=
  sources.disk.entries.flatMap (fun (place, _) => Disk.partsTo place) ++
    sources.buffers.map (·.1.parts)

/-- Follows one inclusion of the document at `source`. -/
def Graph.follow (sources : Sources) (masterDirectory source : Path) (g : Graph)
    (inclusion : Inclusion) : Graph :=
  let record := fun outcome => g.records ++ [⟨source, inclusion, outcome⟩]
  match sources.resolve? inclusion.target [masterDirectory, source.directory] ".tex" with
  | none => { g with records := record .missing }
  | some target =>
    match g.document? target with
    | some existing =>
      if g.reaches existing.path source then { g with records := record (.cycle target) }
      else { g with records := record (.edge existing.path) }
    | none =>
      match sources.read target with
      | .ok (text, revision) =>
        ⟨g.documents ++ [⟨target, revision, scan text⟩], record (.edge target)⟩
      | .error reason => { g with records := record (.unreadable target reason) }

/-- Follows every inclusion of a document. -/
def Graph.followAll (sources : Sources) (masterDirectory : Path) (g : Graph) (d : Document) :
    Graph :=
  d.scan.inclusions.foldl (Graph.follow sources masterDirectory d.path) g

/-- Takes the documents from number `next` on, at most `fuel` of them. -/
def Graph.explore (sources : Sources) (masterDirectory : Path) : Nat → Nat → Graph → Graph
  | 0, _, g => g
  | fuel + 1, next, g => match g.documents[next]? with
    | some d => explore sources masterDirectory fuel (next + 1) (g.followAll sources masterDirectory d)
    | none => g

/-- The include graph of a master; only a master that cannot be read has
none. -/
def Sources.graph (sources : Sources) (master : Path) : Except Failure Graph := do
  let document ← sources.load master
  return Graph.explore sources master.directory (sources.knownPaths.length + 1) 0
    ⟨[document], []⟩

end LatexIndex
