/-
LatexIndex/Files/Sources.lean

What the index reads: the files on disk with the buffers of an editor laid
over them.  A buffer wins over the file at the same path, and it needs no
file to be there.
-/
import LatexIndex.Files.Disk
import LatexIndex.Path.Normal

namespace LatexIndex

/-- A text being edited, and the editor's number for its current state. -/
structure Buffer where
  text : String
  revision : Int
  deriving DecidableEq, Repr

/-- The open buffers, at most one for each path. -/
abbrev Buffers := List (Path × Buffer)

namespace Buffers

/-- The buffer open at a path. -/
def find? (buffers : Buffers) (path : Path) : Option Buffer :=
  (List.find? (·.1.same path) buffers).map (·.2)

/-- Opens a buffer, or gives the one that is open at the path a new text.
The path stays written the way it was when it was opened. -/
def insert (buffers : Buffers) (path : Path) (buffer : Buffer) : Buffers :=
  if List.any buffers (·.1.same path) then
    List.map (fun (p, b) => if p.same path then (p, buffer) else (p, b)) buffers
  else buffers ++ [(path, buffer)]

/-- Closes the buffer at a path. -/
def erase (buffers : Buffers) (path : Path) : Buffers :=
  List.filter (!·.1.same path) buffers

end Buffers

/-- Files on disk with buffers laid over them. -/
structure Sources where
  disk : Disk
  buffers : Buffers
  deriving DecidableEq

/-- The files a name may stand for, best first: the name, with `extension`
unless it already ends so, seen from each of `bases`. -/
def Path.candidates (name : String) (bases : List Path) (extension : String) : List Path :=
  let name := if extension.toList.isSuffixOf name.toList then name else name ++ extension
  bases.map fun base => (base.join name).normalize

namespace Sources

/-- Whether there is something to read at a path. -/
def has (sources : Sources) (path : Path) : Bool :=
  (sources.buffers.find? path).isSome || sources.disk.isFile path

/-- The text at a path, with the revision when it comes from a buffer. -/
def read (sources : Sources) (path : Path) : Except ReadError (String × Option Int) :=
  match sources.buffers.find? path with
  | some buffer => .ok (buffer.text, some buffer.revision)
  | none => (sources.disk.read path).map (·, none)

/-- The file a name stands for: the first candidate where something is to be
read. -/
def resolve? (sources : Sources) (name : String) (bases : List Path) (extension : String) :
    Option Path :=
  (Path.candidates name bases extension).find? sources.has

end Sources

end LatexIndex
