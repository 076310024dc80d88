/-
LatexIndex/Bib/Index.lean

All bibliographies of a project, and resolving a key in them.

A key may be defined in several files; then every file that defines it is
told, in index order.
-/
import LatexIndex.Bib.Entry
import LatexIndex.Listing

namespace LatexIndex.Bib

/-- One source of entries. -/
structure File where
  path : Path
  entries : List Entry
  deriving DecidableEq, Repr

/-- The sources of a project, in order. -/
structure Index where
  files : List File
  deriving DecidableEq, Repr

namespace Index

/-- All entries, file by file. -/
def entries (index : Index) : List Entry :=
  index.files.flatMap (·.entries)

/-- The entries with a key. -/
def lookup (index : Index) (key : String) : List Entry :=
  index.entries.filter (·.key = key)

/-- The paths of the files. -/
def paths (index : Index) : List Path :=
  index.files.map (·.path)

/-- The index with only the files at the given paths, in index order. -/
def restrictedTo (index : Index) (paths : List Path) : Index :=
  ⟨index.files.filter fun file => paths.any (·.same file.path)⟩

end Index

/-- Where a key is defined. -/
inductive Resolution where
  | found (location : Location)
  | notFound
  /-- In more than one file. -/
  | ambiguous (locations : List Location)
  deriving DecidableEq, Repr

namespace Resolution

/-- The resolution that stands for a list of locations. -/
def ofLocations : List Location → Resolution
  | [] => notFound
  | [location] => found location
  | locations => ambiguous locations

/-- Every location of the key. -/
def locations : Resolution → List Location
  | found location => [location]
  | notFound => []
  | ambiguous locations => locations

/-- The one location of `key`, or why there is not exactly one. -/
def single (key : String) : Resolution → Except Failure Location
  | found location => .ok location
  | notFound => .error (.notFound s!"`{key}`")
  | ambiguous locations => .error (.ambiguous key locations)

end Resolution

/-- Resolves a key in the files at `paths`, or in all files when there are
none: the first entry with the key of each file. -/
def Index.resolve (index : Index) (key : String) (paths : List Path) : Resolution :=
  let allowed := (index.lookup key).filter fun entry =>
    paths.isEmpty || paths.any (·.same entry.path)
  let firsts := Listing.distinct (fun a b : Entry => a.path.same b.path) allowed
  .ofLocations (firsts.map fun entry => ⟨entry.path, entry.line⟩)

end LatexIndex.Bib
