/-
LatexIndex/Files/Disk.lean

The files of a machine, as a value.

A disk is a finite list of entries, each a location (the names from the root
down) with what is there.  A directory need not be listed: everything above
an entry is a directory.  Looking a path up follows it segment by segment
from the root, or from the working directory when it is relative; a segment
can only be followed from a directory, so a slash after the name of a file
leads nowhere.
-/
import LatexIndex.Path.Basic

namespace LatexIndex

/-- The names from the root down to a place on the disk. -/
abbrev Place := List String

/-- What is at a place. -/
inductive Node where
  | file (bytes : ByteArray)
  | directory

instance : DecidableEq Node
  | .file a, .file b =>
    match a.instDecidableEq b with
    | isTrue h => isTrue (congrArg Node.file h)
    | isFalse h => isFalse fun he => h (Node.file.inj he)
  | .file _, .directory => isFalse nofun
  | .directory, .file _ => isFalse nofun
  | .directory, .directory => isTrue rfl

/-- Why a file cannot be read. -/
inductive ReadError where
  | missing
  | isDirectory
  | notDirectory
  /-- A name, or the path as a whole, is longer than a system takes. -/
  | nameTooLong
  /-- The path holds the character that ends a path. -/
  | endingInside
  /-- The bytes are not UTF-8. -/
  | undecodable
  /-- Any other reason, in the words of the system. -/
  | other (reason : String)
  deriving DecidableEq, Repr

/-- The wording of a reason. -/
def ReadError.message : ReadError → String
  | missing => "No such file or directory (os error 2)"
  | isDirectory => "Is a directory (os error 21)"
  | notDirectory => "Not a directory (os error 20)"
  | nameTooLong => "File name too long (os error 36)"
  | endingInside => "file name contained an unexpected NUL byte"
  | undecodable => "stream did not contain valid UTF-8"
  | other reason => reason

/-- The files of a machine, the directory that relative paths start from and
the home directory of its user. -/
structure Disk where
  entries : List (Place × Node)
  workingDirectory : Place := []
  home : String := "/"
  deriving DecidableEq

namespace Disk

/-! ### Looking up -/

/-- How many bytes a name may have. -/
def longestName : Nat := 255

/-- How many bytes a path may have. -/
def longestPath : Nat := 4095

/-- What is at a place. -/
def node? (disk : Disk) (place : Place) : Option Node :=
  match disk.entries.find? (·.1 = place) with
  | some (_, node) => some node
  | none =>
    if place = [] || disk.entries.any (place.isPrefixOf ·.1) then some .directory else none

/-- Follows segments from a place. -/
def follow (disk : Disk) (place : Place) : List String → Except ReadError (Place × Node)
  | [] => match disk.node? place with
    | some node => .ok (place, node)
    | none => .error .missing
  | segment :: more => match disk.node? place with
    | none => .error .missing
    | some (.file _) => .error .notDirectory
    | some .directory =>
      if Path.isIdle segment then disk.follow place more
      else if segment = ".." then disk.follow place.dropLast more
      else if longestName < segment.utf8ByteSize then .error .nameTooLong
      else disk.follow (place ++ [segment]) more

/-- The place a path leads to, with what is there.  The empty path leads
nowhere. -/
def lookUp (disk : Disk) (path : Path) : Except ReadError (Place × Node) :=
  if path.text = "" then .error .missing
  else if path.text.toList.contains '\x00' then .error .endingInside
  else if longestPath < path.text.utf8ByteSize then .error .nameTooLong
  else if path.isAbsolute then disk.follow [] path.segments
  else disk.follow disk.workingDirectory path.segments

/-- Whether a path leads to a regular file. -/
def isFile (disk : Disk) (path : Path) : Bool :=
  match disk.lookUp path with
  | .ok (_, .file _) => true
  | _ => false

/-- The bytes of the file a path leads to. -/
def readBytes (disk : Disk) (path : Path) : Except ReadError ByteArray :=
  match disk.lookUp path with
  | .ok (_, .file bytes) => .ok bytes
  | .ok (_, .directory) => .error .isDirectory
  | .error reason => .error reason

/-- The text of the file a path leads to. -/
def read (disk : Disk) (path : Path) : Except ReadError String := do
  match String.fromUTF8? (← disk.readBytes path) with
  | some text => .ok text
  | none => .error .undecodable

/-- The plain absolute path of a place. -/
def pathOf (place : Place) : Path :=
  Path.ofParts (.root :: place.map .name)

/-- The plain absolute path that leads where `path` leads. -/
def canonical? (disk : Disk) (path : Path) : Option Path :=
  match disk.lookUp path with
  | .ok (place, _) => some (pathOf place)
  | .error _ => none

/-- The text with a leading `~` that stands alone or before a slash replaced
by the home directory. -/
def expandHome (disk : Disk) (text : String) : String :=
  match text.toList with
  | '~' :: rest =>
    if rest.isEmpty || rest.head? == some '/' then disk.home ++ String.ofList rest else text
  | _ => text

/-! ### Listing -/

/-- Whether a name is hidden from listings. -/
def isHidden (name : String) : Bool :=
  name.toList.head? == some '.'

/-- Lexicographic order of places. -/
def placeLe : Place → Place → Bool
  | [], _ => true
  | _ :: _, [] => false
  | a :: as, b :: bs => if a = b then placeLe as bs else a < b

/-- The regular files at most `depth` levels below a directory that are not
hidden and in no hidden directory, in the order of their places, each seen
through `root`.  A regular file lists itself. -/
def filesUnder (disk : Disk) (root : Path) (depth : Nat) : List Path :=
  match disk.lookUp root with
  | .error _ => []
  | .ok (_, .file _) => [root]
  | .ok (place, .directory) =>
    let below := disk.entries.filterMap fun
      | (other, .file _) =>
        let way := other.drop place.length
        if place.isPrefixOf other && way.length ≤ depth && !way.any isHidden then some way
        else none
      | _ => none
    (below.mergeSort placeLe).map fun way => way.foldl Path.join root

/-! ### Changing -/

/-- Puts a node at a place, instead of what was there. -/
def put (disk : Disk) (place : Place) (node : Node) : Disk :=
  { disk with entries := disk.entries.filter (·.1 ≠ place) ++ [(place, node)] }

/-- Takes away what is at a place and below it; the directory it was in
stays. -/
def remove (disk : Disk) (place : Place) : Disk :=
  match disk.node? place with
  | none => disk
  | some _ =>
    let kept := disk.entries.filter (!place.isPrefixOf ·.1)
    { disk with entries := kept ++ [(place.dropLast, .directory)] }

end Disk

end LatexIndex
