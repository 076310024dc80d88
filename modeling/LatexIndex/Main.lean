/-
LatexIndex/Main.lean

The command line program.  Everything it decides is decided by `read`,
`wants` and `Command.run`; here the files they ask for are read from the
machine and what they answer is printed.
-/
import LatexIndex.CommandLine.Reach

namespace LatexIndex.CommandLine

/-- The names on the way to an absolute path. -/
def placeOf (text : String) : Place :=
  (text.splitOn "/").filter (· ≠ "")

/-- Whether the bytes of a file of this name are ever looked at. -/
def isRead (name : String) : Bool :=
  [".tex", ".bib", ".toml", ".json"].any fun ending =>
    ending.toList.isSuffixOf name.toList

/-- Adds what is at a path to the disk and, for a directory, so many levels
below it.  Hidden directories and what cannot be read are left out. -/
def readBelow (depth : Nat) (path : String) (disk : Disk) : IO Disk := do
  try
    let real ← IO.FS.realPath path
    let place := placeOf real.toString
    if ← real.isDir then
      let disk := if (disk.node? place).isSome then disk else disk.put place .directory
      match depth with
      | 0 => return disk
      | depth + 1 =>
        (← real.readDir).foldlM (fun disk entry => do
          if Disk.isHidden entry.fileName && (← entry.path.isDir) then return disk
          else readBelow depth s!"{path}/{entry.fileName}" disk) disk
    else
      let bytes ← if isRead path then IO.FS.readBinFile real else pure .empty
      return disk.put place (.file bytes)
  catch _ => return disk

/-- Reads what a command about a file looks at, until nothing is new. -/
partial def gather (file : Path) (disk : Disk) : IO Disk := do
  let next ← (wants disk file).foldlM (fun disk want =>
    readBelow want.depth want.path.text disk) disk
  if next.entries.length = disk.entries.length then return next else gather file next

/-- The machine with no files read yet. -/
def machine : IO Disk := do
  let directory ← IO.currentDir
  let home ← IO.getEnv "HOME"
  return { entries := [], workingDirectory := placeOf directory.toString
           home := home.getD "/" }

/-- The names of the commands. -/
def commandNames : List String :=
  forms.map (·.1)

/-- The wording of a rejected command line. -/
def UsageError.message : UsageError → String
  | missingArgument => "a required argument is missing"
  | unknownArgument => "unexpected argument"
  | unknownCommand => "unrecognized command"
  | invalidValue => "invalid value"
  | unreadableValue => "value cannot be read"
  | repeatedFlag => "a flag is given twice"
  | surplusValue => "a value is given to a flag that takes none"
  | help => "usage: texseven [COMMAND]\ncommands: " ++ String.intercalate ", " commandNames
  | version => "texseven 0.1.0"

/-- Runs a command and prints what it has to say. -/
def perform (command : Command) : IO UInt32 := do
  let disk ← machine
  let disk ← match command.file? with
    | some file => gather file disk
    | none => pure disk
  match command.run disk "" with
  | .ok text =>
    IO.print text
    return 0
  | .error (.settings _) =>
    IO.eprintln "the settings cannot be read"
    return 1
  | .error error =>
    IO.eprintln error.message
    return 1

end LatexIndex.CommandLine

open LatexIndex.CommandLine in
/-- Reads the command line and carries it out. -/
def main (arguments : List String) : IO UInt32 := do
  match read arguments with
  | .ok command => perform (command.getD .serve)
  | .error .help =>
    IO.println UsageError.help.message
    return 0
  | .error .version =>
    IO.println UsageError.version.message
    return 0
  | .error error =>
    IO.eprintln error.message
    return 2
