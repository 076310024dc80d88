/-
LatexIndex/CommandLine/Arguments.lean

Reading the arguments of the command line.

The first argument names a command; each command takes values in a fixed
order and at most one flag, which may stand anywhere among them.  After `--`
everything is a value.  A value is checked as soon as the next value or flag
has been recognised, so of two faults the one that shows first is told.
-/
import LatexIndex.Cursor.Context
import LatexIndex.Path.Basic
import LatexIndex.Settings.Load

namespace LatexIndex.CommandLine

open Text Cursor

/-- Why arguments are no command.  Asking for help or for the version counts
here too, because it ends the reading. -/
inductive UsageError where
  | missingArgument
  | unknownArgument
  | unknownCommand
  /-- A value that is none of those possible. -/
  | invalidValue
  /-- A value that cannot be read. -/
  | unreadableValue
  /-- A flag given twice. -/
  | repeatedFlag
  /-- A value given to a flag. -/
  | surplusValue
  | help
  | version
  deriving DecidableEq, Repr

/-- What the program can be asked to do. -/
inductive Command where
  | serve
  | reindex (file : Path) (json : Bool)
  | complete (file : Path) (context : Context) (typed : String)
  | definition (file : Path) (key : String) (citation : Bool)
  /-- The line is counted from one. -/
  | environment (file : Path) (line : Nat) (inner : Bool)
  | watch (file : Path)
  deriving DecidableEq, Repr

/-! ### Values -/

/-- What a value has to be. -/
inductive Slot where
  | file
  | context
  | word
  | line
  deriving DecidableEq, Repr

/-- The context of a name. -/
def contextOf? : String → Option Context
  | "label" => some .labelReference
  | "citation" => some .citation
  | "include" => some .includePath
  | "graphics" => some .graphics
  | "font" => some .font
  | _ => none

/-- What is wrong with a value. -/
def Slot.fault? (value : String) : Slot → Option UsageError
  | file => if value = "" then some .invalidValue else none
  | context => if (contextOf? value).isNone then some .invalidValue else none
  | word => none
  | line => if (Settings.naturalOf? value).isNone then some .unreadableValue else none

/-! ### Commands -/

/-- What a command takes. -/
structure Form where
  slots : List Slot
  /-- How many of the values have to be there. -/
  required : Nat
  /-- The flag, without its dashes. -/
  flag : Option String
  /-- The command for given values and flag. -/
  build : List String → Bool → Option Command

/-- The forms of the commands, by name. -/
def forms : List (String × Form) := [
  ("lsp", ⟨[], 0, none, fun _ _ => some .serve⟩),
  ("reindex", ⟨[.file], 1, some "json", fun values json => match values with
    | [file] => some (.reindex ⟨file⟩ json)
    | _ => none⟩),
  ("complete", ⟨[.file, .context, .word], 2, none, fun values _ => match values with
    | [file, context] => (contextOf? context).map (.complete ⟨file⟩ · "")
    | [file, context, typed] => (contextOf? context).map (.complete ⟨file⟩ · typed)
    | _ => none⟩),
  ("definition", ⟨[.file, .word], 2, some "citation", fun values citation => match values with
    | [file, key] => some (.definition ⟨file⟩ key citation)
    | _ => none⟩),
  ("env", ⟨[.file, .line], 2, some "inner", fun values inner => match values with
    | [file, line] => (Settings.naturalOf? line).map (.environment ⟨file⟩ · inner)
    | _ => none⟩),
  ("watch", ⟨[.file], 1, none, fun values _ => match values with
    | [file] => some (.watch ⟨file⟩)
    | _ => none⟩)]

/-- The form of a command. -/
def form? (name : String) : Option Form :=
  (forms.find? (·.1 = name)).map (·.2)

/-- How an argument looks. -/
inductive Shape where
  /-- `--` by itself. -/
  | divider
  /-- `--name` or `--name=value`. -/
  | long (name : String) (hasValue : Bool)
  /-- `-` and letters, of which the first counts. -/
  | short (letter : Char)
  | value
  deriving DecidableEq, Repr

/-- How an argument looks before any `--`. -/
def shapeOf (argument : String) : Shape :=
  match argument.toList with
  | ['-', '-'] => .divider
  | '-' :: '-' :: rest => match cutAt (· == '=') rest with
    | some (name, _) => .long (String.ofList name) true
    | none => .long (String.ofList rest) false
  | '-' :: letter :: _ => .short letter
  | _ => .value

/-- What has been read of a command's arguments. -/
structure Progress where
  values : List String := []
  flagged : Bool := false
  /-- Whether `--` has been passed. -/
  divided : Bool := false
  deriving DecidableEq, Repr

namespace Form

/-- Checks the values read so far. -/
def check (form : Form) (values : List String) : Except UsageError Unit :=
  match (values.zip form.slots).findSome? fun (value, slot) => slot.fault? value with
  | some fault => .error fault
  | none => .ok ()

/-- Takes one more argument. -/
def take (form : Form) (p : Progress) (argument : String) : Except UsageError Progress :=
  match if p.divided then .value else shapeOf argument with
  | .divider => .ok { p with divided := true }
  | .long name hasValue =>
    if name ≠ "help" && some name ≠ form.flag then .error .unknownArgument
    else if hasValue then .error .surplusValue
    else do
      form.check p.values
      if name = "help" then .error .help
      else if p.flagged then .error .repeatedFlag
      else .ok { p with flagged := true }
  | .short letter =>
    if letter == 'h' then do
      form.check p.values
      .error .help
    else .error .unknownArgument
  | .value =>
    if p.values.length < form.slots.length then do
      form.check p.values
      .ok { p with values := p.values ++ [argument] }
    else .error .unknownArgument

/-- The command that the arguments after its name make. -/
def read (form : Form) (arguments : List String) : Except UsageError Command := do
  let p ← arguments.foldlM form.take {}
  form.check p.values
  if p.values.length < form.required then .error .missingArgument
  else match form.build p.values p.flagged with
    | some command => .ok command
    | none => .error .missingArgument

end Form

/-! ### The whole command line -/

/-- What is told when help is asked for by name: the help, unless a name is
none. -/
def readHelp : List String → UsageError
  | [] => .help
  | ["help"] => .help
  | [name] => if (form? name).isSome then .help else .unknownCommand
  | _ => .unknownCommand

/-- Whether a name is that of a command. -/
def isCommand (name : String) : Bool :=
  name = "help" || (form? name).isSome

/-- What is told about the arguments after `--` when no command was named. -/
def readDivided : List String → Except UsageError (Option Command)
  | [] => .ok none
  | argument :: _ => .error (if isCommand argument then .unknownArgument else .unknownCommand)

/-- The command that the arguments make; without arguments there is none. -/
def read : List String → Except UsageError (Option Command)
  | [] => .ok none
  | argument :: rest =>
    match form? argument with
    | some form => (form.read rest).map some
    | none =>
      if argument = "help" then .error (readHelp rest)
      else match shapeOf argument with
        | .divider => readDivided rest
        | .long name hasValue =>
          if name ≠ "help" && name ≠ "version" then .error .unknownArgument
          else if hasValue then .error .surplusValue
          else .error (if name = "help" then .help else .version)
        | .short letter =>
          .error (if letter == 'h' then .help else if letter == 'V' then .version
            else .unknownArgument)
        | .value => .error .unknownCommand

end LatexIndex.CommandLine
