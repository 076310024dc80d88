/-
LatexIndex/Settings/Load.lean

Loading the settings for a directory.

There are two sources, the user's own and the one of the directory.  The
later one is laid over the earlier one, and both over the defaults.  A source
is a file with a given name and the ending of a format.  A regular file with
exactly that name has no format, and then the source counts as absent; so
does one that is not text.

Values are taken generously: a number may be given as text or as a truth
value, a text as a number or as a truth value.
-/
import LatexIndex.Data.Toml
import LatexIndex.Files.Disk
import LatexIndex.Settings
import LatexIndex.Settings.Merge

namespace LatexIndex.Settings

open Text

/-- Why there are no settings. -/
inductive LoadError where
  /-- A file is not in its format. -/
  | syntaxError
  /-- A value is not what its name needs. -/
  | valueError
  deriving DecidableEq, Repr

/-! ### Values -/

/-- A whole number of at most 64 bits, perhaps with a plus sign. -/
def naturalOf? (text : String) : Option Nat :=
  let digits := match text.toList with
    | '+' :: rest => rest
    | rest => rest
  if digits.isEmpty || !digits.all Json.isDigit then none
  else
    let value := Json.decimalValue digits
    if value < Nat.pow 2 64 then some value else none

/-- A number. -/
def number? : Data → Option Nat
  | .integer value => if 0 ≤ value then some value.toNat else none
  | .real value => some value.toNatural
  | .bool value => some (if value then 1 else 0)
  | .text value =>
    let lower := String.ofList (asciiLower value.toList)
    if lower ∈ ["true", "on", "yes"] then some 1
    else if lower ∈ ["false", "off", "no"] then some 0
    else naturalOf? value
  | _ => none

/-- A text. -/
def text? : Data → Option String
  | .text value => some value
  | .bool value => some (if value then "true" else "false")
  | .integer value => some (toString value)
  | .real value => some value.plain
  | _ => none

/-- A list of texts. -/
def texts? : Data → Option (List String)
  | .list items => items.mapM text?
  | _ => none

/-- The name of a policy. -/
def policyName : Policy → String
  | .onDemand => "OnDemand"
  | .onSave => "OnSave"
  | .never => "Never"

/-- The policy of a name, in upper or lower case. -/
def policyOf? (name : String) : Option Policy :=
  [.onDemand, .onSave, .never].find? fun policy =>
    fieldName (policyName policy) = fieldName name

/-- A policy, given by its name or by a table with that one name in it. -/
def policy? : Data → Option Policy
  | .text name => policyOf? name
  | .table [(name, _)] => policyOf? name
  | _ => none

/-- A text that may be left out. -/
def optionalText? : Option Data → Option (Option String)
  | none => some none
  | some .null => some none
  | some data => (text? data).map some

/-! ### Settings as data -/

/-- The data of settings. -/
def data (s : Settings) : Data :=
  let texts := fun (items : List String) => Data.list (items.map .text)
  .table ([
    ("reindex", .text (policyName s.reindex)),
    ("debounce_ms", .ofNat s.debounce),
    ("modeline_lines", .ofNat s.modelineLines),
    ("master_search_depth", .ofNat s.masterSearchDepth),
    ("bib_info_length", .ofNat s.bibInfoLength),
    ("bib_search_paths", texts s.bibSearchPaths),
    ("graphics_extensions", texts s.graphicsExtensions),
    ("output_format", .text s.outputFormat),
    ("completion_limit", .ofNat s.completionLimit)] ++
    (s.master.map fun name => ("master", Data.text name)).toList)

/-- The settings that data stands for. -/
def ofData? (data : Data) : Option Settings := do
  return {
    master := ← optionalText? (data.field? "master")
    reindex := ← policy? (← data.field? "reindex")
    debounce := ← number? (← data.field? "debounce_ms")
    modelineLines := ← number? (← data.field? "modeline_lines")
    masterSearchDepth := ← number? (← data.field? "master_search_depth")
    bibInfoLength := ← number? (← data.field? "bib_info_length")
    bibSearchPaths := ← texts? (← data.field? "bib_search_paths")
    graphicsExtensions := ← texts? (← data.field? "graphics_extensions")
    outputFormat := ← text? (← data.field? "output_format")
    completionLimit := ← number? (← data.field? "completion_limit") }

/-! ### Sources -/

/-- The formats of configuration files, by their endings. -/
def formats : List (String × (List Char → Option Data)) :=
  [(".toml", Toml.read?), (".json", Json.read?)]

/-- What a source says; an absent one says nothing. -/
def source (disk : Disk) (name : String) : Except LoadError Data :=
  if disk.isFile ⟨name⟩ then .ok (.table [])
  else
    match formats.find? fun (ending, _) => disk.isFile ⟨name ++ ending⟩ with
    | none => .ok (.table [])
    | some (ending, read?) =>
      match disk.read ⟨name ++ ending⟩ with
      | .error _ => .ok (.table [])
      | .ok text => match read? text.toList with
        | some (.table fields) => .ok (.table fields)
        | _ => .error .syntaxError

/-- The settings for a directory. -/
def load (disk : Disk) (directory : Path) : Except LoadError Settings := do
  let user ← source disk (disk.expandHome "~/.config/texseven/settings")
  let own ← source disk (directory.text ++ "/.texseven")
  let said := lay (lay (.table []) user) own
  match ofData? (lay (data {}) said) with
  | some settings => .ok settings
  | none => .error .valueError

end LatexIndex.Settings
