/-
LatexIndex/Server/Message.lean

The messages between an editor and the server as structured data: what an
editor asks, taken from the plain form of a message's parameters, and what it
is answered and told.
-/
import LatexIndex.Server.Protocol.Parameters
import LatexIndex.Server.State

namespace LatexIndex.Server

/-- Why a request has no result. -/
inductive Refusal where
  | notInitialized
  | invalidRequest
  | methodNotFound
  | missingParameters
  /-- There are parameters where there should be none. -/
  | unexpectedParameters (params : Data)
  /-- The parameters are not what the method takes. -/
  | misfit (cause : Misfit)
  | unknownCommand (name : String)
  /-- A command needs other arguments. -/
  | wrongArguments
  /-- An argument of a command is not the URI of a file. -/
  | notFile
  /-- An argument of a command is not a line. -/
  | notLine

namespace Refusal

/-- The number of a refusal. -/
def code : Refusal → Int
  | notInitialized => -32002
  | invalidRequest => -32600
  | methodNotFound => -32601
  | _ => -32602

/-- The wording of a refusal. -/
def message : Refusal → String
  | notInitialized => "Server not initialized"
  | invalidRequest => "Invalid request"
  | methodNotFound => "Method not found"
  | missingParameters => "Missing params field"
  | unexpectedParameters params => "Unexpected params: " ++ String.ofList (Json.compact params)
  | misfit cause => cause.message
  | unknownCommand name => s!"unknown command {name}"
  | wrongArguments => "expected [uri, line, mode?]"
  | notFile => "expected a file uri"
  | notLine => "line must be a number"

end Refusal

/-! ### Reading parameters -/

/-- The plain form of parameters of a shape. -/
def parametersOf (shape : Shape) (params : Option Data) : Except Refusal Data :=
  match params with
  | some params => (shape .message params).mapError .misfit
  | none => .error .missingParameters

/-- The file that a message is about, if it is one. -/
def documentPath? (params : Data) : Option Path := do
  Uri.file? (← (← (← params.field? "textDocument").field? "uri").text?)

/-- The file, the line and the column that a question is about. -/
def place? (params : Data) : Option (Path × Nat × Nat) := do
  let position ← params.field? "position"
  return (← documentPath? params, ← (← position.field? "line").natural?,
    ← (← position.field? "character").natural?)

/-- The version of the document in a message. -/
def version? (params : Data) : Option Int := do
  match (← params.field? "textDocument").field? "version" with
  | some (.integer version) => some version
  | _ => none

/-- The file that is opened, and its text. -/
def opened? (params : Data) : Option (Path × Buffer) := do
  let text ← (← (← params.field? "textDocument").field? "text").text?
  return (← documentPath? params, ⟨text, ← version? params⟩)

/-- The file that is changed, and its text after the last of the changes. -/
def changed? (params : Data) : Option (Path × Buffer) := do
  let change ← (← (← params.field? "contentChanges").list?).getLast?
  let text ← (← change.field? "text").text?
  return (← documentPath? params, ⟨text, ← version? params⟩)

/-- The name and the arguments of a command. -/
def command? (params : Data) : Option (String × List Data) := do
  return (← (← params.field? "command").text?, ← (← params.field? "arguments").list?)

/-! ### Writing answers -/

/-- A place at the beginning of a line. -/
def lineStart (line : Nat) : Data :=
  .table [("line", .ofNat line), ("character", .ofNat 0)]

/-- The empty range at the beginning of a line. -/
def lineRange (line : Nat) : Data :=
  .table [("start", lineStart line), ("end", lineStart line)]

/-- The number of a candidate's kind. -/
def kindNumber : Completion.Kind → Nat
  | .label => 18
  | .citationKey => 12
  | .includePath => 17
  | .graphic => 17
  | .font => 1

/-- A candidate. -/
def candidateData (c : Completion.Candidate) : Data :=
  .table ([("label", .text c.word), ("kind", .ofNat (kindNumber c.kind))] ++
    (c.info.map fun info => ("detail", Data.text info)).toList)

/-- A complete list of candidates. -/
def candidatesData (candidates : List Completion.Candidate) : Data :=
  .table [("isIncomplete", .bool false), ("items", .list (candidates.map candidateData))]

/-- The locations that have a URI. -/
def locationsData (locations : List Location) : Data :=
  .list ((locations.filter (·.path.isAbsolute)).map fun l =>
    .table [("uri", .text (Uri.ofPath l.path)), ("range", lineRange l.line)])

/-- An environment and the lines of it that were asked for. -/
def spanData (mode : Markup.SpanMode) (span : Markup.Span) : Data :=
  .table [
    ("name", .text span.name),
    ("start_line", .ofNat span.startLine),
    ("end_line", .ofNat span.endLine),
    ("range", .ofOption ((span.lines? mode).map fun (first, last) =>
      .list [.ofNat first, .ofNat last]))]

/-- What the server can do. -/
def capabilities : Data :=
  .table [
    ("capabilities", .table [
      ("textDocumentSync", .ofNat 1),
      ("completionProvider", .table [
        ("triggerCharacters", .list [.text "\x7b", .text ","]),
        ("resolveProvider", .bool false)]),
      ("definitionProvider", .bool true),
      ("executeCommandProvider", .table [
        ("commands", .list [.text "texseven.reindex", .text "texseven.environment"])])]),
    ("serverInfo", .table [("name", .text "texseven"), ("version", .text "0.1.0")])]

/-- The number of a severity. -/
def severityNumber : Severity → Nat
  | .error => 1
  | .warning => 2

/-- A diagnostic. -/
def diagnosticData (d : Diagnostic) : Data :=
  .table [
    ("range", lineRange d.line),
    ("severity", .ofNat (severityNumber d.severity)),
    ("source", .text "texseven"),
    ("message", .text d.message)]

/-- The method of a notice. -/
def Notice.method : Notice → String
  | log _ => "window/logMessage"
  | diagnostics _ _ => "textDocument/publishDiagnostics"

/-- The parameters of a notice. -/
def Notice.params : Notice → Data
  | log message => .table [("type", .ofNat 3), ("message", .text message)]
  | diagnostics path items => .table [
      ("uri", .text (Uri.ofPath path)),
      ("diagnostics", .list (items.map diagnosticData))]

end LatexIndex.Server
