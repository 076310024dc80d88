/-
LatexIndex/Server/Protocol/Basic.lean

The shapes that many messages share: places in files, documents, edits and
diagnostics.
-/
import LatexIndex.Server.Shape

namespace LatexIndex.Server.Protocol

open RecordField

/-! ### Places -/

/-- A place in a document. -/
def position : Shape :=
  .record "Position" [needed "line" .natural, needed "character" .natural]

/-- What lies between two places. -/
def range : Shape :=
  .record "Range" [needed "start" position, needed "end" position]

/-- A range in a file. -/
def location : Shape :=
  .record "Location" [needed "uri" .uri, needed "range" range]

/-! ### Documents -/

/-- The name of a document. -/
def documentName : Shape :=
  .record "TextDocumentIdentifier" [needed "uri" .uri]

/-- The name and the version of a document. -/
def documentVersion : Shape :=
  .record "VersionedTextDocumentIdentifier" [needed "uri" .uri, needed "version" .integer]

/-- A whole document. -/
def document : Shape :=
  .record "TextDocumentItem" [
    needed "uri" .uri, needed "languageId" .text, needed "version" .integer, needed "text" .text]

/-- The field with the name of a document. -/
def ofDocument : RecordField :=
  needed "textDocument" documentName

/-- The part of a message that names a place in a document. -/
def atPosition : List RecordField :=
  [ofDocument, needed "position" position]

/-! ### Progress -/

/-- A number or a text. -/
def token : Shape :=
  .choice "NumberOrString" [.integer, .text]

/-- The part of a message about reports of progress. -/
def progress : List RecordField :=
  [optional "workDoneToken" token]

/-- The part of a message about results that come in pieces. -/
def pieces : List RecordField :=
  [optional "partialResultToken" token]

/-! ### Texts -/

/-- The kinds of marked-up text. -/
def markupKind : Shape :=
  .word ["plaintext", "markdown"]

/-- A text, perhaps marked up. -/
def markup (name : String) : Shape :=
  .choice name [.text,
    .record "MarkupContent" [needed "kind" markupKind, needed "value" .text]]

/-- An explanation. -/
def documentation : Shape :=
  markup "Documentation"

/-! ### Commands and edits -/

/-- A command. -/
def command : Shape :=
  .record "Command" [
    needed "title" .text, needed "command" .text, optional "arguments" (.list .anything)]

/-- The fields of an edit. -/
def editFields : List RecordField :=
  [needed "range" range, needed "newText" .text]

/-- An edit. -/
def edit : Shape :=
  .record "TextEdit" editFields

/-- The edits of one document. -/
def documentEdit : Shape :=
  .record "TextDocumentEdit" [
    needed "textDocument" (.record "OptionalVersionedTextDocumentIdentifier" [
      needed "uri" .uri, optional "version" .integer]),
    needed "edits" (.list (.choice "OneOf" [edit,
      .composite "AnnotatedTextEdit" [needed "annotationId" .text] [editFields]]))]

/-- An operation on a file, of a kind that its first field gives. -/
def fileOperation (kind : String) (names : List String) (options : List String) : Shape :=
  .record kind ([needed "kind" (.word [kind])] ++ names.map (needed · .uri) ++ [
    optional "options" (.record kind (options.map (optional · .truth))),
    optional "annotationId" .text])

/-- Changes all over a workspace. -/
def workspaceEdit : Shape :=
  .record "WorkspaceEdit" [
    omissible "changes" (.dictionary "map" .uri (.list edit)),
    optional "documentChanges" (.choice "DocumentChanges" [.list documentEdit,
      .list (.choice "DocumentChangeOperation" [
        fileOperation "create" ["uri"] ["overwrite", "ignoreIfExists"],
        fileOperation "rename" ["oldUri", "newUri"] ["overwrite", "ignoreIfExists"],
        fileOperation "delete" ["uri"] ["recursive", "ignoreIfNotExists"],
        documentEdit])]),
    optional "changeAnnotations" (.dictionary "a map" .text (.record "ChangeAnnotation" [
      needed "label" .text, optional "needsConfirmation" .truth, optional "description" .text]))]

/-! ### Diagnostics -/

/-- A diagnostic. -/
def diagnostic : Shape :=
  .record "Diagnostic" [
    needed "range" range,
    optional "severity" .integer,
    optional "code" token,
    optional "codeDescription" (.record "CodeDescription" [needed "href" .uri]),
    optional "source" .text,
    needed "message" .text,
    optional "relatedInformation" (.list (.record "DiagnosticRelatedInformation" [
      needed "location" location, needed "message" .text])),
    optional "tags" (.list .integer),
    optional "data" .anything]

end LatexIndex.Server.Protocol
