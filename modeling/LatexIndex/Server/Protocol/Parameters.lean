/-
LatexIndex/Server/Protocol/Parameters.lean

The parameters of the messages that the protocol knows, by method.

A request that this server does not answer still has to have the parameters
of its method before that is said.
-/
import LatexIndex.Server.Protocol.Editor

namespace LatexIndex.Server.Protocol

open RecordField

/-! ### Requests that the server answers -/

/-- The parameters of a jump from a place. -/
def jumpParameters : Shape :=
  .composite "GotoDefinitionParams" [] [atPosition, progress, pieces]

/-- The parameters of a completion at a place. -/
def completionParameters : Shape :=
  .composite "CompletionParams" [
    optional "context" (.record "CompletionContext" [
      needed "triggerKind" .integer, optional "triggerCharacter" .text])]
    [atPosition, progress, pieces]

/-- The parameters of a command. -/
def commandParameters : Shape :=
  .composite "ExecuteCommandParams"
    [needed "command" .text, listOrEmpty "arguments" .anything] [progress]

/-! ### Requests about hierarchies -/

/-- A caller or a callee. -/
def callItem : Shape :=
  .record "CallHierarchyItem" [
    needed "name" .text, needed "kind" .integer, optional "tags" (.list .integer),
    optional "detail" .text, needed "uri" .uri, needed "range" range,
    needed "selectionRange" range, optional "data" .anything]

/-- A type above or below another one. -/
def typeItem : Shape :=
  .record "TypeHierarchyItem" [
    needed "name" .text, needed "kind" .integer, optional "tags" .integer,
    optional "detail" .text, needed "uri" .uri, needed "range" range,
    needed "selectionRange" range, optional "data" .anything]

/-- The parameters of a question about an item. -/
def itemParameters (name : String) (item : Shape) : Shape :=
  .composite name [needed "item" item] [progress, pieces]

/-! ### Requests that resolve something -/

/-- A link in a document. -/
def link : Shape :=
  .record "DocumentLink" [
    needed "range" range, optional "target" .uri, optional "tooltip" .text,
    optional "data" .anything]

/-- A lens. -/
def lens : Shape :=
  .record "CodeLens" [
    needed "range" range, optional "command" command, optional "data" .anything]

/-- A hint in a line. -/
def hint : Shape :=
  .record "InlayHint" [
    needed "position" position,
    needed "label" (.choice "InlayHintLabel" [.text, .list (.record "InlayHintLabelPart" [
      needed "value" .text, optional "tooltip" (markup "InlayHintLabelPartTooltip"),
      optional "location" location, optional "command" command])]),
    optional "kind" .integer,
    optional "textEdits" (.list edit),
    optional "tooltip" (markup "InlayHintTooltip"),
    optional "paddingLeft" .truth,
    optional "paddingRight" .truth,
    optional "data" .anything]

/-- A completion. -/
def completionItem : Shape :=
  .record "CompletionItem" [
    needed "label" .text,
    optional "labelDetails" (.record "CompletionItemLabelDetails" [
      optional "detail" .text, optional "description" .text]),
    optional "kind" .integer,
    optional "detail" .text,
    optional "documentation" documentation,
    optional "deprecated" .truth,
    optional "preselect" .truth,
    optional "sortText" .text,
    optional "filterText" .text,
    optional "insertText" .text,
    optional "insertTextFormat" .integer,
    optional "insertTextMode" .integer,
    optional "textEdit" (.choice "CompletionTextEdit" [edit, .record "InsertReplaceEdit" [
      needed "newText" .text, needed "insert" range, needed "replace" range]]),
    optional "additionalTextEdits" (.list edit),
    optional "command" command,
    optional "commitCharacters" (.list .text),
    optional "data" .anything,
    optional "tags" (.list .integer)]

/-- An action on code. -/
def action : Shape :=
  .record "CodeAction" [
    needed "title" .text,
    optional "kind" .text,
    optional "diagnostics" (.list diagnostic),
    optional "edit" workspaceEdit,
    optional "command" command,
    optional "isPreferred" .truth,
    optional "disabled" (.record "CodeActionDisabled" [needed "reason" .text]),
    optional "data" .anything]

/-- A symbol of a workspace. -/
def symbol : Shape :=
  .record "WorkspaceSymbol" [
    needed "name" .text,
    needed "kind" .integer,
    optional "tags" (.list .integer),
    optional "containerName" .text,
    needed "location" (.choice "OneOf" [location,
      .record "WorkspaceLocation" [needed "uri" .uri]]),
    optional "data" .anything]

/-! ### Requests about a document -/

/-- The parameters of a question about a place. -/
def placeParameters (name : String) : Shape :=
  .composite name [] [atPosition, progress]

/-- The parameters of a question about a place with an answer in pieces. -/
def placesParameters (name : String) : Shape :=
  .composite name [] [atPosition, progress, pieces]

/-- The parameters of a question about a document with an answer in pieces,
with some more fields. -/
def documentParameters (name : String) (fields : List RecordField) : Shape :=
  .composite name (ofDocument :: fields) [progress, pieces]

/-- A signature that is shown. -/
def signatureHelp : Shape :=
  .record "SignatureHelp" [
    needed "signatures" (.list (.record "SignatureInformation" [
      needed "label" .text,
      optional "documentation" documentation,
      optional "parameters" (.list (.record "ParameterInformation" [
        needed "label" (.choice "ParameterLabel" [.text, .pair .natural]),
        optional "documentation" documentation])),
      optional "activeParameter" .natural])),
    optional "activeSignature" .natural,
    optional "activeParameter" .natural]

/-- How a document is to be formatted. -/
def formatting : RecordField :=
  needed "options" fun origin data => do
    let named := [
      needed "tabSize" .natural, needed "insertSpaces" .truth,
      optional "trimTrailingWhitespace" .truth, optional "insertFinalNewline" .truth,
      optional "trimFinalNewlines" .truth]
    let known ← Shape.composite "FormattingOptions" named [] origin data
    let others := match data with
      | .table fields => fields.filter fun (name, _) => !named.any (·.name = name)
      | _ => []
    let _ ← Shape.dictionary "a map" .text
      (.choice "FormattingProperty" [.truth, .integer, .text]) .kept (.table others)
    return known

/-- The parameters of a message about files. -/
def filesParameters (name file : String) (names : List String) : Shape :=
  .record name [needed "files" (.list (.record file (names.map (needed · .text))))]

/-- The requests that an initialized server answers. -/
def answered : List (String × Shape) := [
  ("textDocument/completion", completionParameters),
  ("textDocument/definition", jumpParameters),
  ("workspace/executeCommand", commandParameters)]

/-- The requests that the protocol knows and the server does not answer. -/
def unanswered : List (String × Shape) := [
  ("textDocument/declaration", jumpParameters),
  ("textDocument/typeDefinition", jumpParameters),
  ("textDocument/implementation", jumpParameters),
  ("textDocument/references", .composite "ReferenceParams" [
    needed "context" (.record "ReferenceContext" [needed "includeDeclaration" .truth])]
    [atPosition, progress, pieces]),
  ("textDocument/prepareCallHierarchy", placeParameters "CallHierarchyPrepareParams"),
  ("callHierarchy/incomingCalls", itemParameters "CallHierarchyIncomingCallsParams" callItem),
  ("callHierarchy/outgoingCalls", itemParameters "CallHierarchyOutgoingCallsParams" callItem),
  ("textDocument/prepareTypeHierarchy", placeParameters "TypeHierarchyPrepareParams"),
  ("typeHierarchy/supertypes", itemParameters "TypeHierarchySupertypesParams" typeItem),
  ("typeHierarchy/subtypes", itemParameters "TypeHierarchySubtypesParams" typeItem),
  ("textDocument/documentHighlight", placesParameters "DocumentHighlightParams"),
  ("textDocument/documentLink", documentParameters "DocumentLinkParams" []),
  ("documentLink/resolve", link),
  ("textDocument/hover", placeParameters "HoverParams"),
  ("textDocument/codeLens", documentParameters "CodeLensParams" []),
  ("codeLens/resolve", lens),
  ("textDocument/foldingRange", documentParameters "FoldingRangeParams" []),
  ("textDocument/selectionRange", documentParameters "SelectionRangeParams"
    [needed "positions" (.list position)]),
  ("textDocument/documentSymbol", documentParameters "DocumentSymbolParams" []),
  ("textDocument/semanticTokens/full", documentParameters "SemanticTokensParams" []),
  ("textDocument/semanticTokens/full/delta", documentParameters "SemanticTokensDeltaParams"
    [needed "previousResultId" .text]),
  ("textDocument/semanticTokens/range", documentParameters "SemanticTokensRangeParams"
    [needed "range" range]),
  ("textDocument/inlineValue", .composite "InlineValueParams" [
    ofDocument, needed "range" range, needed "context" (.record "InlineValueContext" [
      needed "frameId" .integer, needed "stoppedLocation" range])] [progress]),
  ("textDocument/inlayHint", .composite "InlayHintParams" [ofDocument, needed "range" range]
    [progress]),
  ("inlayHint/resolve", hint),
  ("textDocument/moniker", placesParameters "MonikerParams"),
  ("completionItem/resolve", completionItem),
  ("textDocument/diagnostic", documentParameters "DocumentDiagnosticParams"
    [optional "identifier" .text, optional "previousResultId" .text]),
  ("workspace/diagnostic", .composite "WorkspaceDiagnosticParams" [
    optional "identifier" .text,
    needed "previousResultIds" (.list (.record "PreviousResultId" [
      needed "uri" .uri, needed "value" .text]))] [progress, pieces]),
  ("textDocument/signatureHelp", .composite "SignatureHelpParams" [
    optional "context" (.record "SignatureHelpContext" [
      needed "triggerKind" .integer, optional "triggerCharacter" .text,
      needed "isRetrigger" .truth, optional "activeSignatureHelp" signatureHelp])]
    [atPosition, progress]),
  ("textDocument/codeAction", documentParameters "CodeActionParams" [
    needed "range" range, needed "context" (.record "CodeActionContext" [
      needed "diagnostics" (.list diagnostic), optional "only" (.list .text),
      optional "triggerKind" .integer])]),
  ("codeAction/resolve", action),
  ("textDocument/documentColor", documentParameters "DocumentColorParams" []),
  ("textDocument/colorPresentation", documentParameters "ColorPresentationParams" [
    needed "color" (.record "Color" [
      needed "red" .number, needed "green" .number, needed "blue" .number,
      needed "alpha" .number]),
    needed "range" range]),
  ("textDocument/formatting", .composite "DocumentFormattingParams" [ofDocument, formatting]
    [progress]),
  ("textDocument/rangeFormatting", .composite "DocumentRangeFormattingParams"
    [ofDocument, needed "range" range, formatting] [progress]),
  ("textDocument/onTypeFormatting", .composite "DocumentOnTypeFormattingParams"
    [needed "ch" .text, formatting] [atPosition]),
  ("textDocument/rename", .composite "RenameParams" [needed "newName" .text]
    [atPosition, progress]),
  ("textDocument/prepareRename", .record "TextDocumentPositionParams" atPosition),
  ("textDocument/linkedEditingRange", placeParameters "LinkedEditingRangeParams"),
  ("textDocument/willSaveWaitUntil", .record "WillSaveTextDocumentParams"
    [ofDocument, needed "reason" .integer]),
  ("workspace/symbol", .composite "WorkspaceSymbolParams" [needed "query" .text]
    [pieces, progress]),
  ("workspaceSymbol/resolve", symbol),
  ("workspace/willCreateFiles", filesParameters "CreateFilesParams" "FileCreate" ["uri"]),
  ("workspace/willRenameFiles",
    filesParameters "RenameFilesParams" "FileRename" ["oldUri", "newUri"]),
  ("workspace/willDeleteFiles", filesParameters "DeleteFilesParams" "FileDelete" ["uri"])]

/-! ### Notifications -/

/-- The notifications that the server heeds. -/
def heeded : List (String × Shape) := [
  ("initialized", .record "InitializedParams" []),
  ("textDocument/didOpen", .record "DidOpenTextDocumentParams" [needed "textDocument" document]),
  ("textDocument/didChange", .record "DidChangeTextDocumentParams" [
    needed "textDocument" documentVersion,
    needed "contentChanges" (.list (.record "TextDocumentContentChangeEvent" [
      optional "range" range, optional "rangeLength" .natural, needed "text" .text]))]),
  ("textDocument/didSave", .record "DidSaveTextDocumentParams" [
    ofDocument, optional "text" .text]),
  ("textDocument/didClose", .record "DidCloseTextDocumentParams" [ofDocument])]

/-- The notifications that the protocol knows and the server passes over. -/
def unheeded : List String := [
  "textDocument/willSave", "workspace/didChangeWorkspaceFolders",
  "workspace/didChangeConfiguration", "workspace/didChangeWatchedFiles",
  "workspace/didCreateFiles", "workspace/didRenameFiles", "workspace/didDeleteFiles"]

/-- Whether a method is that of a notification. -/
def isNotification (method : String) : Bool :=
  heeded.any (·.1 = method) || unheeded.contains method

end LatexIndex.Server.Protocol
