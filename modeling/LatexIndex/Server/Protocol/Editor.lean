/-
LatexIndex/Server/Protocol/Editor.lean

What an editor says about itself when it starts a server: who it is, what it
works on and what it can do.
-/
import LatexIndex.Server.Protocol.Basic

namespace LatexIndex.Server.Protocol

open RecordField

/-! ### Abilities -/

/-- Whether an ability may be registered later. -/
def registered : RecordField :=
  optional "dynamicRegistration" .truth

/-- An ability that is there or not. -/
def flag (name : String) : RecordField :=
  optional name .truth

/-- The ability to register later and nothing else. -/
def registration : Shape :=
  .record "DynamicRegistrationClientCapabilities" [registered]

/-- The ability to refresh. -/
def refresh (name : String) : Shape :=
  .record name [flag "refreshSupport"]

/-- The properties that can be resolved later. -/
def properties (name : String) : Shape :=
  .record name [needed "properties" (.list .text)]

/-- The tags that are known; a truth value stands for none. -/
def tags : RecordField :=
  omissible "tagSupport" fun _ data =>
    match data with
    | .bool false => .ok .null
    | .bool true => .ok (.table [("valueSet", .list [])])
    | _ => Shape.record "TagSupport" [needed "valueSet" (.list .integer)] .message data

/-- The kinds of symbols that are known. -/
def symbolKinds : RecordField :=
  optional "symbolKind" (.record "SymbolKindCapability" [optional "valueSet" (.list .integer)])

/-! ### Workspaces -/

/-- Abilities with workspaces. -/
def workspaceAbilities : Shape :=
  .record "WorkspaceClientCapabilities" [
    flag "applyEdit",
    optional "workspaceEdit" (.record "WorkspaceEditClientCapabilities" [
      flag "documentChanges",
      optional "resourceOperations" (.list (.word ["create", "rename", "delete"])),
      optional "failureHandling"
        (.word ["abort", "transactional", "textOnlyTransactional", "undo"]),
      flag "normalizesLineEndings",
      optional "changeAnnotationSupport"
        (.record "ChangeAnnotationWorkspaceEditClientCapabilities" [flag "groupsOnLabel"])]),
    optional "didChangeConfiguration" registration,
    optional "didChangeWatchedFiles" (.record "DidChangeWatchedFilesClientCapabilities" [
      registered, flag "relativePatternSupport"]),
    optional "symbol" (.record "WorkspaceSymbolClientCapabilities" [
      registered, symbolKinds, tags,
      optional "resolveSupport" (properties "WorkspaceSymbolResolveSupportCapability")]),
    optional "executeCommand" registration,
    flag "workspaceFolders",
    flag "configuration",
    optional "semanticTokens" (refresh "SemanticTokensWorkspaceClientCapabilities"),
    optional "codeLens" (refresh "CodeLensWorkspaceClientCapabilities"),
    optional "fileOperations" (.record "WorkspaceFileOperationsClientCapabilities" [
      registered, flag "didCreate", flag "willCreate", flag "didRename", flag "willRename",
      flag "didDelete", flag "willDelete"]),
    optional "inlineValue" (refresh "InlineValueWorkspaceClientCapabilities"),
    optional "inlayHint" (refresh "InlayHintWorkspaceClientCapabilities"),
    optional "diagnostic" (refresh "DiagnosticWorkspaceClientCapabilities")]

/-! ### Documents -/

/-- Abilities with completions. -/
def completionAbilities : Shape :=
  .record "CompletionClientCapabilities" [
    registered,
    optional "completionItem" (.record "CompletionItemCapability" [
      flag "snippetSupport",
      flag "commitCharactersSupport",
      optional "documentationFormat" (.list markupKind),
      flag "deprecatedSupport",
      flag "preselectSupport",
      tags,
      flag "insertReplaceSupport",
      optional "resolveSupport" (properties "CompletionItemCapabilityResolveSupport"),
      optional "insertTextModeSupport"
        (.record "InsertTextModeSupport" [needed "valueSet" (.list .integer)]),
      flag "labelDetailsSupport"]),
    optional "completionItemKind"
      (.record "CompletionItemKindCapability" [optional "valueSet" (.list .integer)]),
    flag "contextSupport",
    optional "insertTextMode" .integer,
    optional "completionList"
      (.record "CompletionListCapability" [optional "itemDefaults" (.list .text)])]

/-- Abilities with signatures. -/
def signatureAbilities : Shape :=
  .record "SignatureHelpClientCapabilities" [
    registered,
    optional "signatureInformation" (.record "SignatureInformationSettings" [
      optional "documentationFormat" (.list markupKind),
      optional "parameterInformation"
        (.record "ParameterInformationSettings" [flag "labelOffsetSupport"]),
      flag "activeParameterSupport"]),
    flag "contextSupport"]

/-- Abilities with actions on code. -/
def actionAbilities : Shape :=
  .record "CodeActionClientCapabilities" [
    registered,
    optional "codeActionLiteralSupport" (.record "CodeActionLiteralSupport" [
      needed "codeActionKind"
        (.record "CodeActionKindLiteralSupport" [needed "valueSet" (.list .text)])]),
    flag "isPreferredSupport",
    flag "disabledSupport",
    flag "dataSupport",
    optional "resolveSupport" (properties "CodeActionCapabilityResolveSupport"),
    flag "honorsChangeAnnotations"]

/-- Abilities with the tokens of a document. -/
def tokenAbilities : Shape :=
  .record "SemanticTokensClientCapabilities" [
    registered,
    needed "requests" (.record "SemanticTokensClientCapabilitiesRequests" [
      flag "range",
      optional "full" (.choice "SemanticTokensFullOptions"
        [.truth, .record "Delta" [flag "delta"]])]),
    needed "tokenTypes" (.list .text),
    needed "tokenModifiers" (.list .text),
    needed "formats" (.list .text),
    flag "overlappingTokenSupport",
    flag "multilineTokenSupport",
    flag "serverCancelSupport",
    flag "augmentsSyntaxTokens"]

/-- The ability to go somewhere. -/
def jump : Shape :=
  .record "GotoCapability" [registered, flag "linkSupport"]

/-- Abilities with documents. -/
def documentAbilities : Shape :=
  .record "TextDocumentClientCapabilities" [
    optional "synchronization" (.record "TextDocumentSyncClientCapabilities" [
      registered, flag "willSave", flag "willSaveWaitUntil", flag "didSave"]),
    optional "completion" completionAbilities,
    optional "hover" (.record "HoverClientCapabilities" [
      registered, optional "contentFormat" (.list markupKind)]),
    optional "signatureHelp" signatureAbilities,
    optional "references" registration,
    optional "documentHighlight" registration,
    optional "documentSymbol" (.record "DocumentSymbolClientCapabilities" [
      registered, symbolKinds, flag "hierarchicalDocumentSymbolSupport", tags]),
    optional "formatting" registration,
    optional "rangeFormatting" registration,
    optional "onTypeFormatting" registration,
    optional "declaration" jump,
    optional "definition" jump,
    optional "typeDefinition" jump,
    optional "implementation" jump,
    optional "codeAction" actionAbilities,
    optional "codeLens" registration,
    optional "documentLink" (.record "DocumentLinkClientCapabilities" [
      registered, flag "tooltipSupport"]),
    optional "colorProvider" registration,
    optional "rename" (.record "RenameClientCapabilities" [
      registered, flag "prepareSupport", optional "prepareSupportDefaultBehavior" .integer,
      flag "honorsChangeAnnotations"]),
    optional "publishDiagnostics" (.record "PublishDiagnosticsClientCapabilities" [
      flag "relatedInformation", tags, flag "versionSupport", flag "codeDescriptionSupport",
      flag "dataSupport"]),
    optional "foldingRange" (.record "FoldingRangeClientCapabilities" [
      registered,
      optional "rangeLimit" .natural,
      flag "lineFoldingOnly",
      optional "foldingRangeKind" (.record "FoldingRangeKindCapability" [
        optional "valueSet" (.list (.word ["comment", "imports", "region"]))]),
      optional "foldingRange" (.record "FoldingRangeCapability" [flag "collapsedText"])]),
    optional "selectionRange" (.record "SelectionRangeClientCapabilities" [registered]),
    optional "linkedEditingRange" registration,
    optional "callHierarchy" registration,
    optional "semanticTokens" tokenAbilities,
    optional "moniker" registration,
    optional "typeHierarchy" registration,
    optional "inlineValue" registration,
    optional "inlayHint" (.record "InlayHintClientCapabilities" [
      registered, optional "resolveSupport" (properties "InlayHintResolveClientCapabilities")]),
    optional "diagnostic" (.record "DiagnosticClientCapabilities" [
      registered, flag "relatedDocumentSupport"])]

/-! ### Windows and the rest -/

/-- Abilities with windows. -/
def windowAbilities : Shape :=
  .record "WindowClientCapabilities" [
    flag "workDoneProgress",
    optional "showMessage" (.record "ShowMessageRequestClientCapabilities" [
      optional "messageActionItem"
        (.record "MessageActionItemCapabilities" [flag "additionalPropertiesSupport"])]),
    optional "showDocument"
      (.record "ShowDocumentClientCapabilities" [needed "support" .truth])]

/-- Abilities of a general kind. -/
def generalAbilities : Shape :=
  .record "GeneralClientCapabilities" [
    optional "regularExpressions" (.record "RegularExpressionsClientCapabilities" [
      needed "engine" .text, optional "version" .text]),
    optional "markdown" (.record "MarkdownClientCapabilities" [
      needed "parser" .text, optional "version" .text, optional "allowedTags" (.list .text)]),
    optional "staleRequestSupport" (.record "StaleRequestSupportClientCapabilities" [
      needed "cancel" .truth, needed "retryOnContentModified" (.list .text)]),
    optional "positionEncodings" (.list .text)]

/-- All that an editor can do. -/
def abilities : Shape :=
  .record "ClientCapabilities" [
    optional "workspace" workspaceAbilities,
    optional "textDocument" documentAbilities,
    optional "window" windowAbilities,
    optional "general" generalAbilities,
    optional "experimental" .anything]

/-- What an editor says when it starts a server. -/
def introduction : Shape :=
  .record "InitializeParams" [
    optional "processId" .natural,
    optional "rootPath" .text,
    omissible "rootUri" .uri,
    optional "initializationOptions" .anything,
    needed "capabilities" abilities,
    omissible "trace" (.word ["off", "messages", "verbose"]),
    optional "workspaceFolders" (.list (.record "WorkspaceFolder" [
      needed "uri" .uri, needed "name" .text])),
    optional "clientInfo" (.record "ClientInfo" [needed "name" .text, optional "version" .text]),
    optional "locale" .text]

end LatexIndex.Server.Protocol
