/-
LatexIndex/Server/Service.lean

The life of a server: it has to be initialized before anything else, may be
shut down, and ends when it is told to exit.  Messages that come too early or
too late are refused, or ignored where no answer is expected.

Time is a number that only `pass` moves on, so everything the server does
follows from the messages and from how much time passes between them.
-/
import LatexIndex.Server.Message

namespace LatexIndex.Server

/-- How far a server has come. -/
inductive Phase where
  | uninitialized
  | initialized
  | shutDown
  | exited
  deriving DecidableEq, Repr

/-- A message from an editor. -/
structure Message where
  method : String
  params : Option Data
  /-- Whether an answer is expected. -/
  isRequest : Bool

/-- The answer to a request. -/
inductive Answer where
  | result (data : Data)
  | refused (refusal : Refusal)
  /-- The server has exited. -/
  | gone

/-- A server and the time. -/
structure Service where
  phase : Phase
  state : State
  now : Nat
  deriving DecidableEq

/-! ### Commands -/

/-- The file that an argument of a command names. -/
def pathArgument (argument : Data) : Except Refusal Path :=
  match argument.text?.bind Uri.file? with
  | some path => .ok path
  | none => .error .notFile

/-- Rebuilds projects and answers with the reports. -/
def reindexCommand (host : Host) (s : State) (arguments : List Data) :
    Except Refusal (State × Data × List Notice) := do
  let path? ← match arguments with
    | argument :: _ => (pathArgument argument).map some
    | [] => .ok none
  let (s, reports, notices) := s.reindex host path?
  return (s, .list (reports.map Report.data), notices)

/-- Answers with the environment around a line. -/
def environmentCommand (host : Host) (s : State) (arguments : List Data) :
    Except Refusal Data :=
  match arguments with
  | uri :: line :: more => do
    let path ← pathArgument uri
    match line.natural? with
    | none => .error .notLine
    | some line =>
      let mode := if more.head?.bind Data.text? = some "inner" then .inner else .outer
      return .ofOption ((s.environment? host path line).map (spanData mode))
  | _ => .error .wrongArguments

/-- Carries out a command by name. -/
def executeCommand (host : Host) (s : State) (name : String) (arguments : List Data) :
    Except Refusal (State × Data × List Notice) := do
  if name = "texseven.reindex" then reindexCommand host s arguments
  else if name = "texseven.environment" then
    return (s, ← environmentCommand host s arguments, [])
  else .error (.unknownCommand name)

/-! ### Messages -/

/-- Answers a request of an initialized server from the plain form of its
parameters. -/
def answer (host : Host) (s : State) (method : String) (params : Data) :
    Except Refusal (State × Data × List Notice) :=
  match method with
  | "workspace/executeCommand" =>
    match command? params with
    | some (name, arguments) => executeCommand host s name arguments
    | none => .ok (s, .null, [])
  | "textDocument/completion" =>
    match place? params with
    | some (path, line, column) =>
      let (s, candidates) := s.completions host path line column
      .ok (s, .ofOption (candidates.map candidatesData), [])
    | none => .ok (s, .null, [])
  | "textDocument/definition" =>
    match place? params with
    | some (path, line, column) =>
      let (s, locations) := s.definitions host path line column
      .ok (s, .ofOption (locations.map locationsData), [])
    | none => .ok (s, .null, [])
  | _ => .error .methodNotFound

/-- What a notification tells an initialized server, from the plain form of
its parameters. -/
def heed (host : Host) (now : Nat) (s : State) (method : String) (params : Data) :
    State × List Notice :=
  match method with
  | "initialized" => (s, [.log "texseven ready"])
  | "textDocument/didOpen" =>
    match opened? params with
    | some (path, buffer) => s.opened host now path buffer
    | none => (s, [])
  | "textDocument/didChange" =>
    match changed? params with
    | some (path, buffer) => (s.changed path buffer, [])
    | none => (s, [])
  | "textDocument/didSave" =>
    match documentPath? params with
    | some path => (s.saved now path, [])
    | none => (s, [])
  | "textDocument/didClose" =>
    match documentPath? params with
    | some path => s.closed path
    | none => (s, [])
  | _ => (s, [])

namespace Service

/-- A server that has just been started. -/
def start : Service :=
  ⟨.uninitialized, .empty, 0⟩

/-- Why a server that is not running refuses a request. -/
def refusal (s : Service) : Refusal :=
  if s.phase = .uninitialized then .notInitialized else .invalidRequest

/-- The request to initialize.  One that cannot be read changes nothing. -/
def initialized (s : Service) (params : Option Data) : Service × Answer :=
  if s.phase ≠ .uninitialized then (s, .refused .invalidRequest)
  else match parametersOf Protocol.introduction params with
    | .ok _ => ({ s with phase := .initialized }, .result capabilities)
    | .error refusal => (s, .refused refusal)

/-- The answer to the request to shut down, which takes no parameters. -/
def shutdownAnswer : Option Data → Answer
  | none => .result .null
  | some params => .refused (.unexpectedParameters params)

/-- A request of a method that has parameters of a shape. -/
def query (host : Host) (s : Service) (method : String) (shape : Shape)
    (params : Option Data) : Service × Answer × List Notice :=
  match parametersOf shape params >>= Server.answer host s.state method with
  | .ok (state, data, notices) => ({ s with state }, .result data, notices)
  | .error refusal => (s, .refused refusal, [])

/-- A request.  A notification is refused as a request, and a method that
begins with a dollar sign and is not known is not answered at all. -/
def request (host : Host) (s : Service) (method : String) (params : Option Data) :
    Service × Option Answer × List Notice :=
  if method = "initialize" then
    let (s, answer) := s.initialized params
    (s, some answer, [])
  else if method = "shutdown" then
    if s.phase = .initialized then
      ({ s with phase := .shutDown }, some (shutdownAnswer params), [])
    else (s, some (.refused s.refusal), [])
  else if method = "$/cancelRequest" then (s, some (.refused .invalidRequest), [])
  else if Protocol.isNotification method then
    (s, some (.refused (if s.phase = .initialized then .invalidRequest else s.refusal)), [])
  else match (Protocol.answered ++ Protocol.unanswered).find? (·.1 = method) with
    | some (_, shape) =>
      if s.phase = .initialized then
        let (s, answer, notices) := s.query host method shape params
        (s, some answer, notices)
      else (s, some (.refused s.refusal), [])
    | none =>
      (s, if method.startsWith "$/" then none else some (.refused .methodNotFound), [])

/-- A message that expects no answer.  One that cannot be read is passed
over. -/
def notification (host : Host) (s : Service) (method : String) (params : Option Data) :
    Service × List Notice :=
  if s.phase ≠ .initialized then (s, [])
  else if method = "shutdown" then ({ s with phase := .shutDown }, [])
  else match Protocol.heeded.find? (·.1 = method) with
    | some (_, shape) => match parametersOf shape params with
      | .ok params =>
        let (state, notices) := heed host s.now s.state method params
        ({ s with state }, notices)
      | .error _ => (s, [])
    | none => (s, [])

/-- A message. -/
def receive (host : Host) (s : Service) (m : Message) :
    Service × Option Answer × List Notice :=
  if s.phase = .exited then (s, some .gone, [])
  else if m.method = "exit" then ({ s with phase := .exited }, none, [])
  else if m.isRequest then s.request host m.method m.params
  else
    let (s, notices) := s.notification host m.method m.params
    (s, none, notices)

/-- Time passes.  A server that has exited tells nothing any more. -/
def pass (host : Host) (duration : Nat) (s : Service) : Service × List Notice :=
  let now := s.now + duration
  let (state, notices) := s.state.fireDue host now
  ({ s with state, now }, if s.phase = .exited then [] else notices)

end Service

end LatexIndex.Server
