import Lisplet.Json.Decode
import Lisplet.Line
import Lisplet.Session

/-!
# The line server

A server keeps one session and answers requests to it. A request is a line with a JSON object: its
`cmd` must be the string `eval`, and its `code` is the source to run. The answer is one line with a
JSON object that holds either the printed result or a message and the class of what went wrong. Sources
are texts; where half of a surrogate pair stands alone in a `code`, it is replaced.

A client's bytes are cut into lines as they arrive; blank lines, and bytes after the last line feed,
get no answer. A line that nests JSON beyond the depth limit ends its connection.

Main definitions: `Server`, `Response`, `Server.respond`, `Server.answerLine`, `Server.serveClient`,
`Server.serve`.
-/

namespace Lisplet

/-- Where a server listens, and its session. -/
structure Server where
  address : Address
  session : Session

/-- The answer to a request. -/
inductive Response where
  | success (result : String)
  | failure (error : Json.Letters) (label : String)
  deriving DecidableEq, Repr

namespace Response

/-- The class that is reported for a request that is itself wrong. -/
def protocolLabel : String := "ProtocolError"

/-- The answer to a request that is itself wrong. -/
def rejected (error : Json.Letters) : Response :=
  .failure error protocolLabel

/-- An answer as a JSON object. -/
def toJson : Response → Json
  | .success result => .obj [("ok", .bool true), ("result", .str result)]
  | .failure error label =>
    .obj [("ok", .bool false), ("error", .str error), ("type", .str label)]

/-- An answer as a line. -/
def line (r : Response) : String :=
  String.ofList (r.toJson.write ++ ['\n'])

end Response

/-- What the wire carries of a request. -/
inductive Request where
  /-- Run this source. -/
  | eval (code : String)
  /-- Something that is no request, and what is wrong with it. -/
  | invalid (error : Json.Letters)
  deriving DecidableEq, Repr

namespace Request

/-- The request that the fields of an object make. -/
def ofFields (fields : List (Json.Letters × Json)) : Request :=
  let cmd := (Json.field? fields "cmd").getD .null
  if cmd.isText "eval" then
    match Json.field? fields "code" with
    | none => .eval ""
    | some (.str code) => .eval (Json.textOf code)
    | some _ => .invalid "code must be a string"
  else .invalid ("Unknown cmd: " ++ cmd.title)

/-- The request that a line makes. Only nesting beyond the depth limit stays without an answer. -/
def ofLine (limit : Nat) (bytes : List UInt8) : Outcome Request :=
  match Text.Utf8.decode bytes with
  | .error d => pure (.invalid ("Invalid request: " ++ d.message))
  | .ok cs =>
    match Json.decode limit cs with
    | .error .tooDeep => .exhausted
    | .error f => pure (.invalid ("Invalid request: " ++ f.message cs))
    | .ok (.obj fields) => pure (ofFields fields)
    | .ok _ => pure (.invalid "Invalid request: request must be a JSON object")

end Request

/-- What came of a connection: the answers that were sent, and whether it ended before its time. -/
structure Exchange where
  sent : List String
  died : Bool
  deriving DecidableEq, Repr

/-- What a server asks of the network, in order. -/
inductive NetworkCall where
  | openSocket
  | reuseAddress
  | bindTo (address : Address)
  | listen (backlog : Nat)
  | accepted (peer : Address) (exchange : Exchange)
  | closeSocket

namespace Server

/-- A server, with an address from the host's settings where none is given. -/
def start (limit : Nat) (host : Host) (name : Option String) (port : Option Int)
    (prelude : Prelude) : Run Server := do
  let default ← Run.ofExcept host.address
  let session ← Session.start limit host prelude
  pure ⟨⟨name.getD default.host, port.getD default.port⟩, session⟩

/-- Answers a request. Every fault of the code is reported and answered. -/
def respond (limit : Nat) (s : Server) : Request → Run Response
  | .invalid error => pure (.rejected error)
  | .eval code => do
    match ← (s.session.run limit code).observe with
    | .value text => pure (.success text)
    | .exhausted => Run.exhausted
    | .fault f => do
      Run.report limit (if f.kind.ofLanguage then .evaluationFailed f else .unexpectedFailure)
      pure (.failure f.message f.kind.label)

/-- Answers a line. -/
def answerLine (limit : Nat) (s : Server) (bytes : List UInt8) : Run String := do
  let request ← Run.lift (Request.ofLine limit bytes)
  let response ← s.respond limit request
  pure response.line

/-- Answers lines that are not blank, up to one that ends the connection. -/
def answerLines (limit : Nat) (s : Server) : List (List UInt8) → Run Exchange
  | [] => pure ⟨[], false⟩
  | line :: lines => do
    let stripped := stripBytes line
    if stripped.isEmpty then s.answerLines limit lines
    else
      match ← (s.answerLine limit stripped).observe with
      | .value text => do
        let later ← s.answerLines limit lines
        pure ⟨text :: later.sent, later.died⟩
      | _ => pure ⟨[], true⟩

/-- Answers what arrives in chunks, where `buffer` holds the bytes after the last line feed so far.
An empty chunk is the end of the stream. -/
def receive (limit : Nat) (s : Server) (buffer : List UInt8) : List (List UInt8) → Run Exchange
  | [] => pure ⟨[], false⟩
  | chunk :: chunks =>
    if chunk.isEmpty then pure ⟨[], false⟩
    else do
      let (lines, rest) := splitLines (buffer ++ chunk)
      let now ← s.answerLines limit lines
      if now.died then pure now
      else do
        let later ← s.receive limit rest chunks
        pure ⟨now.sent ++ later.sent, later.died⟩

/-- Serves one connection. -/
def serveClient (limit : Nat) (s : Server) (peer : Address) (chunks : List (List UInt8)) :
    Run Exchange := do
  Run.report limit (.connected peer)
  let exchange ← s.receive limit [] chunks
  if exchange.died then pure exchange
  else do
    Run.report limit (.disconnected peer)
    pure exchange

/-- Serves connections in turn. -/
def serveAll (limit : Nat) (s : Server) :
    List (Address × List (List UInt8)) → Run (List NetworkCall)
  | [] => pure []
  | (peer, chunks) :: clients => do
    let exchange ← s.serveClient limit peer chunks
    let later ← s.serveAll limit clients
    pure (.accepted peer exchange :: later)

/-- How many connections may wait to be accepted. -/
def backlog : Nat := 5

/-- Listens and serves the connections that come, until there are no more. -/
def serve (limit : Nat) (s : Server) (clients : List (Address × List (List UInt8))) :
    Run (List NetworkCall) := do
  Run.report limit (.listening s.address)
  let served ← s.serveAll limit clients
  let opening := [.openSocket, .reuseAddress, .bindTo s.address, .listen backlog]
  pure (opening ++ served ++ [.closeSocket])

end Server

end Lisplet
