import Pinocchio.Crow.Routing
import Pinocchio.Semantics.Transition

/-! A connection.

The completions of reads and writes, the deadline and the peer come in any order. Handlers answer
before they return. The parser is seen by its callbacks: the headers of a request, and the request.
-/

set_option autoImplicit false

namespace Pinocchio.Crow
open Semantics

/-! ## What is written -/

def crlf : Bytes := [13, 10]

def statusCodes : List (Nat × Bytes) :=
  [(200, ascii "HTTP/1.1 200 OK" ++ crlf), (201, ascii "HTTP/1.1 201 Created" ++ crlf),
    (202, ascii "HTTP/1.1 202 Accepted" ++ crlf), (204, ascii "HTTP/1.1 204 No Content" ++ crlf),
    (300, ascii "HTTP/1.1 300 Multiple Choices" ++ crlf),
    (301, ascii "HTTP/1.1 301 Moved Permanently" ++ crlf),
    (302, ascii "HTTP/1.1 302 Moved Temporarily" ++ crlf),
    (304, ascii "HTTP/1.1 304 Not Modified" ++ crlf),
    (400, ascii "HTTP/1.1 400 Bad Request" ++ crlf),
    (401, ascii "HTTP/1.1 401 Unauthorized" ++ crlf), (403, ascii "HTTP/1.1 403 Forbidden" ++ crlf),
    (404, ascii "HTTP/1.1 404 Not Found" ++ crlf),
    (405, ascii "HTTP/1.1 405 Invalid Auth Key" ++ crlf),
    (406, ascii "HTTP/1.1 406 JSON Parsing error" ++ crlf),
    (407, ascii "HTTP/1.1 407 User Token not found" ++ crlf),
    (408, ascii "HTTP/1.1 408 Database Error" ++ crlf),
    (500, ascii "HTTP/1.1 500 Internal Server Error" ++ crlf),
    (501, ascii "HTTP/1.1 501 Not Implemented" ++ crlf),
    (502, ascii "HTTP/1.1 502 Bad Gateway" ++ crlf),
    (503, ascii "HTTP/1.1 503 Service Unavailable" ++ crlf)]

def expect100Continue : Bytes := ascii "HTTP/1.1 100 Continue" ++ crlf ++ crlf

def CiMap.count (headers : CiMap) (key : Bytes) : Nat := headers.countP fun kv => iequals kv.1 key

def CiMap.setHeader (headers : CiMap) (key value : Bytes) : CiMap :=
  headers.filter (fun kv => !iequals kv.1 key) ++ [(key, value)]

def statusOf (code : Nat) : Bytes := (statusCodes.lookup code).getD []

/-- A response as it is sent: an unknown code is a 500, and an error without a body tells its name. -/
def Response.settled (res : Response) : Response :=
  let code := if (statusCodes.lookup res.code).isSome then res.code else 500
  let body := if code ≥ 400 ∧ res.body = [] then (statusOf code).drop 9 else res.body
  { res with code, body }

structure Server where
  name : Bytes
  handle : Request → Response

def Response.head (server : Server) (date : Bytes) (keepAlive : Bool) (res : Response) : Bytes :=
  let line (key value : Bytes) : Bytes := key ++ ascii ": " ++ value ++ crlf
  let added (key text : Bytes) : Bytes := if res.headers.count key = 0 then text else []
  statusOf res.code ++ (res.headers.flatMap fun kv => line kv.1 kv.2) ++
    added (ascii "content-length") (line (ascii "Content-Length") (decimal res.body.length)) ++
    added (ascii "server") (line (ascii "Server") server.name) ++
    added (ascii "date") (line (ascii "Date") date) ++
    (if keepAlive then ascii "Connection: Keep-Alive" ++ crlf else []) ++ crlf

def Response.bytes (server : Server) (date : Bytes) (keepAlive : Bool) (res : Response) : Bytes :=
  res.settled.head server date keepAlive ++ res.settled.body

/-! ## The connection -/

abbrev Version := Nat × Nat

inductive Callback where
  | header (version : Version) (headers : CiMap)
  | message (version : Version) (req : Request)

/-- What feeding a buffer comes to, and whether all of it was parsed. -/
structure Chunk where
  callbacks : List Callback
  parsed : Bool
  date : Bytes

/-- `stopped` is the thread after an exception that nothing catches, and `freed` a completion that runs
when the connection is deleted. -/
inductive Status where
  | alive
  | deleted
  | stopped
  | freed
  deriving DecidableEq

/-- The fields of a connection, with the operations that are outstanding. `begun` has the bytes of every
write from its beginning on, whether it succeeds or not. -/
structure Connection where
  status : Status := .alive
  isOpen : Bool := true
  closeConnection : Bool := false
  isReading : Bool := false
  isWriting : Bool := false
  needToCallAfterHandlers : Bool := false
  needToStartReadAfterComplete : Bool := false
  addKeepAlive : Bool := false
  deadline : Bool := false
  res : Response := {}
  completed : Bool := false
  resBodyCopy : Bytes := []
  started : Bool := false
  connected : Bool := true
  reads : Nat := 0
  writes : List Bytes := []
  begun : List Bytes := []

inductive ConnectionEvent where
  | start
  | read (chunk : Option Chunk)
  | wrote (place : Nat) (ok : Bool)
  | timeout
  | reset

namespace Connection

def cancelDeadlineTimer (s : Connection) : Connection := { s with deadline := false }

def startDeadline (s : Connection) : Connection := { s.cancelDeadlineTimer with deadline := true }

def doRead (s : Connection) : Connection := { s with isReading := true, reads := s.reads + 1 }

def doWrite (s : Connection) (bytes : Bytes) : Connection :=
  { s with isWriting := true, writes := s.writes ++ [bytes], begun := s.begun ++ [bytes] }

def close (s : Connection) : Connection := { s with isOpen := false }

def checkDestroy (s : Connection) : Connection :=
  if !s.isReading && !s.isWriting then { s.cancelDeadlineTimer with status := .deleted } else s

section
variable (server : Server) (date : Bytes)

def completeRequest (s : Connection) : Connection :=
  let s := { s with needToCallAfterHandlers := false }
  if !s.isOpen then s
  else
    let bytes := s.res.bytes server date s.addKeepAlive
    let settled := s.res.settled
    let s := { s with res := { settled with body := s.resBodyCopy }, resBodyCopy := settled.body }
    let s := s.doWrite bytes
    if s.needToStartReadAfterComplete then
      { s with needToStartReadAfterComplete := false }.startDeadline.doRead
    else s

def respond (s : Connection) (res : Response) : Connection :=
  completeRequest server date { s with res, completed := true }

/-- Whether the client waits for an answer to its headers. -/
def expects (version : Version) (headers : CiMap) : Bool :=
  version = (1, 1) && headers.count (ascii "expect") ≠ 0 &&
    getHeaderValue headers (ascii "expect") = ascii "100-continue"

def handleHeader (s : Connection) (version : Version) (headers : CiMap) : Connection :=
  if expects version headers then s.doWrite expect100Continue else s

/-- What the version and the headers of a request say about the connection after it. -/
def negotiate (s : Connection) (version : Version) (headers : CiMap) : Connection :=
  let connection := ascii "connection"
  let s := { s with addKeepAlive := false }
  if version = (1, 0) then
    if headers.count connection ≠ 0 then
      if iequals (getHeaderValue headers connection) (ascii "Keep-Alive") then
        { s with addKeepAlive := true }
      else s
    else { s with closeConnection := true }
  else if version = (1, 1) then
    if headers.count connection ≠ 0 then
      if getHeaderValue headers connection = ascii "close" then { s with closeConnection := true }
      else if iequals (getHeaderValue headers connection) (ascii "Keep-Alive") then
        { s with addKeepAlive := true }
      else s
    else s
  else s

def isInvalidRequest (version : Version) (headers : CiMap) : Bool :=
  version = (1, 1) && headers.count (ascii "host") = 0

/-- The log asks for the address of the peer, which throws where there is none. A response that is not
cleared yet is completed still, and then the handler is passed over. -/
def handle (s : Connection) (version : Version) (req : Request) : Connection :=
  let s := s.cancelDeadlineTimer.negotiate version req.headers
  let invalid := isInvalidRequest version req.headers
  let s := if invalid then { s with res := { code := 400 }, completed := false } else s
  if !(s.isOpen && s.connected) then { s with status := .stopped }
  else
    let s := { s with needToCallAfterHandlers := false }
    if invalid then s.completeRequest server date
    else if s.completed then s.completeRequest server date
    else
      let s := { s with needToCallAfterHandlers := true }
      let s := s.respond server date (server.handle req)
      if s.addKeepAlive then
        { s with res := { s.res with
            headers := s.res.headers.setHeader (ascii "connection") (ascii "Keep-Alive") } }
      else s

def callback (s : Connection) : Callback → Connection
  | .header version headers => s.handleHeader version headers
  | .message version req => s.handle server date version req

def feed (s : Connection) : List Callback → Connection
  | [] => s
  | call :: calls =>
    let t := s.callback server date call
    if t.status = .stopped then t else feed t calls

end

def stopReading (s : Connection) : Connection :=
  { s.cancelDeadlineTimer.close with isReading := false }.checkDestroy

def onRead (server : Server) (s : Connection) (chunk : Option Chunk) : Connection :=
  let s := { s with reads := s.reads - 1 }
  match chunk with
  | none => s.stopReading
  | some chunk =>
    let s := s.feed server chunk.date chunk.callbacks
    if s.status = .stopped then s
    else if !(chunk.parsed && s.isOpen && !s.closeConnection) then s.stopReading
    else if !s.needToCallAfterHandlers then s.startDeadline.doRead
    else { s with needToStartReadAfterComplete := true }

def onWrote (s : Connection) (place : Nat) (ok : Bool) : Connection :=
  let s := { s with
    writes := s.writes.eraseIdx place, isWriting := false, res := {}, completed := false,
    resBodyCopy := [] }
  if ok then if s.closeConnection then s.close.checkDestroy else s else s.checkDestroy

def step (server : Server) (s : Connection) : ConnectionEvent → Option Connection
  | .start =>
    if s.started then none else some { s with started := true }.startDeadline.doRead
  | .read chunk =>
    if s.reads = 0 || s.status = .stopped then none
    else if s.status = .alive then some (s.onRead server chunk)
    else some { s with status := .freed, reads := s.reads - 1 }
  | .wrote place ok =>
    if s.writes.length ≤ place || s.status = .stopped then none
    else if s.status = .alive then some (s.onWrote place ok)
    else some { s with status := .freed, writes := s.writes.eraseIdx place }
  | .timeout => if s.deadline && s.status = .alive then some { s with deadline := false }.close else none
  | .reset => if s.connected then some { s with connected := false } else none

def system (server : Server) : System Connection ConnectionEvent := ⟨{}, step server⟩

end Connection

end Pinocchio.Crow
