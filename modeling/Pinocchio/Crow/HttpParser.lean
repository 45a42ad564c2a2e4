import Pinocchio.Crow.Connection
import Pinocchio.Http.Router

/-! The parser of requests.

The parser is a machine that reads a byte at a time and says what is to be called back. The marks point
into the buffer that is read, so a text that the buffer cuts is handed on in parts. Of a body as much
as there is is taken at once in the program, and here byte by byte.
-/

set_option autoImplicit false

namespace Pinocchio.Crow
open Semantics

/-! ## Characters -/

def cr : UInt8 := 13

def lf : UInt8 := 10

def sp : UInt8 := 32

def tab : UInt8 := 9

def lower (c : UInt8) : UInt8 := c ||| 32

/-- The characters of a header's name in lower case, and zero for the others. -/
def token (c : UInt8) : UInt8 :=
  if isDigit c || (97 ≤ c && c ≤ 122) || c ∈ ascii "!#$%&'*+-.^_`|~" then c
  else if 65 ≤ c && c ≤ 90 then c + 32
  else 0

/-- The table is written out for half of the characters, so the others are zeros. -/
def unhex (c : UInt8) : Option Nat :=
  if isDigit c then some (c.toNat - 48)
  else if 65 ≤ c && c ≤ 70 then some (c.toNat - 55)
  else if 97 ≤ c && c ≤ 102 then some (c.toNat - 87)
  else if 128 ≤ c then some 0
  else none

/-! ## The machine -/

inductive ParserMethod where
  | delete | get | head | post | put | connect | options | trace | copy | lock | mkcol | move
  | propfind | proppatch | search | unlock | report | mkactivity | checkout | merge | msearch | notify
  | subscribe | unsubscribe | patch | purge | mkcalendar
  deriving DecidableEq

def methodStrings : List (ParserMethod × Bytes) :=
  [(.delete, ascii "DELETE"), (.get, ascii "GET"), (.head, ascii "HEAD"), (.post, ascii "POST"),
    (.put, ascii "PUT"), (.connect, ascii "CONNECT"), (.options, ascii "OPTIONS"),
    (.trace, ascii "TRACE"), (.copy, ascii "COPY"), (.lock, ascii "LOCK"), (.mkcol, ascii "MKCOL"),
    (.move, ascii "MOVE"), (.propfind, ascii "PROPFIND"), (.proppatch, ascii "PROPPATCH"),
    (.search, ascii "SEARCH"), (.unlock, ascii "UNLOCK"), (.report, ascii "REPORT"),
    (.mkactivity, ascii "MKACTIVITY"), (.checkout, ascii "CHECKOUT"), (.merge, ascii "MERGE"),
    (.msearch, ascii "M-SEARCH"), (.notify, ascii "NOTIFY"), (.subscribe, ascii "SUBSCRIBE"),
    (.unsubscribe, ascii "UNSUBSCRIBE"), (.patch, ascii "PATCH"), (.purge, ascii "PURGE"),
    (.mkcalendar, ascii "MKCALENDAR")]

def ParserMethod.string (m : ParserMethod) : Bytes := (methodStrings.lookup m).getD []

def ParserMethod.number (m : ParserMethod) : UInt32 :=
  UInt32.ofNat (methodStrings.findIdx fun entry => entry.1 = m)

inductive ParserState where
  | dead
  | startReq
  | reqMethod
  | reqUrl (url : Http.UrlState)
  | reqHttpStart | reqHttpH | reqHttpHT | reqHttpHTT | reqHttpHTTP
  | reqFirstHttpMajor | reqHttpMajor | reqFirstHttpMinor | reqHttpMinor
  | reqLineAlmostDone
  | headerFieldStart | headerField
  | headerValueDiscardWs | headerValueDiscardWsAlmostDone | headerValueDiscardLws
  | headerValueStart | headerValue | headerValueLws
  | headerAlmostDone
  | chunkSizeStart | chunkSize | chunkParameters | chunkSizeAlmostDone
  | headersAlmostDone | headersDone
  | chunkData | chunkDataAlmostDone | chunkDataDone
  | bodyIdentity
  | messageDone
  deriving DecidableEq

inductive HeaderState where
  | general
  | c | co | con
  | matchingConnection | matchingProxyConnection | matchingContentLength | matchingTransferEncoding
  | matchingUpgrade
  | connection | contentLength | transferEncoding | upgrade
  | matchingTransferEncodingChunked | matchingConnectionKeepAlive | matchingConnectionClose
  | transferEncodingChunked | connectionKeepAlive | connectionClose
  deriving DecidableEq

inductive HttpErrno where
  | invalidEofState | headerOverflow | closedConnection | invalidVersion | invalidMethod | invalidUrl
  | lfExpected | invalidHeaderToken | invalidContentLength | invalidChunkSize | invalidConstant
  | strict
  deriving DecidableEq

structure Flags where
  chunked : Bool := false
  connectionKeepAlive : Bool := false
  connectionClose : Bool := false
  trailing : Bool := false
  upgrade : Bool := false
  deriving DecidableEq

structure HttpParser where
  flags : Flags := {}
  state : ParserState := .startReq
  headerState : HeaderState := .general
  index : Nat := 0
  nread : Nat := 0
  contentLength : Nat := 0
  httpMajor : Nat := 0
  httpMinor : Nat := 0
  method : ParserMethod := .delete
  upgrade : Bool := false
  deriving DecidableEq

def httpMaxHeaderSize : Nat := 80 * 1024

/-- The length of a body whose length is not known. -/
def noLength : Nat := 2 ^ 64 - 1

/-- The states of the bytes that are counted. -/
def parsingHeader : ParserState → Bool
  | .chunkData | .chunkDataAlmostDone | .chunkDataDone | .bodyIdentity | .messageDone => false
  | _ => true

inductive DataCallback where
  | url | headerField | headerValue | body
  deriving DecidableEq

/-- What is done with the marks, and what is called back. A text ends before the byte that is read, or
with it. -/
inductive ParserAction where
  | mark (text : DataCallback)
  | data (text : DataCallback)
  | dataThrough (text : DataCallback)
  | messageBegin
  | headersComplete
  | messageComplete
  deriving DecidableEq

/-- A byte is read, and the reading goes on or stops behind it; or it stops before the byte with an
error, or by an assertion. -/
inductive Outcome where
  | goes (parser : HttpParser) (actions : List ParserAction)
  | exits (parser : HttpParser) (actions : List ParserAction)
  | fails (errno : HttpErrno) (actions : List ParserAction)
  | aborts

/-- What is done before a byte is read again. -/
def Outcome.after (before : List ParserAction) : Outcome → Outcome
  | .goes parser actions => .goes parser (before ++ actions)
  | .exits parser actions => .exits parser (before ++ actions)
  | .fails errno actions => .fails errno (before ++ actions)
  | .aborts => .aborts

namespace HttpParser

def fail (errno : HttpErrno) : Outcome := .fails errno []

def shouldKeepAlive (c : HttpParser) : Bool :=
  if 0 < c.httpMajor ∧ 0 < c.httpMinor then !c.flags.connectionClose
  else c.flags.connectionKeepAlive

def newMessage (c : HttpParser) : ParserState := if c.shouldKeepAlive then .startReq else .dead

/-- The method that a first byte stands for until another one tells it from others. -/
def firstMethod (ch : UInt8) : Option ParserMethod :=
  if ch = 'C'.toUInt8 then some .connect
  else if ch = 'D'.toUInt8 then some .delete
  else if ch = 'G'.toUInt8 then some .get
  else if ch = 'H'.toUInt8 then some .head
  else if ch = 'L'.toUInt8 then some .lock
  else if ch = 'M'.toUInt8 then some .mkcol
  else if ch = 'N'.toUInt8 then some .notify
  else if ch = 'O'.toUInt8 then some .options
  else if ch = 'P'.toUInt8 then some .post
  else if ch = 'R'.toUInt8 then some .report
  else if ch = 'S'.toUInt8 then some .subscribe
  else if ch = 'T'.toUInt8 then some .trace
  else if ch = 'U'.toUInt8 then some .unlock
  else none

def startReq (c : HttpParser) (ch : UInt8) : Outcome :=
  if ch = cr ∨ ch = lf then .goes c []
  else
    match firstMethod ch with
    | none => fail .invalidMethod
    | some method =>
      .goes { c with
        flags := {}, contentLength := noLength, method, index := 1, state := .reqMethod } [.messageBegin]

/-- The method that another one turns out to be at this byte. -/
def otherMethod (method : ParserMethod) (index : Nat) (ch : UInt8) : Option ParserMethod :=
  if method = .connect then
    if index = 1 ∧ ch = 'H'.toUInt8 then some .checkout
    else if index = 2 ∧ ch = 'P'.toUInt8 then some .copy
    else none
  else if method = .mkcol then
    if index = 1 ∧ ch = 'O'.toUInt8 then some .move
    else if index = 1 ∧ ch = 'E'.toUInt8 then some .merge
    else if index = 1 ∧ ch = '-'.toUInt8 then some .msearch
    else if index = 2 ∧ ch = 'A'.toUInt8 then some .mkactivity
    else if index = 3 ∧ ch = 'A'.toUInt8 then some .mkcalendar
    else none
  else if method = .subscribe then
    if index = 1 ∧ ch = 'E'.toUInt8 then some .search else none
  else if index = 1 ∧ method = .post then
    if ch = 'R'.toUInt8 then some .propfind
    else if ch = 'U'.toUInt8 then some .put
    else if ch = 'A'.toUInt8 then some .patch
    else none
  else if index = 2 then
    if method = .put then if ch = 'R'.toUInt8 then some .purge else none
    else if method = .unlock then if ch = 'S'.toUInt8 then some .unsubscribe else none
    else none
  else if index = 4 ∧ method = .propfind ∧ ch = 'P'.toUInt8 then some .proppatch
  else none

def reqMethod (c : HttpParser) (ch : UInt8) : Outcome :=
  let matcher := c.method.string.getD c.index 0
  if ch = 0 then fail .invalidMethod
  else if ch = sp ∧ matcher = 0 then
    .goes { c with state := .reqUrl .spacesBeforeUrl, index := c.index + 1 } []
  else if ch = matcher then .goes { c with index := c.index + 1 } []
  else
    match otherMethod c.method c.index ch with
    | some method => .goes { c with method, index := c.index + 1 } []
    | none => fail .invalidMethod

/-- The next state of the URL, unless the byte is none of it. -/
def urlChar (c : HttpParser) (url : Http.UrlState) (ch : UInt8) (actions : List ParserAction) :
    Outcome :=
  let url := Http.parseUrlChar url ch
  if url = .dead then fail .invalidUrl else .goes { c with state := .reqUrl url } actions

def reqUrl (c : HttpParser) (url : Http.UrlState) (ch : UInt8) : Outcome :=
  match url with
  | .spacesBeforeUrl =>
    if ch = sp then .goes c []
    else c.urlChar (if c.method = .connect then .serverStart else url) ch [.mark .url]
  | .schema | .schemaSlash | .schemaSlashSlash | .serverStart =>
    if ch = sp ∨ ch = cr ∨ ch = lf then fail .invalidUrl else c.urlChar url ch []
  | _ =>
    if ch = sp then .goes { c with state := .reqHttpStart } [.data .url]
    else if ch = cr ∨ ch = lf then
      .goes { c with
        httpMajor := 0, httpMinor := 9
        state := if ch = cr then .reqLineAlmostDone else .headerFieldStart } [.data .url]
    else c.urlChar url ch []

def constant (c : HttpParser) (ch expected : UInt8) (next : ParserState) : Outcome :=
  if ch = expected then .goes { c with state := next } [] else fail .strict

def reqHttpStart (c : HttpParser) (ch : UInt8) : Outcome :=
  if ch = 'H'.toUInt8 then .goes { c with state := .reqHttpH } []
  else if ch = sp then .goes c []
  else fail .invalidConstant

def reqFirstHttpMajor (c : HttpParser) (ch : UInt8) : Outcome :=
  if ch < '1'.toUInt8 ∨ '9'.toUInt8 < ch then fail .invalidVersion
  else .goes { c with httpMajor := ch.toNat - 48, state := .reqHttpMajor } []

def reqHttpMajor (c : HttpParser) (ch : UInt8) : Outcome :=
  if ch = '.'.toUInt8 then .goes { c with state := .reqFirstHttpMinor } []
  else if !isDigit ch then fail .invalidVersion
  else
    let httpMajor := c.httpMajor * 10 + (ch.toNat - 48)
    if httpMajor > 999 then fail .invalidVersion else .goes { c with httpMajor } []

def reqFirstHttpMinor (c : HttpParser) (ch : UInt8) : Outcome :=
  if !isDigit ch then fail .invalidVersion
  else .goes { c with httpMinor := ch.toNat - 48, state := .reqHttpMinor } []

def reqHttpMinor (c : HttpParser) (ch : UInt8) : Outcome :=
  if ch = cr then .goes { c with state := .reqLineAlmostDone } []
  else if ch = lf then .goes { c with state := .headerFieldStart } []
  else if !isDigit ch then fail .invalidVersion
  else
    let httpMinor := c.httpMinor * 10 + (ch.toNat - 48)
    if httpMinor > 999 then fail .invalidVersion else .goes { c with httpMinor } []

def reqLineAlmostDone (c : HttpParser) (ch : UInt8) : Outcome :=
  if ch ≠ lf then fail .lfExpected else .goes { c with state := .headerFieldStart } []

/-! The end of the headers, which may be read again from the states before it. -/

def headersDone (c : HttpParser) (ch : UInt8) : Outcome :=
  if ch ≠ lf then fail .strict
  else
    let c := { c with nread := 0 }
    let complete := { c with state := c.newMessage }
    if c.upgrade then .exits complete [.messageComplete]
    else if c.flags.chunked then .goes { c with state := .chunkSizeStart } []
    else if c.contentLength = 0 then .goes complete [.messageComplete]
    else if c.contentLength ≠ noLength then .goes { c with state := .bodyIdentity } []
    else .goes complete [.messageComplete]

def headersAlmostDone (c : HttpParser) (ch : UInt8) : Outcome :=
  if ch ≠ lf then fail .strict
  else if c.flags.trailing then .goes { c with state := c.newMessage } [.messageComplete]
  else
    let upgrade := c.flags.upgrade || c.method = .connect
    ({ c with state := .headersDone, upgrade }.headersDone ch).after [.headersComplete]

def headerFieldStart (c : HttpParser) (ch : UInt8) : Outcome :=
  if ch = cr then .goes { c with state := .headersAlmostDone } []
  else if ch = lf then { c with state := .headersAlmostDone }.headersAlmostDone ch
  else
    let t := token ch
    let headerState : HeaderState :=
      if t = 'c'.toUInt8 then .c
      else if t = 'p'.toUInt8 then .matchingProxyConnection
      else if t = 't'.toUInt8 then .matchingTransferEncoding
      else if t = 'u'.toUInt8 then .matchingUpgrade
      else .general
    if t = 0 then fail .invalidHeaderToken
    else .goes { c with index := 0, state := .headerField, headerState } [.mark .headerField]

def matching (c : HttpParser) (name : Bytes) (t : UInt8) (whole : HeaderState) : HttpParser :=
  let index := c.index + 1
  let headerState : HeaderState :=
    if index > name.length ∨ t ≠ name.getD index 0 then .general
    else if index = name.length - 1 then whole
    else c.headerState
  { c with index, headerState }

def headerField (c : HttpParser) (ch : UInt8) : Outcome :=
  let t := token ch
  if t ≠ 0 then
    match c.headerState with
    | .general => .goes c []
    | .c =>
      .goes { c with
        index := c.index + 1, headerState := if t = 'o'.toUInt8 then .co else .general } []
    | .co =>
      .goes { c with
        index := c.index + 1, headerState := if t = 'n'.toUInt8 then .con else .general } []
    | .con =>
      .goes { c with
        index := c.index + 1
        headerState :=
          if t = 'n'.toUInt8 then .matchingConnection
          else if t = 't'.toUInt8 then .matchingContentLength
          else .general } []
    | .matchingConnection => .goes (c.matching (ascii "connection") t .connection) []
    | .matchingProxyConnection => .goes (c.matching (ascii "proxy-connection") t .connection) []
    | .matchingContentLength => .goes (c.matching (ascii "content-length") t .contentLength) []
    | .matchingTransferEncoding => .goes (c.matching (ascii "transfer-encoding") t .transferEncoding) []
    | .matchingUpgrade => .goes (c.matching (ascii "upgrade") t .upgrade) []
    | .connection | .contentLength | .transferEncoding | .upgrade =>
      .goes (if ch ≠ sp then { c with headerState := .general } else c) []
    | _ => .aborts
  else if ch = ':'.toUInt8 then .goes { c with state := .headerValueDiscardWs } [.data .headerField]
  else if ch = cr then .goes { c with state := .headerAlmostDone } [.data .headerField]
  else if ch = lf then .goes { c with state := .headerFieldStart } [.data .headerField]
  else fail .invalidHeaderToken

def headerValueStart (c : HttpParser) (ch : UInt8) : Outcome :=
  let c := { c with state := .headerValue, index := 0 }
  let l := lower ch
  let marked (c : HttpParser) : Outcome := .goes c [.mark .headerValue]
  match c.headerState with
  | .upgrade => marked { c with flags := { c.flags with upgrade := true }, headerState := .general }
  | .transferEncoding =>
    marked { c with
      headerState := if l = 'c'.toUInt8 then .matchingTransferEncodingChunked else .general }
  | .contentLength =>
    if !isDigit ch then .fails .invalidContentLength [.mark .headerValue]
    else marked { c with contentLength := ch.toNat - 48 }
  | .connection =>
    marked { c with
      headerState :=
        if l = 'k'.toUInt8 then .matchingConnectionKeepAlive
        else if l = 'c'.toUInt8 then .matchingConnectionClose
        else .general }
  | _ => marked { c with headerState := .general }

def headerValueDiscardWs (c : HttpParser) (ch : UInt8) : Outcome :=
  if ch = sp ∨ ch = tab then .goes c []
  else if ch = cr then .goes { c with state := .headerValueDiscardWsAlmostDone } []
  else if ch = lf then .goes { c with state := .headerValueDiscardLws } []
  else c.headerValueStart ch

def headerAlmostDone (c : HttpParser) (ch : UInt8) : Outcome :=
  if ch ≠ lf then fail .strict else .goes { c with state := .headerValueLws } []

def headerValue (c : HttpParser) (ch : UInt8) : Outcome :=
  if ch = cr then .goes { c with state := .headerAlmostDone } [.data .headerValue]
  else if ch = lf then
    ({ c with state := .headerAlmostDone }.headerAlmostDone ch).after [.data .headerValue]
  else
    match c.headerState with
    | .general => .goes c []
    | .connection | .transferEncoding => .aborts
    | .contentLength =>
      if ch = sp then .goes c []
      else if !isDigit ch then fail .invalidContentLength
      else if (noLength - 10) / 10 < c.contentLength then fail .invalidContentLength
      else .goes { c with contentLength := (c.contentLength * 10 + (ch.toNat - 48)) % 2 ^ 64 } []
    | .matchingTransferEncodingChunked =>
      .goes (c.matching (ascii "chunked") (lower ch) .transferEncodingChunked) []
    | .matchingConnectionKeepAlive =>
      .goes (c.matching (ascii "keep-alive") (lower ch) .connectionKeepAlive) []
    | .matchingConnectionClose => .goes (c.matching (ascii "close") (lower ch) .connectionClose) []
    | .transferEncodingChunked | .connectionKeepAlive | .connectionClose =>
      .goes (if ch ≠ sp then { c with headerState := .general } else c) []
    | _ => .goes { c with headerState := .general } []

def headerValueLws (c : HttpParser) (ch : UInt8) : Outcome :=
  if ch = sp ∨ ch = tab then { c with state := .headerValueStart }.headerValueStart ch
  else
    let flags : Flags :=
      match c.headerState with
      | .connectionKeepAlive => { c.flags with connectionKeepAlive := true }
      | .connectionClose => { c.flags with connectionClose := true }
      | .transferEncodingChunked => { c.flags with chunked := true }
      | _ => c.flags
    { c with flags, state := .headerFieldStart }.headerFieldStart ch

/-- A value that is empty is handed on. -/
def headerValueDiscardLws (c : HttpParser) (ch : UInt8) : Outcome :=
  if ch = sp ∨ ch = tab then .goes { c with state := .headerValueDiscardWs } []
  else
    ({ c with state := .headerFieldStart }.headerFieldStart ch).after
      [.mark .headerValue, .data .headerValue]

/-! Bodies. -/

def messageDone (c : HttpParser) : Outcome := .goes { c with state := c.newMessage } [.messageComplete]

def bodyIdentity (c : HttpParser) : Outcome :=
  if c.contentLength = 0 ∨ c.contentLength = noLength then .aborts
  else
    let c := { c with contentLength := c.contentLength - 1 }
    if c.contentLength = 0 then
      ({ c with state := .messageDone }.messageDone).after [.mark .body, .dataThrough .body]
    else .goes c [.mark .body]

def chunkSizeStart (c : HttpParser) (ch : UInt8) : Outcome :=
  if c.nread ≠ 1 ∨ !c.flags.chunked then .aborts
  else
    match unhex ch with
    | none => fail .invalidChunkSize
    | some contentLength => .goes { c with contentLength, state := .chunkSize } []

def chunkSize (c : HttpParser) (ch : UInt8) : Outcome :=
  if !c.flags.chunked then .aborts
  else if ch = cr then .goes { c with state := .chunkSizeAlmostDone } []
  else
    match unhex ch with
    | none =>
      if ch = ';'.toUInt8 ∨ ch = sp then .goes { c with state := .chunkParameters } []
      else fail .invalidChunkSize
    | some digit =>
      if (noLength - 16) / 16 < c.contentLength then fail .invalidContentLength
      else .goes { c with contentLength := (c.contentLength * 16 + digit) % 2 ^ 64 } []

def chunkParameters (c : HttpParser) (ch : UInt8) : Outcome :=
  if !c.flags.chunked then .aborts
  else .goes (if ch = cr then { c with state := .chunkSizeAlmostDone } else c) []

def chunkSizeAlmostDone (c : HttpParser) (ch : UInt8) : Outcome :=
  if !c.flags.chunked then .aborts
  else if ch ≠ lf then fail .strict
  else
    let c := { c with nread := 0 }
    if c.contentLength = 0 then
      .goes { c with flags := { c.flags with trailing := true }, state := .headerFieldStart } []
    else .goes { c with state := .chunkData } []

def chunkData (c : HttpParser) : Outcome :=
  if !c.flags.chunked ∨ c.contentLength = 0 ∨ c.contentLength = noLength then .aborts
  else
    let contentLength := c.contentLength - 1
    let state : ParserState := if contentLength = 0 then .chunkDataAlmostDone else c.state
    .goes { c with contentLength, state } [.mark .body]

def chunkDataAlmostDone (c : HttpParser) (ch : UInt8) : Outcome :=
  if !c.flags.chunked ∨ c.contentLength ≠ 0 then .aborts
  else if ch ≠ cr then fail .strict
  else .goes { c with state := .chunkDataDone } [.data .body]

def chunkDataDone (c : HttpParser) (ch : UInt8) : Outcome :=
  if !c.flags.chunked then .aborts
  else if ch ≠ lf then fail .strict
  else .goes { c with nread := 0, state := .chunkSizeStart } []

def switch (c : HttpParser) (ch : UInt8) : Outcome :=
  match c.state with
  | .dead => if ch = cr ∨ ch = lf then .goes c [] else fail .closedConnection
  | .startReq => c.startReq ch
  | .reqMethod => c.reqMethod ch
  | .reqUrl .dead => .aborts
  | .reqUrl url => c.reqUrl url ch
  | .reqHttpStart => c.reqHttpStart ch
  | .reqHttpH => c.constant ch 'T'.toUInt8 .reqHttpHT
  | .reqHttpHT => c.constant ch 'T'.toUInt8 .reqHttpHTT
  | .reqHttpHTT => c.constant ch 'P'.toUInt8 .reqHttpHTTP
  | .reqHttpHTTP => c.constant ch '/'.toUInt8 .reqFirstHttpMajor
  | .reqFirstHttpMajor => c.reqFirstHttpMajor ch
  | .reqHttpMajor => c.reqHttpMajor ch
  | .reqFirstHttpMinor => c.reqFirstHttpMinor ch
  | .reqHttpMinor => c.reqHttpMinor ch
  | .reqLineAlmostDone => c.reqLineAlmostDone ch
  | .headerFieldStart => c.headerFieldStart ch
  | .headerField => c.headerField ch
  | .headerValueDiscardWs => c.headerValueDiscardWs ch
  | .headerValueDiscardWsAlmostDone => c.constant ch lf .headerValueDiscardLws
  | .headerValueDiscardLws => c.headerValueDiscardLws ch
  | .headerValueStart => c.headerValueStart ch
  | .headerValue => c.headerValue ch
  | .headerValueLws => c.headerValueLws ch
  | .headerAlmostDone => c.headerAlmostDone ch
  | .chunkSizeStart => c.chunkSizeStart ch
  | .chunkSize => c.chunkSize ch
  | .chunkParameters => c.chunkParameters ch
  | .chunkSizeAlmostDone => c.chunkSizeAlmostDone ch
  | .headersAlmostDone => c.headersAlmostDone ch
  | .headersDone => c.headersDone ch
  | .chunkData => c.chunkData
  | .chunkDataAlmostDone => c.chunkDataAlmostDone ch
  | .chunkDataDone => c.chunkDataDone ch
  | .bodyIdentity => c.bodyIdentity
  | .messageDone => c.messageDone

/-- The bytes of the headers are counted. -/
def executeByte (c : HttpParser) (ch : UInt8) : Outcome :=
  if parsingHeader c.state then
    let c := { c with nread := (c.nread + 1) % 2 ^ 32 }
    if c.nread > httpMaxHeaderSize then fail .headerOverflow else c.switch ch
  else c.switch ch

end HttpParser

/-! ## The request that is put together -/

/-- The texts of a request, which the callbacks put together. -/
structure Assembly where
  rawUrl : Bytes := []
  headerBuildingState : Bool := false
  headerField : Bytes := []
  headerValue : Bytes := []
  headers : CiMap := []
  body : Bytes := []
  deriving DecidableEq

namespace Assembly

/-- The header that was put together is moved to the others. -/
def emplace (a : Assembly) : Assembly :=
  { a with headers := a.headers ++ [(a.headerField, a.headerValue)], headerField := [], headerValue := [] }

def onHeaderField (a : Assembly) (text : Bytes) : Assembly :=
  if a.headerBuildingState then { a with headerField := a.headerField ++ text }
  else
    let a := if a.headerValue ≠ [] then a.emplace else a
    { a with headerField := text, headerBuildingState := true }

def onHeaderValue (a : Assembly) (text : Bytes) : Assembly :=
  if a.headerBuildingState then { a with headerBuildingState := false, headerValue := text }
  else { a with headerValue := a.headerValue ++ text }

def onHeadersComplete (a : Assembly) : Assembly := if a.headerField ≠ [] then a.emplace else a

def onData (a : Assembly) (text : DataCallback) (part : Bytes) : Assembly :=
  match text with
  | .url => { a with rawUrl := a.rawUrl ++ part }
  | .headerField => a.onHeaderField part
  | .headerValue => a.onHeaderValue part
  | .body => { a with body := a.body ++ part }

def toRequest (a : Assembly) (method : ParserMethod) : Request :=
  ⟨method.number, a.rawUrl, Http.urlOf a.rawUrl, a.headers, a.body⟩

end Assembly

/-- A buffer while it is read: what its marks leave behind them, and what was called. -/
structure Feeding where
  assembly : Assembly
  marks : DataCallback → Option Bytes
  calls : List Callback := []

namespace Feeding

def data (s : Feeding) (text : DataCallback) : Feeding :=
  match s.marks text with
  | none => s
  | some part =>
    { s with assembly := s.assembly.onData text part, marks := Function.update s.marks text none }

def mark (s : Feeding) (text : DataCallback) : Feeding :=
  { s with marks := Function.update s.marks text (some ((s.marks text).getD [])) }

def advance (s : Feeding) (ch : UInt8) : Feeding :=
  { s with marks := fun text => (s.marks text).map (· ++ [ch]) }

def perform (c : HttpParser) (ch : UInt8) (s : Feeding) : ParserAction → Feeding
  | .mark text => s.mark text
  | .data text => s.data text
  | .dataThrough text => (s.advance ch).data text
  | .messageBegin => { s with assembly := {} }
  | .headersComplete =>
    let assembly := s.assembly.onHeadersComplete
    { s with assembly, calls := s.calls ++ [.header (c.httpMajor, c.httpMinor) assembly.headers] }
  | .messageComplete =>
    { s with calls := s.calls ++
        [.message (c.httpMajor, c.httpMinor) (s.assembly.toRequest c.method)] }

def actions (c : HttpParser) (ch : UInt8) (s : Feeding) (actions : List ParserAction) : Feeding :=
  actions.foldl (perform c ch) s

def marked (s : Feeding) : Nat :=
  [DataCallback.headerField, .headerValue, .url, .body].countP fun text => (s.marks text).isSome

/-- What the marks leave behind them at the end of a buffer. -/
def leftover (s : Feeding) : Feeding :=
  (((s.data .headerField).data .headerValue).data .url).data .body

end Feeding

/-- What is left when a buffer was read, or when the reading stopped in it. -/
structure Executed where
  parser : HttpParser
  feeding : Feeding
  nparsed : Nat
  httpErrno : Option HttpErrno := none

/-- The bytes of a buffer are read, unless an assertion fails. The callbacks assert that no error is set,
and one is set only where the reading stops. -/
def executeLoop (c : HttpParser) (s : Feeding) (nparsed : Nat) : Bytes → Option Executed
  | [] => if s.marked ≤ 1 then some ⟨c, s.leftover, nparsed, none⟩ else none
  | ch :: data =>
    match c.executeByte ch with
    | .goes c' actions => executeLoop c' ((s.actions c' ch actions).advance ch) (nparsed + 1) data
    | .exits c' actions => some ⟨c', s.actions c' ch actions, nparsed + 1, none⟩
    | .fails errno actions => some ⟨c, s.actions c ch actions, nparsed, some errno⟩
    | .aborts => none

/-- The text that goes on in a buffer. -/
def markAt : ParserState → Option DataCallback
  | .headerField => some .headerField
  | .headerValue => some .headerValue
  | .reqUrl .spacesBeforeUrl => none
  | .reqUrl _ => some .url
  | _ => none

@[ext]
structure HTTPParser where
  parser : HttpParser := {}
  httpErrno : Option HttpErrno := none
  assembly : Assembly := {}

namespace HTTPParser

def execute (p : HTTPParser) (data : Bytes) : Option (HTTPParser × List Callback × Nat) :=
  if p.httpErrno.isSome then some (p, [], 0)
  else if data = [] then
    match p.parser.state with
    | .dead | .startReq => some (p, [], 0)
    | _ => some ({ p with httpErrno := some .invalidEofState }, [], 1)
  else
    let marks (text : DataCallback) : Option Bytes :=
      if markAt p.parser.state = some text then some [] else none
    (executeLoop p.parser ⟨p.assembly, marks, []⟩ 0 data).map fun done =>
      (⟨done.parser, done.httpErrno, done.feeding.assembly⟩, done.feeding.calls, done.nparsed)

def feed (p : HTTPParser) (data : Bytes) : Option (HTTPParser × List Callback × Bool) :=
  (p.execute data).map fun (p, calls, nparsed) => (p, calls, nparsed = data.length)

end HTTPParser

end Pinocchio.Crow
