import Pinocchio.Crow.HttpHeads
import Pinocchio.Crow.HttpCuts
import Mathlib.Data.Nat.Digits.Lemmas

/-! Requests are read as they were written.

A request is written with the length of its body, or with its body in chunks. The parser reads any
number of requests one behind the other, however the stream is cut.
-/

set_option autoImplicit false

namespace Pinocchio.Crow
open Semantics

/-! ## Requests as they are written -/

def hexDigit (d : Nat) : UInt8 := UInt8.ofNat (if d < 10 then 48 + d else 87 + d)

def hexadecimal (n : Nat) : Bytes := (Nat.digits 16 n).reverse.map hexDigit

inductive MessageBody where
  | none
  | whole (bytes : Bytes)
  | chunked (chunks : List Bytes)

namespace MessageBody

def bytes : MessageBody → Bytes
  | .none => []
  | .whole bytes => bytes
  | .chunked chunks => chunks.flatten

/-- The header that says how the end of a body is found. -/
def headers : MessageBody → CiMap
  | .none => []
  | .whole bytes => [(ascii "Content-Length", decimal bytes.length)]
  | .chunked _ => [(ascii "Transfer-Encoding", ascii "chunked")]

def chunk (bytes : Bytes) : Bytes := hexadecimal bytes.length ++ crlf ++ bytes ++ crlf

def written : MessageBody → Bytes
  | .none => []
  | .whole bytes => bytes
  | .chunked chunks => chunks.flatMap chunk ++ ascii "0" ++ crlf ++ crlf

def Valid : MessageBody → Prop
  | .none => True
  | .whole bytes => bytes.length ≤ noLength - 10
  | .chunked chunks => ∀ bytes ∈ chunks, bytes ≠ [] ∧ bytes.length ≤ noLength - 16

instance : DecidablePred Valid
  | .none => isTrue trivial
  | .whole bytes => inferInstanceAs (Decidable (bytes.length ≤ noLength - 10))
  | .chunked chunks =>
    inferInstanceAs (Decidable (∀ bytes ∈ chunks, bytes ≠ [] ∧ bytes.length ≤ noLength - 16))

end MessageBody

structure Message where
  method : ParserMethod
  url : Bytes
  headers : CiMap
  body : MessageBody

namespace Message

def line (header : Bytes × Bytes) : Bytes := header.1 ++ ascii ": " ++ header.2 ++ crlf

def allHeaders (m : Message) : CiMap := m.headers ++ m.body.headers

def head (m : Message) : Bytes :=
  m.method.string ++ [sp] ++ m.url ++ [sp] ++ (ascii "HTTP/1.1" ++ crlf) ++ m.allHeaders.flatMap line ++ crlf

def written (m : Message) : Bytes := m.head ++ m.body.written

/-- A header that neither says something of the body nor asks for the end of the connection. -/
structure Plain (header : Bytes × Bytes) : Prop where
  name : header.1 ≠ [] ∧ ∀ c ∈ header.1, token c ≠ 0
  value : HttpParser.ValidValue header.2
  framing : header.1.map token ∉ [ascii "content-length", ascii "transfer-encoding", ascii "upgrade"]
  stays : header.1.map token ∈ [ascii "connection", ascii "proxy-connection"] →
    HttpParser.closes header.2 = false

instance : DecidablePred Plain := fun header =>
  decidable_of_iff
    ((header.1 ≠ [] ∧ ∀ c ∈ header.1, token c ≠ 0) ∧ HttpParser.ValidValue header.2 ∧
      (∀ name ∈ [ascii "content-length", ascii "transfer-encoding", ascii "upgrade"],
        header.1.map token ≠ name) ∧
      ∀ name ∈ [ascii "connection", ascii "proxy-connection"], header.1.map token = name →
        HttpParser.closes header.2 = false)
    ⟨fun ⟨name, value, framing, stays⟩ =>
        ⟨name, value, fun member => framing _ member rfl, fun member => stays _ member rfl⟩,
      fun plain => ⟨plain.name, plain.value, fun _ member same => plain.framing (same ▸ member),
        fun _ member same => plain.stays (same ▸ member)⟩⟩

/-- What a request is written from. The bytes behind the last chunk count for the next head. -/
structure Valid (m : Message) : Prop where
  method : m.method ≠ .connect
  url : (m.url.foldl Http.parseUrlChar .spacesBeforeUrl).ends = true
  headers : ∀ header ∈ m.headers, Plain header
  body : m.body.Valid
  fits : m.head.length + 2 ≤ httpMaxHeaderSize

instance : DecidablePred Valid := fun m =>
  decidable_of_iff
    (m.method ≠ .connect ∧ (m.url.foldl Http.parseUrlChar .spacesBeforeUrl).ends = true ∧
      (∀ header ∈ m.headers, Plain header) ∧ m.body.Valid ∧ m.head.length + 2 ≤ httpMaxHeaderSize)
    ⟨fun ⟨method, url, headers, body, fits⟩ => ⟨method, url, headers, body, fits⟩,
      fun valid => ⟨valid.method, valid.url, valid.headers, valid.body, valid.fits⟩⟩

def toRequest (m : Message) : Request :=
  ⟨m.method.number, m.url, Http.urlOf m.url, m.allHeaders, m.body.bytes⟩

def calls (m : Message) : List Callback := [.header (1, 1) m.allHeaders, .message (1, 1) m.toRequest]

end Message

/-! ## Readings -/

/-- The reader takes all of the bytes and goes on as the other one. -/
def Reads (r : Reader) (data : Bytes) (r' : Reader) : Prop :=
  ∀ n, r.run n data = some (r', n + data.length, .more)

section
variable {r s t : Reader} {c : HttpParser} {ch : UInt8} {a b data : Bytes}

theorem Reads.nil (r : Reader) : Reads r [] r := fun _ => rfl

theorem Reads.append (first : Reads r a s) (second : Reads s b t) : Reads r (a ++ b) t := by
  intro n
  rw [r.run_append, first n, Option.bind_some]
  change s.run (n + a.length) b = _
  rw [second (n + a.length), List.length_append, Nat.add_assoc]

theorem Reads.cons (first : Reads r [ch] s) (rest : Reads s data t) : Reads r (ch :: data) t :=
  first.append rest

theorem Reads.byte {actions : List ParserAction} (step : r.parser.executeByte ch = .goes c actions) :
    Reads r [ch] ((r.actions c ch actions).advance ch) := by
  intro n
  rw [Reader.run, step]
  rfl

def Assembly.grown (a : Assembly) (text : Option DataCallback) (data : Bytes) : Assembly :=
  match text with
  | none => a
  | some text => a.onData text data

theorem Reads.quiet (step : r.parser.executeByte ch = .goes c []) :
    Reads r [ch] ⟨c, r.assembly.grown r.text [ch], r.text, r.calls⟩ := by
  have read := Reads.byte step
  have same : (r.actions c ch []).advance ch = ⟨c, r.assembly.grown r.text [ch], r.text, r.calls⟩ := by
    cases r with
    | mk parser assembly text calls => cases text <;> rfl
  rwa [same] at read

theorem Reads.silent (begun : Begun r) (ran : r.parser.silent data = some c) :
    Reads r data ⟨c, r.assembly.grown r.text data, r.text, r.calls⟩ := by
  induction data generalizing r with
  | nil =>
    cases ran
    have same : r.assembly.grown r.text [] = r.assembly := by
      unfold Assembly.grown
      cases text : r.text with
      | none => rfl
      | some text' => exact begun text' text
    rw [same]
    exact .nil r
  | cons ch data ih =>
    unfold HttpParser.silent at ran
    rw [List.foldlM_cons] at ran
    obtain ⟨d, step, rest⟩ := Option.bind_eq_some_iff.mp ran
    split at step
    · rename_i d' executed
      cases step
      have later := @ih ⟨d, r.assembly.grown r.text [ch], r.text, r.calls⟩ (by
        intro text same
        change r.text = some text at same
        simp only [same, Assembly.grown]
        exact (Assembly.onData_append ..).symm) rest
      refine (Reads.quiet executed).cons ?_
      have same : (r.assembly.grown r.text [ch]).grown r.text data = r.assembly.grown r.text (ch :: data) := by
        unfold Assembly.grown
        cases r.text with
        | none => rfl
        | some text => exact (Assembly.onData_append _ _ [ch] data).symm
      rwa [same] at later
    · cases step

theorem Reads.mark {text : DataCallback} (idle : r.text = none)
    (step : r.parser.executeByte ch = .goes c [.mark text]) :
    Reads r [ch] ⟨c, r.assembly.onData text [ch], some text, r.calls⟩ := by
  have read := Reads.byte step
  have same : (r.actions c ch [.mark text]).advance ch =
      ⟨c, r.assembly.onData text [ch], some text, r.calls⟩ := by
    cases r with
    | mk parser assembly text' calls =>
      cases idle
      change (⟨c, (assembly.onData text []).onData text [ch], some text, calls⟩ : Reader) = _
      rw [← Assembly.onData_append]
      rfl
  rwa [same] at read

theorem Reads.ends {text : DataCallback} (step : r.parser.executeByte ch = .goes c [.data text]) :
    Reads r [ch] ⟨c, r.assembly, none, r.calls⟩ := Reads.byte step

theorem Reads.text {text : DataCallback} {first : HttpParser} (idle : r.text = none)
    (step : r.parser.executeByte ch = .goes first [.mark text]) (ran : first.silent data = some c) :
    Reads r (ch :: data) ⟨c, r.assembly.onData text (ch :: data), some text, r.calls⟩ := by
  have later := @Reads.silent ⟨first, r.assembly.onData text [ch], some text, r.calls⟩ c data (by
    intro other same
    cases same
    exact (Assembly.onData_append ..).symm) ran
  have whole : (r.assembly.onData text [ch]).grown (some text) data =
      r.assembly.onData text (ch :: data) := (Assembly.onData_append _ _ [ch] data).symm
  rw [whole] at later
  exact (Reads.mark idle step).cons later

theorem Reads.idle (idle : r.text = none) (ran : r.parser.silent data = some c) :
    Reads r data { r with parser := c } := by
  have read := Reads.silent (fun text same => by cases idle.symm.trans same) ran
  rw [idle] at read
  cases r with
  | mk parser assembly text calls =>
    cases idle
    exact read

/-! ## Headers -/

def AtField (c : HttpParser) (h : Heading) : Prop :=
  ∀ ch, ch ≠ sp → ch ≠ tab → ∃ d : HttpParser, d.heading = h ∧ c.executeByte ch = d.headerFieldStart ch

theorem atField_start (state : c.state = .headerFieldStart) (fits : c.nread < httpMaxHeaderSize) :
    AtField c (c.heading.later 1) :=
  fun ch _ _ => ⟨_, rfl, HttpParser.executeByte_counted state rfl fits ch⟩

theorem atField_lws (state : c.state = .headerValueLws) (fits : c.nread < httpMaxHeaderSize) :
    AtField c (c.settled.later 1) := by
  intro ch notSp notTab
  refine ⟨{ c with
    nread := c.nread + 1, flags := HttpParser.flagged c.headerState c.flags, state := .headerFieldStart }, rfl,
    (HttpParser.executeByte_counted state rfl fits ch).trans ?_⟩
  change HttpParser.headerValueLws _ ch = _
  unfold HttpParser.headerValueLws
  rw [if_neg fun blank => blank.elim notSp notTab]
  rfl

/-- What was put together of the URL and of the headers, of which the last one may be pending. -/
structure Assembled (a : Assembly) (url : Bytes) (headers : CiMap) : Prop where
  rawUrl : a.rawUrl = url
  body : a.body = []
  building : a.headerBuildingState = false
  pending : a.headerField = [] ↔ a.headerValue = []
  headers : a.onHeadersComplete.headers = headers

theorem Assembled.line {a : Assembly} {url : Bytes} {headers : CiMap}
    (assembled : Assembled a url headers) {name value : Bytes} (named : name ≠ []) (valued : value ≠ []) :
    Assembled ((a.onData .headerField name).onData .headerValue value) url
      (headers ++ [(name, value)]) := by
  obtain ⟨rawUrl, body, building, pending, rfl⟩ := assembled
  unfold Assembly.onData Assembly.onHeaderField Assembly.onHeadersComplete
  simp only [building]
  by_cases empty : a.headerValue = []
  · simp only [empty, ne_eq, not_true_eq_false, if_false, pending.mpr empty]
    refine ⟨rawUrl, body, rfl, ?_, ?_⟩
    · simp [Assembly.onHeaderValue, named, valued]
    · simp [Assembly.onHeaderValue, Assembly.onHeadersComplete, named, Assembly.emplace]
  · have field : a.headerField ≠ [] := fun none => empty (pending.mp none)
    simp only [empty, ne_eq, not_false_eq_true, if_true, field]
    refine ⟨rawUrl, body, rfl, ?_, ?_⟩
    · simp [Assembly.onHeaderValue, named, valued]
    · simp [Assembly.onHeaderValue, Assembly.onHeadersComplete, named, Assembly.emplace]

theorem blank_bytes : ascii ": " = [58, 32] := by decide

theorem line_length (name value : Bytes) :
    (Message.line (name, value)).length = name.length + value.length + 4 := by
  simp [Message.line, blank_bytes, crlf]
  omega

theorem reads_line {h : Heading} {P : Heading → Prop} {url name value : Bytes} {headers : CiMap}
    (field : AtField r.parser h) (assembled : Assembled r.assembly url headers) (idle : r.text = none)
    (named : name ≠ [] ∧ ∀ c ∈ name, token c ≠ 0) (valued : value ≠ [])
    (fits : h.nread + (Message.line (name, value)).length ≤ httpMaxHeaderSize)
    (values : ∀ c : HttpParser, c.state = .headerValueDiscardWs → c.headerState = (HttpParser.nameOf name).1 →
      c.heading = h.later (name.length + 1) → ∃ d, c.Values value d ∧ d.state = .headerValue ∧
        d.nread = h.nread + (name.length + 1 + value.length) ∧ P (d.settled.later 3)) :
    ∃ r' h', Reads r (Message.line (name, value)) r' ∧ P h' ∧ AtField r'.parser h' ∧
      Assembled r'.assembly url (headers ++ [(name, value)]) ∧ r'.text = none ∧ r'.calls = r.calls := by
  rw [line_length] at fits
  obtain ⟨named, valid⟩ := named
  have whole := assembled.line named valued
  obtain ⟨ch, rest, rfl⟩ := List.exists_cons_of_ne_nil named
  rw [List.length_cons] at *
  have first := valid ch List.mem_cons_self
  have others : ∀ c ∈ rest, token c ≠ 0 := fun c member => valid c (List.mem_cons_of_mem _ member)
  have notSp : ch ≠ sp := fun same => first (same ▸ HttpParser.not_token.1)
  have notTab : ch ≠ tab := fun same => first (same ▸ HttpParser.not_token.2.1)
  obtain ⟨c₀, heading, begins⟩ := field ch notSp notTab
  have counted : c₀.nread = h.nread := congrArg Heading.nread heading
  -- The name, the colon and the blank.
  let c₁ : HttpParser := { c₀ with
    state := .headerField, headerState := (HttpParser.nameOf (ch :: rest)).1
    index := (HttpParser.nameOf (ch :: rest)).2, nread := c₀.nread + rest.length }
  have nameRead : Reads r (ch :: rest)
      ⟨c₁, r.assembly.onData .headerField (ch :: rest), some .headerField, r.calls⟩ := by
    refine Reads.text idle (begins.trans (HttpParser.headerFieldStart_name first)) ?_
    refine HttpParser.name_silent rest rfl (HttpParser.nameStart_recognised first) ?_ others rfl
    simp only []
    omega
  have colon : c₁.executeByte 58 =
      .goes { c₁ with nread := c₁.nread + 1, state := .headerValueDiscardWs } [.data .headerField] :=
    (HttpParser.executeByte_counted (s := .headerField) rfl rfl (by simp only [c₁]; omega) 58).trans rfl
  let c₂ : HttpParser := { c₁ with nread := c₁.nread + 2, state := .headerValueDiscardWs }
  have blankRead : ({ c₁ with nread := c₁.nread + 1, state := .headerValueDiscardWs } :
      HttpParser).executeByte 32 = .goes c₂ [] :=
    (HttpParser.executeByte_counted (s := .headerValueDiscardWs) rfl rfl
      (by simp only [c₁]; omega) 32).trans rfl
  -- The value and the end of the line.
  obtain ⟨d, ⟨b, more, first, rfl, begun, ran⟩, state, so, settled⟩ := values c₂ rfl rfl (by
    change c₀.heading.later (rest.length + 2) = _
    rw [heading])
  have ended := HttpParser.executeByte_counted state rfl (by omega) cr
  have fed := @HttpParser.executeByte_counted
    { d with nread := d.nread + 1, state := .headerAlmostDone } .headerAlmostDone rfl rfl
    (by simp only []; omega) lf
  have at' := @atField_lws { d with nread := d.nread + 2, state := .headerValueLws } rfl
    (by simp only []; omega)
  refine ⟨⟨{ d with nread := d.nread + 2, state := .headerValueLws }, _, none, r.calls⟩, _, ?_, settled,
    at', whole, rfl, rfl⟩
  unfold Message.line
  rw [blank_bytes]
  have value := @Reads.text ⟨c₂, r.assembly.onData .headerField (ch :: rest), none, r.calls⟩ d b more
    .headerValue first rfl begun ran
  refine ((nameRead.append ((Reads.ends colon).cons (Reads.quiet blankRead))).append value).append ?_
  exact (Reads.ends ended).cons (Reads.quiet fed)

/-- What headers may have said of the connection while they say nothing of the body. -/
def Heading.alive (h : Heading) (connectionKeepAlive : Bool) : Heading :=
  { h with flags := { h.flags with connectionKeepAlive } }

theorem reads_plain {h : Heading} {url : Bytes} {header : Bytes × Bytes} {headers : CiMap}
    (plain : Message.Plain header) (field : AtField r.parser h) (assembled : Assembled r.assembly url headers)
    (idle : r.text = none) (fits : h.nread + (Message.line header).length ≤ httpMaxHeaderSize) :
    ∃ r' connectionKeepAlive, Reads r (Message.line header) r' ∧
      AtField r'.parser ((h.later (Message.line header).length).alive connectionKeepAlive) ∧
      Assembled r'.assembly url (headers ++ [header]) ∧ r'.text = none ∧ r'.calls = r.calls := by
  obtain ⟨name, value⟩ := header
  obtain ⟨named, valid, framing, stays⟩ := plain
  simp only [] at named valid framing stays
  obtain ⟨connection, contentLength, transferEncoding, upgrade⟩ := HttpParser.nameOf_iff named.2
  have unframed : HttpParser.framing (HttpParser.nameOf name).1 = false := by
    simp only [List.mem_cons, List.not_mem_nil, or_false, not_or] at framing
    rw [← contentLength, ← transferEncoding, ← upgrade] at framing
    generalize (HttpParser.nameOf name).1 = s at framing
    cases s <;> simp [HttpParser.framing] at framing ⊢
  have length := line_length name value
  obtain ⟨r', h', read, ⟨connectionKeepAlive, rfl⟩, rest⟩ := @reads_line r h
    (fun h' => ∃ alive, h' = (h.later (Message.line (name, value)).length).alive alive) url name value
    headers field assembled idle named valid.1 fits (by
      intro c state is heading
      have flags : c.flags = h.flags := congrArg Heading.flags heading
      have counted : c.nread = h.nread + (name.length + 1) := congrArg Heading.nread heading
      obtain ⟨d, alive, values, ends, settled⟩ := HttpParser.Values.plain valid state (is ▸ unframed)
        (by omega) (fun close => stays (by simpa using connection.mp (is ▸ close)))
      refine ⟨d, values, ends, ?_, alive, ?_⟩
      · rw [show d.nread = d.settled.nread from rfl, settled]
        change c.nread + value.length = _
        omega
      · rw [settled, heading, flags, length, Heading.later_later]
        change ((h.later (name.length + 1 + value.length)).later 3).alive alive = _
        rw [Heading.later_later]
        congr 2
        omega)
  exact ⟨r', connectionKeepAlive, read, rest⟩

theorem reads_plains {h : Heading} {url : Bytes} (added : CiMap) {headers : CiMap}
    (plain : ∀ header ∈ added, Message.Plain header) (field : AtField r.parser h)
    (assembled : Assembled r.assembly url headers) (idle : r.text = none)
    (fits : h.nread + (added.flatMap Message.line).length ≤ httpMaxHeaderSize) :
    ∃ r' connectionKeepAlive, Reads r (added.flatMap Message.line) r' ∧
      AtField r'.parser ((h.later (added.flatMap Message.line).length).alive connectionKeepAlive) ∧
      Assembled r'.assembly url (headers ++ added) ∧ r'.text = none ∧ r'.calls = r.calls := by
  induction added generalizing r h headers with
  | nil =>
    refine ⟨r, h.flags.connectionKeepAlive, .nil r, field, ?_, idle, rfl⟩
    rwa [List.append_nil]
  | cons header added ih =>
    rw [List.flatMap_cons, List.length_append] at fits ⊢
    obtain ⟨s, alive, first, field', assembled', idle', calls⟩ :=
      reads_plain (plain header List.mem_cons_self) field assembled idle (by omega)
    obtain ⟨t, alive', rest, field'', assembled'', idle'', calls'⟩ :=
      ih (fun other member => plain other (List.mem_cons_of_mem _ member)) field' assembled' idle' (by
        change h.nread + (Message.line header).length + _ ≤ _
        omega)
    refine ⟨t, alive', first.append rest, ?_, ?_, idle'', calls'.trans calls⟩
    · rwa [show (((h.later (Message.line header).length).alive alive).later
          (added.flatMap Message.line).length).alive alive' =
          ((h.later (Message.line header).length).later (added.flatMap Message.line).length).alive alive'
          from rfl, Heading.later_later] at field''
    · rwa [List.append_assoc] at assembled''

def Heading.framed (h : Heading) : MessageBody → Heading
  | .none => h
  | .whole bytes => { h with contentLength := bytes.length }
  | .chunked _ => { h with flags := { h.flags with chunked := true } }

theorem reads_framing {h : Heading} {url : Bytes} {body : MessageBody} {headers : CiMap}
    (valid : body.Valid) (field : AtField r.parser h) (assembled : Assembled r.assembly url headers)
    (idle : r.text = none)
    (fits : h.nread + (body.headers.flatMap Message.line).length ≤ httpMaxHeaderSize) :
    ∃ r', Reads r (body.headers.flatMap Message.line) r' ∧
      AtField r'.parser ((h.framed body).later (body.headers.flatMap Message.line).length) ∧
      Assembled r'.assembly url (headers ++ body.headers) ∧ r'.text = none ∧ r'.calls = r.calls := by
  have single (header : Bytes × Bytes) : [header].flatMap Message.line = Message.line header := by simp
  cases body with
  | none =>
    refine ⟨r, .nil r, field, ?_, idle, rfl⟩
    rwa [MessageBody.headers, List.append_nil]
  | whole bytes =>
    rw [MessageBody.headers, single] at fits ⊢
    have length := line_length (ascii "Content-Length") (decimal bytes.length)
    obtain ⟨r', h', read, rfl, rest⟩ := @reads_line r h
      (fun h' => h' = (h.framed (.whole bytes)).later
        (Message.line (ascii "Content-Length", decimal bytes.length)).length) url
      (ascii "Content-Length") (decimal bytes.length) headers field assembled idle (by decide +kernel)
      (decimal_ne_nil _) fits (by
        intro c state is heading
        have counted : c.nread = h.nread + ((ascii "Content-Length").length + 1) :=
          congrArg Heading.nread heading
        obtain ⟨d, values, ends, settled⟩ := HttpParser.Values.contentLength (c := c) valid state
          (is.trans (by decide)) (by omega)
        refine ⟨d, values, ends, ?_, ?_⟩
        · rw [show d.nread = d.settled.nread from rfl, settled]
          change c.nread + (decimal bytes.length).length = _
          omega
        · rw [settled, heading, length, Heading.later_later]
          change ((h.framed (.whole bytes)).later
            ((ascii "Content-Length").length + 1 + (decimal bytes.length).length)).later 3 = _
          rw [Heading.later_later]
          congr 1
          omega)
    exact ⟨r', read, rest⟩
  | chunked chunks =>
    rw [MessageBody.headers, single] at fits ⊢
    have length := line_length (ascii "Transfer-Encoding") (ascii "chunked")
    have seven : (ascii "chunked").length = 7 := by decide
    obtain ⟨r', h', read, rfl, rest⟩ := @reads_line r h
      (fun h' => h' = (h.framed (.chunked chunks)).later
        (Message.line (ascii "Transfer-Encoding", ascii "chunked")).length) url
      (ascii "Transfer-Encoding") (ascii "chunked") headers field assembled idle (by decide +kernel)
      (by decide) fits (by
        intro c state is heading
        have flags : c.flags = h.flags := congrArg Heading.flags heading
        have counted : c.nread = h.nread + ((ascii "Transfer-Encoding").length + 1) :=
          congrArg Heading.nread heading
        obtain ⟨d, values, ends, settled⟩ := HttpParser.Values.chunked state
          (is.trans (by decide)) (by omega)
        refine ⟨d, values, ends, ?_, ?_⟩
        · rw [show d.nread = d.settled.nread from rfl, settled]
          change c.nread + 7 = _
          omega
        · rw [settled, heading, flags, length, Heading.later_later]
          change ((h.framed (.chunked chunks)).later
            ((ascii "Transfer-Encoding").length + 1 + 7)).later 3 = _
          rw [Heading.later_later]
          congr 1)
    exact ⟨r', read, rest⟩

/-! ## The end of a head -/

theorem Assembled.complete {a : Assembly} {url : Bytes} {headers : CiMap}
    (assembled : Assembled a url headers) :
    a.onHeadersComplete.rawUrl = url ∧ a.onHeadersComplete.body = [] ∧
      a.onHeadersComplete.headers = headers := by
  refine ⟨?_, ?_, assembled.headers⟩
  · unfold Assembly.onHeadersComplete
    split <;> exact assembled.rawUrl
  · unfold Assembly.onHeadersComplete
    split <;> exact assembled.body

theorem reads_empty {h : Heading} (field : AtField r.parser h) (idle : r.text = none)
    (fits : h.nread < httpMaxHeaderSize) :
    ∃ d e : HttpParser, d.heading = h.later 1 ∧ ∀ c actions,
      d.headersAlmostDone lf = .goes c actions →
        Reads r crlf ((Reader.actions c lf ⟨e, r.assembly, none, r.calls⟩ actions).advance lf) := by
  obtain ⟨c₀, heading, begins⟩ := field cr (by decide) (by decide)
  have counted : c₀.nread = h.nread := congrArg Heading.nread heading
  have ended := @HttpParser.executeByte_counted { c₀ with state := .headersAlmostDone } .headersAlmostDone
    rfl rfl (by simp only []; omega) lf
  refine ⟨{ c₀ with nread := c₀.nread + 1, state := .headersAlmostDone }, { c₀ with state := .headersAlmostDone },
    ?_, fun c actions taken => ?_⟩
  · change c₀.heading.later 1 = _
    rw [heading]
  · have first := Reads.quiet (begins.trans (show c₀.headerFieldStart cr =
      .goes { c₀ with state := .headersAlmostDone } [] from rfl))
    rw [idle] at first
    exact first.cons (Reads.byte (ended.trans taken))

/-- The head of a request of version 1.1 that stays on the connection. -/
def Heading.plain (method : ParserMethod) (contentLength : Nat) (connectionKeepAlive chunked : Bool)
    (nread : Nat) : Heading :=
  ⟨method, 1, 1, contentLength, { connectionKeepAlive, chunked }, nread⟩

theorem headersAlmostDone_plain {d : HttpParser} {method : ParserMethod} {contentLength n : Nat}
    {alive chunked : Bool} (other : method ≠ .connect)
    (heading : d.heading = .plain method contentLength alive chunked n) :
    d.headersAlmostDone lf =
      if chunked then .goes { d with upgrade := false, nread := 0, state := .chunkSizeStart } [.headersComplete]
      else if contentLength = 0 ∨ contentLength = noLength then
        .goes { d with upgrade := false, nread := 0, state := .startReq } [.headersComplete, .messageComplete]
      else .goes { d with upgrade := false, nread := 0, state := .bodyIdentity } [.headersComplete] := by
  obtain ⟨flags, state, headerState, index, nread, length, httpMajor, httpMinor, method', upgrade⟩ := d
  cases heading
  unfold HttpParser.headersAlmostDone HttpParser.headersDone
  cases chunked with
  | true => simp [other, Outcome.after]
  | false =>
    by_cases zero : length = 0
    · simp [other, Outcome.after, zero, HttpParser.newMessage, HttpParser.shouldKeepAlive]
    · by_cases unknown : length = noLength
      · simp [other, Outcome.after, unknown, HttpParser.newMessage, HttpParser.shouldKeepAlive]
      · simp [other, Outcome.after, zero, unknown]

/-! ## Bodies -/

structure AtStart (r : Reader) : Prop where
  state : r.parser.state = .startReq
  counted : r.parser.nread ≤ 2
  idle : r.text = none

theorem Reads.body (text : r.text = none ∨ r.text = some .body)
    (step : r.parser.executeByte ch = .goes c [.mark .body]) :
    Reads r [ch] ⟨c, r.assembly.onData .body [ch], some .body, r.calls⟩ := by
  rcases text with idle | body
  · exact Reads.mark idle step
  · have read := Reads.byte step
    have same : (r.actions c ch [.mark .body]).advance ch =
        ⟨c, r.assembly.onData .body [ch], some .body, r.calls⟩ := by
      cases r with
      | mk parser assembly text calls =>
        cases body
        rfl
    rwa [same] at read

theorem reads_whole {bytes : Bytes} (more : bytes ≠ []) (state : r.parser.state = .bodyIdentity)
    (length : r.parser.contentLength = bytes.length) (small : bytes.length < noLength)
    (next : r.parser.newMessage = .startReq) (counted : r.parser.nread ≤ 2)
    (text : r.text = none ∨ r.text = some .body) :
    ∃ r', Reads r bytes r' ∧ AtStart r' ∧
      r'.calls = r.calls ++ [.message (r.parser.httpMajor, r.parser.httpMinor)
        (({ r.assembly with body := r.assembly.body ++ bytes } : Assembly).toRequest r.parser.method)] := by
  induction bytes generalizing r with
  | nil => exact absurd rfl more
  | cons ch bytes ih =>
    rw [List.length_cons] at length small
    have executed : r.parser.executeByte ch = r.parser.bodyIdentity := by
      unfold HttpParser.executeByte HttpParser.switch
      rw [state]
      rfl
    have asserts : ¬(r.parser.contentLength = 0 ∨ r.parser.contentLength = noLength) := by omega
    unfold HttpParser.bodyIdentity at executed
    rw [if_neg asserts] at executed
    cases bytes with
    | nil =>
      have last : r.parser.contentLength - 1 = 0 := by
        rw [length]
        rfl
      rw [if_pos last] at executed
      refine ⟨_, Reads.byte executed, ?_⟩
      cases r with
      | mk parser assembly text' calls =>
        have idle : (⟨parser, assembly, text', calls⟩ : Reader).text = none ∨
            (⟨parser, assembly, text', calls⟩ : Reader).text = some .body := text
        rcases text with rfl | rfl
        · exact ⟨⟨next, counted, rfl⟩, by simp [Reader.actions, Reader.perform, Reader.advance, Assembly.onData]⟩
        · exact ⟨⟨next, counted, rfl⟩, by simp [Reader.actions, Reader.perform, Reader.advance, Assembly.onData]⟩
    | cons ch' rest =>
      have goesOn : ¬r.parser.contentLength - 1 = 0 := by
        rw [length, List.length_cons]
        omega
      rw [if_neg goesOn] at executed
      obtain ⟨r', read, start, calls⟩ := @ih
        ⟨{ r.parser with contentLength := r.parser.contentLength - 1 }, r.assembly.onData .body [ch],
          some .body, r.calls⟩ (List.cons_ne_nil _ _) state (by simp only [length, Nat.add_sub_cancel])
        (by omega) next counted (Or.inr rfl)
      refine ⟨r', (Reads.body text executed).cons read, start, ?_⟩
      rw [calls]
      simp [Assembly.onData]

/-! ## Chunks -/

theorem unhex_hexDigit {d : Nat} (digit : d < 16) :
    unhex (hexDigit d) = some d ∧ hexDigit d ≠ cr := by
  have tried : ∀ d : Fin 16, unhex (hexDigit d) = some d.val ∧ hexDigit d ≠ cr := by decide
  exact tried ⟨d, digit⟩

def hexValue (digits : List Nat) : Nat := digits.foldl (fun value d => value * 16 + d) 0

theorem hexValue_append (w : List Nat) (d : Nat) : hexValue (w ++ [d]) = hexValue w * 16 + d := by
  unfold hexValue
  rw [List.foldl_append]
  rfl

theorem hexValue_le (w rest : List Nat) : hexValue w ≤ hexValue (w ++ rest) := by
  induction rest generalizing w with
  | nil => simp
  | cons d rest ih =>
    have next := ih (w ++ [d])
    rw [List.append_assoc, hexValue_append] at next
    rw [show w ++ d :: rest = w ++ ([d] ++ rest) from rfl]
    omega

theorem hexValue_digits (n : Nat) : hexValue (Nat.digits 16 n).reverse = n := by
  unfold hexValue
  rw [List.foldl_reverse]
  have value := Nat.ofDigits_digits 16 n
  rw [Nat.ofDigits_eq_foldr] at value
  simpa [Nat.mul_comm, Nat.add_comm] using value

structure AtChunk (r : Reader) : Prop where
  state : r.parser.state = .chunkSizeStart
  counted : r.parser.nread = 0
  chunked : r.parser.flags.chunked = true
  idle : r.text = none

theorem digits_silent (digits : List Nat) {w : List Nat} (state : c.state = .chunkSize)
    (chunked : c.flags.chunked = true) (value : c.contentLength = hexValue w)
    (each : ∀ d ∈ digits, d < 16) (fitting : hexValue (w ++ digits) ≤ noLength - 16)
    (fits : c.nread + digits.length ≤ httpMaxHeaderSize) :
    c.silent (digits.map hexDigit) = some { c with
      contentLength := hexValue (w ++ digits), nread := c.nread + digits.length } := by
  induction digits generalizing c w with
  | nil =>
    rw [List.append_nil, ← value]
    rfl
  | cons d digits ih =>
    rw [List.length_cons] at fits ⊢
    obtain ⟨known, notCr⟩ := unhex_hexDigit (each d List.mem_cons_self)
    have whole : w ++ d :: digits = w ++ [d] ++ digits := by simp
    have longer := hexValue_append w d
    have less := hexValue_le (w ++ [d]) digits
    rw [whole] at fitting ⊢
    have room : ¬(noLength - 16) / 16 < c.contentLength := by omega
    have small : (c.contentLength * 16 + d) % 2 ^ 64 = hexValue (w ++ [d]) := by
      unfold noLength at fitting
      omega
    have taken : ({ c with nread := c.nread + 1, state := .chunkSize } : HttpParser).chunkSize (hexDigit d) =
        .goes { c with nread := c.nread + 1, state := .chunkSize, contentLength := hexValue (w ++ [d]) } [] := by
      unfold HttpParser.chunkSize
      simp only [chunked, if_neg notCr, known, if_neg room, small]
      rfl
    have later := @ih { c with
      nread := c.nread + 1, state := .chunkSize, contentLength := hexValue (w ++ [d]) } (w ++ [d]) rfl chunked
      rfl (fun other member => each other (List.mem_cons_of_mem _ member)) fitting (by simp only []; omega)
    rw [List.map_cons, HttpParser.silent_byte state rfl (by omega) taken, later, ← state]
    simp only [Nat.add_assoc, Nat.add_comm 1]

theorem sizeEnd_silent (state : c.state = .chunkSize) (chunked : c.flags.chunked = true)
    (fits : c.nread + 2 ≤ httpMaxHeaderSize) :
    c.silent crlf = some (if c.contentLength = 0 then
      { c with nread := 0, flags := { c.flags with trailing := true }, state := .headerFieldStart }
      else { c with nread := 0, state := .chunkData }) := by
  have ended : ({ c with nread := c.nread + 1, state := .chunkSize } : HttpParser).switch 13 =
      .goes { c with nread := c.nread + 1, state := .chunkSizeAlmostDone } [] := by
    change HttpParser.chunkSize _ _ = _
    unfold HttpParser.chunkSize
    simp only [chunked]
    rfl
  have fed : ({ c with nread := c.nread + 2, state := .chunkSizeAlmostDone } : HttpParser).switch 10 =
      .goes (if c.contentLength = 0 then
        { c with nread := 0, flags := { c.flags with trailing := true }, state := .headerFieldStart }
        else { c with nread := 0, state := .chunkData }) [] := by
    change HttpParser.chunkSizeAlmostDone _ _ = _
    unfold HttpParser.chunkSizeAlmostDone
    simp only [chunked]
    by_cases zero : c.contentLength = 0
    · rw [if_pos zero]
      simp [lf, zero]
    · rw [if_neg zero]
      simp [lf, zero]
  unfold crlf
  rw [HttpParser.silent_byte state rfl (by omega) ended]
  exact HttpParser.silent_cons ((HttpParser.executeByte_counted rfl rfl (by simp only []; omega) 10).trans fed) []

theorem size_silent {n : Nat} (positive : n ≠ 0) (fitting : n ≤ noLength - 16)
    (state : c.state = .chunkSizeStart) (counted : c.nread = 0) (chunked : c.flags.chunked = true) :
    c.silent (hexadecimal n ++ crlf) =
      some { c with state := .chunkData, contentLength := n, nread := 0 } := by
  have value := hexValue_digits n
  have each : ∀ d ∈ (Nat.digits 16 n).reverse, d < 16 :=
    fun d member => Nat.digits_lt_base (by decide) (List.mem_reverse.mp member)
  have few : (Nat.digits 16 n).reverse.length ≤ 16 := by
    rw [List.length_reverse, Nat.digits_length_le_iff (by decide)]
    unfold noLength at fitting
    omega
  have some' : (Nat.digits 16 n).reverse ≠ [] := by simpa [Nat.digits_ne_nil_iff_ne_zero] using positive
  unfold hexadecimal
  generalize (Nat.digits 16 n).reverse = digits at *
  obtain ⟨d, rest, rfl⟩ := List.exists_cons_of_ne_nil some'
  rw [List.length_cons] at few
  obtain ⟨known, _⟩ := unhex_hexDigit (each d List.mem_cons_self)
  have taken : ({ c with nread := c.nread + 1, state := .chunkSizeStart } :
      HttpParser).chunkSizeStart (hexDigit d) =
        .goes { c with nread := 1, state := .chunkSize, contentLength := d } [] := by
    unfold HttpParser.chunkSizeStart
    simp only [chunked, counted, known]
    rfl
  have first : hexValue [d] = d := by simp [hexValue]
  have small : 18 ≤ httpMaxHeaderSize := by decide
  have ran := @digits_silent { c with nread := 1, state := .chunkSize, contentLength := d } rest [d] rfl
    chunked first.symm (fun other member => each other (List.mem_cons_of_mem _ member))
    (by rw [List.singleton_append, value]; exact fitting) (by simp only []; omega)
  have ended := @sizeEnd_silent { c with nread := 1 + rest.length, state := .chunkSize, contentLength := n }
    rfl chunked (by simp only []; omega)
  simp only [if_neg positive] at ended
  rw [List.map_cons, List.cons_append, HttpParser.silent_byte state rfl (by omega) taken,
    HttpParser.silent_append ran, List.singleton_append, value]
  exact ended

theorem reads_chunkData {bytes : Bytes} (state : r.parser.state = .chunkData)
    (length : r.parser.contentLength = bytes.length) (more : bytes ≠ []) (small : bytes.length < noLength)
    (chunked : r.parser.flags.chunked = true) (text : r.text = none ∨ r.text = some .body) :
    Reads r bytes ⟨{ r.parser with state := .chunkDataAlmostDone, contentLength := 0 },
      r.assembly.onData .body bytes, some .body, r.calls⟩ := by
  induction bytes generalizing r with
  | nil => exact absurd rfl more
  | cons ch bytes ih =>
    rw [List.length_cons] at length small
    have executed : r.parser.executeByte ch = r.parser.chunkData := by
      unfold HttpParser.executeByte HttpParser.switch
      rw [state]
      rfl
    have asserts : ¬(!r.parser.flags.chunked ∨ r.parser.contentLength = 0 ∨
        r.parser.contentLength = noLength) := by
      rw [chunked]
      simp
      omega
    unfold HttpParser.chunkData at executed
    rw [if_neg asserts] at executed
    have first := Reads.body text executed
    cases bytes with
    | nil =>
      have last : r.parser.contentLength - 1 = 0 := by
        rw [length]
        rfl
      simp only [last, if_true] at first
      exact first
    | cons ch' rest =>
      have goesOn : ¬r.parser.contentLength - 1 = 0 := by
        rw [length, List.length_cons]
        omega
      simp only [if_neg goesOn] at first
      have later := @ih ⟨{ r.parser with contentLength := r.parser.contentLength - 1 },
        r.assembly.onData .body [ch], some .body, r.calls⟩ state (by simp only [length, Nat.add_sub_cancel])
        (List.cons_ne_nil _ _) (by omega) chunked (Or.inr rfl)
      rw [← Assembly.onData_append] at later
      exact first.cons later

def Heading.sized (h : Heading) (contentLength : Nat) : Heading := { h with contentLength }

theorem reads_chunk {bytes : Bytes} (at' : AtChunk r) (more : bytes ≠ [])
    (fitting : bytes.length ≤ noLength - 16) :
    ∃ r', Reads r (MessageBody.chunk bytes) r' ∧ AtChunk r' ∧
      r'.parser.heading = r.parser.heading.sized 0 ∧
      r'.assembly = r.assembly.onData .body bytes ∧ r'.calls = r.calls := by
  obtain ⟨state, counted, chunked, idle⟩ := at'
  have positive : bytes.length ≠ 0 := fun zero => more (List.length_eq_zero_iff.mp zero)
  have size := Reads.idle idle (size_silent positive fitting state counted chunked)
  have data := @reads_chunkData
    ⟨{ r.parser with state := .chunkData, contentLength := bytes.length, nread := 0 }, r.assembly, none,
      r.calls⟩ bytes rfl rfl more (by unfold noLength at fitting ⊢; omega) chunked (Or.inl rfl)
  rw [idle] at size
  let c₁ : HttpParser := { r.parser with state := .chunkDataAlmostDone, contentLength := 0, nread := 0 }
  have ended : c₁.executeByte cr = .goes { c₁ with state := .chunkDataDone } [.data .body] := by
    change c₁.chunkDataAlmostDone cr = _
    unfold HttpParser.chunkDataAlmostDone
    simp [c₁, chunked]
  have fed : ({ c₁ with state := .chunkDataDone } : HttpParser).executeByte lf =
      .goes { c₁ with state := .chunkSizeStart } [] := by
    change HttpParser.chunkDataDone _ lf = _
    unfold HttpParser.chunkDataDone
    simp [c₁, chunked]
  refine ⟨⟨{ c₁ with state := .chunkSizeStart }, r.assembly.onData .body bytes, none, r.calls⟩, ?_,
    ⟨rfl, rfl, chunked, rfl⟩, ?_, rfl, rfl⟩
  · exact (size.append data).append ((Reads.ends ended).cons (Reads.quiet fed))
  · unfold HttpParser.heading Heading.sized
    simp only [c₁, counted]

theorem reads_chunks (chunks : List Bytes) (at' : AtChunk r)
    (valid : ∀ bytes ∈ chunks, bytes ≠ [] ∧ bytes.length ≤ noLength - 16) (begun : r.assembly.body = []) :
    ∃ r' contentLength, Reads r (chunks.flatMap MessageBody.chunk) r' ∧ AtChunk r' ∧
      r'.parser.heading = r.parser.heading.sized contentLength ∧
      r'.assembly = { r.assembly with body := chunks.flatten } ∧ r'.calls = r.calls := by
  suffices all : ∃ r' contentLength, Reads r (chunks.flatMap MessageBody.chunk) r' ∧ AtChunk r' ∧
      r'.parser.heading = r.parser.heading.sized contentLength ∧
      r'.assembly = { r.assembly with body := r.assembly.body ++ chunks.flatten } ∧ r'.calls = r.calls by
    rwa [begun, List.nil_append] at all
  clear begun
  induction chunks generalizing r with
  | nil =>
    refine ⟨r, r.parser.contentLength, .nil r, at', rfl, ?_, rfl⟩
    rw [List.flatten_nil, List.append_nil]
  | cons bytes chunks ih =>
    obtain ⟨more, fitting⟩ := valid bytes List.mem_cons_self
    obtain ⟨s, first, at'', heading, whole, calls⟩ := reads_chunk at' more fitting
    obtain ⟨t, n, rest, last, heading', whole', calls'⟩ := ih at'' fun other member =>
      valid other (List.mem_cons_of_mem _ member)
    refine ⟨t, n, first.append rest, last, ?_, ?_, calls'.trans calls⟩
    · rw [heading', heading]
      rfl
    · rw [whole', whole]
      simp [Assembly.onData]

theorem reads_last (at' : AtChunk r) (next : r.parser.newMessage = .startReq) :
    ∃ r', Reads r (ascii "0" ++ crlf ++ crlf) r' ∧ AtStart r' ∧
      r'.calls = r.calls ++ [.message (r.parser.httpMajor, r.parser.httpMinor)
        (r.assembly.toRequest r.parser.method)] := by
  obtain ⟨c, assembly, text, calls⟩ := r
  obtain ⟨state, counted, chunked, idle⟩ := at'
  simp only [] at state counted chunked idle next
  cases idle
  have small : 18 ≤ httpMaxHeaderSize := by decide
  have zero : ascii "0" = [48] := by decide
  have digit : ({ c with nread := c.nread + 1, state := .chunkSizeStart } : HttpParser).chunkSizeStart 48 =
      .goes { c with nread := 1, state := .chunkSize, contentLength := 0 } [] := by
    unfold HttpParser.chunkSizeStart
    simp only [chunked, counted]
    rfl
  let c₁ : HttpParser := { c with
    nread := 0, state := .headerFieldStart, contentLength := 0, flags := { c.flags with trailing := true } }
  have ended : ({ c with nread := 1, state := .chunkSize, contentLength := 0 } :
      HttpParser).silent crlf = some c₁ := sizeEnd_silent rfl chunked (by simp only []; omega)
  have size : c.silent (48 :: crlf) = some c₁ :=
    (@HttpParser.silent_byte c 48 .chunkSizeStart _ state rfl (by omega) digit crlf).trans ended
  have cr' : c₁.executeByte cr = .goes { c₁ with nread := 1, state := .headersAlmostDone } [] :=
    HttpParser.executeByte_counted rfl rfl (by simp only [c₁]; omega) cr
  have lf' : ({ c₁ with nread := 1, state := .headersAlmostDone } : HttpParser).executeByte lf =
      .goes { c₁ with nread := 2, state := c₁.newMessage } [.messageComplete] :=
    (HttpParser.executeByte_counted rfl rfl (by simp only []; omega) lf).trans rfl
  have first := @Reads.idle ⟨c, assembly, none, calls⟩ c₁ (48 :: crlf) rfl size
  have second := @Reads.byte
    ⟨{ c₁ with nread := 1, state := .headersAlmostDone }, assembly, none, calls⟩ _ lf _ lf'
  refine ⟨⟨{ c₁ with nread := 2, state := c₁.newMessage }, assembly, none, _⟩, ?_,
    ⟨next, Nat.le_refl 2, rfl⟩, rfl⟩
  rw [zero]
  exact first.append ((Reads.quiet cr').cons second)

/-! ## Request lines -/

theorem reads_method (m : ParserMethod) (start : AtStart r)
    (fits : r.parser.nread + m.string.length < httpMaxHeaderSize) :
    ∃ c : HttpParser, Reads r (m.string ++ [sp]) ⟨c, {}, none, r.calls⟩ ∧
      c.state = .reqUrl .spacesBeforeUrl ∧ c.method = m ∧ c.contentLength = noLength ∧ c.flags = {} ∧
        c.nread = r.parser.nread + m.string.length + 1 := by
  obtain ⟨c, assembly, text, calls⟩ := r
  obtain ⟨state, _, idle⟩ := start
  simp only [] at state idle fits ⊢
  cases idle
  have told := HttpParser.methodStep_string m
  have past : m.string.getD m.string.length 0 = 0 := by simp
  cases is : m.string with
  | nil =>
    rw [is] at told
    cases told
  | cons ch rest =>
    rw [is, List.length_cons] at fits told
    rw [is, List.length_cons] at past
    obtain ⟨first, begins, steps⟩ := Option.bind_eq_some_iff.mp told
    have begins : HttpParser.firstMethod ch = some first := begins
    have notEnd : ¬(ch = cr ∨ ch = lf) := by
      rintro (rfl | rfl)
      · cases (show HttpParser.firstMethod cr = none by decide).symm.trans begins
      · cases (show HttpParser.firstMethod lf = none by decide).symm.trans begins
    let c₁ : HttpParser := { c with
      nread := c.nread + 1, flags := {}, contentLength := noLength, method := first, index := 1
      state := .reqMethod }
    have taken : ({ c with nread := c.nread + 1, state := .startReq } : HttpParser).startReq ch =
        .goes c₁ [.messageBegin] := by
      unfold HttpParser.startReq
      rw [if_neg notEnd, begins]
    have begun := @Reads.byte ⟨c, assembly, none, calls⟩ _ ch _
      ((HttpParser.executeByte_counted state rfl (by omega) ch).trans taken)
    have ran := @HttpParser.method_silent c₁ rest _ rfl (by simp only [c₁]; omega) steps
    let c₂ : HttpParser := { c₁ with method := m, index := rest.length + 1, nread := c₁.nread + rest.length }
    have ended : c₂.executeByte sp = .goes { c₂ with
        nread := c₂.nread + 1, state := .reqUrl .spacesBeforeUrl, index := c₂.index + 1 } [] := by
      refine (HttpParser.executeByte_counted (s := .reqMethod) rfl rfl (by simp only [c₂, c₁]; omega) sp).trans ?_
      change HttpParser.reqMethod _ sp = _
      unfold HttpParser.reqMethod
      extract_lets matcher
      have none : matcher = 0 := by
        change m.string.getD (rest.length + 1) 0 = 0
        rw [is]
        exact past
      rw [if_neg (by decide), if_pos ⟨rfl, none⟩]
    refine ⟨{ c₂ with
      nread := c₂.nread + 1, state := .reqUrl .spacesBeforeUrl, index := c₂.index + 1 }, ?_, rfl, rfl, rfl, rfl,
      ?_⟩
    · have read := @Reads.idle ⟨c₁, {}, none, calls⟩ c₂ rest rfl ran
      exact (begun.append read).append (Reads.quiet ended)
    · simp only [c₂, c₁, List.length_cons]
      omega

theorem reads_target {url : Bytes} (idle : r.text = none) (state : r.parser.state = .reqUrl .spacesBeforeUrl)
    (method : r.parser.method ≠ .connect) (ends : (url.foldl Http.parseUrlChar .spacesBeforeUrl).ends = true)
    (fits : r.parser.nread + url.length + 11 < httpMaxHeaderSize) :
    ∃ c : HttpParser, Reads r (url ++ [sp] ++ (ascii "HTTP/1.1" ++ crlf))
        ⟨c, r.assembly.onData .url url, none, r.calls⟩ ∧
      c.state = .headerFieldStart ∧ c.heading = { (r.parser.heading.later (url.length + 11)) with
        httpMajor := 1, httpMinor := 1 } := by
  obtain ⟨c, assembly, text, calls⟩ := r
  simp only [] at state idle fits method ⊢
  cases idle
  cases url with
  | nil => cases ends
  | cons ch rest =>
    rw [List.length_cons] at fits
    rw [List.foldl_cons] at ends
    have alive : Http.parseUrlChar .spacesBeforeUrl ch ≠ .dead := by
      intro dead
      rw [dead, HttpParser.foldl_dead] at ends
      cases ends
    have alive' : rest.foldl Http.parseUrlChar (Http.parseUrlChar .spacesBeforeUrl ch) ≠ .dead := by
      intro dead
      rw [dead] at ends
      cases ends
    generalize reached : rest.foldl Http.parseUrlChar (Http.parseUrlChar .spacesBeforeUrl ch) = last at *
    let c₁ : HttpParser := { c with
      nread := c.nread + 1, state := .reqUrl (Http.parseUrlChar .spacesBeforeUrl ch) }
    have begun : c.executeByte ch = .goes c₁ [.mark .url] :=
      (HttpParser.executeByte_counted state rfl (by omega) ch).trans
        (@HttpParser.reqUrl_first { c with nread := c.nread + 1, state := .reqUrl .spacesBeforeUrl } ch method
          alive)
    have ran := @HttpParser.url_silent c₁ rest _ rfl (HttpParser.parseUrlChar_ne _ ch) (by simp only [c₁]; omega)
      (by rw [reached]; exact alive')
    rw [reached] at ran
    let c₂ : HttpParser := { c₁ with state := .reqUrl last, nread := c₁.nread + rest.length }
    have blank : c₂.executeByte sp =
        .goes { c₂ with nread := c₂.nread + 1, state := .reqHttpStart } [.data .url] := by
      refine (HttpParser.executeByte_counted (s := .reqUrl last) rfl rfl (by simp only [c₂, c₁]; omega) sp).trans ?_
      have here : ({ c₂ with nread := c₂.nread + 1, state := .reqUrl last } : HttpParser).switch sp =
          ({ c₂ with nread := c₂.nread + 1, state := .reqUrl last } : HttpParser).reqUrl last sp := by
        cases last with
        | dead => exact absurd rfl alive'
        | _ => rfl
      exact here.trans (HttpParser.reqUrl_end ends)
    have version := @HttpParser.version_silent { c₂ with nread := c₂.nread + 1, state := .reqHttpStart } rfl
      (by simp only [c₂, c₁]; omega)
    refine ⟨_, ((Reads.text rfl begun ran).append (Reads.ends blank)).append (Reads.idle rfl version), rfl, ?_⟩
    simp only [HttpParser.heading, Heading.later, c₂, c₁, List.length_cons, Heading.mk.injEq, true_and]
    omega

theorem reads_requestLine {m : Message} (valid : m.Valid) (start : AtStart r)
    (fits : r.parser.nread + m.method.string.length + m.url.length + 12 < httpMaxHeaderSize) :
    ∃ r', Reads r (m.method.string ++ [sp] ++ m.url ++ [sp] ++ (ascii "HTTP/1.1" ++ crlf)) r' ∧
      AtField r'.parser (.plain m.method noLength false false
        (r.parser.nread + m.method.string.length + m.url.length + 13)) ∧
      Assembled r'.assembly m.url [] ∧ r'.text = none ∧ r'.calls = r.calls := by
  obtain ⟨c, first, state, method, length, flags, counted⟩ := reads_method m.method start (by omega)
  obtain ⟨d, second, state', heading⟩ := @reads_target ⟨c, {}, none, r.calls⟩ m.url rfl state
    (by rw [method]; exact valid.method) valid.url (by simp only [counted]; omega)
  refine ⟨⟨d, ({} : Assembly).onData .url m.url, none, r.calls⟩, ?_, ?_, ?_, rfl, rfl⟩
  · have read := first.append second
    simpa only [List.append_assoc] using read
  · have field := atField_start state' (by
      have so : d.nread = c.nread + (m.url.length + 11) := congrArg Heading.nread heading
      omega)
    rw [heading] at field
    simp only [HttpParser.heading, Heading.later, method, length, flags, counted] at field
    unfold Heading.plain
    convert field using 2
    omega
  · exact ⟨rfl, rfl, rfl, Iff.rfl, rfl⟩

/-! ## Requests -/

theorem toRequest_eq {a : Assembly} {m : Message} (rawUrl : a.rawUrl = m.url)
    (headers : a.headers = m.allHeaders) (body : a.body = m.body.bytes) :
    a.toRequest m.method = m.toRequest := by
  unfold Assembly.toRequest Message.toRequest
  rw [rawUrl, headers, body]

theorem reads_body {m : Message} {a : Assembly} {d e : HttpParser} {calls : List Callback} {alive : Bool}
    {n : Nat} (valid : m.Valid) (assembled : Assembled a m.url m.allHeaders)
    (heading : d.heading = (Heading.plain m.method noLength alive false n).framed m.body)
    (reads : ∀ c actions, d.headersAlmostDone lf = .goes c actions →
      Reads r crlf ((Reader.actions c lf ⟨e, a, none, calls⟩ actions).advance lf)) :
    ∃ r', Reads r (crlf ++ m.body.written) r' ∧ AtStart r' ∧ r'.calls = calls ++ m.calls := by
  obtain ⟨rawUrl, begun, headers⟩ := assembled.complete
  have goesOn {c : HttpParser} (taken : d.headersAlmostDone lf = .goes c [.headersComplete]) :
      Reads r crlf ⟨c, a.onHeadersComplete, none, calls ++ [.header (c.httpMajor, c.httpMinor) m.allHeaders]⟩ := by
    rw [← headers]
    exact reads c _ taken
  -- A request without a body is complete behind its head.
  have bare {length : Nat} (nothing : m.body.bytes = []) (written : m.body.written = [])
      (plain : d.heading = .plain m.method length alive false n) (none : length = 0 ∨ length = noLength) :
      ∃ r', Reads r (crlf ++ m.body.written) r' ∧ AtStart r' ∧ r'.calls = calls ++ m.calls := by
    have taken := headersAlmostDone_plain valid.method plain
    rw [if_neg Bool.false_ne_true, if_pos none] at taken
    rw [written, List.append_nil]
    refine ⟨_, reads _ _ taken, ⟨rfl, Nat.zero_le 2, rfl⟩, ?_⟩
    have method : d.method = m.method := congrArg Heading.method plain
    have major : d.httpMajor = 1 := congrArg Heading.httpMajor plain
    have minor : d.httpMinor = 1 := congrArg Heading.httpMinor plain
    change calls ++ [.header (d.httpMajor, d.httpMinor) a.onHeadersComplete.headers] ++
      [.message (d.httpMajor, d.httpMinor) (a.onHeadersComplete.toRequest d.method)] = _
    rw [headers, method, major, minor, toRequest_eq rawUrl headers (begun.trans nothing.symm),
      List.append_assoc]
    rfl
  have valid' := valid.body
  cases body : m.body with
  | none =>
    rw [body] at heading bare
    exact bare rfl rfl heading (Or.inr rfl)
  | whole bytes =>
    rw [body] at heading bare valid'
    have plain : d.heading = .plain m.method bytes.length alive false n := heading
    rcases eq_or_ne bytes [] with rfl | some
    · exact bare rfl rfl plain (Or.inl rfl)
    have positive : bytes.length ≠ 0 := fun zero => some (List.length_eq_zero_iff.mp zero)
    have small : bytes.length < noLength := by
      have fitting : bytes.length ≤ noLength - 10 := valid'
      unfold noLength at fitting ⊢
      omega
    have taken := headersAlmostDone_plain valid.method plain
    rw [if_neg Bool.false_ne_true, if_neg (by omega)] at taken
    have method : d.method = m.method := congrArg Heading.method plain
    have major : d.httpMajor = 1 := congrArg Heading.httpMajor plain
    have minor : d.httpMinor = 1 := congrArg Heading.httpMinor plain
    have flags : d.flags = { connectionKeepAlive := alive } := congrArg Heading.flags plain
    have length : d.contentLength = bytes.length := congrArg Heading.contentLength plain
    have first := goesOn taken
    obtain ⟨r', read, start, calls'⟩ := @reads_whole
      ⟨{ d with upgrade := false, nread := 0, state := .bodyIdentity }, a.onHeadersComplete, none,
        calls ++ [.header (d.httpMajor, d.httpMinor) m.allHeaders]⟩ bytes some rfl length small
      (by simp [HttpParser.newMessage, HttpParser.shouldKeepAlive, major, minor, flags]) (Nat.zero_le 2)
      (Or.inl rfl)
    refine ⟨r', first.append read, start, ?_⟩
    rw [calls']
    have request := @toRequest_eq { a.onHeadersComplete with body := bytes } m rawUrl headers (by rw [body]; rfl)
    simp only [method, major, minor, begun, List.nil_append]
    rw [request, List.append_assoc]
    rfl
  | chunked chunks =>
    rw [body] at heading valid'
    have plain : d.heading = .plain m.method noLength alive true n := heading
    have taken := headersAlmostDone_plain valid.method plain
    rw [if_pos rfl] at taken
    have flags : d.flags = { connectionKeepAlive := alive, chunked := true } := congrArg Heading.flags plain
    obtain ⟨s, length, read, at', heading', whole, calls'⟩ := @reads_chunks
      ⟨{ d with upgrade := false, nread := 0, state := .chunkSizeStart }, a.onHeadersComplete, none,
        calls ++ [.header (d.httpMajor, d.httpMinor) m.allHeaders]⟩ chunks
      ⟨rfl, rfl, by simp [flags], rfl⟩ valid' begun
    have method : s.parser.method = m.method :=
      (congrArg Heading.method heading').trans (congrArg Heading.method plain)
    have major : s.parser.httpMajor = 1 :=
      (congrArg Heading.httpMajor heading').trans (congrArg Heading.httpMajor plain)
    have minor : s.parser.httpMinor = 1 :=
      (congrArg Heading.httpMinor heading').trans (congrArg Heading.httpMinor plain)
    have flags' : s.parser.flags = d.flags := congrArg Heading.flags heading'
    obtain ⟨r', last, start, calls''⟩ := reads_last at' (by
      simp [HttpParser.newMessage, HttpParser.shouldKeepAlive, major, minor, flags', flags])
    refine ⟨r', ?_, start, ?_⟩
    · have all := (goesOn taken).append (read.append last)
      unfold MessageBody.written
      simpa only [List.append_assoc] using all
    · have major' : d.httpMajor = 1 := congrArg Heading.httpMajor plain
      have minor' : d.httpMinor = 1 := congrArg Heading.httpMinor plain
      have request := @toRequest_eq { a.onHeadersComplete with body := chunks.flatten } m rawUrl headers
        (by rw [body]; rfl)
      rw [calls'', calls', whole, major, minor, method]
      simp only [major', minor', List.append_assoc]
      rw [request]
      rfl

theorem reads_message {m : Message} (valid : m.Valid) (start : AtStart r) :
    ∃ r', Reads r m.written r' ∧ AtStart r' ∧ r'.calls = r.calls ++ m.calls := by
  have small := start.counted
  have fits := valid.fits
  have eight : (ascii "HTTP/1.1").length = 8 := by decide
  have two : crlf.length = 2 := rfl
  have length : m.head.length = m.method.string.length + m.url.length + 14 +
      (m.headers.flatMap Message.line).length + (m.body.headers.flatMap Message.line).length := by
    unfold Message.head Message.allHeaders
    rw [List.flatMap_append]
    simp only [List.length_append, eight, two, List.length_singleton]
    omega
  obtain ⟨r₁, first, field, assembled, idle, calls⟩ := reads_requestLine valid start (by omega)
  obtain ⟨r₂, alive, second, field, assembled, idle, calls₂⟩ :=
    reads_plains m.headers valid.headers field assembled idle (by
      change r.parser.nread + _ + _ + 13 + _ ≤ _
      omega)
  obtain ⟨r₃, third, field, assembled, idle, calls₃⟩ := reads_framing valid.body field assembled idle (by
    change r.parser.nread + _ + _ + 13 + _ + _ ≤ _
    omega)
  let h : Heading := ((Heading.plain m.method noLength false false
    (r.parser.nread + m.method.string.length + m.url.length + 13)).later
      (m.headers.flatMap Message.line).length).alive alive
  have counted : ((h.framed m.body).later (m.body.headers.flatMap Message.line).length).nread =
      r.parser.nread + m.method.string.length + m.url.length + 13 + (m.headers.flatMap Message.line).length +
        (m.body.headers.flatMap Message.line).length := by
    cases m.body <;> rfl
  obtain ⟨d, e, heading, reads⟩ := reads_empty field idle (by rw [counted]; omega)
  have heading : d.heading = (Heading.plain m.method noLength alive false
      (r.parser.nread + m.method.string.length + m.url.length + 13 + (m.headers.flatMap Message.line).length +
        (m.body.headers.flatMap Message.line).length + 1)).framed m.body := by
    rw [heading]
    cases m.body <;> rfl
  obtain ⟨r₄, fourth, start', calls₄⟩ := reads_body valid assembled heading reads
  refine ⟨r₄, ?_, start', ?_⟩
  · have all := ((first.append second).append third).append fourth
    unfold Message.written Message.head Message.allHeaders
    rw [List.flatMap_append]
    simpa only [List.append_assoc] using all
  · rw [calls₄, calls₃, calls₂, calls]

theorem reads_messages (ms : List Message) (valid : ∀ m ∈ ms, m.Valid) (start : AtStart r) :
    ∃ r', Reads r (ms.flatMap Message.written) r' ∧ AtStart r' ∧
      r'.calls = r.calls ++ ms.flatMap Message.calls := by
  induction ms generalizing r with
  | nil => exact ⟨r, .nil r, start, by simp⟩
  | cons m ms ih =>
    obtain ⟨s, first, start', calls⟩ := reads_message (valid m List.mem_cons_self) start
    obtain ⟨t, rest, start'', calls'⟩ := ih (fun other member => valid other (List.mem_cons_of_mem _ member)) start'
    refine ⟨t, ?_, start'', ?_⟩
    · rw [List.flatMap_cons]
      exact first.append rest
    · rw [calls', calls, List.flatMap_cons, List.append_assoc]

end

theorem HTTPParser.feedAll_append (p : HTTPParser) (a b : List Bytes) :
    p.feedAll (a ++ b) = (p.feedAll a).bind fun (q, calls, ok) =>
      if ok then (q.feedAll b).map fun (r, later, ok) => (r, calls ++ later, ok)
      else some (q, calls, false) := by
  induction a generalizing p with
  | nil =>
    simp only [List.nil_append, feedAll, Option.bind_some, if_true]
    exact Option.map_id'.symm
  | cons data a ih =>
    rw [List.cons_append, feedAll, feedAll]
    cases p.feed data with
    | none => rfl
    | some fed =>
      obtain ⟨q, calls, ok⟩ := fed
      cases ok with
      | false => rfl
      | true =>
        simp only [Option.bind_some, if_true, ih]
        cases q.feedAll a with
        | none => rfl
        | some fed =>
          obtain ⟨r, later, ok⟩ := fed
          cases ok with
          | false => rfl
          | true =>
            simp only [Option.bind_some, Option.map_some, if_true]
            cases r.feedAll b with
            | none => rfl
            | some fed => simp [List.append_assoc]

theorem feedAll_whole {ms : List Message} {buffers : List Bytes} (valid : ∀ m ∈ ms, m.Valid)
    (each : ∀ data ∈ buffers, data ≠ []) (whole : buffers.flatten = ms.flatMap Message.written) :
    ∃ q, ({} : HTTPParser).feedAll buffers = some (q, ms.flatMap Message.calls, true) ∧
      q.httpErrno = none ∧ q.parser.state = .startReq := by
  obtain ⟨r, read, start, calls⟩ := @reads_messages ⟨{}, {}, none, []⟩ ms valid ⟨rfl, Nat.zero_le 2, rfl⟩
  obtain ⟨r', n, ending, q, calls', ok, ran, fed, agrees⟩ :=
    HTTPParser.feedAll_run buffers between_initial HTTPParser.sound_initial each
  rw [whole] at ran agrees
  have same := read 0
  rw [Nat.zero_add] at same
  cases ran.symm.trans same
  obtain ⟨rfl, rfl, rfl⟩ := agrees.all (decide_eq_true rfl)
  exact ⟨_, by rw [fed, calls, List.nil_append], rfl, start.state⟩

/-- Before the last byte of a stream the first of its requests were called back. -/
theorem feedAll_front {ms : List Message} {buffers : List Bytes} (valid : ∀ m ∈ ms, m.Valid)
    (each : ∀ data ∈ buffers, data ≠ []) (front : buffers.flatten <+: ms.flatMap Message.written) :
    ∃ q calls, ({} : HTTPParser).feedAll buffers = some (q, calls, true) ∧
      calls <+: ms.flatMap Message.calls := by
  obtain ⟨rest, whole⟩ := front
  cases rest with
  | nil =>
    rw [List.append_nil] at whole
    obtain ⟨q, fed, _⟩ := feedAll_whole valid each whole
    exact ⟨q, _, fed, List.prefix_refl _⟩
  | cons ch rest =>
    obtain ⟨q, fed, _⟩ := @feedAll_whole ms (buffers ++ [ch :: rest]) valid
      (fun data member => (List.mem_append.mp member).elim (each data) fun last => by
        rw [List.mem_singleton.mp last]
        exact List.cons_ne_nil ch rest)
      (by rw [List.flatten_append, List.flatten_singleton, whole])
    rw [HTTPParser.feedAll_append] at fed
    obtain ⟨⟨q', calls, ok⟩, fed', later⟩ := Option.bind_eq_some_iff.mp fed
    cases ok with
    | false => cases later
    | true =>
      obtain ⟨⟨q'', last, ok⟩, _, same⟩ := Option.map_eq_some_iff.mp later
      obtain ⟨_, all, _⟩ : q'' = q ∧ calls ++ last = ms.flatMap Message.calls ∧ ok = true := by
        simpa using same
      exact ⟨q', calls, fed', last, all⟩

def posting : Message :=
  ⟨.post, ascii "/a", [(ascii "Host", ascii "h"), (ascii "Connection", ascii "keep-alive")],
    .chunked [ascii "hello, ", ascii "world"]⟩

def asking : Message := ⟨.get, ascii "/b", [(ascii "Host", ascii "h")], .none⟩

def posted : List Message := [posting, asking]

theorem posted_valid : ∀ m ∈ posted, m.Valid := by decide +kernel

end Pinocchio.Crow
