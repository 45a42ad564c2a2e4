import Pinocchio.Crow.HttpParser
import Mathlib.Tactic.SplitIfs

/-! How a stream of requests is cut into buffers does not matter.

A reader that hands on each byte at once has no marks, and it reads a stream as it reads its parts one
after the other. The parser calls back what that reader does.
-/

set_option autoImplicit false

namespace Pinocchio.Crow
open Semantics

/-! ## The marks -/

/-- The text whose mark is set, and whether it is known to be. -/
def track : Option DataCallback × Bool → ParserAction → Option (Option DataCallback × Bool)
  | (text, _), .mark other =>
    if text = none ∨ text = some other then some (some other, true) else none
  | (text, sure), .data other =>
    if text = some other ∧ (sure ∨ other = .body) then some (none, true) else none
  | (text, sure), .dataThrough other =>
    if text = some other ∧ sure then some (none, true) else none
  | (text, _), _ => if text = none then some (none, true) else none

/-- The text that goes on between two bytes in a state. -/
def Goes (text : Option DataCallback) : ParserState → Prop
  | .headerField => text = some .headerField
  | .headerValue => text = some .headerValue
  | .reqUrl .spacesBeforeUrl => text = none
  | .reqUrl _ => text = some .url
  | .chunkDataAlmostDone => text = some .body
  | .chunkData | .bodyIdentity => text = none ∨ text = some .body
  | _ => text = none

/-- No mark is set but that of the text that goes on. -/
def Marked (text : Option DataCallback) (s : Feeding) : Prop :=
  ∀ other, (s.marks other).isSome = true → text = some other

theorem Marked.single {text : Option DataCallback} {s : Feeding} (marked : Marked text s) :
    s.marked ≤ 1 := by
  have fewer : s.marked ≤
      [DataCallback.headerField, .headerValue, .url, .body].countP fun other => text = some other :=
    List.countP_mono_left fun other _ set => by simpa using marked other set
  refine fewer.trans ?_
  cases text with
  | none => decide
  | some text => cases text <;> decide

/-- In a new buffer the mark of a body is not set. -/
def surely (text : Option DataCallback) : Bool := text ≠ some .body

/-- What is done with the marks fits the states. -/
def Outcome.Tracks (text : Option DataCallback) : Outcome → Prop
  | .goes c actions => ∃ text', actions.foldlM track (text, surely text) = some (text', true) ∧ Goes text' c.state
  | .exits _ actions => actions.foldlM track (text, surely text) = some (none, true)
  | .fails _ actions => (actions.foldlM track (text, surely text)).isSome = true
  | .aborts => True

theorem Outcome.Tracks.after {outcome : Outcome} {text : Option DataCallback}
    {before : List ParserAction} (tracks : outcome.Tracks none)
    (first : before.foldlM track (text, surely text) = some (none, true)) :
    (outcome.after before).Tracks text := by
  cases outcome with
  | goes c actions =>
    obtain ⟨text', all, goes⟩ := tracks
    exact ⟨text', by rw [List.foldlM_append, first]; exact all, goes⟩
  | exits c actions =>
    change (before ++ actions).foldlM track (text, surely text) = some (none, true)
    rw [List.foldlM_append, first]
    exact tracks
  | fails errno actions =>
    change ((before ++ actions).foldlM track (text, surely text)).isSome = true
    rw [List.foldlM_append, first]
    exact tracks
  | aborts => trivial

namespace HttpParser
variable {c : HttpParser} {ch : UInt8}

theorem newMessage_goes (c : HttpParser) : Goes none c.newMessage := by
  unfold newMessage
  split <;> rfl

theorem tracks_quiet {state : ParserState} (same : c.state = state) (goes : Goes none state) :
    (Outcome.goes c []).Tracks none :=
  ⟨none, rfl, same ▸ goes⟩

theorem startReq_tracks (state : c.state = .startReq) : (c.startReq ch).Tracks none := by
  unfold startReq
  split
  · exact tracks_quiet state rfl
  · split
    · rfl
    · exact ⟨none, rfl, rfl⟩

theorem reqMethod_tracks (state : c.state = .reqMethod) : (c.reqMethod ch).Tracks none := by
  unfold reqMethod
  extract_lets matcher
  split
  · rfl
  split
  · exact ⟨none, rfl, rfl⟩
  split
  · exact tracks_quiet state rfl
  split
  · exact tracks_quiet state rfl
  · rfl

theorem parseUrlChar_ne (url : Http.UrlState) (ch : UInt8) :
    Http.parseUrlChar url ch ≠ .spacesBeforeUrl := by
  unfold Http.parseUrlChar Http.serverChar
  repeat' split
  all_goals exact fun no => by cases no

theorem goes_url {url : Http.UrlState} (begun : url ≠ .spacesBeforeUrl) :
    Goes (some .url) (.reqUrl url) := by
  cases url with
  | spacesBeforeUrl => exact absurd rfl begun
  | _ => rfl

theorem urlChar_tracks {url : Http.UrlState} {text : Option DataCallback} {actions : List ParserAction}
    (tracks : actions.foldlM track (text, surely text) = some (some .url, true)) :
    (c.urlChar url ch actions).Tracks text := by
  unfold urlChar
  extract_lets url'
  split
  · rfl
  · exact ⟨some .url, tracks, goes_url (parseUrlChar_ne url ch)⟩

theorem reqUrl_tracks {url : Http.UrlState} {text : Option DataCallback}
    (state : c.state = .reqUrl url) (goes : Goes text (.reqUrl url)) :
    (c.reqUrl url ch).Tracks text := by
  cases url with
  | spacesBeforeUrl =>
    cases goes
    unfold reqUrl
    simp only []
    split
    · exact tracks_quiet state rfl
    · exact urlChar_tracks rfl
  | schema | schemaSlash | schemaSlashSlash | serverStart =>
    cases goes
    unfold reqUrl
    simp only []
    split
    · rfl
    · exact urlChar_tracks rfl
  | _ =>
    cases goes
    unfold reqUrl
    simp only []
    split
    · exact ⟨none, rfl, rfl⟩
    split
    · refine ⟨none, rfl, ?_⟩
      simp only []
      split <;> rfl
    · exact urlChar_tracks rfl

theorem constant_tracks {next : ParserState} {expected : UInt8} (goes : Goes none next) :
    (c.constant ch expected next).Tracks none := by
  unfold constant
  split
  · exact ⟨none, rfl, goes⟩
  · rfl

theorem version_tracks :
    (c.state = .reqHttpStart → (c.reqHttpStart ch).Tracks none) ∧
      (c.reqFirstHttpMajor ch).Tracks none ∧
      (c.state = .reqHttpMajor → (c.reqHttpMajor ch).Tracks none) ∧
      (c.reqFirstHttpMinor ch).Tracks none ∧
      (c.state = .reqHttpMinor → (c.reqHttpMinor ch).Tracks none) ∧
      (c.reqLineAlmostDone ch).Tracks none := by
  refine ⟨fun state => ?_, ?_, fun state => ?_, ?_, fun state => ?_, ?_⟩
  · unfold reqHttpStart
    split
    · exact ⟨none, rfl, rfl⟩
    split
    · exact tracks_quiet state rfl
    · rfl
  · unfold reqFirstHttpMajor
    split
    · rfl
    · exact ⟨none, rfl, rfl⟩
  · unfold reqHttpMajor
    split
    · exact ⟨none, rfl, rfl⟩
    split
    · rfl
    extract_lets httpMajor
    split
    · rfl
    · exact tracks_quiet state rfl
  · unfold reqFirstHttpMinor
    split
    · rfl
    · exact ⟨none, rfl, rfl⟩
  · unfold reqHttpMinor
    split
    · exact ⟨none, rfl, rfl⟩
    split
    · exact ⟨none, rfl, rfl⟩
    split
    · rfl
    extract_lets httpMinor
    split
    · rfl
    · exact tracks_quiet state rfl
  · unfold reqLineAlmostDone
    split
    · rfl
    · exact ⟨none, rfl, rfl⟩

theorem headersDone_tracks : (c.headersDone ch).Tracks none := by
  unfold headersDone
  split
  · rfl
  extract_lets d complete
  split
  · rfl
  split
  · exact ⟨none, rfl, rfl⟩
  split
  · exact ⟨none, rfl, newMessage_goes d⟩
  split
  · exact ⟨none, rfl, Or.inl rfl⟩
  · exact ⟨none, rfl, newMessage_goes d⟩

theorem headersAlmostDone_tracks : (c.headersAlmostDone ch).Tracks none := by
  unfold headersAlmostDone
  split
  · rfl
  split
  · exact ⟨none, rfl, newMessage_goes c⟩
  · exact headersDone_tracks.after rfl

theorem headerFieldStart_tracks : (c.headerFieldStart ch).Tracks none := by
  unfold headerFieldStart
  split
  · exact ⟨none, rfl, rfl⟩
  split
  · exact headersAlmostDone_tracks
  extract_lets t headerState
  split
  · rfl
  · exact ⟨some .headerField, rfl, rfl⟩

theorem headerField_tracks (state : c.state = .headerField) :
    (c.headerField ch).Tracks (some .headerField) := by
  have stays (c' : HttpParser) (same : c'.state = .headerField) :
      (Outcome.goes c' []).Tracks (some .headerField) :=
    ⟨some .headerField, rfl, by rw [same]; rfl⟩
  unfold headerField
  extract_lets t
  split
  · split
    all_goals first | exact stays _ state | trivial | (split <;> exact stays _ state)
  split
  · exact ⟨none, rfl, rfl⟩
  split
  · exact ⟨none, rfl, rfl⟩
  split
  · exact ⟨none, rfl, rfl⟩
  · rfl

theorem headerValueStart_tracks : (c.headerValueStart ch).Tracks none := by
  have marks (c' : HttpParser) (same : c'.state = .headerValue) :
      (Outcome.goes c' [.mark .headerValue]).Tracks none :=
    ⟨some .headerValue, rfl, by rw [same]; rfl⟩
  unfold headerValueStart
  extract_lets d l marked
  split
  · exact marks _ rfl
  · exact marks _ rfl
  · split
    · rfl
    · exact marks _ rfl
  · exact marks _ rfl
  · exact marks _ rfl

theorem headerValueDiscardWs_tracks (state : c.state = .headerValueDiscardWs) :
    (c.headerValueDiscardWs ch).Tracks none := by
  unfold headerValueDiscardWs
  split
  · exact tracks_quiet state rfl
  split
  · exact ⟨none, rfl, rfl⟩
  split
  · exact ⟨none, rfl, rfl⟩
  · exact headerValueStart_tracks

theorem headerAlmostDone_tracks : (c.headerAlmostDone ch).Tracks none := by
  unfold headerAlmostDone
  split
  · rfl
  · exact ⟨none, rfl, rfl⟩

theorem headerValue_tracks (state : c.state = .headerValue) :
    (c.headerValue ch).Tracks (some .headerValue) := by
  have stays (c' : HttpParser) (same : c'.state = .headerValue) :
      (Outcome.goes c' []).Tracks (some .headerValue) :=
    ⟨some .headerValue, rfl, by rw [same]; rfl⟩
  unfold headerValue
  split
  · exact ⟨none, rfl, rfl⟩
  split
  · exact headerAlmostDone_tracks.after rfl
  split
  · exact stays _ state
  · trivial
  · trivial
  · split
    · exact stays _ state
    split
    · rfl
    split
    · rfl
    · exact stays _ state
  all_goals first | exact stays _ state | (split <;> exact stays _ state)

theorem headerValueLws_tracks : (c.headerValueLws ch).Tracks none := by
  unfold headerValueLws
  split
  · exact headerValueStart_tracks
  · exact headerFieldStart_tracks

theorem headerValueDiscardLws_tracks : (c.headerValueDiscardLws ch).Tracks none := by
  unfold headerValueDiscardLws
  split
  · exact ⟨none, rfl, rfl⟩
  · exact headerFieldStart_tracks.after rfl

theorem messageDone_tracks : c.messageDone.Tracks none := ⟨none, rfl, newMessage_goes c⟩

theorem bodyIdentity_tracks {text : Option DataCallback} (state : c.state = .bodyIdentity)
    (goes : text = none ∨ text = some .body) : c.bodyIdentity.Tracks text := by
  unfold bodyIdentity
  split
  · trivial
  extract_lets d
  split
  · rcases goes with rfl | rfl <;> exact messageDone_tracks.after rfl
  · have stays : Goes (some .body) d.state := by
      rw [show d.state = .bodyIdentity from state]
      exact Or.inr rfl
    rcases goes with rfl | rfl <;> exact ⟨some .body, rfl, stays⟩

theorem chunkSize_tracks :
    (c.chunkSizeStart ch).Tracks none ∧ (c.state = .chunkSize → (c.chunkSize ch).Tracks none) ∧
      (c.state = .chunkParameters → (c.chunkParameters ch).Tracks none) ∧
      (c.chunkSizeAlmostDone ch).Tracks none := by
  refine ⟨?_, fun state => ?_, fun state => ?_, ?_⟩
  · unfold chunkSizeStart
    split
    · trivial
    split
    · rfl
    · exact ⟨none, rfl, rfl⟩
  · unfold chunkSize
    split
    · trivial
    split
    · exact ⟨none, rfl, rfl⟩
    split
    · split
      · exact ⟨none, rfl, rfl⟩
      · rfl
    · split
      · rfl
      · exact tracks_quiet state rfl
  · unfold chunkParameters
    split
    · trivial
    split
    · exact ⟨none, rfl, rfl⟩
    · exact tracks_quiet state rfl
  · unfold chunkSizeAlmostDone
    split
    · trivial
    split
    · rfl
    extract_lets d
    split
    · exact ⟨none, rfl, rfl⟩
    · exact ⟨none, rfl, Or.inl rfl⟩

theorem chunkData_tracks {text : Option DataCallback} (state : c.state = .chunkData)
    (goes : text = none ∨ text = some .body) : c.chunkData.Tracks text := by
  unfold chunkData
  split
  · trivial
  extract_lets contentLength next
  have stays : Goes (some .body) next := by
    rcases eq_or_ne contentLength 0 with zero | more
    · rw [show next = .chunkDataAlmostDone from if_pos zero]
      rfl
    · rw [show next = .chunkData from (if_neg more).trans state]
      exact Or.inr rfl
  rcases goes with rfl | rfl <;> exact ⟨some .body, rfl, stays⟩

theorem chunkDataAlmostDone_tracks : (c.chunkDataAlmostDone ch).Tracks (some .body) := by
  unfold chunkDataAlmostDone
  split
  · trivial
  split
  · rfl
  · exact ⟨none, rfl, rfl⟩

theorem chunkDataDone_tracks : (c.chunkDataDone ch).Tracks none := by
  unfold chunkDataDone
  split
  · trivial
  split
  · rfl
  · exact ⟨none, rfl, rfl⟩

theorem switch_tracks {text : Option DataCallback} (goes : Goes text c.state) :
    (c.switch ch).Tracks text := by
  obtain ⟨start, firstMajor, major, firstMinor, minor, line⟩ := @version_tracks c ch
  obtain ⟨sizeStart, size, parameters, sizeAlmostDone⟩ := @chunkSize_tracks c ch
  unfold switch
  generalize state : c.state = at' at goes ⊢
  cases at' with
  | dead =>
    cases goes
    simp only []
    split
    · exact tracks_quiet state rfl
    · rfl
  | reqUrl url =>
    cases url with
    | dead => trivial
    | _ => exact reqUrl_tracks state goes
  | chunkData => exact chunkData_tracks state goes
  | bodyIdentity => exact bodyIdentity_tracks state goes
  | startReq => cases goes; exact startReq_tracks state
  | reqMethod => cases goes; exact reqMethod_tracks state
  | reqHttpStart => cases goes; exact start state
  | reqHttpH | reqHttpHT | reqHttpHTT | reqHttpHTTP | headerValueDiscardWsAlmostDone => cases goes; exact constant_tracks rfl
  | reqFirstHttpMajor => cases goes; exact firstMajor
  | reqHttpMajor => cases goes; exact major state
  | reqFirstHttpMinor => cases goes; exact firstMinor
  | reqHttpMinor => cases goes; exact minor state
  | reqLineAlmostDone => cases goes; exact line
  | headerFieldStart => cases goes; exact headerFieldStart_tracks
  | headerField => cases goes; exact headerField_tracks state
  | headerValueDiscardWs => cases goes; exact headerValueDiscardWs_tracks state
  | headerValueDiscardLws => cases goes; exact headerValueDiscardLws_tracks
  | headerValueStart => cases goes; exact headerValueStart_tracks
  | headerValue => cases goes; exact headerValue_tracks state
  | headerValueLws => cases goes; exact headerValueLws_tracks
  | headerAlmostDone => cases goes; exact headerAlmostDone_tracks
  | chunkSizeStart => cases goes; exact sizeStart
  | chunkSize => cases goes; exact size state
  | chunkParameters => cases goes; exact parameters state
  | chunkSizeAlmostDone => cases goes; exact sizeAlmostDone
  | headersAlmostDone => cases goes; exact headersAlmostDone_tracks
  | headersDone => cases goes; exact headersDone_tracks
  | chunkDataAlmostDone => cases goes; exact chunkDataAlmostDone_tracks
  | chunkDataDone => cases goes; exact chunkDataDone_tracks
  | messageDone => cases goes; exact messageDone_tracks

theorem executeByte_tracks {text : Option DataCallback} (goes : Goes text c.state) :
    (c.executeByte ch).Tracks text := by
  unfold executeByte
  split
  · extract_lets d
    split
    · rfl
    · exact switch_tracks goes
  · exact switch_tracks goes

end HttpParser

/-! ## A reader that hands on each byte -/

structure Reader where
  parser : HttpParser
  assembly : Assembly
  text : Option DataCallback
  calls : List Callback

/-- How a reading ends: it may go on, or it stopped behind a byte or before it. -/
inductive Ending where
  | more
  | exited
  | failed (errno : HttpErrno)
  deriving DecidableEq

namespace Reader

def perform (c : HttpParser) (ch : UInt8) (r : Reader) : ParserAction → Reader
  | .mark text =>
    if r.text = some text then r
    else { r with text := some text, assembly := r.assembly.onData text [] }
  | .data _ => { r with text := none }
  | .dataThrough text => { r with text := none, assembly := r.assembly.onData text [ch] }
  | .messageBegin => { r with assembly := {} }
  | .headersComplete =>
    let assembly := r.assembly.onHeadersComplete
    { r with assembly, calls := r.calls ++ [.header (c.httpMajor, c.httpMinor) assembly.headers] }
  | .messageComplete =>
    { r with calls := r.calls ++
        [.message (c.httpMajor, c.httpMinor) (r.assembly.toRequest c.method)] }

def actions (c : HttpParser) (ch : UInt8) (r : Reader) (actions : List ParserAction) : Reader :=
  { actions.foldl (perform c ch) r with parser := c }

def advance (r : Reader) (ch : UInt8) : Reader :=
  match r.text with
  | none => r
  | some text => { r with assembly := r.assembly.onData text [ch] }

def run (r : Reader) (nparsed : Nat) : Bytes → Option (Reader × Nat × Ending)
  | [] => some (r, nparsed, .more)
  | ch :: data =>
    match r.parser.executeByte ch with
    | .goes c actions => run ((r.actions c ch actions).advance ch) (nparsed + 1) data
    | .exits c actions => some (r.actions c ch actions, nparsed + 1, .exited)
    | .fails errno actions => some (r.actions r.parser ch actions, nparsed, .failed errno)
    | .aborts => none

theorem run_append (r : Reader) (n : Nat) (a b : Bytes) :
    r.run n (a ++ b) = (r.run n a).bind fun (s, m, ending) =>
      if ending = .more then s.run m b else some (s, m, ending) := by
  induction a generalizing r n with
  | nil => rfl
  | cons ch a ih =>
    rw [List.cons_append, run, run]
    cases r.parser.executeByte ch with
    | goes c actions => exact ih _ _
    | exits c actions => rfl
    | fails errno actions => rfl
    | aborts => rfl

end Reader

theorem Assembly.onData_append (a : Assembly) (text : DataCallback) (x y : Bytes) :
    a.onData text (x ++ y) = (a.onData text x).onData text y := by
  cases text with
  | url => simp [onData]
  | headerField => cases a with | mk rawUrl building => cases building <;> simp [onData, onHeaderField]
  | headerValue => cases a with | mk rawUrl building => cases building <;> simp [onData, onHeaderValue]
  | body => simp [onData]

/-! ## The buffer against the reader -/

/-- The marks where one is set at most. -/
def marksOf : Option (DataCallback × Bytes) → DataCallback → Option Bytes
  | none => fun _ => none
  | some (text, part) => Function.update (fun _ => none) text (some part)

def handedOn (a : Assembly) : Option (DataCallback × Bytes) → Assembly
  | none => a
  | some (text, part) => a.onData text part

def Begun (r : Reader) : Prop := ∀ text, r.text = some text → r.assembly.onData text [] = r.assembly

/-- The buffer is behind the reader by what its mark has not handed on yet. -/
def Behind (sure : Bool) (s : Feeding) (r : Reader) : Prop :=
  s.calls = r.calls ∧ Begun r ∧ ∃ m, s.marks = marksOf m ∧ handedOn s.assembly m = r.assembly ∧
    (m.map Prod.fst = r.text ∨ sure = false ∧ m = none ∧ r.text = some .body)

section
variable {s : Feeding} {r : Reader} {c : HttpParser} {ch : UInt8}

theorem marksOf_other (text : DataCallback) (part : Bytes) :
    Function.update (marksOf (some (text, part))) text none = marksOf none := by
  unfold marksOf
  rw [Function.update_idem]
  exact Function.update_eq_self text _

theorem Behind.idle {sure : Bool} (behind : Behind sure s r) (none : r.text = none) :
    s.calls = r.calls ∧ s.marks = marksOf .none ∧ s.assembly = r.assembly := by
  obtain ⟨calls, _, m, marks, whole, kind⟩ := behind
  rw [none] at kind
  rcases kind with kind | ⟨_, _, no⟩
  · rw [Option.map_eq_none_iff.mp kind] at marks whole
    exact ⟨calls, marks, whole⟩
  · cases no

theorem Behind.of_idle {sure : Bool} (calls : s.calls = r.calls) (marks : s.marks = marksOf none)
    (whole : s.assembly = r.assembly) (none : r.text = none) : Behind sure s r :=
  ⟨calls, fun _ no => (by cases none.symm.trans no), .none, marks, whole, Or.inl none.symm⟩

theorem mark_behind {sure : Bool} {text : DataCallback} (behind : Behind sure s r)
    (fits : r.text = none ∨ r.text = some text) :
    Behind true (s.mark text) (r.perform c ch (.mark text)) ∧
      (r.perform c ch (.mark text)).text = some text := by
  rcases fits with none | same
  · obtain ⟨calls, marks, whole⟩ := behind.idle none
    have other : ¬r.text = some text := by rw [none]; exact fun no => by cases no
    simp only [Reader.perform, if_neg other]
    refine ⟨⟨calls, fun text' here => ?_, some (text, []), ?_, by rw [← whole]; rfl, Or.inl rfl⟩,
      trivial⟩
    · cases here
      exact (Assembly.onData_append ..).symm
    · unfold Feeding.mark
      rw [marks]
      rfl
  · obtain ⟨calls, begun, m, marks, whole, kind⟩ := behind
    simp only [Reader.perform, if_pos same]
    refine ⟨?_, same⟩
    rcases kind with kind | ⟨_, rfl, body⟩
    · rw [same] at kind
      obtain ⟨⟨other, part⟩, rfl, rfl⟩ := Option.map_eq_some_iff.mp kind
      refine ⟨calls, begun, some (other, part), ?_, whole, Or.inl same.symm⟩
      unfold Feeding.mark
      rw [marks]
      simp [marksOf]
    · rw [same] at body
      cases body
      refine ⟨calls, begun, some (.body, []), ?_, ?_, Or.inl same.symm⟩
      · unfold Feeding.mark
        rw [marks]
        rfl
      · rw [← whole]
        simp [handedOn, Assembly.onData, Feeding.mark]

theorem Behind.single {sure : Bool} (behind : Behind sure s r) : s.marked ≤ 1 := by
  obtain ⟨_, _, m, marks, _⟩ := behind
  have marked : Marked (m.map Prod.fst) s := by
    intro other set
    rw [marks] at set
    cases m with
    | none => cases set
    | some m =>
      by_cases same : other = m.1
      · rw [same]
        rfl
      · simp [marksOf, Function.update_of_ne same] at set
  exact marked.single

theorem data_behind {sure : Bool} {text : DataCallback} (behind : Behind sure s r)
    (same : r.text = some text) (known : sure = true ∨ text = .body) :
    (s.data text).calls = r.calls ∧ (s.data text).marks = marksOf none ∧
      (s.data text).assembly = r.assembly := by
  obtain ⟨calls, _, m, marks, whole, kind⟩ := behind
  rcases kind with kind | ⟨_, rfl, body⟩
  · rw [same] at kind
    obtain ⟨⟨other, part⟩, rfl, rfl⟩ := Option.map_eq_some_iff.mp kind
    have at' : s.marks other = some part := by rw [marks]; simp [marksOf]
    unfold Feeding.data
    rw [at', marks]
    exact ⟨calls, marksOf_other other part, whole⟩
  · have at' : s.marks text = none := by rw [marks]; rfl
    unfold Feeding.data
    rw [at']
    exact ⟨calls, marks, whole⟩

theorem advance_behind (behind : Behind true s r) (ch : UInt8) :
    Behind true (s.advance ch) (r.advance ch) := by
  obtain ⟨calls, _, m, marks, whole, kind | ⟨no, _⟩⟩ := behind
  · cases m with
    | none =>
      have none : r.text = .none := kind.symm
      unfold Reader.advance
      rw [none]
      refine .of_idle calls ?_ whole none
      unfold Feeding.advance
      rw [marks]
      rfl
    | some m =>
      obtain ⟨text, part⟩ := m
      have same : r.text = some text := kind.symm
      unfold Reader.advance
      rw [same]
      refine ⟨calls, fun text' here => ?_, some (text, part ++ [ch]), ?_, ?_, Or.inl rfl⟩
      · obtain rfl : text = text' := Option.some.inj here
        exact (Assembly.onData_append ..).symm
      · unfold Feeding.advance
        rw [marks]
        funext other
        by_cases here : other = text
        · rw [here]
          simp [marksOf]
        · simp [marksOf, Function.update_of_ne here]
      · change s.assembly.onData text (part ++ [ch]) = r.assembly.onData text [ch]
        rw [Assembly.onData_append]
        exact congrArg (·.onData text [ch]) whole
  · cases no

theorem perform_behind {sure sure' : Bool} {action : ParserAction} {text' : Option DataCallback}
    (behind : Behind sure s r) (tracked : track (r.text, sure) action = some (text', sure')) :
    Behind sure' (s.perform c ch action) (r.perform c ch action) ∧
      (r.perform c ch action).text = text' := by
  cases action with
  | mark other =>
    simp only [track] at tracked
    split at tracked
    · cases tracked
      exact mark_behind behind ‹_›
    · cases tracked
  | data other =>
    simp only [track] at tracked
    split at tracked
    · rename_i fits
      cases tracked
      obtain ⟨calls, marks, whole⟩ := data_behind behind fits.1 fits.2
      exact ⟨.of_idle calls marks whole rfl, rfl⟩
    · cases tracked
  | dataThrough other =>
    simp only [track] at tracked
    split at tracked
    · rename_i fits
      cases tracked
      obtain ⟨same, known⟩ := fits
      subst known
      have ahead := advance_behind behind ch
      have same' : (r.advance ch).text = some other := by
        unfold Reader.advance
        rw [same]
      obtain ⟨calls, marks, whole⟩ := data_behind ahead same' (Or.inl rfl)
      unfold Reader.advance at calls whole
      rw [same] at calls whole
      exact ⟨.of_idle calls marks whole rfl, rfl⟩
    · cases tracked
  | messageBegin =>
    simp only [track] at tracked
    split at tracked
    · rename_i none
      cases tracked
      obtain ⟨calls, marks, _⟩ := behind.idle none
      exact ⟨.of_idle calls marks rfl none, none⟩
    · cases tracked
  | headersComplete =>
    simp only [track] at tracked
    split at tracked
    · rename_i none
      cases tracked
      obtain ⟨calls, marks, whole⟩ := behind.idle none
      refine ⟨.of_idle ?_ marks ?_ none, none⟩
      · simp only [Feeding.perform, Reader.perform, calls, whole]
      · simp only [Feeding.perform, Reader.perform, whole]
    · cases tracked
  | messageComplete =>
    simp only [track] at tracked
    split at tracked
    · rename_i none
      cases tracked
      obtain ⟨calls, marks, whole⟩ := behind.idle none
      refine ⟨.of_idle ?_ marks whole none, none⟩
      simp only [Feeding.perform, Reader.perform, calls, whole]
    · cases tracked

theorem actions_behind (actions : List ParserAction) {sure sure' : Bool} {s : Feeding} {r : Reader}
    {text' : Option DataCallback} (behind : Behind sure s r)
    (tracked : actions.foldlM track (r.text, sure) = some (text', sure')) :
    Behind sure' (s.actions c ch actions) (r.actions c ch actions) ∧
      (r.actions c ch actions).text = text' := by
  induction actions generalizing sure s r with
  | nil =>
    cases tracked
    exact ⟨behind, rfl⟩
  | cons action actions ih =>
    rw [List.foldlM_cons] at tracked
    obtain ⟨⟨text, known⟩, first, rest⟩ := Option.bind_eq_some_iff.mp tracked
    obtain ⟨behind', rfl⟩ := @perform_behind _ _ c ch _ _ _ _ behind first
    exact ih behind' rest

theorem data_none {text : DataCallback} (none : s.marks text = .none) : s.data text = s := by
  unfold Feeding.data
  rw [none]

theorem data_some {text : DataCallback} {part : Bytes} (marks : s.marks = marksOf (some (text, part))) :
    s.data text = { s with assembly := s.assembly.onData text part, marks := marksOf none } := by
  have at' : s.marks text = some part := by rw [marks]; simp [marksOf]
  unfold Feeding.data
  rw [at', marks, marksOf_other]

theorem leftover_behind {sure : Bool} (behind : Behind sure s r) :
    s.leftover.calls = r.calls ∧ s.leftover.assembly = r.assembly := by
  obtain ⟨calls, _, m, marks, whole, _⟩ := behind
  have quiet (text : DataCallback) (a : Assembly) :
      ({ s with assembly := a, marks := marksOf none } : Feeding).data text =
        { s with assembly := a, marks := marksOf none } := data_none rfl
  unfold Feeding.leftover
  cases m with
  | none =>
    have same (text : DataCallback) : s.data text = s := data_none (by rw [marks]; rfl)
    rw [same, same, same, same]
    exact ⟨calls, whole⟩
  | some m =>
    obtain ⟨text, part⟩ := m
    have other {before : DataCallback} (apart : before ≠ text) : s.data before = s := by
      refine data_none ?_
      rw [marks]
      simp [marksOf, Function.update_of_ne apart]
    cases text with
    | headerField =>
      rw [data_some marks, quiet, quiet, quiet]
      exact ⟨calls, whole⟩
    | headerValue =>
      rw [other (by decide), data_some marks, quiet, quiet]
      exact ⟨calls, whole⟩
    | url =>
      rw [other (by decide), other (by decide), data_some marks, quiet]
      exact ⟨calls, whole⟩
    | body =>
      rw [other (by decide), other (by decide), other (by decide), data_some marks]
      exact ⟨calls, whole⟩

theorem Behind.weaken (behind : Behind true s r) (sure : Bool) : Behind sure s r := by
  obtain ⟨calls, begun, m, marks, whole, kind | ⟨no, _⟩⟩ := behind
  · exact ⟨calls, begun, m, marks, whole, Or.inl kind⟩
  · cases no

theorem advance_keeps (r : Reader) (ch : UInt8) :
    (r.advance ch).text = r.text ∧ (r.advance ch).parser = r.parser := by
  unfold Reader.advance
  cases text : r.text with
  | none => exact ⟨text, rfl⟩
  | some other => exact ⟨rfl, rfl⟩

/-- What a buffer came to is what the reader came to. -/
structure Reaches (done : Executed) (r : Reader) (nparsed : Nat) (ending : Ending) : Prop where
  parser : done.parser = r.parser
  calls : done.feeding.calls = r.calls
  nparsed : done.nparsed = nparsed
  errno : ∀ errno, ending = .failed errno ↔ done.httpErrno = some errno
  assembly : done.httpErrno = none → done.feeding.assembly = r.assembly
  goes : ending = .more → Goes r.text r.parser.state ∧ Begun r

theorem executeLoop_run (data : Bytes) {s : Feeding} {r : Reader} (n : Nat)
    (behind : Behind (surely r.text) s r) (goes : Goes r.text r.parser.state) :
    (r.run n data = none ∧ executeLoop r.parser s n data = none) ∨
    ∃ r' n' ending done, r.run n data = some (r', n', ending) ∧
      executeLoop r.parser s n data = some done ∧ Reaches done r' n' ending := by
  induction data generalizing s r n with
  | nil =>
    obtain ⟨calls, whole⟩ := leftover_behind behind
    exact Or.inr ⟨r, n, .more, _, rfl, if_pos behind.single, rfl, calls, rfl, fun errno => by simp,
      fun _ => whole, fun _ => ⟨goes, behind.2.1⟩⟩
  | cons ch data ih =>
    have tracks := @HttpParser.executeByte_tracks r.parser ch _ goes
    rw [Reader.run, executeLoop]
    cases outcome : r.parser.executeByte ch with
    | goes c actions =>
      rw [outcome] at tracks
      obtain ⟨text', tracked, goes'⟩ := tracks
      obtain ⟨behind', same⟩ := @actions_behind c ch actions _ _ _ _ _ behind tracked
      obtain ⟨keptText, keptParser⟩ := advance_keeps (r.actions c ch actions) ch
      have parser : ((r.actions c ch actions).advance ch).parser = c := keptParser
      have next := ih (n + 1) ((advance_behind behind' ch).weaken _)
        (by rw [keptText, same, parser]; exact goes')
      rw [parser] at next
      exact next
    | exits c actions =>
      rw [outcome] at tracks
      obtain ⟨behind', same⟩ := @actions_behind c ch actions _ _ _ _ _ behind tracks
      obtain ⟨calls, _, whole⟩ := behind'.idle same
      exact Or.inr ⟨_, _, .exited, _, rfl, rfl, rfl, calls, rfl, fun errno => by simp, fun _ => whole,
        fun no => by cases no⟩
    | fails errno actions =>
      rw [outcome] at tracks
      obtain ⟨⟨text', sure'⟩, tracked⟩ := Option.isSome_iff_exists.mp tracks
      obtain ⟨⟨calls, _⟩, _⟩ := @actions_behind r.parser ch actions _ _ _ _ _ behind tracked
      exact Or.inr ⟨_, _, .failed errno, _, rfl, rfl, rfl, calls, rfl, fun other => by simp,
        fun no => (by cases no), fun no => by cases no⟩
    | aborts => exact Or.inl ⟨rfl, rfl⟩

end

/-! ## Buffers -/

/-- A parser between two buffers. The mark of a body is not set then. -/
structure Between (p : HTTPParser) (r : Reader) : Prop where
  errno : p.httpErrno = none
  parser : p.parser = r.parser
  assembly : p.assembly = r.assembly
  calls : r.calls = []
  goes : Goes r.text r.parser.state
  begun : Begun r

theorem between_initial : Between {} ⟨{}, {}, none, []⟩ :=
  ⟨rfl, rfl, rfl, rfl, rfl, fun _ no => by cases no⟩

theorem markAt_eq {text : Option DataCallback} {state : ParserState} (goes : Goes text state) :
    markAt state = if text = some .body then none else text := by
  cases state with
  | reqUrl url => cases url <;> cases goes <;> rfl
  | chunkData | bodyIdentity => rcases goes with rfl | rfl <;> rfl
  | _ => cases goes; rfl

theorem Between.behind {p : HTTPParser} {r : Reader} (between : Between p r) :
    Behind (surely r.text) ⟨p.assembly, fun text =>
      if markAt p.parser.state = some text then some [] else none, []⟩ r := by
  have at' := markAt_eq between.goes
  rw [← between.parser] at at'
  refine ⟨between.calls.symm, between.begun, ?_⟩
  rw [at']
  cases text : r.text with
  | none => exact ⟨none, by funext other; simp [marksOf], between.assembly, Or.inl rfl⟩
  | some other =>
    by_cases body : other = .body
    · subst body
      exact ⟨none, by funext other; simp [marksOf], between.assembly, Or.inr ⟨rfl, rfl, rfl⟩⟩
    · refine ⟨some (other, []), ?_, ?_, Or.inl rfl⟩
      · funext place
        by_cases here : place = other
        · simp [marksOf, body, here]
        · simp [marksOf, body, Function.update_of_ne here, Ne.symm here]
      · change p.assembly.onData other [] = r.assembly
        rw [between.assembly]
        exact between.begun other text

theorem feed_run {p : HTTPParser} {r : Reader} (between : Between p r) {data : Bytes}
    (some : data ≠ []) :
    (r.run 0 data = none ∧ p.feed data = none) ∨
    ∃ r' n' ending q, r.run 0 data = .some (r', n', ending) ∧
      p.feed data = .some (q, r'.calls, decide (n' = data.length)) ∧ q.parser = r'.parser ∧
      (∀ errno, ending = .failed errno ↔ q.httpErrno = .some errno) ∧
      (q.httpErrno = none → q.assembly = r'.assembly) ∧
      (ending = .more → Goes r'.text r'.parser.state ∧ Begun r') := by
  unfold HTTPParser.feed HTTPParser.execute
  simp only [between.errno, Option.isSome_none, Bool.false_eq_true, if_false, some]
  have executed := executeLoop_run data 0 between.behind between.goes
  rw [← between.parser] at executed
  rcases executed with ⟨none, aborted⟩ | ⟨r', n', ending, done, ran, executed, reaches⟩
  · exact Or.inl ⟨none, by rw [aborted]; rfl⟩
  · right
    refine ⟨r', n', ending, ⟨done.parser, done.httpErrno, done.feeding.assembly⟩, ran, ?_,
      reaches.parser, reaches.errno, reaches.assembly, reaches.goes⟩
    rw [executed]
    simp only [Option.map_some, reaches.calls, reaches.nparsed]

end Pinocchio.Crow
