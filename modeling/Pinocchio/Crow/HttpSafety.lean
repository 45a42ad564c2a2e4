import Pinocchio.Crow.HttpReading

/-! The assertions of the parser never fail. -/

set_option autoImplicit false

namespace Pinocchio.Crow
open Semantics

/-- The states of a name that is compared with those that are looked for. -/
def naming : HeaderState → Bool
  | .matchingTransferEncodingChunked | .matchingConnectionKeepAlive | .matchingConnectionClose
  | .transferEncodingChunked | .connectionKeepAlive | .connectionClose => false
  | _ => true

/-- What the assertions of each state need, where so many bytes of a chunk's size are counted. -/
def HttpParser.Asserts (c : HttpParser) (counted : Nat) : ParserState → Prop
  | .reqUrl url => url ≠ .dead
  | .headerField => naming c.headerState = true
  | .headerValue => c.headerState ≠ .connection ∧ c.headerState ≠ .transferEncoding
  | .chunkSizeStart => c.flags.chunked = true ∧ c.nread = counted
  | .chunkSize | .chunkParameters | .chunkSizeAlmostDone =>
    c.flags.chunked = true ∧ c.contentLength < noLength
  | .chunkData => c.flags.chunked = true ∧ 0 < c.contentLength ∧ c.contentLength < noLength
  | .chunkDataAlmostDone => c.flags.chunked = true ∧ c.contentLength = 0
  | .chunkDataDone => c.flags.chunked = true
  | .bodyIdentity => 0 < c.contentLength ∧ c.contentLength < noLength
  | _ => True

structure HttpParser.Sound (c : HttpParser) (counted : Nat) : Prop where
  length : c.contentLength ≤ noLength
  state : c.Asserts counted c.state

def Outcome.Sound : Outcome → Prop
  | .goes c _ => c.Sound 0
  | .exits c _ => c.Sound 0
  | .fails _ _ => True
  | .aborts => False

theorem Outcome.Sound.after {outcome : Outcome} (sound : outcome.Sound) (before : List ParserAction) :
    (outcome.after before).Sound := by
  cases outcome <;> exact sound

namespace HttpParser
variable {c : HttpParser} {ch : UInt8}

theorem newMessage_asserts (c d : HttpParser) : d.Asserts 0 c.newMessage := by
  unfold newMessage
  split <;> trivial

theorem startReq_sound (state : c.state = .startReq) (sound : c.Sound 1) : (c.startReq ch).Sound := by
  unfold startReq
  split
  · exact ⟨sound.length, by rw [state]; trivial⟩
  · split
    · trivial
    · exact ⟨Nat.le_refl _, trivial⟩

theorem reqMethod_sound (state : c.state = .reqMethod) (sound : c.Sound 1) :
    (c.reqMethod ch).Sound := by
  have stays (d : HttpParser) (same : d.state = .reqMethod) (length : d.contentLength = c.contentLength) :
      d.Sound 0 := ⟨by rw [length]; exact sound.length, by rw [same]; trivial⟩
  unfold reqMethod
  extract_lets matcher
  split
  · trivial
  split
  · exact ⟨sound.length, fun no => by cases no⟩
  split
  · exact stays _ state rfl
  split
  · exact stays _ state rfl
  · trivial

theorem urlChar_sound {url : Http.UrlState} {actions : List ParserAction} (sound : c.Sound 1) :
    (c.urlChar url ch actions).Sound := by
  unfold urlChar
  extract_lets url'
  split
  · trivial
  · exact ⟨sound.length, ‹_›⟩

theorem reqUrl_sound {url : Http.UrlState} (state : c.state = .reqUrl url) (sound : c.Sound 1) :
    (c.reqUrl url ch).Sound := by
  have ends : Outcome.Sound (if ch = sp then .goes { c with state := .reqHttpStart } [.data .url]
      else if ch = cr ∨ ch = lf then
        .goes { c with
          httpMajor := 0, httpMinor := 9
          state := if ch = cr then .reqLineAlmostDone else .headerFieldStart } [.data .url]
      else c.urlChar url ch []) := by
    split
    · exact ⟨sound.length, trivial⟩
    split
    · refine ⟨sound.length, ?_⟩
      simp only []
      split <;> trivial
    · exact urlChar_sound sound
  unfold reqUrl
  cases url with
  | spacesBeforeUrl =>
    simp only []
    split
    · exact ⟨sound.length, by rw [state]; exact fun no => by cases no⟩
    · exact urlChar_sound sound
  | schema | schemaSlash | schemaSlashSlash | serverStart =>
    simp only []
    split
    · trivial
    · exact urlChar_sound sound
  | _ => exact ends

theorem constant_sound {next : ParserState} {expected : UInt8} (sound : c.Sound 1)
    (asserts : ({ c with state := next } : HttpParser).Asserts 0 next) :
    (c.constant ch expected next).Sound := by
  unfold constant
  split
  · exact ⟨sound.length, asserts⟩
  · trivial

theorem version_sound (sound : c.Sound 1) :
    (c.state = .reqHttpStart → (c.reqHttpStart ch).Sound) ∧ (c.reqFirstHttpMajor ch).Sound ∧
      (c.state = .reqHttpMajor → (c.reqHttpMajor ch).Sound) ∧ (c.reqFirstHttpMinor ch).Sound ∧
      (c.state = .reqHttpMinor → (c.reqHttpMinor ch).Sound) ∧ (c.reqLineAlmostDone ch).Sound := by
  refine ⟨fun state => ?_, ?_, fun state => ?_, ?_, fun state => ?_, ?_⟩
  · unfold reqHttpStart
    split
    · exact ⟨sound.length, trivial⟩
    split
    · exact ⟨sound.length, by rw [state]; trivial⟩
    · trivial
  · unfold reqFirstHttpMajor
    split
    · trivial
    · exact ⟨sound.length, trivial⟩
  · unfold reqHttpMajor
    split
    · exact ⟨sound.length, trivial⟩
    split
    · trivial
    extract_lets httpMajor
    split
    · trivial
    · exact ⟨sound.length, by rw [show ({ c with httpMajor } : HttpParser).state = _ from state]; trivial⟩
  · unfold reqFirstHttpMinor
    split
    · trivial
    · exact ⟨sound.length, trivial⟩
  · unfold reqHttpMinor
    split
    · exact ⟨sound.length, trivial⟩
    split
    · exact ⟨sound.length, trivial⟩
    split
    · trivial
    extract_lets httpMinor
    split
    · trivial
    · exact ⟨sound.length, by rw [show ({ c with httpMinor } : HttpParser).state = _ from state]; trivial⟩
  · unfold reqLineAlmostDone
    split
    · trivial
    · exact ⟨sound.length, trivial⟩

theorem headersDone_sound (length : c.contentLength ≤ noLength) : (c.headersDone ch).Sound := by
  unfold headersDone
  split
  · trivial
  extract_lets d complete
  have done : complete.Sound 0 := ⟨length, newMessage_asserts d complete⟩
  split
  · exact done
  split
  · rename_i chunked
    exact ⟨length, chunked, rfl⟩
  split
  · exact done
  split
  · rename_i some known
    exact ⟨length, Nat.pos_of_ne_zero some, Nat.lt_of_le_of_ne length known⟩
  · exact done

theorem headersAlmostDone_sound (length : c.contentLength ≤ noLength) :
    (c.headersAlmostDone ch).Sound := by
  unfold headersAlmostDone
  split
  · trivial
  split
  · exact ⟨length, newMessage_asserts c _⟩
  · exact (headersDone_sound (by exact length)).after _

theorem headerFieldStart_sound (length : c.contentLength ≤ noLength) :
    (c.headerFieldStart ch).Sound := by
  unfold headerFieldStart
  split
  · exact ⟨length, trivial⟩
  split
  · exact headersAlmostDone_sound (by exact length)
  extract_lets t headerState
  have names : naming headerState = true := by
    simp only [headerState]
    repeat' split
    all_goals rfl
  split
  · trivial
  · exact ⟨length, names⟩

theorem matching_naming {name : Bytes} {t : UInt8} {whole : HeaderState}
    (here : naming c.headerState = true) (there : naming whole = true) :
    naming (c.matching name t whole).headerState = true := by
  unfold matching
  simp only []
  split
  · rfl
  split
  · exact there
  · exact here

theorem headerField_sound (state : c.state = .headerField) (sound : c.Sound 1) :
    (c.headerField ch).Sound := by
  have names := sound.state
  rw [state] at names
  have stays (d : HttpParser) (same : d.state = .headerField)
      (length : d.contentLength = c.contentLength) (named : naming d.headerState = true) :
      d.Sound 0 := ⟨by rw [length]; exact sound.length, by rw [same]; exact named⟩
  have length := sound.length
  unfold headerField
  extract_lets t
  split
  · cases headerState : c.headerState with
    | general => exact stays _ state rfl names
    | c | co =>
      refine stays _ state rfl ?_
      simp only []
      split <;> rfl
    | con =>
      refine stays _ state rfl ?_
      simp only []
      split
      · rfl
      · split <;> rfl
    | matchingConnection | matchingProxyConnection | matchingContentLength | matchingTransferEncoding
      | matchingUpgrade => exact stays _ state rfl (matching_naming names rfl)
    | connection | contentLength | transferEncoding | upgrade =>
      simp only []
      split
      · exact stays _ state rfl rfl
      · exact stays _ state rfl names
    | _ =>
      change naming c.headerState = true at names
      rw [headerState] at names
      cases names
  split
  · exact ⟨length, trivial⟩
  split
  · exact ⟨length, trivial⟩
  split
  · exact ⟨length, trivial⟩
  · trivial

theorem digit_le {d : UInt8} (digit : isDigit d = true) : d.toNat - 48 ≤ 9 := by
  unfold isDigit at digit
  simp only [Bool.and_eq_true, decide_eq_true_eq, UInt8.le_iff_toNat_le] at digit
  have high : d.toNat ≤ 57 := digit.2
  omega

theorem headerValueStart_sound (length : c.contentLength ≤ noLength) :
    (c.headerValueStart ch).Sound := by
  have marks (d : HttpParser) (same : d.state = .headerValue) (length : d.contentLength ≤ noLength)
      (apart : d.headerState ≠ .connection ∧ d.headerState ≠ .transferEncoding) : d.Sound 0 :=
    ⟨length, by rw [same]; exact apart⟩
  unfold headerValueStart
  extract_lets d l marked
  split
  · exact marks _ rfl length ⟨fun no => (by cases no), fun no => by cases no⟩
  · refine marks _ rfl length ?_
    simp only []
    split <;> exact ⟨fun no => (by cases no), fun no => by cases no⟩
  · rename_i contentLength
    split
    · trivial
    · rename_i digit
      have bound := digit_le (d := ch) (by simpa using digit)
      refine marks _ rfl (Nat.le_trans bound (by decide)) ?_
      rw [show HttpParser.headerState _ = .contentLength from contentLength]
      exact ⟨fun no => (by cases no), fun no => by cases no⟩
  · refine marks _ rfl length ?_
    simp only []
    split
    · exact ⟨fun no => (by cases no), fun no => by cases no⟩
    · split <;> exact ⟨fun no => (by cases no), fun no => by cases no⟩
  · exact marks _ rfl length ⟨fun no => (by cases no), fun no => by cases no⟩

theorem headerValueDiscardWs_sound (state : c.state = .headerValueDiscardWs) (sound : c.Sound 1) :
    (c.headerValueDiscardWs ch).Sound := by
  have length := sound.length
  unfold headerValueDiscardWs
  split
  · exact ⟨length, by rw [state]; trivial⟩
  split
  · exact ⟨length, trivial⟩
  split
  · exact ⟨length, trivial⟩
  · exact headerValueStart_sound length

theorem headerAlmostDone_sound (length : c.contentLength ≤ noLength) :
    (c.headerAlmostDone ch).Sound := by
  unfold headerAlmostDone
  split
  · trivial
  · exact ⟨length, trivial⟩

theorem matching_apart {name : Bytes} {t : UInt8} {whole : HeaderState}
    (here : c.headerState ≠ .connection ∧ c.headerState ≠ .transferEncoding)
    (there : whole ≠ .connection ∧ whole ≠ .transferEncoding) :
    (c.matching name t whole).headerState ≠ .connection ∧
      (c.matching name t whole).headerState ≠ .transferEncoding := by
  unfold matching
  simp only []
  split
  · exact ⟨fun no => (by cases no), fun no => by cases no⟩
  split
  · exact there
  · exact here

theorem headerValue_sound (state : c.state = .headerValue) (sound : c.Sound 1) :
    (c.headerValue ch).Sound := by
  have length := sound.length
  have apart := sound.state
  rw [state] at apart
  have stays (d : HttpParser) (same : d.state = .headerValue) (length : d.contentLength ≤ noLength)
      (apart : d.headerState ≠ .connection ∧ d.headerState ≠ .transferEncoding) : d.Sound 0 :=
    ⟨length, by rw [same]; exact apart⟩
  have plain : HeaderState.general ≠ .connection ∧ HeaderState.general ≠ .transferEncoding := by decide
  unfold headerValue
  split
  · exact ⟨length, trivial⟩
  split
  · exact (headerAlmostDone_sound (by exact length)).after _
  cases headerState : c.headerState with
  | general => exact stays _ state length apart
  | connection => exact absurd headerState apart.1
  | transferEncoding => exact absurd headerState apart.2
  | contentLength =>
    simp only []
    split
    · exact stays _ state length apart
    split
    · trivial
    split
    · trivial
    · refine stays _ state ?_ ⟨fun no => (by cases no), fun no => by cases no⟩
      have bound := Nat.mod_lt (c.contentLength * 10 + (ch.toNat - 48)) (y := 2 ^ 64) (by decide)
      exact Nat.le_sub_one_of_lt bound
  | matchingTransferEncodingChunked | matchingConnectionKeepAlive | matchingConnectionClose =>
    exact stays _ state length (matching_apart apart (by decide))
  | transferEncodingChunked | connectionKeepAlive | connectionClose =>
    simp only []
    split
    · exact stays _ state length plain
    · exact stays _ state length apart
  | _ => exact stays _ state length plain

theorem headerValueLws_sound (length : c.contentLength ≤ noLength) : (c.headerValueLws ch).Sound := by
  unfold headerValueLws
  split
  · exact headerValueStart_sound (by exact length)
  · exact headerFieldStart_sound (by exact length)

theorem headerValueDiscardLws_sound (length : c.contentLength ≤ noLength) :
    (c.headerValueDiscardLws ch).Sound := by
  unfold headerValueDiscardLws
  split
  · exact ⟨length, trivial⟩
  · exact (headerFieldStart_sound (by exact length)).after _

theorem messageDone_sound (length : c.contentLength ≤ noLength) : c.messageDone.Sound :=
  ⟨length, newMessage_asserts c _⟩

theorem bodyIdentity_sound (state : c.state = .bodyIdentity) (sound : c.Sound 1) :
    c.bodyIdentity.Sound := by
  have asserts := sound.state
  rw [state] at asserts
  obtain ⟨some, known⟩ := asserts
  unfold bodyIdentity
  rw [if_neg (by omega)]
  extract_lets d
  have length : d.contentLength = c.contentLength - 1 := rfl
  split
  · exact (messageDone_sound (by change c.contentLength - 1 ≤ _; omega)).after _
  · refine ⟨by omega, ?_⟩
    rw [show d.state = .bodyIdentity from state]
    exact ⟨by omega, by omega⟩

theorem unhex_le {d : UInt8} {n : Nat} (read : unhex d = some n) : n ≤ 15 := by
  have small := forall_byte (p := fun d => (unhex d).all (· ≤ 15) = true) (by decide +kernel) d
  rw [read] at small
  simpa using small

theorem chunkSizeStart_sound (state : c.state = .chunkSizeStart) (sound : c.Sound 1) :
    (c.chunkSizeStart ch).Sound := by
  have asserts := sound.state
  rw [state] at asserts
  obtain ⟨chunked, counted⟩ := asserts
  unfold chunkSizeStart
  rw [if_neg (by simp [chunked, counted])]
  cases read : unhex ch with
  | none => trivial
  | some digit =>
    have bound : digit < noLength := Nat.lt_of_le_of_lt (unhex_le read) (by decide)
    exact ⟨Nat.le_of_lt bound, chunked, bound⟩

theorem chunkSize_sound (state : c.state = .chunkSize) (sound : c.Sound 1) :
    (c.chunkSize ch).Sound := by
  have asserts := sound.state
  rw [state] at asserts
  obtain ⟨chunked, known⟩ := asserts
  have length := sound.length
  unfold chunkSize
  rw [if_neg (by simp [chunked])]
  split
  · exact ⟨length, chunked, known⟩
  cases read : unhex ch with
  | none =>
    simp only []
    split
    · exact ⟨length, chunked, known⟩
    · trivial
  | some digit =>
    have bound := unhex_le read
    simp only []
    split
    · trivial
    · rename_i small
      have fits : c.contentLength * 16 + digit < noLength := by
        unfold noLength at small ⊢
        omega
      have same : (c.contentLength * 16 + digit) % 2 ^ 64 = c.contentLength * 16 + digit :=
        Nat.mod_eq_of_lt (Nat.lt_of_lt_of_le fits (by decide))
      refine ⟨by change _ % 2 ^ 64 ≤ noLength; omega, ?_⟩
      rw [show HttpParser.state _ = .chunkSize from state]
      exact ⟨chunked, by change _ % 2 ^ 64 < noLength; omega⟩

theorem chunkParameters_sound (state : c.state = .chunkParameters) (sound : c.Sound 1) :
    (c.chunkParameters ch).Sound := by
  have asserts := sound.state
  rw [state] at asserts
  unfold chunkParameters
  rw [if_neg (by simp [asserts.1])]
  split
  · exact ⟨sound.length, asserts⟩
  · exact ⟨sound.length, by rw [state]; exact asserts⟩

theorem chunkSizeAlmostDone_sound (state : c.state = .chunkSizeAlmostDone) (sound : c.Sound 1) :
    (c.chunkSizeAlmostDone ch).Sound := by
  have asserts := sound.state
  rw [state] at asserts
  obtain ⟨chunked, known⟩ := asserts
  unfold chunkSizeAlmostDone
  rw [if_neg (by simp [chunked])]
  split
  · trivial
  extract_lets d
  split
  · exact ⟨sound.length, trivial⟩
  · rename_i some
    exact ⟨sound.length, chunked, Nat.pos_of_ne_zero some, known⟩

theorem chunkData_sound (state : c.state = .chunkData) (sound : c.Sound 1) : c.chunkData.Sound := by
  have asserts := sound.state
  rw [state] at asserts
  obtain ⟨chunked, some, known⟩ := asserts
  have nonzero : ¬c.contentLength = 0 := by omega
  have isKnown : ¬c.contentLength = noLength := by omega
  unfold chunkData
  rw [if_neg (by simp [chunked, nonzero, isKnown])]
  extract_lets contentLength next
  have less : contentLength = c.contentLength - 1 := rfl
  refine ⟨by change contentLength ≤ noLength; omega, ?_⟩
  change HttpParser.Asserts _ 0 next
  rcases eq_or_ne contentLength 0 with zero | more
  · rw [show next = .chunkDataAlmostDone from if_pos zero]
    exact ⟨chunked, zero⟩
  · rw [show next = .chunkData from (if_neg more).trans state]
    exact ⟨chunked, Nat.pos_of_ne_zero more, by change contentLength < noLength; omega⟩

theorem chunkDataAlmostDone_sound (state : c.state = .chunkDataAlmostDone) (sound : c.Sound 1) :
    (c.chunkDataAlmostDone ch).Sound := by
  have asserts := sound.state
  rw [state] at asserts
  obtain ⟨chunked, zero⟩ := asserts
  unfold chunkDataAlmostDone
  rw [if_neg (by simp [chunked, zero])]
  split
  · trivial
  · exact ⟨sound.length, chunked⟩

theorem chunkDataDone_sound (state : c.state = .chunkDataDone) (sound : c.Sound 1) :
    (c.chunkDataDone ch).Sound := by
  have chunked := sound.state
  rw [state] at chunked
  change c.flags.chunked = true at chunked
  unfold chunkDataDone
  rw [if_neg (by simp [chunked])]
  split
  · trivial
  · exact ⟨sound.length, chunked, rfl⟩

theorem switch_sound (sound : c.Sound 1) : (c.switch ch).Sound := by
  obtain ⟨start, firstMajor, major, firstMinor, minor, line⟩ := @version_sound c ch sound
  have length := sound.length
  have asserts := sound.state
  unfold switch
  generalize state : c.state = at' at asserts ⊢
  cases at' with
  | dead =>
    simp only []
    split
    · exact ⟨length, by rw [state]; trivial⟩
    · trivial
  | reqUrl url =>
    cases url with
    | dead => exact asserts rfl
    | _ => exact reqUrl_sound state sound
  | startReq => exact startReq_sound state sound
  | reqMethod => exact reqMethod_sound state sound
  | reqHttpStart => exact start state
  | reqHttpH | reqHttpHT | reqHttpHTT | reqHttpHTTP | headerValueDiscardWsAlmostDone =>
    exact constant_sound sound trivial
  | reqFirstHttpMajor => exact firstMajor
  | reqHttpMajor => exact major state
  | reqFirstHttpMinor => exact firstMinor
  | reqHttpMinor => exact minor state
  | reqLineAlmostDone => exact line
  | headerFieldStart => exact headerFieldStart_sound length
  | headerField => exact headerField_sound state sound
  | headerValueDiscardWs => exact headerValueDiscardWs_sound state sound
  | headerValueDiscardLws => exact headerValueDiscardLws_sound length
  | headerValueStart => exact headerValueStart_sound length
  | headerValue => exact headerValue_sound state sound
  | headerValueLws => exact headerValueLws_sound length
  | headerAlmostDone => exact headerAlmostDone_sound length
  | chunkSizeStart => exact chunkSizeStart_sound state sound
  | chunkSize => exact chunkSize_sound state sound
  | chunkParameters => exact chunkParameters_sound state sound
  | chunkSizeAlmostDone => exact chunkSizeAlmostDone_sound state sound
  | headersAlmostDone => exact headersAlmostDone_sound length
  | headersDone => exact headersDone_sound length
  | chunkData => exact chunkData_sound state sound
  | chunkDataAlmostDone => exact chunkDataAlmostDone_sound state sound
  | chunkDataDone => exact chunkDataDone_sound state sound
  | bodyIdentity => exact bodyIdentity_sound state sound
  | messageDone => exact messageDone_sound length

theorem asserts_counted {state : ParserState} (asserts : c.Asserts 0 state) :
    parsingHeader state = true → ({ c with nread := (c.nread + 1) % 2 ^ 32 } : HttpParser).Asserts 1 state := by
  intro _
  cases state with
  | chunkSizeStart =>
    obtain ⟨chunked, none⟩ := asserts
    refine ⟨chunked, ?_⟩
    change (c.nread + 1) % 2 ^ 32 = 1
    rw [none]
    rfl
  | _ => exact asserts

theorem asserts_uncounted {state : ParserState} (asserts : c.Asserts 0 state)
    (body : ¬parsingHeader state = true) : c.Asserts 1 state := by
  cases state with
  | chunkSizeStart => exact absurd rfl body
  | _ => exact asserts

theorem executeByte_sound (sound : c.Sound 0) : (c.executeByte ch).Sound := by
  unfold executeByte
  split
  · rename_i header
    extract_lets d
    split
    · trivial
    · exact switch_sound ⟨sound.length, asserts_counted sound.state header⟩
  · rename_i body
    exact switch_sound ⟨sound.length, asserts_uncounted sound.state body⟩

end HttpParser

section
variable {s : Feeding} {text text' : Option DataCallback} {sure sure' : Bool}

theorem Marked.data (marked : Marked text s) {other : DataCallback} (same : text = some other) :
    Marked none (s.data other) := by
  intro place set
  unfold Feeding.data at set
  cases at' : s.marks other with
  | none =>
    rw [at'] at set
    cases same.symm.trans (marked place set)
    cases at' ▸ set
  | some part =>
    simp only [at'] at set
    by_cases here : place = other
    · simp [here] at set
    · rw [Function.update_of_ne here] at set
      cases same.symm.trans (marked place set)
      exact absurd rfl here

theorem Marked.advance (marked : Marked text s) (ch : UInt8) : Marked text (s.advance ch) := by
  intro other set
  exact marked other (by simpa [Feeding.advance] using set)

theorem Marked.perform (marked : Marked text s) (c : HttpParser) (ch : UInt8) {action : ParserAction}
    (tracked : track (text, sure) action = some (text', sure')) :
    Marked text' (s.perform c ch action) := by
  cases action with
  | mark other =>
    simp only [track] at tracked
    split at tracked
    · rename_i fits
      cases tracked
      intro place set
      by_cases here : place = other
      · rw [here]
      · have old := marked place (by simpa [Feeding.perform, Feeding.mark, here] using set)
        rcases fits with none | same
        · cases none.symm.trans old
        · exact same.symm.trans old
    · cases tracked
  | data other =>
    simp only [track] at tracked
    split at tracked
    · rename_i fits
      cases tracked
      exact marked.data fits.1
    · cases tracked
  | dataThrough other =>
    simp only [track] at tracked
    split at tracked
    · rename_i fits
      cases tracked
      exact (marked.advance ch).data fits.1
    · cases tracked
  | messageBegin | headersComplete | messageComplete =>
    simp only [track] at tracked
    split at tracked
    · rename_i none
      cases tracked
      exact none ▸ marked
    · cases tracked

theorem Marked.actions (marked : Marked text s) (c : HttpParser) (ch : UInt8)
    {actions : List ParserAction}
    (tracked : actions.foldlM track (text, sure) = some (text', sure')) :
    Marked text' (s.actions c ch actions) := by
  induction actions generalizing text sure s with
  | nil =>
    cases tracked
    exact marked
  | cons action actions ih =>
    rw [List.foldlM_cons] at tracked
    obtain ⟨⟨between, known⟩, first, rest⟩ := Option.bind_eq_some_iff.mp tracked
    exact ih (marked.perform c ch first) rest

end

/-- No assertion fails while a buffer is read, and what the next buffer needs is kept. -/
theorem executeLoop_sound (data : Bytes) {c : HttpParser} {text : Option DataCallback} {s : Feeding}
    (sound : c.Sound 0) (goes : Goes text c.state) (marked : Marked text s) (n : Nat) :
    ∃ done, executeLoop c s n data = some done ∧
      (done.httpErrno = none → done.parser.Sound 0) := by
  induction data generalizing c text s n with
  | nil => exact ⟨_, if_pos marked.single, fun _ => sound⟩
  | cons ch data ih =>
    have next := @HttpParser.executeByte_sound c ch sound
    have tracks := @HttpParser.executeByte_tracks c ch _ goes
    rw [executeLoop]
    cases outcome : c.executeByte ch with
    | goes c' actions =>
      rw [outcome] at next tracks
      obtain ⟨text', tracked, goes'⟩ := tracks
      exact ih next goes' ((marked.actions c' ch tracked).advance ch) _
    | exits c' actions =>
      rw [outcome] at next
      exact ⟨_, rfl, fun _ => next⟩
    | fails errno actions => exact ⟨_, rfl, fun no => by cases no⟩
    | aborts =>
      rw [outcome] at next
      exact next.elim

theorem exists_goes (state : ParserState) : ∃ text, Goes text state := by
  cases state with
  | headerField => exact ⟨some .headerField, rfl⟩
  | headerValue => exact ⟨some .headerValue, rfl⟩
  | reqUrl url =>
    cases url with
    | spacesBeforeUrl => exact ⟨none, rfl⟩
    | _ => exact ⟨some .url, rfl⟩
  | chunkDataAlmostDone => exact ⟨some .body, rfl⟩
  | chunkData | bodyIdentity => exact ⟨none, Or.inl rfl⟩
  | _ => exact ⟨none, rfl⟩

theorem marked_start {text : Option DataCallback} {state : ParserState} (goes : Goes text state)
    (a : Assembly) :
    Marked text ⟨a, fun other => if markAt state = some other then some [] else none, []⟩ := by
  intro other set
  rw [markAt_eq goes] at set
  by_cases body : text = some .body
  · simp [body] at set
  · simpa [body] using set

def HTTPParser.Sound (p : HTTPParser) : Prop := p.httpErrno = none → p.parser.Sound 0

theorem HTTPParser.feed_sound {p : HTTPParser} (sound : p.Sound) (data : Bytes) :
    ∃ q calls ok, p.feed data = some (q, calls, ok) ∧ q.Sound := by
  unfold feed execute
  cases errno : p.httpErrno with
  | some _ => exact ⟨p, [], _, rfl, sound⟩
  | none =>
    simp only [Option.isSome_none, Bool.false_eq_true, if_false]
    by_cases nothing : data = []
    · rw [if_pos nothing]
      cases p.parser.state with
      | dead | startReq => exact ⟨p, [], _, rfl, sound⟩
      | _ => exact ⟨_, [], _, rfl, fun no => by cases no⟩
    · rw [if_neg nothing]
      obtain ⟨text, goes⟩ := exists_goes p.parser.state
      obtain ⟨done, executed, kept⟩ :=
        executeLoop_sound data (sound errno) goes (marked_start goes p.assembly) 0
      rw [executed]
      exact ⟨_, _, _, rfl, kept⟩

theorem HTTPParser.sound_initial : ({} : HTTPParser).Sound := fun _ => ⟨Nat.zero_le _, trivial⟩

end Pinocchio.Crow
