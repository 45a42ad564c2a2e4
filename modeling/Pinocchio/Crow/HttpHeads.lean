import Pinocchio.Crow.HttpSafety
import Mathlib.Data.List.DropRight

/-! What the parser recognises in the head of a request.

Most bytes call nothing back, so a part of a head is a step of the parser alone. A name is one of those
that are looked for if and only if it ends in their state.
-/

set_option autoImplicit false

namespace Pinocchio.Crow
open Semantics

namespace HttpParser
variable {c : HttpParser} {ch : UInt8}

/-- The parser behind bytes at which nothing is done with the marks and nothing called back. -/
def silent (c : HttpParser) (data : Bytes) : Option HttpParser :=
  data.foldlM (fun c ch =>
    match c.executeByte ch with
    | .goes c' [] => some c'
    | _ => none) c

theorem silent_cons {c' : HttpParser} (step : c.executeByte ch = .goes c' []) (data : Bytes) :
    c.silent (ch :: data) = c'.silent data := by
  unfold silent
  rw [List.foldlM_cons, step]
  rfl

theorem silent_append {c' : HttpParser} {a : Bytes} (first : c.silent a = some c') (b : Bytes) :
    c.silent (a ++ b) = c'.silent b := by
  unfold silent at first ⊢
  rw [List.foldlM_append, first]
  rfl

theorem silent_of {P : Bytes → HttpParser → Prop} {data : Bytes} (start : P [] c)
    (step : ∀ w ch rest d, data = w ++ ch :: rest → P w d →
      ∃ d', d.executeByte ch = .goes d' [] ∧ P (w ++ [ch]) d') :
    ∃ d, c.silent data = some d ∧ P data d := by
  suffices later : ∀ rest w d, data = w ++ rest → P w d → ∃ d', d.silent rest = some d' ∧ P data d' from
    later data [] c rfl start
  intro rest
  induction rest with
  | nil =>
    intro w d whole at'
    rw [List.append_nil] at whole
    exact ⟨d, rfl, whole ▸ at'⟩
  | cons ch rest ih =>
    intro w d whole at'
    obtain ⟨d', taken, next⟩ := step w ch rest d whole at'
    obtain ⟨e, ran, last⟩ := ih (w ++ [ch]) d' (by rw [whole, List.append_assoc]; rfl) next
    exact ⟨e, (silent_cons taken rest).trans ran, last⟩

theorem executeByte_counted {s : ParserState} (state : c.state = s) (header : parsingHeader s = true)
    (fits : c.nread < httpMaxHeaderSize) (ch : UInt8) :
    c.executeByte ch = ({ c with nread := c.nread + 1, state := s } : HttpParser).switch ch := by
  subst state
  have small : (c.nread + 1) % 2 ^ 32 = c.nread + 1 := by
    unfold httpMaxHeaderSize at fits
    omega
  have within : ¬c.nread + 1 > httpMaxHeaderSize := by omega
  unfold executeByte
  simp only [if_pos header, small, if_neg within]

end HttpParser

/-! ## Headings -/

/-- What most bytes of a head leave as it is, but for the count of them. -/
structure Heading where
  method : ParserMethod
  httpMajor : Nat
  httpMinor : Nat
  contentLength : Nat
  flags : Flags
  nread : Nat

def Heading.later (h : Heading) (n : Nat) : Heading := { h with nread := h.nread + n }

theorem Heading.later_later (h : Heading) (m n : Nat) : (h.later m).later n = h.later (m + n) := by
  simp only [later, Nat.add_assoc]

@[simp] theorem Heading.later_zero (h : Heading) : h.later 0 = h := rfl

def HttpParser.heading (c : HttpParser) : Heading :=
  ⟨c.method, c.httpMajor, c.httpMinor, c.contentLength, c.flags, c.nread⟩

/-! ## Methods -/

namespace HttpParser
variable {c : HttpParser} {ch : UInt8}

def methodStep (s : ParserMethod × Nat) (ch : UInt8) : Option (ParserMethod × Nat) :=
  match ({ method := s.1, index := s.2, state := .reqMethod } : HttpParser).reqMethod ch with
  | .goes c [] => if c.state = .reqMethod then some (c.method, c.index) else none
  | _ => none

theorem reqMethod_step {s : ParserMethod × Nat} (step : methodStep (c.method, c.index) ch = some s) :
    c.reqMethod ch = .goes { c with method := s.1, index := s.2 } [] := by
  unfold methodStep reqMethod at step
  unfold reqMethod
  extract_lets matcher at step ⊢
  split at step
  · rename_i d found
    split at found
    · cases found
    split at found
    · cases found
      cases step
    split at found
    · rename_i valid notEnd same
      cases found
      cases step
      rw [if_neg valid, if_neg notEnd, if_pos same]
    split at found
    · rename_i valid notEnd other _ method becomes
      cases found
      cases step
      rw [if_neg valid, if_neg notEnd, if_neg other]
      simp only [becomes]
    · cases found
  · cases step

theorem method_silent (data : Bytes) {s : ParserMethod × Nat} (state : c.state = .reqMethod)
    (fits : c.nread + data.length ≤ httpMaxHeaderSize)
    (steps : data.foldlM methodStep (c.method, c.index) = some s) :
    c.silent data = some { c with method := s.1, index := s.2, nread := c.nread + data.length } := by
  induction data generalizing c with
  | nil =>
    cases steps
    rfl
  | cons ch data ih =>
    rw [List.length_cons] at fits ⊢
    rw [List.foldlM_cons] at steps
    obtain ⟨t, step, rest⟩ := Option.bind_eq_some_iff.mp steps
    have counted := executeByte_counted state rfl (by omega) ch
    have taken := @reqMethod_step { c with nread := c.nread + 1, state := .reqMethod } ch t step
    have executed := counted.trans taken
    rw [silent_cons executed]
    rw [ih rfl (by simp only []; omega) rest, ← state]
    simp only [Nat.add_assoc, Nat.add_comm 1]

theorem methodStep_string (m : ParserMethod) :
    ((m.string.head?.bind firstMethod).bind fun first => m.string.tail.foldlM methodStep (first, 1)) =
      some (m, m.string.length) := by
  cases m <;> decide

/-! ## URLs -/

theorem foldl_dead (url : Bytes) : url.foldl Http.parseUrlChar .dead = .dead := by
  induction url with
  | nil => rfl
  | cons ch url ih =>
    have stays : Http.parseUrlChar .dead ch = .dead := by
      unfold Http.parseUrlChar
      split <;> rfl
    rw [List.foldl_cons, stays]
    exact ih

theorem not_blank {url : Http.UrlState} (alive : Http.parseUrlChar url ch ≠ .dead) :
    ch ≠ sp ∧ ch ≠ cr ∧ ch ≠ lf := by
  have blank : ch ∉ ([32, 13, 10, 9, 12] : Bytes) := by
    intro member
    refine alive ?_
    unfold Http.parseUrlChar
    exact if_pos member
  simp only [List.mem_cons, not_or] at blank
  exact ⟨blank.1, blank.2.1, blank.2.2.1⟩

theorem urlChar_alive {url : Http.UrlState} (alive : Http.parseUrlChar url ch ≠ .dead)
    (actions : List ParserAction) :
    c.urlChar url ch actions = .goes { c with state := .reqUrl (Http.parseUrlChar url ch) } actions := by
  unfold urlChar
  exact if_neg alive

theorem reqUrl_first (method : c.method ≠ .connect)
    (alive : Http.parseUrlChar .spacesBeforeUrl ch ≠ .dead) :
    c.reqUrl .spacesBeforeUrl ch =
      .goes { c with state := .reqUrl (Http.parseUrlChar .spacesBeforeUrl ch) } [.mark .url] := by
  unfold reqUrl
  simp only [if_neg (not_blank alive).1, if_neg method]
  exact urlChar_alive alive _

theorem reqUrl_char {url : Http.UrlState} (begun : url ≠ .spacesBeforeUrl)
    (alive : Http.parseUrlChar url ch ≠ .dead) :
    c.reqUrl url ch = .goes { c with state := .reqUrl (Http.parseUrlChar url ch) } [] := by
  obtain ⟨notSp, notCr, notLf⟩ := not_blank alive
  have noEnd : ¬(ch = cr ∨ ch = lf) := fun ends => ends.elim notCr notLf
  have noBlank : ¬(ch = sp ∨ ch = cr ∨ ch = lf) := fun ends => ends.elim notSp noEnd
  unfold reqUrl
  cases url with
  | spacesBeforeUrl => exact absurd rfl begun
  | schema | schemaSlash | schemaSlashSlash | serverStart =>
    simp only [if_neg noBlank]
    exact urlChar_alive alive _
  | _ =>
    simp only [if_neg notSp, if_neg noEnd]
    exact urlChar_alive alive _

theorem reqUrl_end {url : Http.UrlState} (ends : url.ends = true) :
    c.reqUrl url sp = .goes { c with state := .reqHttpStart } [.data .url] := by
  unfold reqUrl
  cases url <;> first | rfl | cases ends

theorem url_silent (data : Bytes) {url : Http.UrlState} (state : c.state = .reqUrl url)
    (begun : url ≠ .spacesBeforeUrl) (fits : c.nread + data.length ≤ httpMaxHeaderSize)
    (alive : data.foldl Http.parseUrlChar url ≠ .dead) :
    c.silent data = some { c with
      state := .reqUrl (data.foldl Http.parseUrlChar url), nread := c.nread + data.length } := by
  induction data generalizing c url with
  | nil =>
    rw [List.foldl_nil, ← state]
    rfl
  | cons ch data ih =>
    rw [List.length_cons] at fits ⊢
    rw [List.foldl_cons] at alive ⊢
    have next : Http.parseUrlChar url ch ≠ .dead := by
      intro dead
      rw [dead] at alive
      exact alive (foldl_dead data)
    have counted := executeByte_counted state rfl (by omega) ch
    have here : ({ c with nread := c.nread + 1, state := .reqUrl url } : HttpParser).switch ch =
        ({ c with nread := c.nread + 1, state := .reqUrl url } : HttpParser).reqUrl url ch := by
      cases url with
      | dead => cases alive ((List.foldl_cons ..).symm.trans (foldl_dead (ch :: data)))
      | _ => rfl
    rw [silent_cons (counted.trans (here.trans (reqUrl_char begun next)))]
    have later := @ih { c with nread := c.nread + 1, state := .reqUrl (Http.parseUrlChar url ch) } _ rfl
      (parseUrlChar_ne url ch) (by simp only []; omega) alive
    rw [later]
    simp only [Nat.add_assoc, Nat.add_comm 1]

/-! ## Versions -/

theorem silent_byte {s : ParserState} {d : HttpParser} (state : c.state = s)
    (header : parsingHeader s = true) (fits : c.nread < httpMaxHeaderSize)
    (step : ({ c with nread := c.nread + 1, state := s } : HttpParser).switch ch = .goes d [])
    (data : Bytes) : c.silent (ch :: data) = d.silent data :=
  silent_cons ((executeByte_counted state header fits ch).trans step) data

theorem version_silent (state : c.state = .reqHttpStart) (fits : c.nread + 10 ≤ httpMaxHeaderSize) :
    c.silent (ascii "HTTP/1.1" ++ crlf) = some { c with
      state := .headerFieldStart, httpMajor := 1, httpMinor := 1, nread := c.nread + 10 } := by
  have bytes : ascii "HTTP/1.1" ++ crlf = [72, 84, 84, 80, 47, 49, 46, 49, 13, 10] := by
    decide
  rw [bytes, silent_byte state rfl (by omega) rfl, silent_byte rfl rfl (by simp only []; omega) rfl,
    silent_byte rfl rfl (by simp only []; omega) rfl, silent_byte rfl rfl (by simp only []; omega) rfl,
    silent_byte rfl rfl (by simp only []; omega) rfl, silent_byte rfl rfl (by simp only []; omega) rfl,
    silent_byte rfl rfl (by simp only []; omega) rfl, silent_byte rfl rfl (by simp only []; omega) rfl,
    silent_byte rfl rfl (by simp only []; omega) rfl, silent_byte rfl rfl (by simp only []; omega) rfl]
  rfl

/-! ## Names of headers -/

def nameStart (ch : UInt8) : HeaderState × Nat :=
  match ({} : HttpParser).headerFieldStart ch with
  | .goes c _ => (c.headerState, c.index)
  | _ => (.general, 0)

def nameStep (s : HeaderState × Nat) (ch : UInt8) : HeaderState × Nat :=
  match ({ headerState := s.1, index := s.2 } : HttpParser).headerField ch with
  | .goes c _ => (c.headerState, c.index)
  | _ => s

def nameOf : Bytes → HeaderState × Nat
  | [] => (.general, 0)
  | ch :: name => name.foldl nameStep (nameStart ch)

theorem not_token : token sp = 0 ∧ token tab = 0 ∧ token cr = 0 ∧ token lf = 0 ∧ token 58 = 0 := by
  decide

theorem headerFieldStart_name (valid : token ch ≠ 0) :
    c.headerFieldStart ch = .goes { c with
      state := .headerField, headerState := (nameStart ch).1, index := (nameStart ch).2 }
      [.mark .headerField] := by
  have notCr : ch ≠ cr := fun same => valid (same ▸ not_token.2.2.1)
  have notLf : ch ≠ lf := fun same => valid (same ▸ not_token.2.2.2.1)
  unfold nameStart headerFieldStart
  rw [if_neg notCr, if_neg notCr, if_neg notLf, if_neg notLf]
  extract_lets t headerState
  rw [if_neg valid, if_neg valid]

theorem headerField_name (names : naming c.headerState = true) (valid : token ch ≠ 0) :
    c.headerField ch = .goes { c with
      headerState := (nameStep (c.headerState, c.index) ch).1
      index := (nameStep (c.headerState, c.index) ch).2 } [] := by
  obtain ⟨flags, state, headerState, index, nread, contentLength, httpMajor, httpMinor, method, upgrade⟩ := c
  have notSp : ch ≠ sp := fun same => valid (same ▸ not_token.1)
  unfold nameStep headerField
  extract_lets t
  rw [if_pos valid, if_pos valid]
  cases headerState with
  | connection | contentLength | transferEncoding | upgrade =>
    simp only [if_pos notSp]
  | matchingTransferEncodingChunked | matchingConnectionKeepAlive | matchingConnectionClose
  | transferEncodingChunked | connectionKeepAlive | connectionClose => cases names
  | _ => rfl

/-- A name was begun, and its last byte is at this place. -/
def Within (name w : Bytes) (index : Nat) : Prop :=
  w <+: name ∧ w.length = index + 1 ∧ w.length < name.length

theorem matching_cases {name w : Bytes} (t : UInt8) (whole : HeaderState)
    (within : Within name w c.index) :
    (c.matching name t whole).headerState = .general ∨
      (c.matching name t whole).headerState = whole ∧ w ++ [t] = name ∨
      (c.matching name t whole).headerState = c.headerState ∧
        Within name (w ++ [t]) (c.matching name t whole).index := by
  obtain ⟨⟨rest, rfl⟩, length, more⟩ := within
  cases rest with
  | nil => simp at more
  | cons d rest =>
    have here : (w ++ d :: rest).getD (c.index + 1) 0 = d := by
      rw [← length]
      simp
    have inside : ¬c.index + 1 > (w ++ d :: rest).length := by omega
    unfold matching
    simp only [here, inside, false_or]
    by_cases same : t = d
    · subst same
      by_cases last : c.index + 1 = (w ++ t :: rest).length - 1
      · right; left
        rw [List.length_append, List.length_cons] at last
        have none : rest = [] := List.length_eq_zero_iff.mp (by omega)
        simp [none, length]
      · right; right
        rw [List.length_append, List.length_cons] at last
        refine ⟨?_, ⟨rest, by simp⟩, ?_, ?_⟩
        · rw [if_neg (by simp), if_neg (by simp; omega)]
        · simp [length]
        · simp
          omega
    · left
      rw [if_pos same]

/-- What was read of a name in each of its states, in lower case. -/
def Recognised (w : Bytes) (s : HeaderState × Nat) : Prop :=
  match s.1 with
  | .general => True
  | .c => w = ascii "c" ∧ s.2 = 0
  | .co => w = ascii "co" ∧ s.2 = 1
  | .con => w = ascii "con" ∧ s.2 = 2
  | .matchingConnection => Within (ascii "connection") w s.2
  | .matchingProxyConnection => Within (ascii "proxy-connection") w s.2
  | .matchingContentLength => Within (ascii "content-length") w s.2
  | .matchingTransferEncoding => Within (ascii "transfer-encoding") w s.2
  | .matchingUpgrade => Within (ascii "upgrade") w s.2
  | .connection => w = ascii "connection" ∨ w = ascii "proxy-connection"
  | .contentLength => w = ascii "content-length"
  | .transferEncoding => w = ascii "transfer-encoding"
  | .upgrade => w = ascii "upgrade"
  | _ => False

theorem Recognised.naming {w : Bytes} {s : HeaderState × Nat} (recognised : Recognised w s) :
    naming s.1 = true := by
  obtain ⟨headerState, index⟩ := s
  cases headerState <;> first | rfl | cases recognised

theorem nameStart_recognised (valid : token ch ≠ 0) : Recognised [token ch] (nameStart ch) := by
  have notCr : ch ≠ cr := fun same => valid (same ▸ not_token.2.2.1)
  have notLf : ch ≠ lf := fun same => valid (same ▸ not_token.2.2.2.1)
  unfold nameStart headerFieldStart
  rw [if_neg notCr, if_neg notLf]
  extract_lets t headerState
  rw [if_neg valid]
  change Recognised [t] (headerState, 0)
  unfold headerState
  split
  · rename_i same
    rw [same]
    exact ⟨by decide, rfl⟩
  split
  · rename_i same
    rw [same]
    exact ⟨by decide, rfl, by decide⟩
  split
  · rename_i same
    rw [same]
    exact ⟨by decide, rfl, by decide⟩
  split
  · rename_i same
    rw [same]
    exact ⟨by decide, rfl, by decide⟩
  · trivial

theorem matching_recognised {name w : Bytes} {t : UInt8} {whole : HeaderState}
    (within : Within name w c.index)
    (goesOn : ∀ index, Within name (w ++ [t]) index → Recognised (w ++ [t]) (c.headerState, index))
    (ends : ∀ index, Recognised name (whole, index)) :
    Recognised (w ++ [t])
      ((c.matching name t whole).headerState, (c.matching name t whole).index) := by
  rcases matching_cases t whole within with general | ⟨is, same⟩ | ⟨is, within⟩
  · rw [general]
    trivial
  · rw [is, same]
    exact ends _
  · rw [is]
    exact goesOn _ within

theorem nameStep_recognised {w : Bytes} {s : HeaderState × Nat} (recognised : Recognised w s)
    (valid : token ch ≠ 0) : Recognised (w ++ [token ch]) (nameStep s ch) := by
  obtain ⟨headerState, index⟩ := s
  have notSp : ch ≠ sp := fun same => valid (same ▸ not_token.1)
  unfold nameStep headerField
  extract_lets t
  rw [if_pos valid]
  cases headerState with
  | general => trivial
  | c =>
    obtain ⟨rfl, rfl⟩ := recognised
    change Recognised _ (if t = 'o'.toUInt8 then HeaderState.co else .general, 0 + 1)
    split
    · rename_i same
      rw [show token ch = 'o'.toUInt8 from same]
      exact ⟨by decide, rfl⟩
    · trivial
  | co =>
    obtain ⟨rfl, rfl⟩ := recognised
    change Recognised _ (if t = 'n'.toUInt8 then HeaderState.con else .general, 1 + 1)
    split
    · rename_i same
      rw [show token ch = 'n'.toUInt8 from same]
      exact ⟨by decide, rfl⟩
    · trivial
  | con =>
    obtain ⟨rfl, rfl⟩ := recognised
    change Recognised _ (if t = 'n'.toUInt8 then HeaderState.matchingConnection
      else if t = 't'.toUInt8 then .matchingContentLength else .general, 2 + 1)
    split
    · rename_i same
      rw [show token ch = 'n'.toUInt8 from same]
      exact ⟨by decide, rfl, by decide⟩
    split
    · rename_i same
      rw [show token ch = 't'.toUInt8 from same]
      exact ⟨by decide, rfl, by decide⟩
    · trivial
  | matchingConnection => exact matching_recognised recognised (fun _ within => within) fun _ => .inl rfl
  | matchingProxyConnection =>
    exact matching_recognised recognised (fun _ within => within) fun _ => .inr rfl
  | matchingContentLength | matchingTransferEncoding | matchingUpgrade =>
    exact matching_recognised recognised (fun _ within => within) fun _ => rfl
  | connection | contentLength | transferEncoding | upgrade =>
    simp only [if_pos notSp]
    trivial
  | _ => cases recognised

theorem name_recognised {name : Bytes} (valid : ∀ c ∈ name, token c ≠ 0) :
    Recognised (name.map token) (nameOf name) := by
  have steps (rest w : Bytes) (s : HeaderState × Nat) (recognised : Recognised w s)
      (valid : ∀ c ∈ rest, token c ≠ 0) : Recognised (w ++ rest.map token) (rest.foldl nameStep s) := by
    induction rest generalizing w s with
    | nil => simpa using recognised
    | cons ch rest ih =>
      have next := ih (w ++ [token ch]) (nameStep s ch)
        (nameStep_recognised recognised (valid ch List.mem_cons_self))
        fun c member => valid c (List.mem_cons_of_mem _ member)
      rwa [List.append_assoc] at next
  cases name with
  | nil => trivial
  | cons ch rest =>
    exact steps rest [token ch] _ (nameStart_recognised (valid ch List.mem_cons_self))
      fun c member => valid c (List.mem_cons_of_mem _ member)

theorem token_token (ch : UInt8) : token (token ch) = token ch := by
  revert ch
  exact forall_byte (by decide +kernel)

theorem nameStart_token (ch : UInt8) (valid : token ch ≠ 0) : nameStart (token ch) = nameStart ch := by
  revert ch
  exact forall_byte (by decide +kernel)

theorem nameStep_token (s : HeaderState × Nat) (valid : token ch ≠ 0) :
    nameStep s (token ch) = nameStep s ch := by
  have valid' : token (token ch) ≠ 0 := by rwa [token_token]
  have notSp : ch ≠ sp := fun same => valid (same ▸ not_token.1)
  have notSp' : token ch ≠ sp := fun same => valid' (same ▸ not_token.1)
  obtain ⟨headerState, index⟩ := s
  unfold nameStep headerField
  extract_lets t t'
  rw [if_pos valid, if_pos valid', show t = t' from token_token ch]
  cases headerState with
  | connection | contentLength | transferEncoding | upgrade =>
    simp only [if_pos notSp, if_pos notSp']
  | _ => rfl

theorem nameOf_token {name : Bytes} (valid : ∀ c ∈ name, token c ≠ 0) :
    nameOf (name.map token) = nameOf name := by
  have steps (rest : Bytes) (s : HeaderState × Nat) (valid : ∀ c ∈ rest, token c ≠ 0) :
      (rest.map token).foldl nameStep s = rest.foldl nameStep s := by
    induction rest generalizing s with
    | nil => rfl
    | cons ch rest ih =>
      rw [List.map_cons, List.foldl_cons, List.foldl_cons,
        nameStep_token s (valid ch List.mem_cons_self)]
      exact ih _ fun c member => valid c (List.mem_cons_of_mem _ member)
  cases name with
  | nil => rfl
  | cons ch rest =>
    rw [List.map_cons, nameOf, nameOf, nameStart_token ch (valid ch List.mem_cons_self)]
    exact steps rest _ fun c member => valid c (List.mem_cons_of_mem _ member)

theorem nameOf_iff {name : Bytes} (valid : ∀ c ∈ name, token c ≠ 0) :
    ((nameOf name).1 = .connection ↔
        name.map token = ascii "connection" ∨ name.map token = ascii "proxy-connection") ∧
      ((nameOf name).1 = .contentLength ↔ name.map token = ascii "content-length") ∧
      ((nameOf name).1 = .transferEncoding ↔ name.map token = ascii "transfer-encoding") ∧
      ((nameOf name).1 = .upgrade ↔ name.map token = ascii "upgrade") := by
  have recognised := name_recognised valid
  have known {text : Bytes} {s : HeaderState} (same : name.map token = text) (ends : (nameOf text).1 = s) :
      (nameOf name).1 = s := by
    rw [← nameOf_token valid, same]
    exact ends
  have told {s : HeaderState} (ends : (nameOf name).1 = s) :
      Recognised (name.map token) (s, (nameOf name).2) := by
    rw [← ends]
    exact recognised
  refine ⟨⟨fun ends => told ends, fun same => ?_⟩, ⟨fun ends => told ends, fun same => ?_⟩,
    ⟨fun ends => told ends, fun same => ?_⟩, ⟨fun ends => told ends, fun same => ?_⟩⟩
  · rcases same with same | same
    · exact known same (by decide)
    · exact known same (by decide)
  · exact known same (by decide)
  · exact known same (by decide)
  · exact known same (by decide)

theorem name_silent (data : Bytes) {s : HeaderState × Nat} {w : Bytes} (state : c.state = .headerField)
    (recognised : Recognised w (c.headerState, c.index))
    (fits : c.nread + data.length ≤ httpMaxHeaderSize) (valid : ∀ c ∈ data, token c ≠ 0)
    (steps : data.foldl nameStep (c.headerState, c.index) = s) :
    c.silent data =
      some { c with headerState := s.1, index := s.2, nread := c.nread + data.length } := by
  induction data generalizing c w with
  | nil =>
    cases steps
    rfl
  | cons ch data ih =>
    rw [List.length_cons] at fits ⊢
    have first := valid ch List.mem_cons_self
    have counted := executeByte_counted state rfl (by omega) ch
    have taken := @headerField_name { c with nread := c.nread + 1, state := .headerField } ch
      recognised.naming first
    rw [silent_cons (counted.trans taken),
      ih rfl (nameStep_recognised recognised first) (by simp only []; omega)
        (fun d member => valid d (List.mem_cons_of_mem _ member)) steps, ← state]
    simp only [Nat.add_assoc, Nat.add_comm 1]

/-! ## Values of headers -/

/-- A value that asks for the end of a connection. -/
def closes (value : Bytes) : Bool :=
  (value.take 5).map lower = ascii "close" && (value.drop 5).all (· = sp)

/-- What was read of a value in its states. -/
def Calm (w : Bytes) (s : HeaderState × Nat) : Prop :=
  match s.1 with
  | .general | .matchingConnectionKeepAlive | .connectionKeepAlive => True
  | .matchingConnectionClose => Within (ascii "close") (w.map lower) s.2
  | .connectionClose => closes w = true
  | _ => False

theorem closes_of_eq {w : Bytes} (same : w.map lower = ascii "close") : closes w = true := by
  have length : w.length = 5 := by
    have := congrArg List.length same
    rw [List.length_map] at this
    exact this.trans (by decide)
  unfold closes
  rw [List.take_of_length_le (by omega), List.drop_of_length_le (by omega), same]
  simp

theorem closes_sp {w : Bytes} (ends : closes w = true) : closes (w ++ [sp]) = true := by
  unfold closes at ends ⊢
  simp only [Bool.and_eq_true, decide_eq_true_eq] at ends ⊢
  obtain ⟨word, blanks⟩ := ends
  have long : 5 ≤ w.length := by
    have := congrArg List.length word
    rw [List.length_map, List.length_take, show (ascii "close").length = 5 by decide] at this
    omega
  rw [List.take_append_of_le_length long, List.drop_append_of_le_length long]
  exact ⟨word, by simpa using blanks⟩

def quietValue (ch : UInt8) : Prop := ch ≠ cr ∧ ch ≠ lf

theorem headerValue_calm {w : Bytes} (calm : Calm w (c.headerState, c.index)) (quiet : quietValue ch) :
    ∃ headerState index, c.headerValue ch = .goes { c with headerState, index } [] ∧
      Calm (w ++ [ch]) (headerState, index) ∧
        (c.headerState = .general → headerState = .general) := by
  obtain ⟨flags, state, headerState, index, nread, contentLength, httpMajor, httpMinor, method, upgrade⟩ := c
  unfold headerValue
  rw [if_neg quiet.1, if_neg quiet.2]
  cases headerState with
  | general => exact ⟨.general, index, rfl, trivial, fun _ => rfl⟩
  | matchingConnectionKeepAlive =>
    let d : HttpParser := ⟨flags, state, .matchingConnectionKeepAlive, index, nread, contentLength,
      httpMajor, httpMinor, method, upgrade⟩
    let e := d.matching (ascii "keep-alive") (lower ch) .connectionKeepAlive
    refine ⟨e.headerState, e.index, rfl, ?_, fun no => by cases no⟩
    unfold e matching
    simp only []
    split
    · trivial
    split <;> trivial
  | matchingConnectionClose =>
    let d : HttpParser := ⟨flags, state, .matchingConnectionClose, index, nread, contentLength,
      httpMajor, httpMinor, method, upgrade⟩
    let e := d.matching (ascii "close") (lower ch) .connectionClose
    refine ⟨e.headerState, e.index, rfl, ?_, fun no => by cases no⟩
    have within : Within (ascii "close") (w.map lower) d.index := calm
    rcases matching_cases (lower ch) .connectionClose within with general | ⟨is, same⟩ | ⟨is, within⟩
    · rw [show e.headerState = .general from general]
      trivial
    · rw [show e.headerState = .connectionClose from is]
      exact closes_of_eq (by simpa using same)
    · rw [show e.headerState = .matchingConnectionClose from is]
      change Within _ ((w ++ [ch]).map lower) _
      rw [List.map_append]
      exact within
  | connectionKeepAlive =>
    by_cases blank : ch = sp
    · exact ⟨.connectionKeepAlive, index, by simp [blank], trivial, fun no => by cases no⟩
    · exact ⟨.general, index, by simp [blank], trivial, fun _ => rfl⟩
  | connectionClose =>
    by_cases blank : ch = sp
    · subst blank
      exact ⟨.connectionClose, index, by simp, closes_sp calm, fun no => by cases no⟩
    · exact ⟨.general, index, by simp [blank], trivial, fun _ => rfl⟩
  | _ => cases calm

/-- A value is read from its first byte to its last one. -/
def Values (c : HttpParser) (value : Bytes) (d : HttpParser) : Prop :=
  ∃ ch rest first, value = ch :: rest ∧ c.executeByte ch = .goes first [.mark .headerValue] ∧
    first.silent rest = some d

/-- The text of a value that is read as it is. -/
def ValidValue (value : Bytes) : Prop :=
  value ≠ [] ∧ value.head? ≠ some sp ∧ value.head? ≠ some tab ∧ cr ∉ value ∧ lf ∉ value

instance (value : Bytes) : Decidable (ValidValue value) := inferInstanceAs (Decidable (_ ∧ _))

def framing : HeaderState → Bool
  | .contentLength | .transferEncoding | .upgrade => true
  | _ => false

theorem headerValueStart_calm (plain : framing c.headerState = false) :
    ∃ headerState index, c.headerValueStart ch =
      .goes { c with state := .headerValue, headerState, index } [.mark .headerValue] ∧
      Calm [ch] (headerState, index) ∧ (c.headerState ≠ .connection → headerState = .general) := by
  obtain ⟨flags, state, headerState, index, nread, contentLength, httpMajor, httpMinor, method, upgrade⟩ := c
  unfold headerValueStart
  cases headerState with
  | contentLength | transferEncoding | upgrade => cases plain
  | connection =>
    refine ⟨_, _, rfl, ?_, fun no => absurd rfl no⟩
    split
    · trivial
    split
    · rename_i same
      change Within _ [lower ch] 0
      rw [same]
      exact ⟨by decide, rfl, by decide⟩
    · trivial
  | _ => exact ⟨.general, 0, rfl, trivial, fun _ => rfl⟩

/-- What a header has said when it ends. -/
def flagged (s : HeaderState) (flags : Flags) : Flags :=
  match s with
  | .connectionKeepAlive => { flags with connectionKeepAlive := true }
  | .connectionClose => { flags with connectionClose := true }
  | .transferEncodingChunked => { flags with chunked := true }
  | _ => flags

def settled (c : HttpParser) : Heading := { c.heading with flags := flagged c.headerState c.flags }

theorem executeByte_value {rest : Bytes} (valid : ValidValue (ch :: rest))
    (state : c.state = .headerValueDiscardWs) (fits : c.nread < httpMaxHeaderSize) :
    c.executeByte ch =
      ({ c with nread := c.nread + 1, state := .headerValueDiscardWs } : HttpParser).headerValueStart ch := by
  obtain ⟨_, notSp, notTab, noCr, noLf⟩ := valid
  have notBlank : ¬(ch = sp ∨ ch = tab) :=
    fun blank => blank.elim (fun same => notSp (by rw [same]; rfl)) fun same => notTab (by rw [same]; rfl)
  have notCr : ch ≠ cr := fun same => noCr (same ▸ List.mem_cons_self)
  have notLf : ch ≠ lf := fun same => noLf (same ▸ List.mem_cons_self)
  refine (executeByte_counted state rfl fits ch).trans ?_
  change headerValueDiscardWs _ ch = _
  unfold headerValueDiscardWs
  rw [if_neg notBlank, if_neg notCr, if_neg notLf]

theorem Values.plain {value : Bytes} (valid : ValidValue value) (state : c.state = .headerValueDiscardWs)
    (plain : framing c.headerState = false) (fits : c.nread + value.length ≤ httpMaxHeaderSize)
    (stays : c.headerState = .connection → closes value = false) :
    ∃ d connectionKeepAlive, Values c value d ∧ d.state = .headerValue ∧
      d.settled = { c.heading.later value.length with
        flags := { c.flags with connectionKeepAlive } } := by
  cases value with
  | nil => exact absurd rfl valid.1
  | cons ch rest =>
    rw [List.length_cons] at fits ⊢
    have executed := executeByte_value valid state (by omega)
    obtain ⟨first, index, taken, calm, general⟩ := @headerValueStart_calm
      { c with nread := c.nread + 1, state := .headerValueDiscardWs } ch plain
    let P (w : Bytes) (d : HttpParser) : Prop :=
      d.state = .headerValue ∧ d.heading = c.heading.later (w.length + 1) ∧
        Calm (ch :: w) (d.headerState, d.index) ∧
          (c.headerState ≠ .connection → d.headerState = .general)
    obtain ⟨d, ran, state', heading, calm, general⟩ := @silent_of
      { c with nread := c.nread + 1, state := .headerValue, headerState := first, index } P rest
      ⟨rfl, rfl, calm, general⟩ (by
        rintro w b more d whole ⟨state, heading, calm, general⟩
        have quiet : quietValue b := by
          have member : b ∈ ch :: rest := by rw [whole]; simp
          exact ⟨fun same => valid.2.2.2.1 (same ▸ member), fun same => valid.2.2.2.2 (same ▸ member)⟩
        have counted : d.nread = c.nread + (w.length + 1) := congrArg Heading.nread heading
        have length := congrArg List.length whole
        rw [List.length_append, List.length_cons] at length
        obtain ⟨next, index, taken, calm, general'⟩ :=
          @headerValue_calm { d with nread := d.nread + 1, state := .headerValue } b _ calm quiet
        refine ⟨_, (executeByte_counted state rfl (by omega) b).trans taken, rfl, ?_, calm,
          fun other => general' (general other)⟩
        rw [List.length_append]
        change d.heading.later 1 = _
        rw [heading, Heading.later_later]
        rfl)
    have close : d.headerState ≠ .connectionClose := by
      intro close
      by_cases connection : c.headerState = .connection
      · rw [close] at calm
        cases (show closes (ch :: rest) = true from calm).symm.trans (stays connection)
      · cases close.symm.trans (general connection)
    have flags : d.flags = c.flags := congrArg Heading.flags heading
    refine ⟨d, (flagged d.headerState d.flags).connectionKeepAlive,
      ⟨ch, rest, _, rfl, executed.trans taken, ran⟩, state', ?_⟩
    unfold settled
    rw [heading, flags]
    generalize d.headerState = s at calm close
    cases s <;> first | rfl | cases calm | exact absurd rfl close

/-! The values that say how long a body is. -/

theorem digitsValue_append (w : Bytes) (b : UInt8) :
    digitsValue (w ++ [b]) = 10 * digitsValue w + (b.toNat - 48) := by
  unfold digitsValue
  rw [List.foldl_append]
  rfl

theorem digitsValue_le (w rest : Bytes) : digitsValue w ≤ digitsValue (w ++ rest) := by
  induction rest generalizing w with
  | nil => simp
  | cons b rest ih =>
    have next := ih (w ++ [b])
    rw [List.append_assoc, digitsValue_append] at next
    rw [show w ++ b :: rest = w ++ ([b] ++ rest) from rfl]
    omega

theorem decimal_valid (n : Nat) : ValidValue (decimal n) := by
  have free {c : UInt8} (other : isDigit c = false) : c ∉ decimal n := by
    intro member
    cases other.symm.trans (isDigit_of_mem_decimal member)
  have head {c : UInt8} (other : isDigit c = false) : (decimal n).head? ≠ some c := by
    intro same
    exact free other (List.mem_of_mem_head? same)
  exact ⟨decimal_ne_nil n, head (by decide), head (by decide), free (by decide), free (by decide)⟩

theorem Values.contentLength {n : Nat} (fitting : n ≤ noLength - 10)
    (state : c.state = .headerValueDiscardWs) (framing : c.headerState = .contentLength)
    (fits : c.nread + (decimal n).length ≤ httpMaxHeaderSize) :
    ∃ d, Values c (decimal n) d ∧ d.state = .headerValue ∧
      d.settled = { c.heading.later (decimal n).length with contentLength := n } := by
  have valid := decimal_valid n
  have digits : ∀ b ∈ decimal n, isDigit b = true := fun b member => isDigit_of_mem_decimal member
  have value := digitsValue_decimal n
  generalize decimal n = numeral at *
  cases numeral with
  | nil => exact absurd rfl valid.1
  | cons ch rest =>
    rw [List.length_cons] at fits ⊢
    have executed := executeByte_value valid state (by omega)
    have taken : ({ c with nread := c.nread + 1, state := .headerValueDiscardWs } :
        HttpParser).headerValueStart ch = .goes { c with
          nread := c.nread + 1, state := .headerValue, index := 0, contentLength := ch.toNat - 48 }
          [.mark .headerValue] := by
      unfold headerValueStart
      extract_lets d l marked
      simp only [d, framing, digits ch List.mem_cons_self]
      rfl
    let P (w : Bytes) (d : HttpParser) : Prop :=
      d.state = .headerValue ∧ d.headerState = .contentLength ∧
        d.heading = { c.heading.later (w.length + 1) with contentLength := digitsValue (ch :: w) }
    obtain ⟨d, ran, state', framing', heading⟩ := @silent_of
      { c with nread := c.nread + 1, state := .headerValue, index := 0, contentLength := ch.toNat - 48 }
      P rest ⟨rfl, framing, by simp [heading, Heading.later, digitsValue]⟩ (by
        rintro w b more d whole ⟨state, framing, heading⟩
        have member : b ∈ ch :: rest := by rw [whole]; simp
        have digit := digits b member
        have notCr : b ≠ cr := fun same => valid.2.2.2.1 (same ▸ member)
        have notLf : b ≠ lf := fun same => valid.2.2.2.2 (same ▸ member)
        have notSp : b ≠ sp := by
          rintro rfl
          cases digit
        have counted : d.nread = c.nread + (w.length + 1) := congrArg Heading.nread heading
        have so : d.contentLength = digitsValue (ch :: w) := congrArg Heading.contentLength heading
        have length := congrArg List.length whole
        rw [List.length_append, List.length_cons] at length
        have longer := digitsValue_append (ch :: w) b
        have less := digitsValue_le (ch :: w ++ [b]) more
        rw [show ch :: w ++ [b] ++ more = ch :: rest by simp [whole], value] at less
        have room : ¬(noLength - 10) / 10 < d.contentLength := by omega
        have small : (d.contentLength * 10 + (b.toNat - 48)) % 2 ^ 64 = digitsValue (ch :: (w ++ [b])) := by
          unfold noLength at fitting
          rw [← List.cons_append, longer]
          omega
        refine ⟨{ d with
          nread := d.nread + 1, state := .headerValue, contentLength := digitsValue (ch :: (w ++ [b])) },
          (executeByte_counted state rfl (by omega) b).trans ?_, rfl, framing, ?_⟩
        · change headerValue _ b = _
          unfold headerValue
          simp only [framing, if_neg notCr, if_neg notLf, if_neg notSp, digit, if_neg room, small]
          rfl
        · rw [List.length_append]
          change (⟨d.heading.method, d.heading.httpMajor, d.heading.httpMinor, _, d.heading.flags,
            d.heading.nread + 1⟩ : Heading) = _
          rw [heading]
          rfl)
    refine ⟨d, ⟨ch, rest, _, rfl, executed.trans taken, ran⟩, state', ?_⟩
    have flags : d.flags = c.flags := congrArg Heading.flags heading
    unfold settled
    rw [heading, flags, framing', value]
    rfl

theorem Values.chunked (state : c.state = .headerValueDiscardWs)
    (framing : c.headerState = .transferEncoding) (fits : c.nread + 7 ≤ httpMaxHeaderSize) :
    ∃ d, Values c (ascii "chunked") d ∧ d.state = .headerValue ∧
      d.settled = { c.heading.later 7 with flags := { c.flags with chunked := true } } := by
  have bytes : ascii "chunked" = [99, 104, 117, 110, 107, 101, 100] := by decide
  obtain ⟨flags, state, headerState, index, nread, contentLength, httpMajor, httpMinor, method, upgrade⟩ := c
  cases state
  cases framing
  simp only [] at fits
  let at' (headerState : HeaderState) (index n : Nat) : HttpParser :=
    ⟨flags, .headerValue, headerState, index, n, contentLength, httpMajor, httpMinor, method, upgrade⟩
  have step (index n : Nat) (b : UInt8) (rest : Bytes) (s : HeaderState) (room : n < httpMaxHeaderSize)
      (taken : (at' .matchingTransferEncodingChunked index (n + 1)).headerValue b =
        .goes (at' s (index + 1) (n + 1)) []) :
      (at' .matchingTransferEncodingChunked index n).silent (b :: rest) =
        (at' s (index + 1) (n + 1)).silent rest :=
    @silent_byte (at' .matchingTransferEncodingChunked index n) b .headerValue _ rfl rfl room taken rest
  refine ⟨at' .transferEncodingChunked 6 (nread + 7), ⟨99, [104, 117, 110, 107, 101, 100],
    at' .matchingTransferEncodingChunked 0 (nread + 1), bytes,
    executeByte_counted rfl rfl (by simp only []; omega) 99, ?_⟩, rfl, rfl⟩
  rw [step 0 _ _ _ .matchingTransferEncodingChunked (by omega) rfl,
    step 1 _ _ _ .matchingTransferEncodingChunked (by omega) rfl,
    step 2 _ _ _ .matchingTransferEncodingChunked (by omega) rfl,
    step 3 _ _ _ .matchingTransferEncodingChunked (by omega) rfl,
    step 4 _ _ _ .matchingTransferEncodingChunked (by omega) rfl,
    step 5 _ _ _ .transferEncodingChunked (by omega) rfl]
  rfl

end HttpParser

end Pinocchio.Crow
