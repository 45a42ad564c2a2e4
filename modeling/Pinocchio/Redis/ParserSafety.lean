import Pinocchio.Redis.ParserProgress

/-! What holds inside of the parser.

Between two calls the stacks hold arrays that miss some elements, and a payload that is being read
knows how much of it is missing. With that every call that the functions make of each other is
allowed: no assertion fails, and all that is read or copied lies inside of the chunk.
-/

set_option autoImplicit false

namespace Pinocchio.Redis
open Semantics Reader RedisParser
open Reply (isNumeral)

/-! ## Calls -/

/-- A call of a function, at its start or at a turn of its loop. -/
inductive Call where
  | parse (p : RedisParser) (ptr : Bytes)
  | parseArray (p : RedisParser) (ptr : Bytes)
  | parseItems (p : RedisParser) (ptr : Bytes) (i : Nat) (arraySize : Int)
    (arrayValue : List RedisValue)
  | parseLoop (p : RedisParser) (ptr : Bytes) (i : Nat) (arraySize x : Int)
    (arrayValue : List RedisValue)
  | parseChunk (p : RedisParser) (ptr : Bytes) (i : Nat)

namespace Call

def popped (p : RedisParser) (arrays : List Int) (values : List RedisValue) : RedisParser :=
  { p with arrayStack := arrays, valueStack := values }

/-- What a call comes to next: the call of another function, or the next turn of its loop. -/
inductive Makes : Call → Call → Prop where
  | parseArray {p : RedisParser} {ptr : Bytes} (opened : p.arrayStack ≠ []) :
    Makes (.parse p ptr) (.parseArray p ptr)
  | parseChunk {p : RedisParser} {ptr : Bytes} (empty : p.arrayStack = []) :
    Makes (.parse p ptr) (.parseChunk p ptr 0)
  | inner {p : RedisParser} {ptr : Bytes} {arraySize : Int} {arrays : List Int}
    {value : RedisValue} {values : List RedisValue} (counts : p.arrayStack = arraySize :: arrays)
    (stacked : p.valueStack = value :: values) (more : arrays ≠ []) :
    Makes (.parseArray p ptr) (.parseArray (popped p arrays values) ptr)
  -- On a stack that is not empty `parse` is `parseArray`.
  | after {p q : RedisParser} {ptr : Bytes} {arraySize : Int} {arrays : List Int}
    {value v : RedisValue} {values : List RedisValue} {out : Parsed}
    (counts : p.arrayStack = arraySize :: arrays) (stacked : p.valueStack = value :: values)
    (more : arrays ≠ []) (call : (popped p arrays values).parse ptr = .ok out)
    (completed : out.result = .completed) (top : out.parser.popValue .undefined = .ok (v, q)) :
    Makes (.parseArray p ptr)
      (.parseItems q ptr out.count (arraySize - 1) (value.toArray ++ [v]))
  | alone {p : RedisParser} {ptr : Bytes} {arraySize : Int} {value : RedisValue}
    {values : List RedisValue} (counts : p.arrayStack = [arraySize])
    (stacked : p.valueStack = value :: values) :
    Makes (.parseArray p ptr) (.parseItems (popped p [] values) ptr 0 arraySize value.toArray)
  | loop {p : RedisParser} {ptr : Bytes} {i : Nat} {arraySize : Int}
    {arrayValue : List RedisValue} (more : i ≠ ptr.length) :
    Makes (.parseItems p ptr i arraySize arrayValue) (.parseLoop p ptr i arraySize 0 arrayValue)
  | element {p : RedisParser} {ptr : Bytes} {i : Nat} {arraySize x : Int}
    {arrayValue : List RedisValue} (more : x < arraySize) :
    Makes (.parseLoop p ptr i arraySize x arrayValue) (.parse p (ptr.drop i))
  | next {p q : RedisParser} {ptr : Bytes} {i : Nat} {arraySize x : Int}
    {arrayValue : List RedisValue} {v : RedisValue} {out : Parsed} (more : x < arraySize)
    (call : p.parse (ptr.drop i) = .ok out) (completed : out.result = .completed)
    (top : out.parser.popValue .assertion = .ok (v, q)) :
    Makes (.parseLoop p ptr i arraySize x arrayValue)
      (.parseLoop q ptr (i + out.count) arraySize (x + 1) (arrayValue ++ [v]))
  | turn {p q : RedisParser} {ptr : Bytes} {i j : Nat} {c : UInt8} (here : ptr[i]? = some c)
    (pass : onChar p ptr i c = .next q j) : Makes (.parseChunk p ptr i) (.parseChunk q ptr (j + 1))
  | array {p q : RedisParser} {ptr : Bytes} {i : Nat} {c : UInt8} (here : ptr[i]? = some c)
    (pass : onChar p ptr i c = .array q) :
    Makes (.parseChunk p ptr i) (.parseArray q (ptr.drop (i + 1)))

def Returns (p : RedisParser) (ptr : Bytes) : Prop :=
  ∃ out, p.parse ptr = .ok out ∧ out.count ≤ ptr.length ∧
    (out.result = .completed → ∃ v q, out.parser.result = .ok (v, q))

/-- The assertions of a call hold, and so do the bounds of what it reads. A pass of `parseChunk`
fails on an assertion, or on a copy that is not inside of the chunk. -/
def Safe : Call → Prop
  | .parse p ptr => Returns p ptr
  | .parseArray p ptr => p.arrayStack ≠ [] ∧ p.valueStack ≠ [] ∧ Returns p ptr
  | .parseItems _ ptr i arraySize _ => i ≤ ptr.length ∧ 0 ≤ arraySize
  | .parseLoop _ ptr i arraySize x _ => i ≤ ptr.length ∧ x ≤ arraySize
  | .parseChunk p ptr i => i ≤ ptr.length ∧ ∀ c, ptr[i]? = some c →
      (p.state = .bulk → i = 0 ∧ 0 < p.bulkSize) ∧ ∀ reason, onChar p ptr i c ≠ .fault reason

/-- What the functions keep up: outside of `parseArray` the stacks hold the open arrays, and inside
of it they are empty. -/
def Held : Call → Prop
  | .parse p _ => ∃ r, Represents p r
  | .parseArray p _ => ∃ l frames, frames ≠ [] ∧ Represents p ⟨l, frames⟩
  | .parseItems p ptr i arraySize _ =>
    i ≤ ptr.length ∧ 0 ≤ arraySize ∧ Idle p ∧ ∃ l : Lexer, l.Matches p
  | .parseLoop p ptr i arraySize x _ =>
    i ≤ ptr.length ∧ x ≤ arraySize ∧ Idle p ∧ ∃ l : Lexer, l.Matches p
  | .parseChunk p ptr i =>
    i ≤ ptr.length ∧ Idle p ∧ ∃ l : Lexer, l.Matches p ∧ (l.isPayload = true → i = 0)

section
variable {p q : RedisParser} {ptr : Bytes} {out : Parsed} {v : RedisValue} {l : Lexer}

theorem payload_of_bulk (held : l.Matches p) (state : p.state = .bulk) :
    ∃ later, l = .payload later p.buf ∧ p.bulkSize = later + 1 := by
  cases l with
  | payload later buf =>
    obtain ⟨_, size, rfl⟩ := held
    exact ⟨later, rfl, size⟩
  | start => simp [Lexer.Matches, state] at held
  | text kind _ | textEnd kind _ => cases kind <;> simp [Lexer.Matches, state] at held
  | number kind _ | numberEnd kind _ => cases kind <;> simp [Lexer.Matches, state] at held
  | payloadCR _ | payloadLF _ => simp [Lexer.Matches, state] at held

theorem parse_completed {r : Reader} (rep : Represents p r) (call : p.parse ptr = .ok out)
    (completed : out.result = .completed) : out.count ≤ ptr.length ∧ ∃ v, Ready out.parser v := by
  obtain ⟨out', call', meets⟩ := parse_meets rep ptr
  cases call.symm.trans call'
  cases outcome : resp.scan r ptr with
  | pending t =>
    rw [outcome] at meets
    exact nomatch completed.symm.trans meets.1
  | done v used =>
    rw [outcome] at meets
    obtain ⟨_, count, ready⟩ := meets
    have bounds := resp.scan_done_bounds outcome
    exact ⟨by omega, v, ready⟩
  | rejected used =>
    rw [outcome] at meets
    exact nomatch completed.symm.trans meets.1

theorem idle_of_top {w : RedisValue} (ready : Ready out.parser w) {fault : Fault}
    (top : out.parser.popValue fault = .ok (v, q)) : Idle q ∧ Lexer.start.Matches q := by
  obtain ⟨q', took, rep⟩ := ready.pop fault
  cases top.symm.trans took
  exact ⟨rep.idle, rep.lexer⟩

theorem returns {r : Reader} (rep : Represents p r) (ptr : Bytes) : Returns p ptr := by
  obtain ⟨out, call, _, within, _⟩ := parse_returns rep (granted_all r ptr)
  refine ⟨out, call, within, fun completed => ?_⟩
  obtain ⟨_, v, ready⟩ := parse_completed rep call completed
  obtain ⟨q, took, _⟩ := ready.pop .assertion
  exact ⟨v, q, took⟩

theorem Held.safe {call : Call} (held : call.Held) : call.Safe := by
  cases call with
  | parse p ptr =>
    obtain ⟨r, rep⟩ := held
    exact returns rep ptr
  | parseArray p ptr =>
    obtain ⟨l, frames, opened, rep⟩ := held
    refine ⟨?_, ?_, returns rep ptr⟩
    · rw [rep.arrays]
      simpa using opened
    · rw [rep.values]
      simpa using opened
  | parseItems p ptr i arraySize arrayValue => exact ⟨held.1, held.2.1⟩
  | parseLoop p ptr i arraySize x arrayValue => exact ⟨held.1, held.2.1⟩
  | parseChunk p ptr i =>
    obtain ⟨within, idle, l, matched, fresh⟩ := held
    refine ⟨within, fun c here => ⟨fun state => ?_, fun reason failed => ?_⟩⟩
    · obtain ⟨later, rfl, size⟩ := payload_of_bulk matched state
      exact ⟨fresh rfl, by omega⟩
    · have sound := @onChar_sound {} _ _ _ _ here idle _ matched fresh
      rw [failed] at sound
      exact sound.2 (granted_all _ _)

theorem represents_popped {r : Reader} {arraySize : Int} {arrays : List Int} {value : RedisValue}
    {values : List RedisValue} (rep : Represents p r) (counts : p.arrayStack = arraySize :: arrays)
    (stacked : p.valueStack = value :: values) :
    ∃ inner, Represents (popped p arrays values) ⟨r.lexer, inner⟩ ∧ 1 ≤ arraySize ∧
      (inner = [] ↔ arrays = []) := by
  have arraysOf := counts.symm.trans rep.arrays
  have valuesOf := stacked.symm.trans rep.values
  rcases r.frames.eq_nil_or_concat with none | ⟨inner, outer, frames⟩
  · rw [none] at arraysOf
    cases arraysOf
  · simp only [frames, List.concat_eq_append, List.reverse_append, List.reverse_singleton,
      List.singleton_append, List.map_cons, List.cons.injEq] at arraysOf valuesOf
    obtain ⟨size, rfl⟩ := arraysOf
    obtain ⟨_, rfl⟩ := valuesOf
    refine ⟨inner, ⟨rep.lexer.congr rfl rfl rfl, rfl, rfl⟩, by omega, ?_⟩
    simp

theorem Held.makes {call next : Call} (held : call.Held) (makes : Makes call next) : next.Held := by
  cases makes with
  | parseArray opened =>
    obtain ⟨⟨l, frames⟩, rep⟩ := held
    refine ⟨l, frames, ?_, rep⟩
    rintro rfl
    exact opened rep.arrays
  | parseChunk empty =>
    obtain ⟨⟨l, frames⟩, rep⟩ := held
    obtain rfl : frames = [] := by
      have none := rep.arrays.symm.trans empty
      simpa using none
    exact ⟨Nat.zero_le _, rep.idle, l, rep.lexer, fun _ => rfl⟩
  -- What is left on the stacks is an open array again, for the call that comes next.
  | inner counts stacked more =>
    obtain ⟨l, frames, _, rep⟩ := held
    obtain ⟨inner, inside, _, none⟩ := represents_popped rep counts stacked
    exact ⟨l, inner, fun empty => more (none.mp empty), inside⟩
  | after counts stacked more call completed top =>
    obtain ⟨l, frames, _, rep⟩ := held
    obtain ⟨inner, inside, positive, _⟩ := represents_popped rep counts stacked
    obtain ⟨within, w, ready⟩ := parse_completed inside call completed
    obtain ⟨idle, start⟩ := idle_of_top ready top
    exact ⟨within, by omega, idle, .start, start⟩
  -- The last array is off the stacks, and its loop begins with both of them empty.
  | alone counts stacked =>
    obtain ⟨l, frames, _, rep⟩ := held
    obtain ⟨inner, inside, positive, none⟩ := represents_popped rep counts stacked
    obtain rfl := none.mpr rfl
    exact ⟨Nat.zero_le _, by omega, inside.idle, l, inside.lexer⟩
  | loop more =>
    obtain ⟨within, positive, idle, l, matched⟩ := held
    exact ⟨within, positive, idle, l, matched⟩
  | element more =>
    obtain ⟨_, _, idle, l, matched⟩ := held
    exact ⟨⟨l, []⟩, idle.represents matched⟩
  | next more call completed top =>
    obtain ⟨within, _, idle, l, matched⟩ := held
    obtain ⟨inside, w, ready⟩ := parse_completed (idle.represents matched) call completed
    obtain ⟨idle, start⟩ := idle_of_top ready top
    rw [List.length_drop] at inside
    exact ⟨by omega, by omega, idle, .start, start⟩
  | turn here pass =>
    obtain ⟨_, idle, l, matched, fresh⟩ := held
    have sound := @onChar_sound {} _ _ _ _ here idle _ matched fresh
    rw [pass] at sound
    obtain ⟨l', matched', short, idle', _, bound, _⟩ := sound
    -- Where bytes of a payload are missing the chunk is used up, and the loop does not go on.
    exact ⟨bound, idle', l', matched', by simp [short]⟩
  | array here pass =>
    obtain ⟨_, idle, l, matched, fresh⟩ := held
    have sound := @onChar_sound {} _ _ _ _ here idle _ matched fresh
    rw [pass] at sound
    obtain ⟨frame, rep, _⟩ := sound
    exact ⟨.start, [frame], List.cons_ne_nil _ _, rep⟩

theorem reached_safe {r : Reader} (rep : Represents p r) {call : Call}
    (reached : Relation.ReflTransGen Makes (.parse p ptr) call) : call.Safe := by
  have held : call.Held := by
    induction reached with
    | refl => exact ⟨r, rep⟩
    | tail _ makes ih => exact ih.makes makes
  exact held.safe

end

end Call

/-! ## Between the calls -/

/-- The bytes that the calls take, one after another. -/
def consumed : RedisParser → List Bytes → Bytes
  | _, [] => []
  | p, buf :: chunks =>
    match receive p buf 0 with
    | .ok (.value _ q pos) | .ok (.more q pos) | .ok (.error q pos) =>
      buf.take pos ++ consumed q chunks
    | .error _ => []

/-- What holds of a parser between two calls when `fed` was taken before. In the state `Bulk` that
ends with a header, and with the part of its payload that is in the buffer. -/
structure Intact (p : RedisParser) (fed : Bytes) : Prop where
  heights : p.arrayStack.length = p.valueStack.length
  counts : ∀ arraySize ∈ p.arrayStack, 1 ≤ arraySize
  arrays : ∀ value ∈ p.valueStack, ∃ items, value = .array items
  bulk : p.state = .bulk → 0 < p.bulkSize ∧ ∃ before num : Bytes,
    (num ≠ [] ∧ ∀ c ∈ num, isNumeral c = true) ∧
    fed = before ++ bulkReply :: (num ++ crlf ++ p.buf) ∧ p.bulkSize + p.buf.length = strtol num

/-- The bytes end with those of the item that is being read. -/
def EndsIn (l : Lexer) (fed : Bytes) : Prop := ∃ before begun, Begun l begun ∧ fed = before ++ begun

theorem endsIn_start (fed : Bytes) : EndsIn .start fed := ⟨fed, [], .start, (List.append_nil fed).symm⟩

theorem lexer_of_close {frames : List Frame} {v : RedisValue} {t : Reader}
    (more : close frames v = .more t) : t.lexer = .start := by
  induction frames generalizing v with
  | nil => cases more
  | cons frame frames ih =>
    obtain ⟨later, items⟩ := frame
    cases later with
    | zero => exact ih more
    | succ later =>
      cases more
      rfl

theorem EndsIn.more {r t : Reader} {fed : Bytes} {c : UInt8} (ends : EndsIn r.lexer fed)
    (more : feed r c = .more t) : EndsIn t.lexer (fed ++ [c]) := by
  obtain ⟨before, begun, lexed, rfl⟩ := ends
  -- The arrays around the item have no part in how its own bytes are read.
  have same : feed r c = inside r.frames (feed ⟨r.lexer, []⟩ c) :=
    feed_append r.lexer [] r.frames c
  have alone : HasRead ⟨r.lexer, []⟩ begun := ⟨[], begun, .nil, lexed, rfl⟩
  have explains := explains_feed alone c
  rw [same] at more
  cases outcome : feed ⟨r.lexer, []⟩ c with
  | more u =>
    rw [outcome] at more explains
    cases more
    obtain ⟨opens, begun', _, lexed', read⟩ := explains
    refine ⟨before ++ openBytes opens, begun', lexed', ?_⟩
    rw [List.append_assoc, read, List.append_assoc]
  | done v =>
    rw [outcome] at more
    rw [lexer_of_close more]
    exact endsIn_start _
  | reject =>
    rw [outcome] at more
    cases more

theorem EndsIn.pending {r t : Reader} {fed xs : Bytes} (ends : EndsIn r.lexer fed)
    (pending : resp.scan r xs = .pending t) : EndsIn t.lexer (fed ++ xs) := by
  induction xs generalizing r fed with
  | nil =>
    cases pending
    rwa [List.append_nil]
  | cons c rest ih =>
    rw [Machine.scan_cons] at pending
    cases step : resp.feed r c with
    | more u =>
      rw [step, Machine.resume_more] at pending
      cases tail : resp.scan u rest with
      | pending w =>
        rw [tail] at pending
        cases pending
        simpa using ih (ends.more step) tail
      | done v used => simp [tail] at pending
      | rejected used => simp [tail] at pending
    | done v => simp [step] at pending
    | reject => simp [step] at pending

theorem Represents.intact {p : RedisParser} {r : Reader} {fed : Bytes} (rep : Represents p r)
    (ends : EndsIn r.lexer fed) : Intact p fed := by
  refine ⟨?_, fun arraySize member => ?_, fun value member => ?_, fun state => ?_⟩
  · rw [rep.arrays, rep.values, List.length_map, List.length_map]
  · rw [rep.arrays] at member
    obtain ⟨frame, _, rfl⟩ := List.mem_map.mp member
    omega
  · rw [rep.values] at member
    obtain ⟨frame, _, rfl⟩ := List.mem_map.mp member
    exact ⟨frame.items, rfl⟩
  · obtain ⟨later, lexer, size⟩ := Call.payload_of_bulk rep.lexer state
    obtain ⟨before, begun, lexed, rfl⟩ := ends
    rw [lexer] at lexed
    cases lexed with
    | @payload num _ _ reads =>
      obtain ⟨numeral, value⟩ := Option.ite_none_right_eq_some.mp reads
      have announced : strtol num = (p.buf.length + 1 + later : Nat) := Option.some.inj value
      exact ⟨by omega, before, num, numeral, rfl, by omega⟩

theorem call_ends {p : RedisParser} {r : Reader} {fed : Bytes} (rep : Represents p r)
    (ends : EndsIn r.lexer fed) (buf : Bytes) :
    ∃ q taken, p.call buf = some q ∧
      (∀ chunks, consumed p (buf :: chunks) = taken ++ consumed q chunks) ∧
      ∃ t, Represents q t ∧ EndsIn t.lexer (fed ++ taken) := by
  have turn := receive_meets rep buf 0
  rw [List.drop_zero] at turn
  cases outcome : resp.scan r buf with
  | pending t =>
    rw [outcome] at turn
    obtain ⟨q, got, held⟩ := turn
    have whole : buf.take (0 + (buf.length - 0)) = buf := by simp
    refine ⟨q, buf, by simp only [RedisParser.call, got], fun chunks => ?_, t, held,
      ends.pending outcome⟩
    simp only [consumed, got, whole]
  | done v used =>
    rw [outcome] at turn
    obtain ⟨q, got, held⟩ := turn
    refine ⟨q, buf.take (0 + used), by simp only [RedisParser.call, got], fun chunks => ?_,
      resp.start, held, endsIn_start _⟩
    simp only [consumed, got]
  | rejected used =>
    rw [outcome] at turn
    obtain ⟨q, left, got, _, held⟩ := turn
    refine ⟨q, buf.take (0 + used), by simp only [RedisParser.call, got], fun chunks => ?_,
      ⟨.start, left⟩, held, endsIn_start _⟩
    simp only [consumed, got]

theorem run_ends (chunks : List Bytes) {p : RedisParser} {r : Reader} {fed : Bytes}
    (rep : Represents p r) (ends : EndsIn r.lexer fed) :
    ∃ q, redisParser.run p chunks = some q ∧ ∃ t, Represents q t ∧
      EndsIn t.lexer (fed ++ consumed p chunks) := by
  induction chunks generalizing p r fed with
  | nil => exact ⟨p, rfl, r, rep, by simpa [consumed] using ends⟩
  | cons buf chunks ih =>
    obtain ⟨q, taken, called, follows, t, held, after⟩ := call_ends rep ends buf
    obtain ⟨last, rest, u, represents, done⟩ := ih held after
    refine ⟨last, (redisParser.run_cons_some).mpr ⟨q, called, rest⟩, u, represents, ?_⟩
    rw [follows, ← List.append_assoc]
    exact done

/-- Whatever the data of the calls is, the parser is intact between them, and in every call no
assertion fails, a payload is only taken up at the start of a chunk, and no index and no copy is
outside of its chunk. -/
theorem redisParser_intact (chunks : List Bytes) :
    ∃ p, redisParser.run redisParser.initial chunks = some p ∧
      Intact p (consumed redisParser.initial chunks) ∧
      ∀ buf call, Relation.ReflTransGen Call.Makes (.parse p buf) call → call.Safe := by
  obtain ⟨p, path, r, rep, ends⟩ := run_ends chunks represents_initial (endsIn_start [])
  exact ⟨p, path, rep.intact ends, fun buf call reached => Call.reached_safe rep reached⟩

example : redisParser.run redisParser.initial [ascii "?", ascii "*2\r\n$5\r\nab"] =
    some ⟨.bulk, 3, ascii "ab", [2], [.array []]⟩ := by
  decide +kernel

end Pinocchio.Redis
