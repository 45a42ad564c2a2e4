import Pinocchio.Redis.ParserRefinement

/-! Reading a stream of replies that arrives in chunks.

Both clients hand the parser what is left of a chunk until it is used up. Since a
call computes the byte machine, the values read and the place of the first error
depend on the bytes alone.
-/

set_option autoImplicit false

namespace Pinocchio.Redis
open Semantics Reader RedisParser

/-- What one turn of a read loop got from the chunk, and the position it goes on at. -/
inductive Received where
  | value (v : RedisValue) (parser : RedisParser) (pos : Nat)
  | more (parser : RedisParser) (pos : Nat)
  | error (parser : RedisParser) (pos : Nat)
  deriving DecidableEq, Repr

/-- One turn of the read loops: parse what is left of the chunk, and take the result. -/
def receive (p : RedisParser) (buf : Bytes) (pos : Nat) (reserve : Reserve := {}) :
    Except Fault Received := do
  let out ← p.parse (buf.drop pos) reserve
  match out.result with
  | .completed =>
    let (v, q) ← out.parser.result
    return .value v q (pos + out.count)
  | .incompleted => return .more out.parser (pos + out.count)
  | .error => return .error out.parser (pos + out.count)

theorem receive_granted {reserve : Reserve} {p : RedisParser} {r : Reader} (rep : Represents p r)
    {buf : Bytes} {pos : Nat} (given : Granted reserve r (buf.drop pos)) :
    match resp.scan r (buf.drop pos) with
    | .pending t =>
      ∃ q, receive p buf pos reserve = .ok (.more q (pos + (buf.length - pos))) ∧ Represents q t
    | .done v used => ∃ q, receive p buf pos reserve = .ok (.value v q (pos + used)) ∧
        Represents q resp.start
    | .rejected used => ∃ q left, receive p buf pos reserve = .ok (.error q (pos + used)) ∧
        left <:+ r.frames.tail ∧ Represents q ⟨.start, left⟩ := by
  obtain ⟨out, call, meets⟩ := (parse_answers reserve rep (buf.drop pos)).returns given
  cases outcome : resp.scan r (buf.drop pos) with
  | pending t =>
    rw [outcome] at meets
    obtain ⟨result, count, rep'⟩ := meets
    rw [List.length_drop] at count
    refine ⟨out.parser, ?_, rep'⟩
    simp only [receive, call, bind, Except.bind, result, count]
    rfl
  | done v used =>
    rw [outcome] at meets
    obtain ⟨result, count, ready⟩ := meets
    obtain ⟨q, popped, rep'⟩ := ready.pop .assertion
    refine ⟨q, ?_, rep'⟩
    simp only [receive, call, bind, Except.bind, result, RedisParser.result, popped, count,
      Nat.zero_add]
    rfl
  | rejected used =>
    rw [outcome] at meets
    obtain ⟨result, count, left, suffix, rep'⟩ := meets
    refine ⟨out.parser, left, ?_, suffix, rep'⟩
    simp only [receive, call, bind, Except.bind, result, count, Nat.zero_add]
    rfl

theorem receive_refused {reserve : Reserve} {p : RedisParser} {r : Reader} (rep : Represents p r)
    {buf : Bytes} {pos : Nat} (refused : ¬Granted reserve r (buf.drop pos)) :
    receive p buf pos reserve = .error .reserve := by
  simp only [receive, (parse_answers reserve rep (buf.drop pos)).throws refused, bind, Except.bind]

theorem receive_meets {p : RedisParser} {r : Reader} (rep : Represents p r) (buf : Bytes)
    (pos : Nat) :
    match resp.scan r (buf.drop pos) with
    | .pending t =>
      ∃ q, receive p buf pos = .ok (.more q (pos + (buf.length - pos))) ∧ Represents q t
    | .done v used => ∃ q, receive p buf pos = .ok (.value v q (pos + used)) ∧
        Represents q resp.start
    | .rejected used => ∃ q left, receive p buf pos = .ok (.error q (pos + used)) ∧
        left <:+ r.frames.tail ∧ Represents q ⟨.start, left⟩ :=
  receive_granted rep (granted_all r _)

/-- What a chunk gave: its values in order, and the position after a rejected byte. -/
structure ChunkRead where
  parser : RedisParser
  values : List RedisValue
  error : Option Nat
  deriving DecidableEq, Repr

/-- The loop of `asyncRead` over a chunk, from a position on. -/
def readLoop : Nat → RedisParser → Bytes → Nat → (reserve : Reserve := {}) → Except Fault ChunkRead
  | 0, _, _, _, _ => .error .outOfFuel
  | fuel + 1, p, buf, pos, reserve =>
    if pos < buf.length then do
      match ← receive p buf pos reserve with
      | .value v q pos =>
        let rest ← readLoop fuel q buf pos reserve
        return { rest with values := v :: rest.values }
      | .more q _ => return ⟨q, [], none⟩
      | .error q pos => return ⟨q, [], some pos⟩
    else .ok ⟨p, [], none⟩

def readChunk (p : RedisParser) (buf : Bytes) (reserve : Reserve := {}) : Except Fault ChunkRead :=
  readLoop (buf.length + 1) p buf 0 reserve

/-- The values of a stream, and the offset in the stream after the first rejected byte. -/
structure StreamRead where
  values : List RedisValue
  error : Option Nat
  deriving DecidableEq, Repr

/-- The chunks of a stream one after another, up to the first error. -/
def readStream : RedisParser → List Bytes → Except Fault StreamRead
  | _, [] => .ok ⟨[], none⟩
  | p, buf :: chunks => do
    let got ← readChunk p buf
    match got.error with
    | some pos => return ⟨got.values, some pos⟩
    | none =>
      let rest ← readStream got.parser chunks
      return ⟨got.values ++ rest.values, rest.error.map (· + buf.length)⟩

/-- What was read agrees with the machine, counting from `base`. -/
def ChunkRead.Agrees (got : ChunkRead) (base : Nat) (read : Consumed Reader RedisValue) : Prop :=
  got.values = read.items ∧
    match read.status with
    | .waiting r => got.error = none ∧ Represents got.parser r
    | .rejected used => got.error = some (base + used)

/-- All the room that is asked for in what is read of the bytes is there. -/
def GrantedAll (reserve : Reserve) : Reader → Bytes → Prop := resp.Always (Permits reserve)

theorem grantedAll_iff {reserve : Reserve} {r : Reader} {xs : Bytes} :
    GrantedAll reserve r xs ↔ Granted reserve r xs ∧
      ∀ v used, resp.scan r xs = .done v used → GrantedAll reserve resp.start (xs.drop used) :=
  resp.always_iff r xs

theorem grantedAll (r : Reader) (xs : Bytes) : GrantedAll {} r xs :=
  resp.always_of_forall permits_all r xs

theorem readLoop_granted {reserve : Reserve} (n fuel : Nat) {p : RedisParser} {r : Reader}
    (rep : Represents p r) (buf : Bytes) (pos : Nat) (room : pos + n = buf.length)
    (enough : n < fuel) (given : GrantedAll reserve r (buf.drop pos)) :
    ∃ got, readLoop fuel p buf pos reserve = .ok got ∧
      got.Agrees pos (resp.consume r (buf.drop pos)) := by
  -- By induction on the bytes that are left: a value takes at least one of them.
  induction n using Nat.strongRecOn generalizing fuel p r pos with
  | _ n ih =>
  obtain ⟨fuel, rfl⟩ : ∃ f, fuel = f + 1 := ⟨fuel - 1, by omega⟩
  obtain ⟨given, later⟩ := grantedAll_iff.mp given
  rw [readLoop]
  by_cases more : pos < buf.length
  · have turn := receive_granted rep given
    rw [if_pos more, Machine.consume_eq_scan]
    cases outcome : resp.scan r (buf.drop pos) with
    | pending t =>
      rw [outcome] at turn
      obtain ⟨q, got, rep'⟩ := turn
      refine ⟨⟨q, [], none⟩, ?_, rfl, rfl, rep'⟩
      simp only [got, bind, Except.bind]
      rfl
    | rejected used =>
      rw [outcome] at turn
      obtain ⟨q, left, got, _, _⟩ := turn
      refine ⟨⟨q, [], some (pos + used)⟩, ?_, rfl, rfl⟩
      simp only [got, bind, Except.bind]
      rfl
    | done v used =>
      rw [outcome] at turn
      obtain ⟨q, got, rep'⟩ := turn
      have bounds := resp.scan_done_bounds outcome
      rw [List.length_drop] at bounds
      obtain ⟨rest, tail, values, status⟩ := ih (n - used) (by omega) fuel rep' (pos + used)
        (by omega) (by omega) (by rw [← List.drop_drop]; exact later v used outcome)
      refine ⟨{ rest with values := v :: rest.values }, ?_, ?_, ?_⟩
      · simp only [got, bind, Except.bind, tail]
        rfl
      · simp only [values, List.drop_drop]
      · simp only [List.drop_drop]
        cases ended : (resp.consume resp.start (buf.drop (pos + used))).status with
        | waiting t => rw [ended] at status; exact status
        | rejected k =>
          rw [ended] at status
          simp only [Status.shift_rejected]
          rw [status, Nat.add_assoc, Nat.add_comm used k]
  · rw [if_neg more, List.drop_eq_nil_of_le (by omega)]
    exact ⟨_, rfl, rfl, rfl, rep⟩

theorem readLoop_refused {reserve : Reserve} (n fuel : Nat) {p : RedisParser} {r : Reader}
    (rep : Represents p r) (buf : Bytes) (pos : Nat) (room : pos + n = buf.length)
    (enough : n < fuel) (refused : ¬GrantedAll reserve r (buf.drop pos)) :
    readLoop fuel p buf pos reserve = .error .reserve := by
  induction n using Nat.strongRecOn generalizing fuel p r pos with
  | _ n ih =>
  obtain ⟨fuel, rfl⟩ : ∃ f, fuel = f + 1 := ⟨fuel - 1, by omega⟩
  have more : pos < buf.length := by
    by_contra none
    rw [List.drop_eq_nil_of_le (by omega)] at refused
    exact refused trivial
  rw [readLoop, if_pos more]
  by_cases given : Granted reserve r (buf.drop pos)
  case neg =>
    simp only [receive_refused rep given, bind, Except.bind]
  -- This turn returns, so one of those after it throws.
  have later : ∃ v used, resp.scan r (buf.drop pos) = .done v used ∧
      ¬GrantedAll reserve resp.start ((buf.drop pos).drop used) := by
    by_contra none
    refine refused (grantedAll_iff.mpr ⟨given, fun v used outcome => ?_⟩)
    by_contra other
    exact none ⟨v, used, outcome, other⟩
  obtain ⟨v, used, outcome, refused⟩ := later
  have turn := receive_granted rep given
  rw [outcome] at turn
  obtain ⟨q, got, rep'⟩ := turn
  have bounds := resp.scan_done_bounds outcome
  rw [List.length_drop] at bounds
  rw [List.drop_drop] at refused
  have rest := ih (n - used) (by omega) fuel rep' (pos + used) (by omega) (by omega) refused
  simp only [got, bind, Except.bind, rest]

theorem readChunk_agrees {p : RedisParser} {r : Reader} (rep : Represents p r) (buf : Bytes) :
    ∃ got, readChunk p buf = .ok got ∧ got.Agrees 0 (resp.consume r buf) :=
  readLoop_granted buf.length _ rep buf 0 (Nat.zero_add _) (Nat.lt_succ_self _) (grantedAll r _)

def errorOffset : Status Reader → Option Nat
  | .waiting _ => none
  | .rejected used => some used

theorem errorOffset_shift (status : Status Reader) (k : Nat) :
    errorOffset (status.shift k) = (errorOffset status).map (· + k) := by
  cases status <;> rfl

def verdict (read : Consumed Reader RedisValue) : StreamRead :=
  ⟨read.items, errorOffset read.status⟩

theorem readStream_agrees {p : RedisParser} {r : Reader} (rep : Represents p r)
    (chunks : List Bytes) :
    readStream p chunks = .ok (verdict (resp.consume r chunks.flatten)) := by
  induction chunks generalizing p r with
  | nil => rfl
  | cons buf chunks ih =>
    obtain ⟨got, call, values, status⟩ := readChunk_agrees rep buf
    simp only [readStream, call, List.flatten_cons, Machine.consume_append, Consumed.andThen,
      bind, Except.bind]
    cases ended : (resp.consume r buf).status with
    | waiting t =>
      rw [ended] at status
      obtain ⟨none, rep'⟩ := status
      simp only [none, ih rep', values, verdict, errorOffset_shift]
      rfl
    | rejected used =>
      rw [ended] at status
      simp only [status, values, Nat.zero_add]
      rfl

/-- The values read, the verdict and the offset of an error do not depend on how the
stream was cut into chunks. -/
theorem readStream_chunking (chunks : List Bytes) :
    ∃ read, readStream {} chunks = .ok read ∧ readStream {} [chunks.flatten] = .ok read := by
  refine ⟨_, readStream_agrees represents_initial chunks, ?_⟩
  simpa using readStream_agrees represents_initial [chunks.flatten]

example : readStream {} [ascii "*2\r\n$2\r\nh", ascii "i\r", ascii "\n:7\r\n+o!\r\n", ascii "?"] =
    .ok ⟨[.array [.bytes (ascii "hi") false, .int 7], .bytes (ascii "o!") false], some 22⟩ := by
  decide +kernel

end Pinocchio.Redis
