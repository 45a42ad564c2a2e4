import Mathlib.Logic.Relation
import Pinocchio.Redis.SyncFailures

/-! What a call of the parser takes of its chunk.

It takes at least one byte, and all of them when it is not at the end of a reply. So the loops over
a chunk come to an end, and what they leave when they wait for more is nothing. Only a call that
asks for room that is not there returns no count at all.
-/

set_option autoImplicit false

namespace Pinocchio.Redis
open Semantics Reader RedisParser

/-- A call returns. It ends within its chunk, and at the end of it where it waits for more. -/
def Progresses (reserve : Reserve) (p : RedisParser) (buf : Bytes) : Prop :=
  ∃ out, p.parse buf reserve = .ok out ∧ 1 ≤ out.count ∧ out.count ≤ buf.length ∧
    (out.result = .incompleted → out.count = buf.length)

/-- A turn of the loop in `asyncRead` that is followed by another. -/
def Turn (reserve : Reserve) (buf : Bytes) (s t : RedisParser × Nat) : Prop :=
  s.2 < buf.length ∧ ∃ v, receive s.1 buf s.2 reserve = .ok (.value v t.1 t.2)

/-- A turn at `pos` reads on, and to the end of the chunk where it waits for more. -/
def Advances (buf : Bytes) (pos : Nat) : Except Fault Received → Prop
  | .ok (.value _ _ next) | .ok (.error _ next) => pos < next ∧ next ≤ buf.length
  | .ok (.more _ next) => next = buf.length
  | .error _ => False

/-- The room is there for every array and payload whose header the bytes complete, up to the end of
the reply, when they are read from the state that the parser is in. -/
def Grants (reserve : Reserve) (p : RedisParser) (buf : Bytes) : Prop :=
  ∃ r, Represents p r ∧ Granted reserve r buf

/-- The same for all the replies that are read of the bytes. -/
def GrantsAll (reserve : Reserve) (p : RedisParser) (buf : Bytes) : Prop :=
  ∃ r, Represents p r ∧ GrantedAll reserve r buf

section
variable {reserve : Reserve} {p : RedisParser} {r : Reader}

theorem parse_returns (rep : Represents p r) {ptr : Bytes} (given : Granted reserve r ptr) :
    ∃ out, p.parse ptr reserve = .ok out ∧ (ptr ≠ [] → 1 ≤ out.count) ∧ out.count ≤ ptr.length ∧
      (out.result = .incompleted → out.count = ptr.length) := by
  obtain ⟨out, call, meets⟩ := (parse_answers reserve rep ptr).returns given
  refine ⟨out, call, ?_⟩
  cases outcome : resp.scan r ptr with
  | pending t =>
    rw [outcome] at meets
    obtain ⟨_, count, _⟩ := meets
    rw [count]
    exact ⟨List.length_pos_iff.mpr, le_rfl, fun _ => rfl⟩
  | done v used =>
    rw [outcome] at meets
    obtain ⟨result, count, _⟩ := meets
    have bounds := resp.scan_done_bounds outcome
    rw [result, count, Nat.zero_add]
    exact ⟨fun _ => bounds.1, bounds.2, nofun⟩
  | rejected used =>
    rw [outcome] at meets
    obtain ⟨result, count, _⟩ := meets
    have bounds := resp.scan_rejected_bounds outcome
    rw [result, count, Nat.zero_add]
    exact ⟨fun _ => bounds.1, bounds.2, nofun⟩

theorem grants_iff (rep : Represents p r) {buf : Bytes} :
    Grants reserve p buf ↔ Granted reserve r buf := by
  refine ⟨fun ⟨s, rep', given⟩ => ?_, fun given => ⟨r, rep, given⟩⟩
  by_contra refused
  obtain ⟨out, call, _⟩ := (parse_answers reserve rep' buf).returns given
  cases call.symm.trans ((parse_answers reserve rep buf).throws refused)

theorem grantsAll_iff (rep : Represents p r) {buf : Bytes} :
    GrantsAll reserve p buf ↔ GrantedAll reserve r buf := by
  refine ⟨fun ⟨s, rep', given⟩ => ?_, fun given => ⟨r, rep, given⟩⟩
  by_contra refused
  obtain ⟨got, call, _⟩ := readLoop_granted buf.length (buf.length + 1) rep' buf 0
    (Nat.zero_add _) (Nat.lt_succ_self _) given
  cases call.symm.trans (readLoop_refused buf.length (buf.length + 1) rep buf 0 (Nat.zero_add _)
    (Nat.lt_succ_self _) refused)

theorem progresses_iff (rep : Represents p r) {buf : Bytes} (some : buf ≠ []) :
    Progresses reserve p buf ↔ Grants reserve p buf := by
  rw [grants_iff rep]
  constructor
  · rintro ⟨out, call, _⟩
    by_contra refused
    cases call.symm.trans ((parse_answers reserve rep buf).throws refused)
  · intro given
    obtain ⟨out, call, some_read, within, whole⟩ := parse_returns rep given
    exact ⟨out, call, some_read some, within, whole⟩

theorem receive_advances (rep : Represents p r) {buf : Bytes} {pos : Nat}
    (more : pos < buf.length) (given : Granted reserve r (buf.drop pos)) :
    Advances buf pos (receive p buf pos reserve) ∧ ∀ v q next,
      receive p buf pos reserve = .ok (.value v q next) → Represents q resp.start := by
  have turn := receive_granted rep given
  cases outcome : resp.scan r (buf.drop pos) with
  | pending t =>
    rw [outcome] at turn
    obtain ⟨q, got, _⟩ := turn
    rw [got]
    exact ⟨Nat.add_sub_cancel' more.le, fun _ _ _ value => by cases value⟩
  | done v used =>
    rw [outcome] at turn
    obtain ⟨q, got, held⟩ := turn
    have bounds := resp.scan_done_bounds outcome
    rw [List.length_drop] at bounds
    rw [got]
    refine ⟨⟨by omega, by omega⟩, fun _ _ _ value => ?_⟩
    cases value
    exact held
  | rejected used =>
    rw [outcome] at turn
    obtain ⟨q, left, got, _⟩ := turn
    have bounds := resp.scan_rejected_bounds outcome
    rw [List.length_drop] at bounds
    rw [got]
    exact ⟨⟨by omega, by omega⟩, fun _ _ _ value => by cases value⟩

theorem advances_iff (rep : Represents p r) {buf : Bytes} {pos : Nat} (more : pos < buf.length) :
    Advances buf pos (receive p buf pos reserve) ↔ Grants reserve p (buf.drop pos) := by
  rw [grants_iff rep]
  refine ⟨fun advances => ?_, fun given => (receive_advances rep more given).1⟩
  by_contra refused
  rw [receive_refused rep refused] at advances
  exact advances

theorem turns_represent (rep : Represents p r) {buf : Bytes} {s : RedisParser × Nat}
    (turns : Relation.ReflTransGen (Turn reserve buf) (p, 0) s) : ∃ t, Represents s.1 t := by
  induction turns with
  | refl => exact ⟨r, rep⟩
  | @tail s _ _ turn ih =>
    obtain ⟨t, held⟩ := ih
    obtain ⟨more, v, got⟩ := turn
    have given : Granted reserve t (buf.drop s.2) := by
      by_contra refused
      cases got.symm.trans (receive_refused held refused)
    exact ⟨resp.start, (receive_advances held more given).2 v _ _ got⟩

/-- The loop of `asyncRead` comes to its end, which is a `reserve` that throws or the chunk's. -/
theorem readChunk_ends (rep : Represents p r) (buf : Bytes) :
    ((∃ got, readChunk p buf reserve = .ok got) ↔ GrantsAll reserve p buf) ∧
      readChunk p buf reserve ≠ .error .outOfFuel := by
  rw [grantsAll_iff rep]
  by_cases given : GrantedAll reserve r buf
  · obtain ⟨got, call, _⟩ := readLoop_granted buf.length (buf.length + 1) rep buf 0
      (Nat.zero_add _) (Nat.lt_succ_self _) given
    rw [readChunk, call]
    exact ⟨iff_of_true ⟨got, rfl⟩ given, by simp⟩
  · rw [readChunk, readLoop_refused buf.length (buf.length + 1) rep buf 0 (Nat.zero_add _)
      (Nat.lt_succ_self _) given]
    exact ⟨iff_of_false (by simp) given, by simp⟩

theorem syncLoop_ends (rep : Represents p r) (buf : Bytes) :
    ((∀ fault, (syncLoop (buf.length + 1) p buf 0 reserve).2 ≠ some (.fault fault)) ↔
      Grants reserve p buf) ∧
      (syncLoop (buf.length + 1) p buf 0 reserve).2 ≠ some (.fault .outOfFuel) := by
  rw [grants_iff rep]
  cases buf with
  | nil => exact ⟨iff_of_true (fun _ => by simp [syncLoop]) trivial, by simp [syncLoop]⟩
  | cons c rest =>
    have more : 0 < (c :: rest).length := Nat.succ_pos _
    by_cases given : Granted reserve r (c :: rest)
    · have turn := @receive_granted reserve p r rep (c :: rest) 0 given
      cases outcome : resp.scan r ((c :: rest).drop 0) with
      | pending t =>
        rw [outcome] at turn
        obtain ⟨q, got, _⟩ := turn
        have whole : ¬0 + ((c :: rest).length - 0) < (c :: rest).length := by omega
        have loop : syncLoop ((c :: rest).length + 1) p (c :: rest) 0 reserve = (q, none) := by
          rw [syncLoop, if_pos more, got]
          exact if_neg whole
        rw [loop]
        exact ⟨iff_of_true (fun _ => by simp) given, by simp⟩
      | done v used =>
        rw [outcome] at turn
        obtain ⟨q, got, _⟩ := turn
        rw [syncLoop, if_pos more, got]
        exact ⟨iff_of_true (fun _ => by simp) given, by simp⟩
      | rejected used =>
        rw [outcome] at turn
        obtain ⟨q, left, got, _⟩ := turn
        rw [syncLoop, if_pos more, got]
        exact ⟨iff_of_true (fun _ => by simp) given, by simp⟩
    · have thrown : receive p (c :: rest) 0 reserve = .error .reserve := receive_refused rep given
      rw [syncLoop, if_pos more, thrown]
      exact ⟨iff_of_false (fun none => none _ rfl) given, by simp⟩

end

/-- Calls return exactly while they are granted their room. From every parser that they lead to, a
call takes a byte of its chunk at least, and the whole chunk where it waits for more, if and only if
it is granted its room too. So `asyncRead` leaves nothing unread when it waits, and neither its loop
nor that of `doSyncCommand` has more turns than the chunk has bytes. -/
theorem redisParser_progress (reserve : Reserve) (chunks : List Bytes) :
    ((∃ p, (redisParser reserve).run {} chunks = some p) ↔
      (redisParser reserve).Tried (Grants reserve) {} chunks) ∧
    ∀ p, (redisParser reserve).run {} chunks = some p → ∀ buf : Bytes, buf ≠ [] →
      (Progresses reserve p buf ↔ Grants reserve p buf) ∧
      (∀ s, Relation.ReflTransGen (Turn reserve buf) (p, 0) s → s.2 < buf.length →
        (Advances buf s.2 (receive s.1 buf s.2 reserve) ↔ Grants reserve s.1 (buf.drop s.2))) ∧
      (((∃ got, readChunk p buf reserve = .ok got) ↔ GrantsAll reserve p buf) ∧
        readChunk p buf reserve ≠ .error .outOfFuel) ∧
      ((∀ fault, (syncLoop (buf.length + 1) p buf 0 reserve).2 ≠ some (.fault fault)) ↔
        Grants reserve p buf) ∧
      (syncLoop (buf.length + 1) p buf 0 reserve).2 ≠ some (.fault .outOfFuel) := by
  have kept (p : RedisParser) (buf : Bytes) (q : RedisParser) (held : ∃ r, Represents p r)
      (step : (redisParser reserve).step p buf = some q) : ∃ r, Represents q r := by
    obtain ⟨r, rep⟩ := held
    by_cases given : Granted reserve r buf
    · obtain ⟨q', called, after⟩ := call_granted rep given
      cases called.symm.trans step
      exact after
    · cases (call_refused rep given).symm.trans step
  refine ⟨(redisParser reserve).run_iff_tried (fun p => ∃ r, Represents p r) ?_ kept
    ⟨_, represents_initial⟩ chunks, fun p path buf some => ?_⟩
  · intro p buf ⟨r, rep⟩
    rw [grants_iff rep]
    refine ⟨fun ⟨q, step⟩ => ?_, fun given => (call_granted rep given).imp fun _ => And.left⟩
    by_contra refused
    cases (call_refused rep refused).symm.trans step
  · obtain ⟨r, rep⟩ := (redisParser reserve).run_invariant ⟨_, represents_initial⟩ path kept
    refine ⟨progresses_iff rep some, fun s turns more => ?_, readChunk_ends rep buf,
      syncLoop_ends rep buf⟩
    obtain ⟨t, held⟩ := turns_represent rep turns
    exact advances_iff held more

/-- A header that announces more elements than a vector can hold. -/
theorem redisParser_stuck :
    ¬∀ chunks p, (redisParser .maxSize).run {} chunks = some p → ∀ buf : Bytes, buf ≠ [] →
      Progresses .maxSize p buf := by
  intro always
  obtain ⟨out, call, _⟩ := always [] {} rfl (ascii "*9223372036854775807\r\n") (by decide)
  have thrown : parse {} (ascii "*9223372036854775807\r\n") .maxSize = .error .reserve := by
    decide +kernel
  cases call.symm.trans thrown

end Pinocchio.Redis
