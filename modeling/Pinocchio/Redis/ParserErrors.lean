import Pinocchio.Semantics.Transition
import Pinocchio.Redis.Reading

/-! The parser after an error.

An error goes out through all open arrays. Those whose elements were being read are
dropped, but an array that has just taken off the stacks one that was opened by an
earlier call puts itself back. Then the parser does not start afresh.
-/

set_option autoImplicit false

namespace Pinocchio.Redis
open Semantics Reader RedisParser

/-- Of the arrays that were open before the chunk only the outermost is still open when its
reading ends, since those inside it are complete by then. -/
def OneOpen (r : Reader) (chunk : Bytes) : Prop :=
  r.frames.dropLast = [] ∨
    ∃ v used, resp.scan ⟨r.lexer, r.frames.dropLast⟩ chunk = .done v used

/-- What is left open by an error is outside of the first array that is still open. -/
theorem array_left {n fuel : Nat} {p : RedisParser} {l : Lexer} {frames : List Frame} {ptr : Bytes}
    {used : Nat} (enough : 5 * n + 4 + frames.length ≤ fuel) (size : ptr.length = n)
    (open_ : frames ≠ []) (rep : Represents p ⟨l, frames⟩)
    (rejected : resp.scan ⟨l, frames⟩ ptr = .rejected used) :
    ∃ out left, parseArray fuel p ptr = .ok out ∧ out.result = .error ∧ out.count = used ∧
      Represents out.parser ⟨.start, left⟩ ∧ (left = [] ↔ OneOpen ⟨l, frames⟩ ptr) := by
  have items (m : Nat) : ItemsSpec {} m :=
    items_of_loop m (loop_of_chunk m fun j _ => chunkSpec {} j)
  have none {out : Parsed} (meets : Meets 0 n [] (resp.scan ⟨l, frames⟩ ptr) out) :
      out.result = .error ∧ out.count = used ∧ Represents out.parser ⟨.start, []⟩ := by
    rw [rejected] at meets
    obtain ⟨result, count, left, suffix, held⟩ := meets
    obtain rfl := List.suffix_nil.mp suffix
    exact ⟨result, count.trans (Nat.zero_add used), held⟩
  obtain ⟨inner, outer, rfl⟩ : ∃ inner outer, frames = inner ++ [outer] :=
    ⟨frames.dropLast, frames.getLast open_, (List.dropLast_concat_getLast open_).symm⟩
  rw [List.length_append, List.length_singleton] at enough
  obtain ⟨fuel, rfl⟩ : ∃ f, fuel = f + 1 := ⟨fuel - 1, by omega⟩
  by_cases alone : inner = []
  · subst alone
    obtain ⟨out, call, meets⟩ :=
      (array_alone (items n) (by omega) size rep).returns (granted_all _ ptr)
    obtain ⟨result, count, held⟩ := none meets
    exact ⟨out, [], call, result, count, held, iff_of_true rfl (Or.inl rfl)⟩
  have given := granted_all ⟨l, inner⟩ ptr
  obtain ⟨got, call, meets⟩ :=
    (arraySpec {} n fuel _ l inner ptr (by omega) size alone rep.peeled).returns given
  cases outcome : resp.scan ⟨l, inner⟩ ptr with
  | done v k =>
    rw [outcome] at meets
    obtain ⟨out, whole, meets⟩ :=
      (array_after (fun m _ => items m) (by omega) size alone rep given call outcome meets).returns
        (granted_all _ ptr)
    obtain ⟨result, count, held⟩ := none meets
    refine ⟨out, [], whole, result, count, held, iff_of_true rfl (Or.inr ⟨v, k, ?_⟩)⟩
    rw [List.dropLast_concat]
    exact outcome
  | pending r =>
    rw [scan_append_frames, outcome] at rejected
    cases rejected
  | rejected k =>
    rw [outcome] at meets
    rw [scan_append_frames, outcome] at rejected
    cases rejected
    obtain ⟨result, count, left, _, held⟩ := meets
    refine ⟨_, left ++ [outer], array_around alone rep call (by simp [result]), result,
      count.trans (Nat.zero_add used), pushed_frame held rfl, iff_of_false (by simp) ?_⟩
    rintro (none | ⟨v, j, done⟩)
    · rw [List.dropLast_concat] at none
      exact alone none
    · rw [List.dropLast_concat, outcome] at done
      cases done

theorem receive_left {p : RedisParser} {r : Reader} {buf : Bytes} {used : Nat}
    (rep : Represents p r) (rejected : resp.scan r buf = .rejected used) :
    ∃ q left, receive p buf 0 = .ok (.error q used) ∧ Represents q ⟨.start, left⟩ ∧
      (left = [] ↔ OneOpen r buf) := by
  obtain ⟨l, frames⟩ := r
  cases frames with
  | nil =>
    have turn := receive_meets rep buf 0
    rw [List.drop_zero, rejected] at turn
    obtain ⟨q, left, got, suffix, held⟩ := turn
    obtain rfl := List.suffix_nil.mp suffix
    rw [Nat.zero_add] at got
    exact ⟨q, [], got, held, iff_of_true rfl (Or.inl rfl)⟩
  | cons first others =>
    have height : p.arrayStack.length = (first :: others).length := by simp [rep.arrays]
    have deeper : p.arrayStack ≠ [] := by
      rw [ne_eq, ← List.length_eq_zero_iff, height]
      simp
    have enough : 5 * buf.length + 4 + (first :: others).length ≤
        5 * buf.length + p.arrayStack.length + 4 := by omega
    obtain ⟨out, left, call, result, count, held, clean⟩ :=
      array_left enough rfl (List.cons_ne_nil _ _) rep rejected
    have parsed : p.parse buf = .ok out := by
      rw [parse, fuelFor, parseWith, if_pos deeper, call]
    refine ⟨out.parser, left, ?_, held, clean⟩
    simp only [receive, List.drop_zero, parsed, bind, Except.bind, result, count, Nat.zero_add]
    rfl

/-! Runs of calls. -/

/-- A call of `parse`, whose result is taken when there is one. -/
def RedisParser.call (p : RedisParser) (buf : Bytes) (reserve : Reserve := {}) :
    Option RedisParser :=
  match receive p buf 0 reserve with
  | .ok (.value _ q _) | .ok (.more q _) | .ok (.error q _) => some q
  | .error _ => none

/-- A parser that is called with one piece of data after another, whatever the results are. -/
def redisParser (reserve : Reserve := {}) : System RedisParser Bytes :=
  ⟨{}, fun p buf => p.call buf reserve⟩

/-- An error leaves the parser as it was made, and it goes on like a new one. -/
def Restarts (p : RedisParser) (buf : Bytes) (_ : RedisParser) : Prop :=
  ∀ q pos, receive p buf 0 = .ok (.error q pos) →
    q.state = .start ∧ q.arrayStack = [] ∧ q.valueStack = [] ∧
      ∀ chunks, readStream q chunks = readStream {} chunks

/-- Where the machine rejects a byte, at most one array of earlier calls is still open. -/
def RejectsOuter (p : RedisParser) (buf : Bytes) (_ : RedisParser) : Prop :=
  ∀ r used, Represents p r → resp.scan r buf = .rejected used → OneOpen r buf

theorem restarts_iff {p q : RedisParser} {r : Reader} {buf : Bytes} (rep : Represents p r) :
    Restarts p buf q ↔ RejectsOuter p buf q := by
  constructor
  · intro restarts r used rep rejected
    obtain ⟨q, left, got, held, clean⟩ := receive_left rep rejected
    obtain ⟨_, arrays, _⟩ := restarts q used got
    have none := held.arrays.symm.trans arrays
    exact clean.mp (by simpa using none)
  · intro outer q pos error
    have turn := receive_meets rep buf 0
    rw [List.drop_zero] at turn
    cases outcome : resp.scan r buf with
    | pending t =>
      rw [outcome] at turn
      obtain ⟨_, got, _⟩ := turn
      rw [got] at error
      cases error
    | done v used =>
      rw [outcome] at turn
      obtain ⟨_, got, _⟩ := turn
      rw [got] at error
      cases error
    | rejected used =>
      obtain ⟨_, left, got, held, clean⟩ := receive_left rep outcome
      rw [got] at error
      cases error
      obtain rfl := clean.mpr (outer r _ rep outcome)
      refine ⟨held.lexer, held.arrays, held.values, fun chunks => ?_⟩
      rw [readStream_agrees held, readStream_agrees represents_initial]
      rfl

theorem call_granted {reserve : Reserve} {p : RedisParser} {r : Reader} (rep : Represents p r)
    {buf : Bytes} (given : Granted reserve r buf) :
    ∃ q, p.call buf reserve = some q ∧ ∃ t, Represents q t := by
  have turn := @receive_granted reserve p r rep buf 0 given
  cases outcome : resp.scan r (buf.drop 0) with
  | pending t =>
    rw [outcome] at turn
    obtain ⟨q, got, held⟩ := turn
    exact ⟨q, by simp only [RedisParser.call, got], t, held⟩
  | done v used =>
    rw [outcome] at turn
    obtain ⟨q, got, held⟩ := turn
    exact ⟨q, by simp only [RedisParser.call, got], resp.start, held⟩
  | rejected used =>
    rw [outcome] at turn
    obtain ⟨q, left, got, _, held⟩ := turn
    exact ⟨q, by simp only [RedisParser.call, got], ⟨.start, left⟩, held⟩

theorem call_refused {reserve : Reserve} {p : RedisParser} {r : Reader} (rep : Represents p r)
    {buf : Bytes} (refused : ¬Granted reserve r buf) : p.call buf reserve = none := by
  have thrown : receive p buf 0 reserve = .error .reserve := receive_refused rep refused
  simp only [RedisParser.call, thrown]

theorem call_represents {p : RedisParser} {r : Reader} (rep : Represents p r) (buf : Bytes) :
    ∃ q, p.call buf = some q ∧ ∃ t, Represents q t :=
  call_granted rep (granted_all r buf)

theorem redisParser_run (chunks : List Bytes) {p : RedisParser} {r : Reader}
    (rep : Represents p r) : ∃ q, redisParser.run p chunks = some q ∧ ∃ t, Represents q t := by
  induction chunks generalizing p r with
  | nil => exact ⟨p, rfl, r, rep⟩
  | cons buf chunks ih =>
    obtain ⟨q, called, t, held⟩ := call_represents rep buf
    obtain ⟨last, rest, represents⟩ := ih held
    exact ⟨last, (redisParser.run_cons_some).mpr ⟨q, called, rest⟩, represents⟩

/-- Whatever the data and its pieces are, all calls return. Every error starts the parser afresh
exactly when, at every malformed byte, at most one array is open whose header came in an earlier
call. -/
theorem redisParser_restarts (chunks : List Bytes) :
    (∃ q, redisParser.run redisParser.initial chunks = some q) ∧
      (redisParser.Along Restarts redisParser.initial chunks ↔
        redisParser.Along RejectsOuter redisParser.initial chunks) := by
  obtain ⟨last, path, _⟩ := redisParser_run chunks represents_initial
  refine ⟨⟨last, path⟩, ?_⟩
  refine System.along_iff (fun p => ∃ r, Represents p r) ?_ ?_ ⟨_, represents_initial⟩ chunks
  · intro p buf q ⟨r, rep⟩ _
    exact restarts_iff rep
  · intro p buf q ⟨r, rep⟩ step _
    obtain ⟨last, called, held⟩ := call_represents rep buf
    cases called.symm.trans step
    exact held

/-- Two arrays are open when a malformed byte comes in a chunk of its own. -/
theorem redisParser_nested :
    ¬∀ chunks, redisParser.Along Restarts redisParser.initial chunks := by
  intro always
  let p : RedisParser := { arrayStack := [1, 1], valueStack := [.array [], .array []] }
  let q : RedisParser := { arrayStack := [1], valueStack := [.array []] }
  have opened : redisParser.run redisParser.initial [ascii "*1\r\n*1\r\n"] = some p := by
    decide +kernel
  have failed : redisParser.step p (ascii "x") = some q := by decide +kernel
  have restarts := System.along_at (always [ascii "*1\r\n*1\r\n", ascii "x"]) opened failed
  have left := (restarts q 1 (by decide +kernel)).2.1
  cases left

end Pinocchio.Redis
