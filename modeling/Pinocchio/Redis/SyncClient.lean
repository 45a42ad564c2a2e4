import Mathlib.Logic.Function.Basic
import Pinocchio.Semantics.Transition
import Pinocchio.Redis.Command

/-! Synchronous commands of several threads on one connection.

Every thread runs `doSyncCommand` on the same socket and the same parser, with a
chunk of its own. Bytes on their way back carry the number of the call that they
answer; no step of the program looks at it.
-/

set_option autoImplicit false

namespace Pinocchio.Redis
open Semantics

/-- Where a thread is in `doSyncCommand`: outside, before `read_some`, or at a position of the
chunk that it read. -/
inductive Phase where
  | idle
  | reading (call : Nat)
  | parsing (call : Nat) (inbuff : Bytes) (pos : Nat)
  deriving DecidableEq, Repr

def Phase.current : Phase → Option (Nat × Bytes)
  | .idle => none
  | .reading call => some (call, [])
  | .parsing call inbuff pos => some (call, inbuff.drop pos)

def Phase.call (phase : Phase) : Option Nat := phase.current.map Prod.fst

/-- The shared state and the history of the calls, in the order of their writes. The holder is
the call whose reply the parser is in the middle of. -/
structure SyncRun (T : Type) where
  redisParser : RedisParser := {}
  threads : T → Phase := fun _ => .idle
  toServer : Bytes := []
  toClient : List (Nat × UInt8) := []
  fault : Option Fault := none
  calls : List (T × Items) := []
  served : List (RedisValue × Reply) := []
  returned : List (Nat × RedisValue) := []
  holder : Option Nat := none

inductive SyncEvent (T : Type) where
  | write (t : T) (items : Items)
  | serve (reply : Reply)
  | readSome (t : T) (n : Nat)
  | parse (t : T)

/-- The size of the array that `read_some` fills. -/
def inbuffSize : Nat := 4096

namespace SyncRun
variable {T : Type} [DecidableEq T] (s : SyncRun T)

def goto (t : T) (phase : Phase) : SyncRun T :=
  { s with threads := Function.update s.threads t phase }

def write (t : T) (items : Items) : SyncRun T :=
  { s.goto t (.reading s.calls.length) with
    toServer := s.toServer ++ makeCommand items
    calls := s.calls ++ [(t, items)] }

omit [DecidableEq T] in
def serve (command : RedisValue) (used : Nat) (reply : Reply) : SyncRun T :=
  { s with
    toServer := s.toServer.drop used
    toClient := s.toClient ++ reply.encode.map (s.served.length, ·)
    served := s.served ++ [(command, reply)] }

def readSome (t : T) (call n : Nat) : SyncRun T :=
  { s.goto t (.parsing call ((s.toClient.take n).map Prod.snd) 0) with
    toClient := s.toClient.drop n }

/-- One turn of the inner loop. A value is returned and the rest of the chunk is dropped; the
default error handler throws, so after an error nothing is returned. -/
def parse (t : T) (call : Nat) (inbuff : Bytes) (pos : Nat) : SyncRun T :=
  if pos < inbuff.length then
    match receive s.redisParser inbuff pos with
    | .error fault => { s with fault := some fault }
    | .ok (.value v parser _) =>
      -- `return redisParser.result()`, whatever is left in the chunk.
      { s.goto t .idle with
        redisParser := parser
        returned := s.returned ++ [(call, v)]
        holder := none }
    | .ok (.more parser pos) =>
      { s.goto t (.parsing call inbuff pos) with redisParser := parser, holder := some call }
    | .ok (.error parser _) => { s.goto t .idle with redisParser := parser, holder := none }
  else s.goto t (.reading call)

def step (s : SyncRun T) (e : SyncEvent T) : Option (SyncRun T) :=
  if s.fault ≠ none then none else
  match e with
  | .write t items =>
    match s.threads t with
    | .idle => some (s.write t items)
    | _ => none
  | .serve reply =>
    match resp.scan resp.start s.toServer with
    | .done command used => some (s.serve command used reply)
    | _ => none
  | .readSome t n =>
    match s.threads t with
    | .reading call =>
      if 0 < n ∧ n ≤ inbuffSize ∧ n ≤ s.toClient.length then some (s.readSome t call n) else none
    | _ => none
  | .parse t =>
    match s.threads t with
    | .parsing call inbuff pos => some (s.parse t call inbuff pos)
    | _ => none

/-! What a step can be, one case for each event. -/

inductive Taken (s : SyncRun T) : SyncEvent T → SyncRun T → Prop where
  | write {t : T} (items : Items) (idle : s.threads t = .idle) :
    Taken s (.write t items) (s.write t items)
  | serve {reply : Reply} {command : RedisValue} {used : Nat}
    (whole : resp.scan resp.start s.toServer = .done command used) :
    Taken s (.serve reply) (s.serve command used reply)
  | readSome {t : T} {call n : Nat} (reading : s.threads t = .reading call)
    (bounds : 0 < n ∧ n ≤ inbuffSize ∧ n ≤ s.toClient.length) :
    Taken s (.readSome t n) (s.readSome t call n)
  | parse {t : T} {call : Nat} {inbuff : Bytes} {pos : Nat}
    (parsing : s.threads t = .parsing call inbuff pos) :
    Taken s (.parse t) (s.parse t call inbuff pos)

theorem taken_of_step {s u : SyncRun T} {e : SyncEvent T} (step : s.step e = some u) :
    s.fault = none ∧ Taken s e u := by
  unfold SyncRun.step at step
  split at step
  · cases step
  rename_i running
  refine ⟨not_not.mp running, ?_⟩
  cases e with
  | write t items =>
    dsimp only at step
    split at step
    · rename_i idle
      cases step
      exact .write items idle
    · cases step
  | serve reply =>
    dsimp only at step
    split at step
    · rename_i whole
      cases step
      exact .serve whole
    · cases step
  | readSome t n =>
    dsimp only at step
    split at step
    · rename_i reading
      obtain ⟨bounds, same⟩ := Option.ite_none_right_eq_some.mp step
      cases same
      exact .readSome reading bounds
    · cases step
  | parse t =>
    dsimp only at step
    split at step
    · rename_i parsing
      cases step
      exact .parse parsing
    · cases step

end SyncRun

def syncClient (T : Type) [DecidableEq T] : System (SyncRun T) (SyncEvent T) := ⟨{}, SyncRun.step⟩

namespace SyncRun
variable {T : Type}

/-- Every value returned is that of the reply to the call's own command. -/
def OwnReplies (s : SyncRun T) : Prop :=
  ∀ (call : Nat) (v : RedisValue), (call, v) ∈ s.returned →
    ∃ (t : T) (items : Items) (reply : Reply), s.calls[call]? = some (t, items) ∧
      s.served[call]? = some (items.value, reply) ∧ v = reply.value

/-- The server answers with well-formed replies. -/
def Proper (_ : SyncRun T) : SyncEvent T → Prop
  | .serve reply => reply.WellFormed intMin intMax
  | _ => True

/-- Moreover threads keep apart: one takes bytes only of the reply to its own command, and
parses only when the parser is not in the middle of another call's reply. -/
def Apart (s : SyncRun T) : SyncEvent T → Prop
  | .write _ _ => True
  | .serve reply => reply.WellFormed intMin intMax
  | .readSome t n => ∀ byte ∈ s.toClient.take n, (s.threads t).call = some byte.1
  | .parse t => s.holder = none ∨ s.holder = (s.threads t).call

instance (s : SyncRun T) : ∀ e, Decidable (Proper s e)
  | .serve reply => inferInstanceAs (Decidable (reply.WellFormed intMin intMax))
  | .write _ _ | .readSome _ _ | .parse _ => isTrue trivial

instance (s : SyncRun T) : ∀ e, Decidable (Apart s e)
  | .write _ _ => isTrue trivial
  | .serve reply => inferInstanceAs (Decidable (reply.WellFormed intMin intMax))
  | .readSome t n =>
    inferInstanceAs (Decidable (∀ byte ∈ s.toClient.take n, (s.threads t).call = some byte.1))
  | .parse t => inferInstanceAs (Decidable (s.holder = none ∨ s.holder = (s.threads t).call))

end SyncRun

end Pinocchio.Redis
