import Pinocchio.Semantics.Transition
import Pinocchio.Redis.ClientImpl

/-! The asynchronous client at work: its strand, its socket and the server.

Every event is one atomic step, and any enabled event may come next. Calls of the
public methods are events of their own, whether they come from outside or from a
reply handler that is running. A failed assertion ends the run.
-/

set_option autoImplicit false

namespace Pinocchio.Redis
open Semantics

/-- Where `asyncRead` is: stopped, waiting for bytes, at a position of its chunk, or inside a
handler that it called, with the position to go on at. -/
inductive Reading where
  | stopped
  | waiting
  | parsing (buf : Bytes) (pos : Nat)
  | calling (buf : Bytes) (pos : Nat)

def Reading.rest : Reading → Bytes
  | .stopped | .waiting => []
  | .parsing buf pos | .calling buf pos => buf.drop pos

/-- The client, both directions of the connection, and the history of the run. -/
structure AsyncRun (H M : Type) where
  impl : RedisClientImpl H M
  reading : Reading := .waiting
  toServer : Bytes := []
  toClient : Bytes := []
  fault : Option Fault := none
  executed : List (Items × H) := []
  sent : Bytes := []
  served : List (RedisValue × Reply) := []
  calls : List (H × RedisValue) := []
  delivered : List (M × Bytes) := []

inductive AsyncEvent (H M : Type) where
  | command (items : Items) (handler : H)
  | publish (channel : Text) (msg : RedisBuffer) (handler : H)
  | subscribe (channel : Text) (msgHandler : M) (handler : H)
  | singleShotSubscribe (channel : Text) (msgHandler : M) (handler : H)
  | unsubscribe (handle : Handle)
  | strand
  | transmit (write n : Nat)
  | written (write : Nat)
  | writeFailed (write : Nat) (message : Bytes)
  | serve (reply : Reply)
  | push (message : Reply)
  | receive (n : Nat)
  | readFailed (message : Bytes)
  | turn
  | handlerReturn

namespace AsyncRun
variable {H M : Type} (s : AsyncRun H M)

/-- Go on with what a method made of the client, unless one of its assertions failed. -/
def after : Except Fault (RedisClientImpl H M) → AsyncRun H M
  | .ok impl => { s with impl }
  | .error fault => { s with fault := some fault }

def runTask : Task H M → AsyncRun H M
  | .command items handler =>
    { s with
      impl := s.impl.doAsyncCommand (makeCommand items) handler
      executed := s.executed ++ [(items, handler)] }
  | .message handler buf => { s with delivered := s.delivered ++ [(handler, buf)] }

def transmit (write n : Nat) (unsent : Bytes) : AsyncRun H M :=
  { s with
    impl := { s.impl with writes := s.impl.writes.set write (unsent.drop n) }
    toServer := s.toServer ++ unsent.take n
    sent := s.sent ++ unsent.take n }

def complete (write : Nat) (error : Option Bytes) : AsyncRun H M :=
  s.after (RedisClientImpl.asyncWrite { s.impl with writes := s.impl.writes.eraseIdx write } error)

/-- The server takes a command it has received as a whole, and answers it. -/
def serve (command : RedisValue) (used : Nat) (reply : Reply) : AsyncRun H M :=
  { s with
    toServer := s.toServer.drop used
    toClient := s.toClient ++ reply.encode
    served := s.served ++ [(command, reply)] }

def turn (buf : Bytes) (pos : Nat) : AsyncRun H M :=
  if pos < buf.length then
    match receive s.impl.redisParser buf pos with
    | .error fault => { s with fault := some fault }
    | .ok (.value v parser pos) =>
      match RedisClientImpl.doProcessMessage { s.impl with redisParser := parser } v with
      | (some handler, impl) =>
        { s with impl, reading := .calling buf pos, calls := s.calls ++ [(handler, v)] }
      | (none, impl) => { s with impl, reading := .parsing buf pos }
    | .ok (.more parser _) =>
      { s with impl := { s.impl with redisParser := parser }, reading := .waiting }
    | .ok (.error parser _) =>
      -- No read is started again.
      { s with
        impl := { s.impl with redisParser := parser }.errorHandler
          (ascii "[RedisClient] Parser error")
        reading := .stopped }
  else { s with reading := .waiting }

/-- The size of the array that `async_read_some` fills. -/
def bufSize : Nat := 4096

def step (dummyHandler : H) (s : AsyncRun H M) (e : AsyncEvent H M) : Option (AsyncRun H M) :=
  if s.fault ≠ none then none else
  match e with
  | .command items handler => some (s.after (s.impl.command items handler))
  | .publish channel msg handler => some (s.after (s.impl.publish channel msg handler))
  | .subscribe channel msgHandler handler =>
    some (s.after ((s.impl.subscribe channel msgHandler handler).map Prod.snd))
  | .singleShotSubscribe channel msgHandler handler =>
    some (s.after (s.impl.singleShotSubscribe channel msgHandler handler))
  | .unsubscribe handle => some (s.after (s.impl.unsubscribe dummyHandler handle))
  | .strand =>
    match s.impl.strand with
    | [] => none
    | task :: strand => some (runTask { s with impl := { s.impl with strand } } task)
  | .transmit write n =>
    match s.impl.writes[write]? with
    | none => none
    | some unsent => if 0 < n ∧ n ≤ unsent.length then some (s.transmit write n unsent) else none
  | .written write =>
    if s.impl.writes[write]? = some [] then some (s.complete write none) else none
  | .writeFailed write message =>
    if write < s.impl.writes.length then some (s.complete write (some message)) else none
  | .serve reply =>
    match resp.scan resp.start s.toServer with
    | .done command used => some (s.serve command used reply)
    | _ => none
  | .push message => some { s with toClient := s.toClient ++ message.encode }
  | .receive n =>
    match s.reading with
    | .waiting =>
      if 0 < n ∧ n ≤ bufSize ∧ n ≤ s.toClient.length then
        some { s with
          reading := .parsing (s.toClient.take n) 0
          toClient := s.toClient.drop n }
      else none
    | _ => none
  | .readFailed message =>
    match s.reading with
    | .waiting => some { s with impl := s.impl.errorHandler message, reading := .stopped }
    | _ => none
  | .turn =>
    match s.reading with
    | .parsing buf pos => some (s.turn buf pos)
    | _ => none
  | .handlerReturn =>
    match s.reading with
    | .calling buf pos =>
      some { s with
        impl := { s.impl with handlers := s.impl.handlers.tail }
        reading := .parsing buf pos }
    | _ => none

/-! What a step can be, one case for each event. -/

inductive Taken (dummyHandler : H) (s : AsyncRun H M) : AsyncEvent H M → AsyncRun H M → Prop where
  | command (items : Items) (handler : H) :
    Taken dummyHandler s (.command items handler) (s.after (s.impl.command items handler))
  | publish (channel : Text) (msg : RedisBuffer) (handler : H) :
    Taken dummyHandler s (.publish channel msg handler)
      (s.after (s.impl.publish channel msg handler))
  | subscribe (channel : Text) (msgHandler : M) (handler : H) :
    Taken dummyHandler s (.subscribe channel msgHandler handler)
      (s.after ((s.impl.subscribe channel msgHandler handler).map Prod.snd))
  | singleShotSubscribe (channel : Text) (msgHandler : M) (handler : H) :
    Taken dummyHandler s (.singleShotSubscribe channel msgHandler handler)
      (s.after (s.impl.singleShotSubscribe channel msgHandler handler))
  | unsubscribe (handle : Handle) :
    Taken dummyHandler s (.unsubscribe handle) (s.after (s.impl.unsubscribe dummyHandler handle))
  | strand {task : Task H M} {strand : List (Task H M)} (front : s.impl.strand = task :: strand) :
    Taken dummyHandler s .strand (runTask { s with impl := { s.impl with strand } } task)
  | transmit {write n : Nat} {unsent : Bytes} (found : s.impl.writes[write]? = some unsent)
    (bounds : 0 < n ∧ n ≤ unsent.length) :
    Taken dummyHandler s (.transmit write n) (s.transmit write n unsent)
  | written {write : Nat} (finished : s.impl.writes[write]? = some []) :
    Taken dummyHandler s (.written write) (s.complete write none)
  | writeFailed {write : Nat} (message : Bytes) (started : write < s.impl.writes.length) :
    Taken dummyHandler s (.writeFailed write message) (s.complete write (some message))
  | serve {reply : Reply} {command : RedisValue} {used : Nat}
    (whole : resp.scan resp.start s.toServer = .done command used) :
    Taken dummyHandler s (.serve reply) (s.serve command used reply)
  | push (message : Reply) :
    Taken dummyHandler s (.push message) { s with toClient := s.toClient ++ message.encode }
  | receive {n : Nat} (waiting : s.reading = .waiting)
    (bounds : 0 < n ∧ n ≤ bufSize ∧ n ≤ s.toClient.length) :
    Taken dummyHandler s (.receive n)
      { s with reading := .parsing (s.toClient.take n) 0, toClient := s.toClient.drop n }
  | readFailed (message : Bytes) (waiting : s.reading = .waiting) :
    Taken dummyHandler s (.readFailed message)
      { s with impl := s.impl.errorHandler message, reading := .stopped }
  | turn {buf : Bytes} {pos : Nat} (parsing : s.reading = .parsing buf pos) :
    Taken dummyHandler s .turn (s.turn buf pos)
  | handlerReturn {buf : Bytes} {pos : Nat} (calling : s.reading = .calling buf pos) :
    Taken dummyHandler s .handlerReturn
      { s with
        impl := { s.impl with handlers := s.impl.handlers.tail }
        reading := .parsing buf pos }

theorem taken_of_step {dummyHandler : H} {s t : AsyncRun H M} {e : AsyncEvent H M}
    (step : s.step dummyHandler e = some t) : s.fault = none ∧ Taken dummyHandler s e t := by
  unfold AsyncRun.step at step
  split at step
  · cases step
  rename_i running
  refine ⟨not_not.mp running, ?_⟩
  cases e with
  | command items handler => cases step; exact .command items handler
  | publish channel msg handler => cases step; exact .publish channel msg handler
  | subscribe channel msgHandler handler => cases step; exact .subscribe channel msgHandler handler
  | singleShotSubscribe channel msgHandler handler =>
    cases step
    exact .singleShotSubscribe channel msgHandler handler
  | unsubscribe handle => cases step; exact .unsubscribe handle
  | strand =>
    dsimp only at step
    split at step
    · cases step
    · rename_i front
      cases step
      exact .strand front
  | transmit write n =>
    dsimp only at step
    split at step
    · cases step
    · rename_i found
      obtain ⟨bounds, same⟩ := Option.ite_none_right_eq_some.mp step
      cases same
      exact .transmit found bounds
  | written write =>
    obtain ⟨finished, same⟩ := Option.ite_none_right_eq_some.mp step
    cases same
    exact .written finished
  | writeFailed write message =>
    obtain ⟨started, same⟩ := Option.ite_none_right_eq_some.mp step
    cases same
    exact .writeFailed message started
  | serve reply =>
    dsimp only at step
    split at step
    · rename_i whole
      cases step
      exact .serve whole
    · cases step
  | push message => cases step; exact .push message
  | receive n =>
    dsimp only at step
    split at step
    · rename_i waiting
      obtain ⟨bounds, same⟩ := Option.ite_none_right_eq_some.mp step
      cases same
      exact .receive waiting bounds
    · cases step
  | readFailed message =>
    dsimp only at step
    split at step
    · rename_i waiting
      cases step
      exact .readFailed message waiting
    · cases step
  | turn =>
    dsimp only at step
    split at step
    · rename_i parsing
      cases step
      exact .turn parsing
    · cases step
  | handlerReturn =>
    dsimp only at step
    split at step
    · rename_i calling
      cases step
      exact .handlerReturn calling
    · cases step

end AsyncRun

def asyncClient {H M : Type} (dummyHandler : H) : System (AsyncRun H M) (AsyncEvent H M) :=
  ⟨{ impl := { state := .connected } }, AsyncRun.step dummyHandler⟩

end Pinocchio.Redis
