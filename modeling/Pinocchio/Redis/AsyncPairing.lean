import Pinocchio.Redis.AsyncReplies

/-! The asynchronous client pairs replies with commands.

The invariant ties together the executed commands, what the server has read and
answered of them, the handlers that wait, and the replies on their way, of which
the parser may hold one half. It is stated through the byte machine: reading what
is unread would give exactly the values of the replies that were not handed out.
-/

set_option autoImplicit false

namespace Pinocchio.Redis
open Semantics Reader RedisClientImpl

namespace AsyncRun
variable {H M : Type} {s t : AsyncRun H M}

/-- Calls of commands only, no failures, and a server that answers what it receives. -/
def Calm (_ : AsyncRun H M) : AsyncEvent H M → Prop
  | .command _ _ | .publish _ _ _ | .strand | .transmit _ _ | .written _ | .receive _ | .turn
  | .handlerReturn => True
  | .serve reply => reply.WellFormed intMin intMax
  | .subscribe _ _ _ | .singleShotSubscribe _ _ _ | .unsubscribe _ | .writeFailed _ _ | .push _
  | .readFailed _ => False

instance (s : AsyncRun H M) : ∀ e, Decidable (Calm s e)
  | .command _ _ | .publish _ _ _ | .strand | .transmit _ _ | .written _ | .receive _ | .turn
  | .handlerReturn => isTrue trivial
  | .serve reply => inferInstanceAs (Decidable (reply.WellFormed intMin intMax))
  | .subscribe _ _ _ | .singleShotSubscribe _ _ _ | .unsubscribe _ | .writeFailed _ _ | .push _
  | .readFailed _ => isFalse id

/-- What is unread would be read as the values of the replies that were not handed out. -/
def RepliesDue (s : AsyncRun H M) : Prop :=
  ∃ r, Represents s.impl.redisParser r ∧
    resp.consume r (s.reading.rest ++ s.toClient) =
      ⟨(s.served.drop s.calls.length).map (·.2.value), .waiting resp.start⟩

structure Paired (s : AsyncRun H M) : Prop where
  state : s.impl.state = .connected
  reports : s.impl.reports = []
  fault : s.fault = none
  writes : Serialized s
  received : s.sent = ((s.executed.take s.served.length).flatMap fun done => makeCommand done.1) ++
    s.toServer
  answered : ∀ (k : Nat) (command : RedisValue) (reply : Reply),
    s.served[k]? = some (command, reply) →
    ∃ (items : Items) (handler : H), s.executed[k]? = some (items, handler) ∧
      command = items.value
  called : ∀ (k : Nat) (call : H × RedisValue), s.calls[k]? = some call → s.Matched k call
  handlers : Waiting s.reading s.impl.handlers ((s.executed.drop s.calls.length).map Prod.snd)
  replies : s.RepliesDue

theorem paired_iff : Paired s ↔ Attended s ∧ s.impl.state = .connected := by
  constructor
  · intro held
    obtain ⟨r, rep, reads⟩ := held.replies
    exact ⟨⟨held.reports, held.fault, ⟨held.writes, held.received, held.answered⟩, held.called,
      held.handlers, r, s.replies, rep, reads, held.state ▸ .connected s.replies⟩, held.state⟩
  · rintro ⟨held, state⟩
    obtain ⟨r, due, rep, reads, expected⟩ := held.due
    rw [state] at expected
    cases expected
    exact ⟨state, held.reports, held.fault, held.understood.writes, held.understood.received,
      held.understood.answered, held.called, held.handlers, r, rep, reads⟩

theorem state_calm {dummyHandler : H} {e : AsyncEvent H M} (held : Attended s)
    (connected : s.impl.state = .connected) (calm : Calm s e) (taken : Taken dummyHandler s e t) :
    t.impl.state = .connected := by
  cases taken with
  | command items handler =>
    rw [command_connected connected]
    exact connected
  | publish channel msg handler =>
    rw [publish_connected connected]
    exact connected
  | @strand task strand front =>
    cases task with
    | command items handler =>
      obtain ⟨writes, same⟩ :=
        doAsyncCommand_eq { s.impl with strand } (makeCommand items) handler
      simp only [AsyncRun.runTask, same]
      exact connected
    | message handler buf => exact connected
  | transmit found bounds | serve whole | receive waiting bounds | handlerReturn calling =>
    exact connected
  | written finished =>
    obtain ⟨d, call, _⟩ := asyncWrite_writes held.understood.writes.outstanding finished
    obtain ⟨queue, writes, rfl⟩ := asyncWrite_eq call
    simp only [complete, call]
    exact connected
  | turn parsing => exact (turn_state s _ _).trans connected
  | subscribe channel msgHandler handler => exact absurd calm id
  | singleShotSubscribe channel msgHandler handler => exact absurd calm id
  | unsubscribe handle => exact absurd calm id
  | writeFailed message started => exact absurd calm id
  | push message => exact absurd calm id
  | readFailed message waiting => exact absurd calm id

theorem orderly_of_calm {e : AsyncEvent H M} (connected : s.impl.state = .connected)
    (calm : Calm s e) : Orderly s e := by
  cases e with
  | command | publish => exact connected
  | serve reply => exact ⟨calm, fun state => by rw [connected] at state; cases state⟩
  | strand | transmit | written | receive | turn | handlerReturn => trivial
  | subscribe | singleShotSubscribe | unsubscribe | writeFailed | push | readFailed =>
    exact absurd calm id

theorem Paired.step {dummyHandler : H} {e : AsyncEvent H M} (held : Paired s) (calm : Calm s e)
    (taken : Taken dummyHandler s e t) : Paired t := by
  obtain ⟨attended, connected⟩ := paired_iff.mp held
  exact paired_iff.mpr ⟨attended.step (orderly_of_calm connected calm) taken,
    state_calm attended connected calm taken⟩

end AsyncRun

open AsyncRun

theorem asyncClient_paired {H M : Type} {dummyHandler : H} {s : AsyncRun H M}
    (reached : (asyncClient dummyHandler).Reaches Calm s) : Paired s := by
  refine reached.invariant ?_ fun s e t held calm step => held.step calm (taken_of_step step).2
  exact paired_iff.mpr ⟨asyncClient_attended .initial, rfl⟩

/-- Each call is that of the next command with the reply to it, nothing is reported, and once
all replies are read the handler of every answered command was called. -/
theorem asyncClient_pairs {H M : Type} {dummyHandler : H} {s : AsyncRun H M}
    (reached : (asyncClient dummyHandler).Reaches Calm s) :
    (∀ (k : Nat) (call : H × RedisValue), s.calls[k]? = some call →
      ∃ (items : Items) (handler : H) (reply : Reply), s.executed[k]? = some (items, handler) ∧
        s.served[k]? = some (items.value, reply) ∧ call = (handler, reply.value)) ∧
    s.calls.length ≤ s.served.length ∧ s.served.length ≤ s.executed.length ∧
    s.fault = none ∧ s.impl.reports = [] ∧
    (s.reading.rest ++ s.toClient = [] → s.calls.length = s.served.length) := by
  have held := (paired_iff.mp (asyncClient_paired reached)).1
  exact ⟨held.called, held.calls_le, held.understood.served_le, held.fault, held.reports,
    held.all_called⟩

def pingEvents : List (AsyncEvent Nat Unit) :=
  [.command pingItems 7, .strand, .transmit 0 9, .transmit 0 5, .written 0,
    .serve (.simple (ascii "PONG")), .receive 3, .turn, .receive 4, .turn, .command pingItems 8,
    .strand, .handlerReturn, .turn, .transmit 0 14, .serve (.array [.nil]), .receive 9, .turn]

def pingEnd : AsyncRun Nat Unit :=
  ((asyncClient 0).run (asyncClient 0).initial pingEvents).get (by decide +kernel)

theorem pingEnd_reached : (asyncClient 0).Reaches Calm pingEnd :=
  System.Reaches.run .initial (by decide +kernel) (Option.some_get _).symm

theorem asyncClient_pairs_ping :
    pingEnd.calls = [(7, .bytes (ascii "PONG") false), (8, .array [.null])] ∧
    (∀ (k : Nat) (call : Nat × RedisValue), pingEnd.calls[k]? = some call →
      ∃ (items : Items) (handler : Nat) (reply : Reply),
        pingEnd.executed[k]? = some (items, handler) ∧
        pingEnd.served[k]? = some (items.value, reply) ∧ call = (handler, reply.value)) :=
  ⟨by decide +kernel, (asyncClient_pairs pingEnd_reached).1⟩

end Pinocchio.Redis
