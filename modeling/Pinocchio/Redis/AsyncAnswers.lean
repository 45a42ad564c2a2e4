import Pinocchio.Semantics.History
import Pinocchio.Redis.AsyncWrites

/-! The server reads the executed commands, in their order.

What it received are the commands it has answered and a beginning of those after them. Nothing
that the client reads or keeps for its handlers has a part in this.
-/

set_option autoImplicit false

namespace Pinocchio.Redis
open Semantics Reader RedisClientImpl

namespace AsyncRun
variable {H M : Type} {s t : AsyncRun H M}

structure Understood (s : AsyncRun H M) : Prop where
  writes : Serialized s
  received : s.sent = ((s.executed.take s.served.length).flatMap fun done => makeCommand done.1) ++
    s.toServer
  answered : ∀ (k : Nat) (command : RedisValue) (reply : Reply),
    s.served[k]? = some (command, reply) →
    ∃ (items : Items) (handler : H), s.executed[k]? = some (items, handler) ∧
      command = items.value

theorem Understood.served_le (held : Understood s) : s.served.length ≤ s.executed.length := by
  by_contra longer
  have last : s.executed.length < s.served.length := by omega
  obtain ⟨items, handler, found, _⟩ := held.answered s.executed.length _ _
    (List.getElem?_eq_getElem last)
  simp at found

theorem Understood.unread (held : Understood s) :
    s.toServer ++ s.impl.unsent =
      (s.executed.drop s.served.length).flatMap fun done => makeCommand done.1 := by
  have bytes := held.writes.bytes
  rw [held.received, ← List.take_append_drop s.served.length s.executed, List.flatMap_append,
    List.append_assoc, List.take_append_drop] at bytes
  exact List.append_cancel_left bytes

theorem Understood.next (held : Understood s) {command : RedisValue} {used : Nat}
    (whole : resp.scan resp.start s.toServer = .done command used) :
    ∃ (items : Items) (handler : H), s.executed[s.served.length]? = some (items, handler) ∧
      command = items.value ∧ s.toServer = makeCommand items ++ s.toServer.drop used := by
  have unread := held.unread
  have within := (resp.scan_done_bounds whole).2
  -- A command that was read whole is read the same with all that is still to come behind it.
  have reads : resp.scan resp.start (s.toServer ++ s.impl.unsent) = .done command used := by
    rw [Machine.scan_append, whole]
  cases due : s.executed.drop s.served.length with
  | nil =>
    rw [due, List.flatMap_nil] at unread
    rw [unread] at reads
    cases reads
  | cons first later =>
    obtain ⟨items, handler⟩ := first
    rw [due, List.flatMap_cons] at unread
    rw [unread, (makeCommand_yields items).done] at reads
    cases reads
    refine ⟨items, handler, ?_, rfl, ?_⟩
    · exact getElem?_of_drop due
    · have start : s.toServer.take (makeCommand items).length = makeCommand items := by
        rw [← List.take_append_of_le_length within, unread, List.take_left]
      calc s.toServer
        _ = s.toServer.take _ ++ s.toServer.drop _ := (List.take_append_drop _ _).symm
        _ = makeCommand items ++ s.toServer.drop (makeCommand items).length := by rw [start]

/-! Each event keeps the invariant. -/

def SameServer (s t : AsyncRun H M) : Prop :=
  t.sent = s.sent ∧ t.executed = s.executed ∧ t.served = s.served ∧ t.toServer = s.toServer

theorem sameServer_after (result : Except Fault (RedisClientImpl H M)) :
    s.SameServer (s.after result) := by
  cases result with
  | ok impl => exact ⟨rfl, rfl, rfl, rfl⟩
  | error fault => exact ⟨rfl, rfl, rfl, rfl⟩

theorem sameServer_turn (buf : Bytes) (pos : Nat) : s.SameServer (s.turn buf pos) := by
  obtain ⟨impl, reading, fault, calls, same, _⟩ := turn_cases s buf pos
  rw [same]
  exact ⟨rfl, rfl, rfl, rfl⟩

theorem Understood.frame (held : Understood s) (writes : Serialized t) (same : s.SameServer t) :
    Understood t := by
  obtain ⟨sent, executed, served, toServer⟩ := same
  refine ⟨writes, ?_, ?_⟩
  · rw [sent, executed, served, toServer]
    exact held.received
  · rw [executed, served]
    exact held.answered

theorem Understood.client (held : Understood s) {impl : RedisClientImpl H M}
    (same : s.impl.SameWrites impl) : Understood { s with impl } :=
  held.frame (held.writes.frame same rfl rfl) ⟨rfl, rfl, rfl, rfl⟩

theorem Understood.runTask (held : Understood s) (task : Task H M) :
    Understood (s.runTask task) := by
  have writes := held.writes.runTask task
  cases task with
  | message handler buf => exact held.frame writes ⟨rfl, rfl, rfl, rfl⟩
  | command items handler =>
    refine ⟨writes, ?_, ?_⟩
    · simp only [AsyncRun.runTask]
      rw [List.take_append_of_le_length held.served_le]
      exact held.received
    · intro k command reply found
      obtain ⟨words, other, executed, same⟩ := held.answered k command reply found
      exact ⟨words, other, getElem?_grow executed _, same⟩

theorem Understood.transmit (held : Understood s) {write n : Nat} {unsent : Bytes}
    (found : s.impl.writes[write]? = some unsent) : Understood (s.transmit write n unsent) := by
  refine ⟨held.writes.transmit found, ?_, held.answered⟩
  simp only [AsyncRun.transmit]
  rw [held.received, List.append_assoc]

theorem Understood.serve (held : Understood s) {command : RedisValue} {used : Nat}
    (whole : resp.scan resp.start s.toServer = .done command used) (reply : Reply) :
    Understood (s.serve command used reply) := by
  obtain ⟨items, handler, executed, same, bytes⟩ := held.next whole
  refine ⟨held.writes.frame (.refl _) rfl rfl, ?_, ?_⟩
  · simp only [AsyncRun.serve, List.length_append, List.length_singleton]
    rw [held.received, List.take_add_one, executed, List.flatMap_append, List.append_assoc]
    congr 1
    simpa using bytes
  · intro k other answer found
    rcases getElem?_grow_one found with old | ⟨rfl, new⟩
    · exact held.answered k other answer old
    · cases new
      exact ⟨items, handler, executed, same⟩

theorem Understood.step {dummyHandler : H} {e : AsyncEvent H M} (held : Understood s)
    (allowed : WritesSucceed s e) (taken : Taken dummyHandler s e t) : Understood t := by
  have writes := held.writes.step allowed taken
  cases taken with
  | command items handler | publish channel msg handler | subscribe channel msgHandler handler
  | singleShotSubscribe channel msgHandler handler | unsubscribe handle | written finished =>
    exact held.frame writes (sameServer_after _)
  | @strand task strand front =>
    have taken : Understood { s with impl := { s.impl with strand } } := held.client ⟨rfl, rfl⟩
    exact taken.runTask task
  | transmit found bounds => exact held.transmit found
  | writeFailed message started => exact absurd allowed id
  | serve whole => exact held.serve whole _
  | push message | receive waiting bounds | readFailed message waiting | handlerReturn calling =>
    exact held.frame writes ⟨rfl, rfl, rfl, rfl⟩
  | turn parsing => exact held.frame writes (sameServer_turn _ _)

end AsyncRun

end Pinocchio.Redis
