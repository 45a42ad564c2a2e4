import Pinocchio.Redis.ClientImpl
import Pinocchio.Redis.SyncFailures

/-! What a synchronous command returns, with an error handler that does not throw.

A failure is reported, and then the call returns `RedisValue()`. A call whose read fails throws,
and returns nothing.
-/

set_option autoImplicit false

namespace Pinocchio.Redis
open Semantics Reader RedisParser

theorem rejectsLast_of_done {sizes : List Nat} {r : Reader} {unread : Bytes} {v : RedisValue}
    {used : Nat} (done : resp.scan r unread = .done v used) : RejectsLast r unread sizes := by
  induction sizes generalizing r unread v used with
  | nil => trivial
  | cons size sizes ih =>
    rw [← List.take_append_drop size unread, resp.scan_append] at done
    unfold RejectsLast
    cases outcome : resp.scan r (unread.take size) with
    | pending t =>
      rw [outcome] at done
      cases rest : resp.scan t (unread.drop size) with
      | pending u => simp [rest] at done
      | done w k => exact ih rest
      | rejected k => simp [rest] at done
    | done w k => trivial
    | rejected k => simp [outcome] at done

/-- What a call meets: a state in which it sends nothing, a write that fails after some of its
bytes, or a reply and the sizes of the pieces that are read of it. -/
inductive Exchange where
  | unsent
  | writeFailed (n : Nat) (message : Bytes)
  | answered (reply : SentReply) (sizes : List Nat)

/-- The client of one thread. Its `queue` is always empty. -/
structure SyncClient where
  state : ClientState
  redisParser : RedisParser := {}
  toServer : Bytes := []
  toClient : Bytes := []
  reports : List Bytes := []

namespace SyncClient
variable (c : SyncClient)

def errorHandler (message : Bytes) : SyncClient := { c with reports := c.reports ++ [message] }

/-- `assertions` tells whether the build has them. -/
def stateValid (assertions : Bool) : Except Fault (Bool × SyncClient) := do
  if assertions then check (c.state = .connected)
  if c.state ≠ .connected then
    return (false, c.errorHandler
      (ascii "RedisClient::command called with invalid state " ++ decimal c.state.number))
  return (true, c)

def doSyncCommand (items : Items) : Exchange → Option (Except Fault (RedisValue × SyncClient))
  | .unsent => none
  | .writeFailed n message =>
    if n < (makeCommand items).length then
      let c := { c with toServer := c.toServer ++ (makeCommand items).take n }
      some (.ok (.null, c.errorHandler message))
    else none
  | .answered reply sizes =>
    let c := { c with
      toServer := c.toServer ++ makeCommand items
      toClient := c.toClient ++ reply.wire.bytes }
    if (∀ n ∈ sizes, 0 < n ∧ n ≤ inbuffSize) ∧ sizes.sum ≤ c.toClient.length then
      match Redis.doSyncCommand c.redisParser c.toClient sizes with
      | ⟨_, _, none⟩ => none
      | ⟨redisParser, toClient, some (.value v)⟩ =>
        some (.ok (v, { c with redisParser, toClient }))
      | ⟨redisParser, toClient, some .parserError⟩ =>
        some (.ok (.null, { c with redisParser, toClient }.errorHandler
          (ascii "[RedisClient] Parser error")))
      | ⟨_, _, some (.fault fault)⟩ => some (.error fault)
    else none

/-- The value that `command` returns, unless it does not come to an end. -/
def command (assertions : Bool) (items : Items) (exchange : Exchange) :
    Option (Except Fault (RedisValue × SyncClient)) :=
  match c.stateValid assertions, exchange with
  | .error fault, .unsent => some (.error fault)
  | .ok (false, c), .unsent => some (.ok (.null, c))
  | .ok (true, c), exchange => c.doSyncCommand items exchange
  | _, _ => none

structure Clear : Prop where
  read : c.toClient = []
  start : Represents c.redisParser resp.start

variable {c}

/-- What a call can come to, when nothing is left of an earlier reply. -/
inductive Called (assertions : Bool) (c : SyncClient) :
    Exchange → Except Fault (RedisValue × SyncClient) → Prop where
  | aborted (on : assertions = true) : Called assertions c .unsent (.error .assertion)
  | invalid {d : SyncClient} (off : assertions = false) (reports : d.reports ≠ c.reports) :
    Called assertions c .unsent (.ok (.null, d))
  | unwritten {d : SyncClient} (n : Nat) (message : Bytes) (reports : d.reports ≠ c.reports) :
    Called assertions c (.writeFailed n message) (.ok (.null, d))
  | rejected {d : SyncClient} {reply : SentReply} (sizes : List Nat)
    (unprintable : ¬reply.wire.Printable) (reports : d.reports ≠ c.reports) :
    Called assertions c (.answered reply sizes) (.ok (.null, d))
  | returned {d : SyncClient} {reply : SentReply} (sizes : List Nat)
    (printable : reply.wire.Printable) (reports : d.reports = c.reports) (clear : d.Clear) :
    Called assertions c (.answered reply sizes) (.ok (reply.wire.value, d))

theorem errorHandler_reports (message : Bytes) : (c.errorHandler message).reports ≠ c.reports :=
  fun same => by simpa [errorHandler] using congrArg List.length same

theorem doSyncCommand_called {assertions : Bool} {items : Items} {exchange : Exchange}
    {result : Except Fault (RedisValue × SyncClient)} (held : c.Clear)
    (call : c.doSyncCommand items exchange = some result) :
    Called assertions c exchange result := by
  cases exchange with
  | unsent => cases call
  | writeFailed n message =>
    obtain ⟨_, same⟩ := Option.ite_none_right_eq_some.mp call
    cases same
    exact .unwritten n message (errorHandler_reports (c := { c with toServer := _ }) message)
  | answered reply sizes =>
    obtain ⟨_, call⟩ := Option.ite_none_right_eq_some.mp call
    -- Nothing is left of earlier replies, so the call reads the bytes of its own.
    have bytes : c.toClient ++ reply.wire.bytes = reply.wire.bytes := by
      rw [held.read, List.nil_append]
    simp only [bytes] at call
    have ended (x : SyncEnd)
        (is : (Redis.doSyncCommand c.redisParser reply.wire.bytes sizes).result = some x) :
        Ends x (resp.scan resp.start reply.wire.bytes) := doSyncCommand_ended held.start is
    obtain ⟨taken, refused⟩ := reply.scan
    by_cases printable : reply.wire.Printable
    · rw [taken printable] at ended
      have own (x : SyncEnd)
          (is : (Redis.doSyncCommand c.redisParser reply.wire.bytes sizes).result = some x) :=
        doSyncCommand_own held.start rfl (List.nil_append _)
          (rejectsLast_of_done (taken printable)) is
      split at call
      · cases call
      · rename_i parser unread v read
        obtain ⟨_, rest, start⟩ := own (.value v) (by rw [read])
        cases (ended (.value v) (by rw [read]) : SyncEnd.value v = .value reply.wire.value)
        cases call
        rw [read] at rest start
        exact .returned sizes printable rfl ⟨rest, start⟩
      · rename_i read
        exact nomatch ended .parserError (by rw [read])
      · rename_i fault read
        exact nomatch ended (.fault fault) (by rw [read])
    -- The grammar rejects the reply, so the call ends in a parser error, whatever its chunks are.
    · obtain ⟨used, rejected⟩ := refused printable
      rw [rejected] at ended
      split at call
      · cases call
      · rename_i v read
        exact nomatch ended (.value v) (by rw [read])
      · cases call
        exact .rejected sizes printable (errorHandler_reports (c := { c with toServer := _ }) _)
      · rename_i fault read
        exact nomatch ended (.fault fault) (by rw [read])

theorem command_called {assertions : Bool} {items : Items} {exchange : Exchange}
    {result : Except Fault (RedisValue × SyncClient)} (held : c.Clear)
    (call : c.command assertions items exchange = some result) :
    Called assertions c exchange result := by
  by_cases connected : c.state = .connected
  · have valid : c.stateValid assertions = .ok (true, c) := by
      cases assertions with
      | false =>
        simp only [stateValid, connected]
        rfl
      | true =>
        simp only [stateValid, check, connected]
        rfl
    simp only [command, valid] at call
    exact doSyncCommand_called held call
  · cases assertions with
    | true =>
      -- The assertion ends the call before anything is written.
      have valid : c.stateValid true = .error .assertion := by
        simp [stateValid, check, connected]
      simp only [command, valid] at call
      cases exchange with
      | unsent => cases call; exact .aborted rfl
      | writeFailed | answered => cases call
    | false =>
      have valid : c.stateValid false = .ok (false, c.errorHandler
          (ascii "RedisClient::command called with invalid state " ++ decimal c.state.number)) := by
        simp [stateValid, connected]; rfl
      simp only [command, valid] at call
      cases exchange with
      | unsent => cases call; exact .invalid rfl (errorHandler_reports _)
      | writeFailed | answered => cases call

end SyncClient

end Pinocchio.Redis
