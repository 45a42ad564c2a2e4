import Pinocchio.Redis.Command

/-! The client state behind `RedisAsyncClient`, and what its methods do to it.

Reply handlers and message handlers are opaque, of types `H` and `M`. The socket
is what its outstanding writes have yet to send, the strand a queue of tasks, and
the error handler one that keeps the reports it is given.
-/

set_option autoImplicit false

namespace Pinocchio.Redis
open Semantics

inductive ClientState where
  | notConnected
  | connected
  | subscribed
  | closed
  deriving DecidableEq, Repr

def ClientState.number : ClientState → Nat
  | .notConnected => 0
  | .connected => 1
  | .subscribed => 2
  | .closed => 3

structure QueueItem (H : Type) where
  handler : H
  buff : Bytes

/-- A task of the strand: `doAsyncCommand` with the bytes of a command and its handler, or a
message handler with a message. -/
inductive Task (H M : Type) where
  | command (items : Items) (handler : H)
  | message (handler : M) (buf : Bytes)

structure Handle where
  id : Nat
  channel : Text

/-- Queues have their front first. A multimap keeps equal keys in the order of insertion. -/
structure RedisClientImpl (H M : Type) where
  state : ClientState := .notConnected
  strand : List (Task H M) := []
  writes : List Bytes := []
  redisParser : RedisParser := {}
  subscribeSeq : Nat := 0
  handlers : List H := []
  msgHandlers : List (Bytes × Nat × M) := []
  singleShotMsgHandlers : List (Bytes × M) := []
  queue : List (QueueItem H) := []
  reports : List Bytes := []

def check (condition : Bool) : Except Fault Unit :=
  if condition then .ok () else .error .assertion

namespace RedisClientImpl
variable {H M : Type} (c : RedisClientImpl H M)

def post (task : Task H M) : RedisClientImpl H M := { c with strand := c.strand ++ [task] }

def errorHandler (message : Bytes) : RedisClientImpl H M :=
  { c with reports := c.reports ++ [message] }

def startWrite (buff : Bytes) : RedisClientImpl H M := { c with writes := c.writes ++ [buff] }

/-! The private side: commands, completions and messages. -/

def doAsyncCommand (buff : Bytes) (handler : H) : RedisClientImpl H M :=
  let item : QueueItem H := ⟨handler, buff⟩
  let c := { c with queue := c.queue ++ [item], handlers := c.handlers ++ [item.handler] }
  if c.queue.length = 1 then c.startWrite item.buff else c

/-- The completion of a write, with the message of its error if it failed. -/
def asyncWrite : Option Bytes → Except Fault (RedisClientImpl H M)
  | some message => .ok (c.errorHandler message)
  | none =>
    match c.queue with
    -- `assert(queue.empty() == false)`
    | [] => .error .assertion
    | _ :: [] => .ok { c with queue := [] }
    | _ :: item :: queue => .ok ({ c with queue := item :: queue }.startWrite item.buff)

/-- The handlers of a message: the first single shot on the channel, which is removed, and all
the others there. -/
def dispatch (queueName value : Bytes) : RedisClientImpl H M :=
  let c :=
    match c.singleShotMsgHandlers.find? (·.1 = queueName) with
    | some shot =>
      { c.post (.message shot.2 value) with
        singleShotMsgHandlers := c.singleShotMsgHandlers.eraseP (·.1 = queueName) }
    | none => c
  (c.msgHandlers.filter (·.1 = queueName)).foldl
    (fun c found => c.post (.message found.2.2 value)) c

/-- The handler to call with the message, if any: it leaves the queue when it returns. -/
def doProcessMessage (v : RedisValue) : Option H × RedisClientImpl H M :=
  if c.state = .subscribed then
    match v.toArray with
    | [command, queueName, value] =>
      -- A reply to a command that is none of these three is taken for a protocol error.
      let cmd := command.toString
      if cmd = ascii "message" then (none, c.dispatch queueName.toString value.toByteArray)
      else if cmd = ascii "subscribe" ∧ c.handlers ≠ [] then (c.handlers.head?, c)
      else if cmd = ascii "unsubscribe" ∧ c.handlers ≠ [] then (c.handlers.head?, c)
      else (none, c.errorHandler (ascii "[RedisClient] invalid command: " ++ command.toString))
    | _ => (none, c.errorHandler (ascii "[RedisClient] Protocol error"))
  else
    match c.handlers with
    | handler :: _ => (some handler, c)
    | [] => (none, c.errorHandler (ascii "[RedisClient] unexpected message: " ++ v.inspect))

/-! The public side, of `RedisAsyncClient`. -/

def invalidState : Bytes :=
  ascii "RedisAsyncClient::command called with invalid state " ++ decimal c.state.number

def stateValid : Except Fault (Bool × RedisClientImpl H M) := do
  check (c.state = .connected)
  if c.state ≠ .connected then return (false, c.errorHandler c.invalidState)
  return (true, c)

/-- All the overloads, which differ in how the words are given. -/
def command (items : Items) (handler : H) : Except Fault (RedisClientImpl H M) := do
  let (valid, c) ← c.stateValid
  if valid then return c.post (.command items handler) else return c

def publishItems (channel : Text) (msg : RedisBuffer) : Items :=
  ⟨[⟨ascii "PUBLISH", by decide⟩, channel, msg], three_le_longMax⟩

def publish (channel : Text) (msg : RedisBuffer) (handler : H) :
    Except Fault (RedisClientImpl H M) := do
  check (c.state = .connected)
  if c.state = .connected then
    return c.post (.command (publishItems channel msg) handler)
  else return c.errorHandler c.invalidState

def subscribeItems (channel : Text) : Items :=
  ⟨[⟨ascii "SUBSCRIBE", by decide⟩, channel], (by decide : (2 : Int) ≤ longMax)⟩

def unsubscribeItems (channel : Text) : Items :=
  ⟨[⟨ascii "UNSUBSCRIBE", by decide⟩, channel], (by decide : (2 : Int) ≤ longMax)⟩

def subscribe (channel : Text) (msgHandler : M) (handler : H) :
    Except Fault (Handle × RedisClientImpl H M) := do
  check (c.state = .connected || c.state = .subscribed)
  if c.state = .connected ∨ c.state = .subscribed then
    let handle : Handle := ⟨c.subscribeSeq, channel⟩
    let c := { c with subscribeSeq := c.subscribeSeq + 1 }
    let c := c.post (.command (subscribeItems channel) handler)
    return (handle, { c with
      msgHandlers := c.msgHandlers ++ [(channel.val, handle.id, msgHandler)]
      state := .subscribed })
  else return (⟨0, default⟩, c.errorHandler c.invalidState)

def singleShotSubscribe (channel : Text) (msgHandler : M) (handler : H) :
    Except Fault (RedisClientImpl H M) := do
  check (c.state = .connected || c.state = .subscribed)
  if c.state = .connected ∨ c.state = .subscribed then
    let c := c.post (.command (subscribeItems channel) handler)
    return { c with
      singleShotMsgHandlers := c.singleShotMsgHandlers ++ [(channel.val, msgHandler)]
      state := .subscribed }
  else return c.errorHandler c.invalidState

def unsubscribe (dummyHandler : H) (handle : Handle) : Except Fault (RedisClientImpl H M) := do
  check (c.state = .connected || c.state = .subscribed)
  if c.state = .connected ∨ c.state = .subscribed then
    let c := { c with
      msgHandlers := c.msgHandlers.filter fun found =>
        !(found.1 = handle.channel.val && found.2.1 = handle.id) }
    return c.post (.command (unsubscribeItems handle.channel) dummyHandler)
  else return c.errorHandler c.invalidState

end RedisClientImpl

end Pinocchio.Redis
