import Pinocchio.Redis.AsyncReplies

/-! Subscriptions at Redis and at the client.

The client has any number of handles and single shots on a channel, and Redis one subscription of
the connection. `SUBSCRIBE` goes with every one of them that comes, but `UNSUBSCRIBE` with every
handle that goes, whatever is left on its channel, and with no single shot.
-/

set_option autoImplicit false

namespace Pinocchio.Redis
open Semantics Reader RedisClientImpl

/-- What a command does to the channels that a connection is subscribed to. -/
def subscription (channels : List Bytes) : RedisValue → List Bytes
  | .array [.bytes command false, .bytes channel false] =>
    if command = ascii "SUBSCRIBE" then channels.insert channel
    else if command = ascii "UNSUBSCRIBE" then channels.filter (· ≠ channel)
    else channels
  | _ => channels

theorem mem_subscription_subscribe {channels : List Bytes} {channel : Text} {other : Bytes} :
    other ∈ subscription channels (subscribeItems channel).value ↔
      other = channel.val ∨ other ∈ channels := by
  simp [subscription, subscribeItems, Items.value]

theorem mem_subscription_unsubscribe {channels : List Bytes} {channel : Text} {other : Bytes} :
    other ∈ subscription channels (unsubscribeItems channel).value ↔
      other ∈ channels ∧ other ≠ channel.val := by
  have different : ascii "UNSUBSCRIBE" ≠ ascii "SUBSCRIBE" := by decide +kernel
  simp [subscription, unsubscribeItems, Items.value, different]

namespace RedisClientImpl
variable {H M : Type} {c d : RedisClientImpl H M}

/-- The channels with a handle that was not unsubscribed, or a single shot that did not fire. -/
def live (c : RedisClientImpl H M) : List Bytes :=
  c.msgHandlers.map Prod.fst ++ c.singleShotMsgHandlers.map Prod.fst

def without (c : RedisClientImpl H M) (handle : Handle) : RedisClientImpl H M :=
  { c with
    msgHandlers := c.msgHandlers.filter fun found =>
      !(found.1 = handle.channel.val && found.2.1 = handle.id) }

def fire (c : RedisClientImpl H M) (channel : Bytes) : RedisClientImpl H M :=
  { c with singleShotMsgHandlers := c.singleShotMsgHandlers.eraseP (·.1 = channel) }

def posted (c : RedisClientImpl H M) : List Items :=
  c.strand.filterMap fun task =>
    match task with
    | .command items _ => some items
    | .message _ _ => none

theorem mem_live_without {handle : Handle} {channel : Bytes}
    (other : channel ≠ handle.channel.val) : channel ∈ (c.without handle).live ↔ channel ∈ c.live := by
  have handles : channel ∈ (c.without handle).msgHandlers.map Prod.fst ↔
      channel ∈ c.msgHandlers.map Prod.fst := by
    simp only [List.mem_map, without, List.mem_filter]
    constructor
    · rintro ⟨entry, ⟨member, _⟩, same⟩
      exact ⟨entry, member, same⟩
    · rintro ⟨entry, member, rfl⟩
      exact ⟨entry, ⟨member, by simp [other]⟩, rfl⟩
  unfold live
  rw [List.mem_append, List.mem_append, handles]
  rfl

/-- A message changes what is live only on a channel where nothing is left. -/
theorem mem_live_fire {name : Bytes}
    (kept : name ∈ c.singleShotMsgHandlers.map Prod.fst → name ∈ (c.fire name).live)
    (channel : Bytes) : channel ∈ (c.fire name).live ↔ channel ∈ c.live := by
  have shots : channel ≠ name →
      (channel ∈ (c.fire name).singleShotMsgHandlers.map Prod.fst ↔
        channel ∈ c.singleShotMsgHandlers.map Prod.fst) := by
    intro other
    simp only [List.mem_map, fire]
    constructor
    · rintro ⟨shot, member, same⟩
      exact ⟨shot, List.mem_of_mem_eraseP member, same⟩
    · rintro ⟨shot, member, rfl⟩
      exact ⟨shot, (List.mem_eraseP_of_neg (by simpa using other)).mpr member, rfl⟩
  by_cases same : channel = name
  · subst same
    constructor
    · simp only [live, List.mem_append, List.mem_map, fire]
      rintro (handle | ⟨shot, member, same⟩)
      · exact Or.inl handle
      · exact Or.inr ⟨shot, List.mem_of_mem_eraseP member, same⟩
    · intro member
      rcases List.mem_append.mp member with handle | shot
      · exact List.mem_append.mpr (Or.inl handle)
      · exact kept shot
  · unfold live
    rw [List.mem_append, List.mem_append, shots same]
    rfl

end RedisClientImpl

/-- The channel and the payload of a value that the client takes for a message. -/
def messageOf (v : RedisValue) : Option (Bytes × Bytes) :=
  match v.toArray with
  | [command, queueName, value] =>
    if command.toString = ascii "message" then some (queueName.toString, value.toByteArray)
    else none
  | _ => none

namespace AsyncRun
variable {H M : Type} {s t : AsyncRun H M}

def subscriptions (s : AsyncRun H M) : List Bytes :=
  (s.served.map Prod.fst).foldl subscription []

def asked (s : AsyncRun H M) : List RedisValue :=
  s.executed.map (·.1.value) ++ s.impl.posted.map Items.value

/-- Every command that was sent has been answered. -/
def Settled (s : AsyncRun H M) : Prop :=
  s.impl.posted = [] ∧ s.served.length = s.executed.length

/-- The value that the next turn of the loop reads. -/
def nextValue (s : AsyncRun H M) : Option RedisValue :=
  match s.reading with
  | .parsing buf pos =>
    if pos < buf.length then
      match receive s.impl.redisParser buf pos with
      | .ok (.value v _ _) => some v
      | _ => none
    else none
  | _ => none

def nextMessage (s : AsyncRun H M) : Option Bytes := (s.nextValue.bind messageOf).map Prod.fst

/-- Subscriptions only, and no write that fails. A handle that goes is the last on its channel, and
not the last of all; a single shot that fires is not the last on its channel. -/
def Balanced (s : AsyncRun H M) : AsyncEvent H M → Prop
  | .command _ _ | .publish _ _ _ | .writeFailed _ _ => False
  | .unsubscribe handle => handle.channel.val ∉ (s.impl.without handle).live ∧
      (s.impl.state = .subscribed → (s.impl.without handle).live ≠ [])
  | .turn => ∀ name ∈ s.nextMessage,
      name ∈ s.impl.singleShotMsgHandlers.map Prod.fst → name ∈ (s.impl.fire name).live
  | .subscribe _ _ _ | .singleShotSubscribe _ _ _ | .strand | .transmit _ _ | .written _
  | .serve _ | .push _ | .receive _ | .readFailed _ | .handlerReturn => True

instance (s : AsyncRun H M) : ∀ e, Decidable (Balanced s e)
  | .command _ _ | .publish _ _ _ | .writeFailed _ _ => isFalse id
  | .unsubscribe handle => inferInstanceAs (Decidable (
      handle.channel.val ∉ (s.impl.without handle).live ∧
        (s.impl.state = .subscribed → (s.impl.without handle).live ≠ [])))
  | .turn => inferInstanceAs (Decidable (∀ name ∈ s.nextMessage,
      name ∈ s.impl.singleShotMsgHandlers.map Prod.fst → name ∈ (s.impl.fire name).live))
  | .subscribe _ _ _ | .singleShotSubscribe _ _ _ | .strand | .transmit _ _ | .written _
  | .serve _ | .push _ | .receive _ | .readFailed _ | .handlerReturn => isTrue trivial

structure Agreeing (s : AsyncRun H M) : Prop where
  understood : Understood s
  isOpen : s.impl.state = .connected ∨ s.impl.state = .subscribed
  channels : ∀ channel, channel ∈ s.asked.foldl subscription [] ↔ channel ∈ s.impl.live
  state : s.impl.state = .subscribed ↔ ∃ channel, channel ∈ s.impl.live

theorem Agreeing.frame (held : Agreeing s) (understood : Understood t)
    (state : t.impl.state = s.impl.state) (asked : t.asked = s.asked)
    (live : ∀ channel, channel ∈ t.impl.live ↔ channel ∈ s.impl.live) : Agreeing t := by
  refine ⟨understood, state ▸ held.isOpen, ?_, ?_⟩
  · intro channel
    rw [asked, live]
    exact held.channels channel
  · simp only [state, live]
    exact held.state

theorem Agreeing.request (s : AsyncRun H M) (items : Items) (understood : Understood t)
    (executed : t.executed = s.executed) (posted : t.impl.posted = s.impl.posted ++ [items])
    (isOpen : t.impl.state = .connected ∨ t.impl.state = .subscribed)
    (live : ∀ channel, channel ∈ subscription (s.asked.foldl subscription []) items.value ↔
      channel ∈ t.impl.live)
    (state : t.impl.state = .subscribed ↔ ∃ channel, channel ∈ t.impl.live) : Agreeing t := by
  refine ⟨understood, isOpen, fun channel => ?_, state⟩
  have asked : t.asked = s.asked ++ [items.value] := by
    simp [AsyncRun.asked, executed, posted]
  rw [asked, List.foldl_append, List.foldl_cons, List.foldl_nil]
  exact live channel

theorem Agreeing.subscribe (held : Agreeing s) {channel : Text} {msgHandler : M} {handler : H}
    (understood : Understood
      (s.after ((s.impl.subscribe channel msgHandler handler).map Prod.snd))) :
    Agreeing (s.after ((s.impl.subscribe channel msgHandler handler).map Prod.snd)) := by
  rw [subscribe_open held.isOpen] at understood ⊢
  refine .request s (subscribeItems channel) understood rfl ?_ (Or.inr rfl) ?_ ?_
  · simp [Except.map, AsyncRun.after, RedisClientImpl.posted]
  · intro other
    rw [mem_subscription_subscribe, held.channels]
    simp only [Except.map, AsyncRun.after, live, List.map_append, List.mem_append, List.map_cons,
      List.map_nil, List.mem_singleton]
    tauto
  · simp only [Except.map, AsyncRun.after, true_iff]
    exact ⟨channel.val, by simp [live]⟩

theorem Agreeing.singleShotSubscribe (held : Agreeing s) {channel : Text} {msgHandler : M}
    {handler : H} (understood : Understood
      (s.after (s.impl.singleShotSubscribe channel msgHandler handler))) :
    Agreeing (s.after (s.impl.singleShotSubscribe channel msgHandler handler)) := by
  rw [singleShotSubscribe_open held.isOpen] at understood ⊢
  refine .request s (subscribeItems channel) understood rfl ?_ (Or.inr rfl) ?_ ?_
  · simp [AsyncRun.after, RedisClientImpl.posted]
  · intro other
    rw [mem_subscription_subscribe, held.channels]
    simp only [AsyncRun.after, live, List.map_append, List.mem_append, List.map_cons,
      List.map_nil, List.mem_singleton]
    tauto
  · simp only [AsyncRun.after, true_iff]
    exact ⟨channel.val, by simp [live]⟩

theorem Agreeing.unsubscribe (held : Agreeing s) {dummyHandler : H} {handle : Handle}
    (last : handle.channel.val ∉ (s.impl.without handle).live)
    (others : s.impl.state = .subscribed → (s.impl.without handle).live ≠ [])
    (understood : Understood (s.after (s.impl.unsubscribe dummyHandler handle))) :
    Agreeing (s.after (s.impl.unsubscribe dummyHandler handle)) := by
  rw [unsubscribe_open held.isOpen] at understood ⊢
  refine .request s (unsubscribeItems handle.channel) understood rfl ?_ held.isOpen ?_ ?_
  · simp [AsyncRun.after, RedisClientImpl.posted]
  · intro other
    change _ ↔ other ∈ (s.impl.without handle).live
    rw [mem_subscription_unsubscribe, held.channels]
    by_cases same : other = handle.channel.val
    · subst same
      exact iff_of_false (fun both => both.2 rfl) last
    · rw [mem_live_without same]
      exact and_iff_left same
  · change s.impl.state = .subscribed ↔ ∃ channel, channel ∈ (s.impl.without handle).live
    constructor
    · exact fun state => List.exists_mem_of_ne_nil _ (others state)
    · rintro ⟨channel, member⟩
      refine held.state.mpr ⟨channel, (mem_live_without ?_).mp member⟩
      rintro rfl
      exact last member

theorem turn_live (s : AsyncRun H M) {buf : Bytes} {pos : Nat}
    (parsing : s.reading = .parsing buf pos) :
    (s.turn buf pos).impl.posted = s.impl.posted ∧
      ((s.turn buf pos).impl.live = s.impl.live ∨
        ∃ name ∈ s.nextMessage, (s.turn buf pos).impl.live = (s.impl.fire name).live) := by
  obtain ⟨impl, reading, fault, calls, same, makes⟩ := turn_cases s buf pos
  rw [same]
  cases makes with
  | parsed | reported => exact ⟨rfl, Or.inl rfl⟩
  | @message redisParser v command queueName value next more got array message called =>
    have name : s.nextMessage = some queueName.toString := by
      simp only [nextMessage, nextValue, parsing, if_pos more, got, Option.bind_some, messageOf,
        array, if_pos message, Option.map_some]
    refine ⟨?_, Or.inr ⟨_, name, rfl⟩⟩
    -- Messages are not commands.
    have none : (called.map fun handler => Task.message (H := H) handler value.toByteArray).filterMap
        (fun task => match task with
          | .command items _ => some items
          | .message _ _ => Option.none) = [] := by
      rw [List.filterMap_map, List.filterMap_eq_nil_iff]
      exact fun _ _ => rfl
    simp only [posted, List.filterMap_append, none, List.append_nil]

theorem Agreeing.turn (held : Agreeing s) {buf : Bytes} {pos : Nat}
    (parsing : s.reading = .parsing buf pos)
    (kept : ∀ name ∈ s.nextMessage,
      name ∈ s.impl.singleShotMsgHandlers.map Prod.fst → name ∈ (s.impl.fire name).live)
    (understood : Understood (s.turn buf pos)) : Agreeing (s.turn buf pos) := by
  obtain ⟨posted, live⟩ := turn_live s parsing
  have asked : (s.turn buf pos).asked = s.asked := by
    simp only [AsyncRun.asked, posted, (sameServer_turn buf pos).2.1]
  refine held.frame understood (turn_state s buf pos) asked fun channel => ?_
  rcases live with same | ⟨name, message, same⟩
  · rw [same]
  · rw [same]
    exact mem_live_fire (kept name message) channel

theorem Agreeing.runTask {task : Task H M} {strand : List (Task H M)} (held : Agreeing s)
    (front : s.impl.strand = task :: strand)
    (understood : Understood (runTask { s with impl := { s.impl with strand } } task)) :
    Agreeing (runTask { s with impl := { s.impl with strand } } task) := by
  cases task with
  | message handler buf =>
    refine held.frame understood rfl ?_ fun _ => Iff.rfl
    simp [AsyncRun.asked, AsyncRun.runTask, posted, front]
  | command items handler =>
    obtain ⟨writes, same⟩ := doAsyncCommand_eq { s.impl with strand } (makeCommand items) handler
    simp only [AsyncRun.runTask, same] at understood ⊢
    refine held.frame understood rfl ?_ fun _ => Iff.rfl
    simp [AsyncRun.asked, posted, front]

theorem Agreeing.step {dummyHandler : H} {e : AsyncEvent H M} (held : Agreeing s)
    (balanced : Balanced s e) (taken : Taken dummyHandler s e t) : Agreeing t := by
  have succeeds : WritesSucceed s e := by
    cases e with
    | writeFailed write message => exact balanced
    | _ => trivial
  have understood := held.understood.step succeeds taken
  cases taken with
  | command items handler => exact absurd balanced id
  | publish channel msg handler => exact absurd balanced id
  | writeFailed message started => exact absurd balanced id
  | subscribe channel msgHandler handler => exact held.subscribe understood
  | singleShotSubscribe channel msgHandler handler => exact held.singleShotSubscribe understood
  | unsubscribe handle => exact held.unsubscribe balanced.1 balanced.2 understood
  | strand front => exact held.runTask front understood
  | written finished =>
    obtain ⟨d, call, _⟩ := asyncWrite_writes held.understood.writes.outstanding finished
    obtain ⟨queue, writes, rfl⟩ := asyncWrite_eq call
    simp only [complete, call] at understood ⊢
    exact held.frame understood rfl rfl fun _ => Iff.rfl
  | turn parsing => exact held.turn parsing balanced understood
  | transmit found bounds | serve whole | push message | receive waiting bounds
  | readFailed message waiting | handlerReturn calling =>
    exact held.frame understood rfl rfl fun _ => Iff.rfl

/-! The handles that the client keeps are those of its calls. -/

/-- The entries of the handles, and the next number. -/
def grants (s : AsyncRun H M) : List (Bytes × Nat × M) × Nat :=
  (s.impl.msgHandlers, s.impl.subscribeSeq)

/-- A call of `subscribe` gives a handle, and one of `unsubscribe` takes it back. -/
def granted (grants : List (Bytes × Nat × M) × Nat) :
    AsyncEvent H M → List (Bytes × Nat × M) × Nat
  | .subscribe channel msgHandler _ =>
    (grants.1 ++ [(channel.val, grants.2, msgHandler)], grants.2 + 1)
  | .unsubscribe handle =>
    (grants.1.filter fun entry => (entry.1, entry.2.1) ≠ (handle.channel.val, handle.id), grants.2)
  | _ => grants

/-- Only subscriptions change the state of a client that has its connection. -/
def opened (state : ClientState) : AsyncEvent H M → ClientState
  | .subscribe _ _ _ | .singleShotSubscribe _ _ _ => .subscribed
  | _ => state

theorem opened_isOpen {state : ClientState} (isOpen : state = .connected ∨ state = .subscribed)
    (e : AsyncEvent H M) : opened state e = .connected ∨ opened state e = .subscribed := by
  cases e with
  | subscribe channel msgHandler handler => exact Or.inr rfl
  | singleShotSubscribe channel msgHandler handler => exact Or.inr rfl
  | _ => exact isOpen

theorem command_posts {c : RedisClientImpl H M} (items : Items) (handler : H)
    (isOpen : c.state = .connected ∨ c.state = .subscribed) :
    c.command items handler = .ok (c.post (.command items handler)) ∨
      c.command items handler = .error .assertion := by
  rcases isOpen with connected | subscribed
  · exact Or.inl (command_connected connected items handler)
  · right
    simp only [RedisClientImpl.command, stateValid, check, subscribed]
    rfl

theorem publish_posts {c : RedisClientImpl H M} (channel : Text) (msg : RedisBuffer) (handler : H)
    (isOpen : c.state = .connected ∨ c.state = .subscribed) :
    c.publish channel msg handler =
        .ok (c.post (.command (publishItems channel msg) handler)) ∨
      c.publish channel msg handler = .error .assertion := by
  rcases isOpen with connected | subscribed
  · exact Or.inl (publish_connected connected channel msg handler)
  · right
    simp only [RedisClientImpl.publish, check, subscribed]
    rfl

theorem grants_turn (s : AsyncRun H M) (buf : Bytes) (pos : Nat) :
    (s.turn buf pos).grants = s.grants := by
  obtain ⟨impl, reading, fault, calls, same, makes⟩ := turn_cases s buf pos
  rw [same]
  cases makes with
  | parsed | reported | message => rfl

theorem grants_complete (s : AsyncRun H M) (write : Nat) (error : Option Bytes) :
    (s.complete write error).grants = s.grants ∧
      (s.complete write error).impl.state = s.impl.state := by
  unfold complete
  cases error with
  | some message => exact ⟨rfl, rfl⟩
  | none =>
    cases call : asyncWrite { s.impl with writes := s.impl.writes.eraseIdx write } none with
    | error fault => exact ⟨rfl, rfl⟩
    | ok d =>
      obtain ⟨queue, writes, rfl⟩ := asyncWrite_eq call
      exact ⟨rfl, rfl⟩

theorem grants_step {dummyHandler : H} {e : AsyncEvent H M}
    (isOpen : s.impl.state = .connected ∨ s.impl.state = .subscribed)
    (taken : Taken dummyHandler s e t) :
    t.grants = granted s.grants e ∧ t.impl.state = opened s.impl.state e := by
  cases taken with
  | command items handler =>
    rcases command_posts items handler isOpen with call | call
    · rw [call]
      exact ⟨rfl, rfl⟩
    · rw [call]
      exact ⟨rfl, rfl⟩
  | publish channel msg handler =>
    rcases publish_posts channel msg handler isOpen with call | call
    · rw [call]
      exact ⟨rfl, rfl⟩
    · rw [call]
      exact ⟨rfl, rfl⟩
  | subscribe channel msgHandler handler =>
    rw [subscribe_open isOpen]
    exact ⟨by simp [grants, granted, Except.map, AsyncRun.after], rfl⟩
  | singleShotSubscribe channel msgHandler handler =>
    rw [singleShotSubscribe_open isOpen]
    exact ⟨rfl, rfl⟩
  | unsubscribe handle =>
    rw [unsubscribe_open isOpen]
    exact ⟨by simp [grants, granted, AsyncRun.after], rfl⟩
  | @strand task strand front =>
    cases task with
    | message handler buf => exact ⟨rfl, rfl⟩
    | command items handler =>
      obtain ⟨writes, same⟩ := doAsyncCommand_eq { s.impl with strand } (makeCommand items) handler
      simp only [AsyncRun.runTask, same]
      exact ⟨rfl, rfl⟩
  | written finished | writeFailed message started => exact grants_complete s _ _
  | turn parsing => exact ⟨grants_turn s _ _, turn_state s _ _⟩
  | transmit found bounds | serve whole | push message | receive waiting bounds
  | readFailed message waiting | handlerReturn calling => exact ⟨rfl, rfl⟩

theorem Understood.asked (held : Understood s) (settled : s.Settled) :
    s.asked = s.served.map Prod.fst := by
  obtain ⟨empty, answered⟩ := settled
  rw [AsyncRun.asked, empty, List.map_nil, List.append_nil]
  apply List.ext_getElem?
  intro k
  cases found : s.served[k]? with
  | none =>
    have late : s.executed[k]? = none := by
      rw [List.getElem?_eq_none_iff] at found ⊢
      omega
    simp only [List.getElem?_map, found, late, Option.map_none]
  | some entry =>
    obtain ⟨command, reply⟩ := entry
    obtain ⟨items, handler, executed, rfl⟩ := held.answered k command reply found
    simp only [List.getElem?_map, found, executed, Option.map_some]

end AsyncRun

open AsyncRun

/-- In every run the client keeps the handles that `subscribe` gave and `unsubscribe` did not take
back, with their handlers. -/
theorem asyncClient_grants {H M : Type} {dummyHandler : H} {s : AsyncRun H M}
    {events : List (AsyncEvent H M)}
    (path : (asyncClient dummyHandler).run (asyncClient dummyHandler).initial events = some s) :
    s.grants = events.foldl granted ([], 0) := by
  have along (t : AsyncRun H M) (events : List (AsyncEvent H M))
      (isOpen : t.impl.state = .connected ∨ t.impl.state = .subscribed)
      (path : (asyncClient dummyHandler).run t events = some s) :
      s.grants = events.foldl granted t.grants := by
    induction events generalizing t with
    | nil =>
      cases path
      rfl
    | cons e events ih =>
      obtain ⟨u, step, rest⟩ := (System.run_cons_some _).mp path
      obtain ⟨same, state⟩ := grants_step isOpen (taken_of_step step).2
      rw [List.foldl_cons, ← same]
      exact ih u (state ▸ opened_isOpen isOpen e) rest
  exact along _ events (Or.inl rfl) path

/-- Where subscriptions are balanced, Redis and the client agree on them whenever all commands were
answered. -/
theorem asyncClient_agrees {H M : Type} {dummyHandler : H} {s : AsyncRun H M}
    (reached : (asyncClient dummyHandler).Reaches Balanced s) (settled : s.Settled) :
    (∀ channel, channel ∈ s.subscriptions ↔ channel ∈ s.impl.live) ∧
      (s.impl.state = .subscribed ↔ ∃ channel, channel ∈ s.impl.live) := by
  have held : Agreeing s := by
    refine reached.invariant ?_ fun s e t held balanced step =>
      held.step balanced (taken_of_step step).2
    exact ⟨⟨⟨rfl, rfl⟩, rfl, by simp [asyncClient]⟩, Or.inl rfl, fun _ => Iff.rfl,
      ⟨nofun, nofun⟩⟩
  refine ⟨fun channel => ?_, held.state⟩
  rw [subscriptions, ← held.understood.asked settled]
  exact held.channels channel

def channelB : Text := ⟨ascii "b", by decide⟩

def confirmation (command : Bytes) (channel : Text) : Reply :=
  .array [.bulk command, .bulk channel.val, .integer 1]

def balancedEvents : List (AsyncEvent Nat Nat) :=
  [.subscribe channelA 1 7, .singleShotSubscribe channelA 2 7, .subscribe channelB 3 7, .strand,
    .strand, .strand, .transmit 0 26, .written 0, .transmit 0 26, .written 0, .transmit 0 26,
    .written 0, .serve (confirmation (ascii "subscribe") channelA),
    .serve (confirmation (ascii "subscribe") channelA),
    .serve (confirmation (ascii "subscribe") channelB),
    .push (.array [.bulk (ascii "message"), .bulk (ascii "a"), .bulk (ascii "hi")]),
    .receive 122, .turn, .handlerReturn, .turn, .handlerReturn, .turn, .handlerReturn, .turn,
    .unsubscribe ⟨1, channelB⟩, .strand, .strand, .strand, .transmit 0 29, .written 0,
    .serve (confirmation (ascii "unsubscribe") channelB)]

def balancedEnd : AsyncRun Nat Nat :=
  ((asyncClient 0).run (asyncClient 0).initial balancedEvents).get (by decide +kernel)

theorem asyncClient_agrees_balanced :
    balancedEnd.subscriptions = [ascii "a"] ∧ balancedEnd.delivered.map Prod.fst = [2, 1] ∧
      (∀ channel, channel ∈ balancedEnd.subscriptions ↔ channel ∈ balancedEnd.impl.live) ∧
      (balancedEnd.impl.state = .subscribed ↔ ∃ channel, channel ∈ balancedEnd.impl.live) := by
  have settled : balancedEnd.Settled := ⟨by decide +kernel, by decide +kernel⟩
  exact ⟨by decide +kernel, by decide +kernel, asyncClient_agrees
    (System.Reaches.run .initial (by decide +kernel) (Option.some_get _).symm) settled⟩

def AsyncRun.Requesting {H M : Type} (_ : AsyncRun H M) : AsyncEvent H M → Prop
  | .serve reply => reply.WellFormed intMin intMax ∧ Confirms reply.value
  | .push message => message.WellFormed intMin intMax ∧ Publishes message.value
  | .command _ _ | .publish _ _ _ | .writeFailed _ _ | .readFailed _ => False
  | .subscribe _ _ _ | .singleShotSubscribe _ _ _ | .unsubscribe _ | .strand | .transmit _ _
  | .written _ | .receive _ | .turn | .handlerReturn => True

instance {H M : Type} (s : AsyncRun H M) : ∀ e, Decidable (s.Requesting e)
  | .serve reply => inferInstanceAs (Decidable (reply.WellFormed intMin intMax ∧
      Confirms reply.value))
  | .push message => inferInstanceAs (Decidable (message.WellFormed intMin intMax ∧
      Publishes message.value))
  | .command _ _ | .publish _ _ _ | .writeFailed _ _ | .readFailed _ => isFalse id
  | .subscribe _ _ _ | .singleShotSubscribe _ _ _ | .unsubscribe _ | .strand | .transmit _ _
  | .written _ | .receive _ | .turn | .handlerReturn => isTrue trivial

def silencedEvents : List (AsyncEvent Nat Nat) :=
  [.subscribe channelA 1 7, .subscribe channelA 2 7, .strand, .strand, .transmit 0 26, .written 0,
    .transmit 0 26, .written 0, .serve (confirmation (ascii "subscribe") channelA),
    .serve (confirmation (ascii "subscribe") channelA), .unsubscribe ⟨0, channelA⟩, .strand,
    .transmit 0 29, .written 0, .serve (confirmation (ascii "unsubscribe") channelA)]

def silencedEnd : AsyncRun Nat Nat :=
  ((asyncClient 0).run (asyncClient 0).initial silencedEvents).get (by decide +kernel)

/-- The other handle is silenced. -/
theorem asyncClient_silenced :
    ¬∀ s, (asyncClient (M := Nat) 0).Reaches Requesting s → s.Settled →
      (∀ channel, channel ∈ s.subscriptions ↔ channel ∈ s.impl.live) ∧
        (s.impl.state = .subscribed ↔ ∃ channel, channel ∈ s.impl.live) := by
  intro always
  have reached : (asyncClient 0).Reaches Requesting silencedEnd :=
    System.Reaches.run .initial (by decide +kernel) (Option.some_get _).symm
  have settled : silencedEnd.Settled := ⟨by decide +kernel, by decide +kernel⟩
  have live : ascii "a" ∈ silencedEnd.impl.live := by decide +kernel
  have subscribed := ((always silencedEnd reached settled).1 (ascii "a")).mpr live
  exact absurd subscribed (by decide +kernel)

end Pinocchio.Redis
