import Pinocchio.Redis.AsyncAnswers

/-! What the asynchronous client does with what it reads.

The handlers that wait are those of the commands whose replies were not handed out. A client that
has called `subscribe` takes only arrays of three, so from then on only the confirmations of
subscriptions reach a handler, and the messages between them none.
-/

set_option autoImplicit false

namespace Pinocchio.Redis
open Semantics Reader RedisClientImpl

/-- An array of three that begins with one of the words. -/
def Headed (words : List Bytes) (v : RedisValue) : Prop :=
  match v.toArray with
  | [command, _, _] => command.toString ∈ words
  | _ => False

instance (words : List Bytes) (v : RedisValue) : Decidable (Headed words v) := by
  unfold Headed
  split <;> infer_instance

theorem Headed.split {words : List Bytes} {v : RedisValue} (headed : Headed words v) :
    ∃ command queueName value, v.toArray = [command, queueName, value] ∧
      command.toString ∈ words := by
  unfold Headed at headed
  split at headed
  · exact ⟨_, _, _, by assumption, headed⟩
  · exact headed.elim

def Confirms (v : RedisValue) : Prop := Headed [ascii "subscribe", ascii "unsubscribe"] v

def Publishes (v : RedisValue) : Prop := Headed [ascii "message"] v

instance (v : RedisValue) : Decidable (Confirms v) := inferInstanceAs (Decidable (Headed _ v))
instance (v : RedisValue) : Decidable (Publishes v) := inferInstanceAs (Decidable (Headed _ v))

/-- Confirmations in their order, with messages anywhere between them. -/
inductive Mixed : List RedisValue → List RedisValue → Prop
  | nil : Mixed [] []
  | reply {v : RedisValue} {replies due : List RedisValue} (confirms : Confirms v)
      (rest : Mixed replies due) : Mixed (v :: replies) (v :: due)
  | message {v : RedisValue} {replies due : List RedisValue} (publishes : Publishes v)
      (rest : Mixed replies due) : Mixed replies (v :: due)

theorem Mixed.append {a b c d : List RedisValue} (first : Mixed a b) (second : Mixed c d) :
    Mixed (a ++ c) (b ++ d) := by
  induction first with
  | nil => exact second
  | reply confirms _ ih => exact .reply confirms ih
  | message publishes _ ih => exact .message publishes ih

theorem mixed_self {replies : List RedisValue} (confirm : ∀ v ∈ replies, Confirms v) :
    Mixed replies replies := by
  induction replies with
  | nil => exact .nil
  | cons v rest ih =>
    rw [List.forall_mem_cons] at confirm
    exact .reply confirm.1 (ih confirm.2)

/-- The values that come to a client in this state when these replies are due. -/
inductive Expected : ClientState → List RedisValue → List RedisValue → Prop
  | connected (replies : List RedisValue) : Expected .connected replies replies
  | subscribed {replies due : List RedisValue} (mixed : Mixed replies due) :
      Expected .subscribed replies due

theorem Expected.isOpen {state : ClientState} {replies due : List RedisValue}
    (expected : Expected state replies due) : state = .connected ∨ state = .subscribed := by
  cases expected with
  | connected => exact Or.inl rfl
  | subscribed => exact Or.inr rfl

theorem Expected.next {state : ClientState} {v : RedisValue} {replies due : List RedisValue}
    (expected : Expected state replies (v :: due)) :
    (∃ rest, replies = v :: rest ∧ (state = .subscribed → Confirms v) ∧ Expected state rest due) ∨
      state = .subscribed ∧ Publishes v ∧ Expected state replies due := by
  cases expected with
  | connected => exact Or.inl ⟨due, rfl, nofun, .connected due⟩
  | subscribed mixed =>
    cases mixed with
    | reply confirms rest => exact Or.inl ⟨_, rfl, fun _ => confirms, .subscribed rest⟩
    | message publishes rest => exact Or.inr ⟨rfl, publishes, .subscribed rest⟩

theorem Expected.reply {state : ClientState} {v : RedisValue} {replies due : List RedisValue}
    (expected : Expected state replies due) (confirms : state = .subscribed → Confirms v) :
    Expected state (replies ++ [v]) (due ++ [v]) := by
  cases expected with
  | connected => exact .connected _
  | subscribed mixed => exact .subscribed (mixed.append (.reply (confirms rfl) .nil))

theorem Expected.none {state : ClientState} {replies : List RedisValue}
    (expected : Expected state replies []) : replies = [] := by
  cases expected with
  | connected => rfl
  | subscribed mixed => cases mixed; rfl

namespace RedisClientImpl
variable {H M : Type} {c d : RedisClientImpl H M}

/-- A change of the client that the reading side does not see. -/
def SameReplies (c d : RedisClientImpl H M) : Prop :=
  d.state = c.state ∧ d.reports = c.reports ∧ d.redisParser = c.redisParser ∧
    d.handlers = c.handlers

theorem process_reply {v : RedisValue} {handler : H} {rest : List H}
    (confirms : c.state = .subscribed → Confirms v) (front : c.handlers = handler :: rest) :
    c.doProcessMessage v = (some handler, c) := by
  unfold doProcessMessage
  by_cases state : c.state = .subscribed
  · obtain ⟨command, queueName, value, array, word⟩ := (confirms state).split
    have other : command.toString ≠ ascii "message" := by
      rintro same
      rw [same] at word
      exact absurd word (by decide +kernel)
    rw [if_pos state, array]
    simp only [if_neg other]
    rcases List.mem_cons.mp word with subscribe | word
    · simp [subscribe, front]
    · simp [List.mem_singleton.mp word, front]
  · rw [if_neg state, front]

theorem process_message {v : RedisValue} (state : c.state = .subscribed)
    (publishes : Publishes v) :
    ∃ d, c.doProcessMessage v = (none, d) ∧ c.SameReplies d := by
  obtain ⟨command, queueName, value, array, word⟩ := publishes.split
  obtain ⟨called, dispatched⟩ := dispatch_eq c queueName.toString value.toByteArray
  refine ⟨c.dispatch queueName.toString value.toByteArray, ?_, ?_⟩
  · simp only [doProcessMessage, if_pos state, array, List.mem_singleton.mp word, if_true]
  · rw [dispatched]
    exact ⟨rfl, rfl, rfl, rfl⟩

/-! The methods of a client that has a connection. -/

theorem command_connected (connected : c.state = .connected) (items : Items) (handler : H) :
    c.command items handler = .ok (c.post (.command items handler)) := by
  simp only [command, stateValid, check, connected, decide_true, if_true]
  rfl

theorem publish_connected (connected : c.state = .connected) (channel : Text) (msg : RedisBuffer)
    (handler : H) :
    c.publish channel msg handler =
      .ok (c.post (.command (publishItems channel msg) handler)) := by
  simp only [publish, check, connected, decide_true, if_true]
  rfl

theorem subscribe_open (isOpen : c.state = .connected ∨ c.state = .subscribed) (channel : Text)
    (msgHandler : M) (handler : H) :
    c.subscribe channel msgHandler handler = .ok (⟨c.subscribeSeq, channel⟩,
      { c with
        strand := c.strand ++ [.command (subscribeItems channel) handler]
        subscribeSeq := c.subscribeSeq + 1
        msgHandlers := c.msgHandlers ++ [(channel.val, c.subscribeSeq, msgHandler)]
        state := .subscribed }) := by
  have valid : (decide (c.state = .connected) || decide (c.state = .subscribed)) = true := by
    simpa using isOpen
  simp only [subscribe, check, valid, if_true, if_pos isOpen]
  rfl

theorem singleShotSubscribe_open (isOpen : c.state = .connected ∨ c.state = .subscribed)
    (channel : Text) (msgHandler : M) (handler : H) :
    c.singleShotSubscribe channel msgHandler handler = .ok
      { c with
        strand := c.strand ++ [.command (subscribeItems channel) handler]
        singleShotMsgHandlers := c.singleShotMsgHandlers ++ [(channel.val, msgHandler)]
        state := .subscribed } := by
  have valid : (decide (c.state = .connected) || decide (c.state = .subscribed)) = true := by
    simpa using isOpen
  simp only [singleShotSubscribe, check, valid, if_true, if_pos isOpen]
  rfl

theorem unsubscribe_open (isOpen : c.state = .connected ∨ c.state = .subscribed)
    (dummyHandler : H) (handle : Handle) :
    c.unsubscribe dummyHandler handle = .ok
      { c with
        strand := c.strand ++ [.command (unsubscribeItems handle.channel) dummyHandler]
        msgHandlers := c.msgHandlers.filter fun found =>
          !(found.1 = handle.channel.val && found.2.1 = handle.id) } := by
  have valid : (decide (c.state = .connected) || decide (c.state = .subscribed)) = true := by
    simpa using isOpen
  simp only [unsubscribe, check, valid, if_true, if_pos isOpen]
  rfl

end RedisClientImpl

namespace AsyncRun
variable {H M : Type} {s t : AsyncRun H M}

/-- The handlers in the queue are those that wait, behind the one that runs. -/
def Waiting : Reading → List H → List H → Prop
  | .calling _ _, handlers, waiting => ∃ handler, handlers = handler :: waiting
  | _, handlers, waiting => handlers = waiting

/-- The `k`-th call is that of the `k`-th command with the reply to it. -/
def Matched (s : AsyncRun H M) (k : Nat) (call : H × RedisValue) : Prop :=
  ∃ (items : Items) (handler : H) (reply : Reply), s.executed[k]? = some (items, handler) ∧
    s.served[k]? = some (items.value, reply) ∧ call = (handler, reply.value)

def replies (s : AsyncRun H M) : List RedisValue :=
  (s.served.drop s.calls.length).map (·.2.value)

structure Attended (s : AsyncRun H M) : Prop where
  reports : s.impl.reports = []
  fault : s.fault = none
  understood : Understood s
  called : ∀ (k : Nat) (call : H × RedisValue), s.calls[k]? = some call → s.Matched k call
  handlers : Waiting s.reading s.impl.handlers ((s.executed.drop s.calls.length).map Prod.snd)
  due : ∃ r due, Represents s.impl.redisParser r ∧
    resp.consume r (s.reading.rest ++ s.toClient) = ⟨due, .waiting resp.start⟩ ∧
    Expected s.impl.state s.replies due

/-- Commands before the first subscription only, no failures, and a server that answers what it
receives and publishes to subscribers. Once a client subscribes, and for all that it is given from
then on, replies are confirmations. -/
def Orderly (s : AsyncRun H M) : AsyncEvent H M → Prop
  | .command _ _ | .publish _ _ _ => s.impl.state = .connected
  | .subscribe _ _ _ | .singleShotSubscribe _ _ _ => ∀ v ∈ s.replies, Confirms v
  | .serve reply => reply.WellFormed intMin intMax ∧
      (s.impl.state = .subscribed → Confirms reply.value)
  | .push message => message.WellFormed intMin intMax ∧ s.impl.state = .subscribed ∧
      Publishes message.value
  | .writeFailed _ _ | .readFailed _ => False
  | .unsubscribe _ | .strand | .transmit _ _ | .written _ | .receive _ | .turn
  | .handlerReturn => True

instance (s : AsyncRun H M) : ∀ e, Decidable (Orderly s e)
  | .command _ _ | .publish _ _ _ => inferInstanceAs (Decidable (s.impl.state = .connected))
  | .subscribe _ _ _ | .singleShotSubscribe _ _ _ =>
    inferInstanceAs (Decidable (∀ v ∈ s.replies, Confirms v))
  | .serve reply => inferInstanceAs (Decidable (reply.WellFormed intMin intMax ∧
      (s.impl.state = .subscribed → Confirms reply.value)))
  | .push message => inferInstanceAs (Decidable (message.WellFormed intMin intMax ∧
      s.impl.state = .subscribed ∧ Publishes message.value))
  | .writeFailed _ _ | .readFailed _ => isFalse id
  | .unsubscribe _ | .strand | .transmit _ _ | .written _ | .receive _ | .turn
  | .handlerReturn => isTrue trivial

theorem Attended.isOpen (held : Attended s) :
    s.impl.state = .connected ∨ s.impl.state = .subscribed := by
  obtain ⟨_, _, _, _, expected⟩ := held.due
  exact expected.isOpen

theorem Attended.calls_le (held : Attended s) : s.calls.length ≤ s.served.length := by
  by_contra longer
  have last : s.served.length < s.calls.length := by omega
  obtain ⟨items, handler, reply, _, found, _⟩ := held.called s.served.length _
    (List.getElem?_eq_getElem last)
  simp at found

theorem Matched.grow {k : Nat} {call : H × RedisValue} (matched : s.Matched k call)
    (executed : s.executed <+: t.executed) (served : s.served <+: t.served) : t.Matched k call := by
  obtain ⟨items, handler, reply, first, second, same⟩ := matched
  obtain ⟨more, executed⟩ := executed
  obtain ⟨replies, served⟩ := served
  refine ⟨items, handler, reply, ?_, ?_, same⟩
  · rw [← executed]
    exact getElem?_grow first more
  · rw [← served]
    exact getElem?_grow second replies

/-! Each event keeps the invariant. -/

theorem Attended.unseen {impl : RedisClientImpl H M} (held : Attended s)
    (same : s.impl.SameReplies impl) (understood : Understood { s with impl }) :
    Attended { s with impl } := by
  obtain ⟨state, reports, parser, handlers⟩ := same
  refine ⟨reports.trans held.reports, held.fault, understood, held.called, ?_, ?_⟩
  · simp only [handlers]
    exact held.handlers
  · obtain ⟨r, due, rep, reads, expected⟩ := held.due
    exact ⟨r, due, by simpa only [parser] using rep, reads,
      by simpa only [state, AsyncRun.replies] using expected⟩

theorem Attended.post (held : Attended s) (task : Task H M) :
    Attended { s with impl := s.impl.post task } :=
  held.unseen ⟨rfl, rfl, rfl, rfl⟩ (held.understood.client (sameWrites_post task))

theorem Attended.command (held : Attended s) (connected : s.impl.state = .connected)
    (items : Items) (handler : H) : Attended (s.after (s.impl.command items handler)) := by
  rw [command_connected connected]
  exact held.post _

theorem Attended.publish (held : Attended s) (connected : s.impl.state = .connected)
    (channel : Text) (msg : RedisBuffer) (handler : H) :
    Attended (s.after (s.impl.publish channel msg handler)) := by
  rw [publish_connected connected]
  exact held.post _

theorem Attended.switch {impl : RedisClientImpl H M} (held : Attended s)
    (confirm : ∀ v ∈ s.replies, Confirms v) (state : impl.state = .subscribed)
    (reports : impl.reports = s.impl.reports) (parser : impl.redisParser = s.impl.redisParser)
    (handlers : impl.handlers = s.impl.handlers) (writes : s.impl.SameWrites impl) :
    Attended { s with impl } := by
  refine ⟨reports.trans held.reports, held.fault, held.understood.client writes, held.called, ?_,
    ?_⟩
  · simp only [handlers]
    exact held.handlers
  · obtain ⟨r, due, rep, reads, expected⟩ := held.due
    refine ⟨r, due, by simpa only [parser] using rep, reads, ?_⟩
    simp only [state]
    generalize s.impl.state = before at expected
    cases expected with
    | connected => exact .subscribed (mixed_self confirm)
    | subscribed mixed => exact .subscribed mixed

theorem Attended.subscribe (held : Attended s) (confirm : ∀ v ∈ s.replies, Confirms v)
    (channel : Text) (msgHandler : M) (handler : H) :
    Attended (s.after ((s.impl.subscribe channel msgHandler handler).map Prod.snd)) := by
  rw [subscribe_open held.isOpen]
  exact held.switch confirm rfl rfl rfl rfl ⟨rfl, rfl⟩

theorem Attended.singleShotSubscribe (held : Attended s)
    (confirm : ∀ v ∈ s.replies, Confirms v) (channel : Text) (msgHandler : M) (handler : H) :
    Attended (s.after (s.impl.singleShotSubscribe channel msgHandler handler)) := by
  rw [singleShotSubscribe_open held.isOpen]
  exact held.switch confirm rfl rfl rfl rfl ⟨rfl, rfl⟩

theorem Attended.unsubscribe (held : Attended s) (dummyHandler : H) (handle : Handle) :
    Attended (s.after (s.impl.unsubscribe dummyHandler handle)) := by
  rw [unsubscribe_open held.isOpen]
  exact held.unseen ⟨rfl, rfl, rfl, rfl⟩ (held.understood.client ⟨rfl, rfl⟩)

theorem Waiting.push {reading : Reading} {handlers waiting : List H}
    (held : Waiting reading handlers waiting) (handler : H) :
    Waiting reading (handlers ++ [handler]) (waiting ++ [handler]) := by
  cases reading with
  | calling buf pos =>
    obtain ⟨front, rfl⟩ := held
    exact ⟨front, rfl⟩
  | stopped => exact congrArg (· ++ [handler]) held
  | waiting => exact congrArg (· ++ [handler]) held
  | parsing buf pos => exact congrArg (· ++ [handler]) held

theorem Attended.runTask (held : Attended s) (task : Task H M) : Attended (s.runTask task) := by
  have understood := held.understood.runTask task
  cases task with
  | message handler buf =>
    exact ⟨held.reports, held.fault, understood, held.called, held.handlers, held.due⟩
  | command items handler =>
    obtain ⟨writes, same⟩ := doAsyncCommand_eq s.impl (makeCommand items) handler
    have finished := held.calls_le.trans held.understood.served_le
    simp only [AsyncRun.runTask, same] at understood ⊢
    refine ⟨held.reports, held.fault, understood, ?_, ?_, held.due⟩
    · intro k call found
      exact (held.called k call found).grow (List.prefix_append _ _) (List.prefix_refl _)
    · rw [List.drop_append_of_le_length finished, List.map_append]
      exact held.handlers.push handler

theorem Attended.written (held : Attended s) {write : Nat}
    (finished : s.impl.writes[write]? = some []) (understood : Understood (s.complete write none)) :
    Attended (s.complete write none) := by
  obtain ⟨d, call, _⟩ := asyncWrite_writes held.understood.writes.outstanding finished
  obtain ⟨queue, writes, rfl⟩ := asyncWrite_eq call
  simp only [complete, call] at understood ⊢
  exact held.unseen ⟨rfl, rfl, rfl, rfl⟩ understood

theorem Attended.arrive (held : Attended s) {reply : Reply} {replies : List RedisValue}
    (fits : reply.WellFormed intMin intMax)
    (expected : ∀ due, Expected s.impl.state s.replies due →
      Expected s.impl.state replies (due ++ [reply.value])) :
    ∃ r due, Represents s.impl.redisParser r ∧
      resp.consume r (s.reading.rest ++ (s.toClient ++ reply.encode)) =
        ⟨due, .waiting resp.start⟩ ∧ Expected s.impl.state replies due := by
  obtain ⟨r, due, rep, reads, before⟩ := held.due
  have encoded := Reply.encode_done (fits.widen (by decide) (by decide))
  refine ⟨r, due ++ [reply.value], rep, ?_, expected due before⟩
  rw [← List.append_assoc, resp.consume_append_waiting reads, resp.consume_exact encoded.exact]
  rfl

theorem Attended.serve (held : Attended s) {command : RedisValue} {used : Nat} {reply : Reply}
    (whole : resp.scan resp.start s.toServer = .done command used)
    (fits : reply.WellFormed intMin intMax)
    (confirms : s.impl.state = .subscribed → Confirms reply.value) :
    Attended (s.serve command used reply) := by
  refine ⟨held.reports, held.fault, held.understood.serve whole reply, ?_, held.handlers,
    held.arrive fits fun due expected => ?_⟩
  · intro k call found
    exact (held.called k call found).grow (List.prefix_refl _) (List.prefix_append _ _)
  · simp only [AsyncRun.serve, AsyncRun.replies]
    rw [List.drop_append_of_le_length held.calls_le, List.map_append]
    exact expected.reply confirms

theorem Attended.push (held : Attended s) {message : Reply}
    (fits : message.WellFormed intMin intMax) (state : s.impl.state = .subscribed)
    (publishes : Publishes message.value) :
    Attended { s with toClient := s.toClient ++ message.encode } := by
  have understood : Understood { s with toClient := s.toClient ++ message.encode } :=
    held.understood.frame (held.understood.writes.frame (.refl _) rfl rfl) ⟨rfl, rfl, rfl, rfl⟩
  refine ⟨held.reports, held.fault, understood, held.called, held.handlers,
    held.arrive fits fun due expected => ?_⟩
  rw [state] at expected ⊢
  cases expected with
  | subscribed mixed =>
    have grown := mixed.append (.message publishes .nil)
    rw [List.append_nil] at grown
    exact .subscribed grown

theorem Attended.receive (held : Attended s) {n : Nat} (waiting : s.reading = .waiting) :
    Attended
      { s with reading := .parsing (s.toClient.take n) 0, toClient := s.toClient.drop n } := by
  refine ⟨held.reports, held.fault, held.understood.frame
    (held.understood.writes.frame (.refl _) rfl rfl) ⟨rfl, rfl, rfl, rfl⟩, held.called, ?_, ?_⟩
  · have handlers := held.handlers
    rw [waiting] at handlers
    exact handlers
  · obtain ⟨r, due, rep, reads, expected⟩ := held.due
    refine ⟨r, due, rep, ?_, expected⟩
    rw [waiting] at reads
    simp only [Reading.rest, List.drop_zero, List.take_append_drop]
    exact reads

theorem Attended.handlerReturn (held : Attended s) {buf : Bytes} {pos : Nat}
    (calling : s.reading = .calling buf pos) :
    Attended { s with
      impl := { s.impl with handlers := s.impl.handlers.tail }
      reading := .parsing buf pos } := by
  refine ⟨held.reports, held.fault, held.understood.frame
    (held.understood.writes.frame ⟨rfl, rfl⟩ rfl rfl) ⟨rfl, rfl, rfl, rfl⟩, held.called, ?_, ?_⟩
  · have handlers := held.handlers
    rw [calling] at handlers
    obtain ⟨front, handlers⟩ := handlers
    simp only [handlers, List.tail_cons]
    exact rfl
  · obtain ⟨r, due, rep, reads, expected⟩ := held.due
    rw [calling] at reads
    exact ⟨r, due, rep, reads, expected⟩

/-- The handler that a reply goes to is the one of the first command without a call. -/
theorem Attended.call (held : Attended s) {buf : Bytes} {pos : Nat}
    (parsing : s.reading = .parsing buf pos) {v : RedisValue} {later : List RedisValue}
    (due : s.replies = v :: later) :
    ∃ handler, s.impl.handlers = handler :: (s.executed.drop (s.calls.length + 1)).map Prod.snd ∧
      s.Matched s.calls.length (handler, v) ∧
      (s.served.drop (s.calls.length + 1)).map (·.2.value) = later := by
  obtain ⟨⟨command, reply⟩, rest, drop, rfl, rfl⟩ := List.map_eq_cons_iff.mp due
  have served : s.served[s.calls.length]? = some (command, reply) := getElem?_of_drop drop
  obtain ⟨items, handler, executed, same⟩ := held.understood.answered _ _ _ served
  refine ⟨handler, ?_, ⟨items, handler, reply, executed, same ▸ served, rfl⟩, ?_⟩
  · have handlers := held.handlers
    rw [parsing, drop_of_getElem? executed] at handlers
    exact handlers
  · rw [← List.drop_drop, drop, List.drop_one, List.tail_cons]

theorem Attended.turn (held : Attended s) {buf : Bytes} {pos : Nat}
    (parsing : s.reading = .parsing buf pos) : Attended (s.turn buf pos) := by
  have handlers := held.handlers
  obtain ⟨r, due, rep, reads, expected⟩ := held.due
  rw [parsing] at handlers reads
  have understood := held.understood.frame (held.understood.writes.turn buf pos)
    (sameServer_turn buf pos)
  by_cases more : pos < buf.length
  · have got := receive_meets rep buf pos
    simp only [AsyncRun.turn, if_pos more] at understood ⊢
    cases outcome : resp.scan r (buf.drop pos) with
    | pending t =>
      rw [outcome] at got
      obtain ⟨q, call, rep'⟩ := got
      simp only [Reading.rest, resp.consume_of_pending outcome] at reads
      simp only [call] at understood ⊢
      refine ⟨held.reports, held.fault, understood, held.called, handlers, t, due, rep', ?_,
        expected⟩
      obtain ⟨items, status⟩ := Consumed.mk.inj reads
      simp only [Reading.rest, List.nil_append, ← items, ← Status.shift_eq_waiting.mp status]
    | rejected used =>
      -- What is due is read to its end.
      simp [Reading.rest, resp.consume_of_rejected outcome] at reads
    | done v used =>
      rw [outcome] at got
      obtain ⟨q, call, rep'⟩ := got
      simp only [Reading.rest, resp.consume_of_done outcome, List.drop_drop] at reads
      obtain ⟨rfl, status⟩ := Consumed.mk.inj reads
      rcases expected.next with ⟨later, here, confirms, expected⟩ | ⟨state, publishes, expected⟩
      · -- The handler is called while it is still in front of the queue.
        obtain ⟨handler, front, matched, rest⟩ := held.call parsing here
        have processed : doProcessMessage { s.impl with redisParser := q } v =
            (some handler, { s.impl with redisParser := q }) := process_reply confirms front
        simp only [call, processed] at understood ⊢
        refine ⟨held.reports, held.fault, understood, ?_, ?_, resp.start,
          (resp.consume resp.start (buf.drop (pos + used) ++ s.toClient)).items, rep', ?_, ?_⟩
        · intro k other found
          rcases getElem?_grow_one found with old | ⟨rfl, rfl⟩
          · exact held.called k other old
          · exact matched
        · simp only [front, List.length_append, List.length_singleton]
          exact ⟨handler, rfl⟩
        · simp only [Reading.rest, ← Status.shift_eq_waiting.mp status]
        · simp only [AsyncRun.replies, List.length_append, List.length_singleton, rest]
          exact expected
      · obtain ⟨impl, processed, same⟩ :=
          process_message (c := { s.impl with redisParser := q }) state publishes
        obtain ⟨state, reports, parser, queue⟩ := same
        simp only [call, processed] at understood ⊢
        refine ⟨reports.trans held.reports, held.fault, understood, held.called, ?_, resp.start, _,
          parser ▸ rep', ?_, state ▸ expected⟩
        · simp only [queue]
          exact handlers
        · simp only [Reading.rest, ← Status.shift_eq_waiting.mp status]
  · simp only [AsyncRun.turn, if_neg more] at understood ⊢
    refine ⟨held.reports, held.fault, understood, held.called, handlers, r, due, rep, ?_, expected⟩
    rw [Reading.rest, List.drop_eq_nil_of_le (by omega)] at reads
    exact reads

theorem turn_state (s : AsyncRun H M) (buf : Bytes) (pos : Nat) :
    (s.turn buf pos).impl.state = s.impl.state := by
  obtain ⟨impl, reading, fault, calls, same, makes⟩ := turn_cases s buf pos
  rw [same]
  cases makes with
  | parsed | reported | message => rfl

theorem Attended.step {dummyHandler : H} {e : AsyncEvent H M} (held : Attended s)
    (orderly : Orderly s e) (taken : Taken dummyHandler s e t) : Attended t := by
  cases taken with
  | command items handler => exact held.command orderly items handler
  | publish channel msg handler => exact held.publish orderly channel msg handler
  | subscribe channel msgHandler handler => exact held.subscribe orderly channel msgHandler handler
  | singleShotSubscribe channel msgHandler handler =>
    exact held.singleShotSubscribe orderly channel msgHandler handler
  | unsubscribe handle => exact held.unsubscribe dummyHandler handle
  | @strand task strand front =>
    have taken : Attended { s with impl := { s.impl with strand } } :=
      held.unseen ⟨rfl, rfl, rfl, rfl⟩ (held.understood.client ⟨rfl, rfl⟩)
    exact taken.runTask task
  | transmit found bounds =>
    exact ⟨held.reports, held.fault, held.understood.transmit found, held.called, held.handlers,
      held.due⟩
  | @written write finished =>
    have taken : Taken dummyHandler s (.written write) (s.complete write none) := .written finished
    have succeeds : WritesSucceed s (.written write) := trivial
    exact held.written finished (held.understood.step succeeds taken)
  | serve whole => exact held.serve whole orderly.1 orderly.2
  | push message => exact held.push orderly.1 orderly.2.1 orderly.2.2
  | receive waiting bounds => exact held.receive waiting
  | turn parsing => exact held.turn parsing
  | handlerReturn calling => exact held.handlerReturn calling
  | writeFailed message started => exact absurd orderly id
  | readFailed message waiting => exact absurd orderly id

end AsyncRun

open AsyncRun

theorem asyncClient_attended {H M : Type} {dummyHandler : H} {s : AsyncRun H M}
    (reached : (asyncClient dummyHandler).Reaches Orderly s) : Attended s := by
  refine reached.invariant ?_ fun s e t held orderly step =>
    held.step orderly (taken_of_step step).2
  exact ⟨rfl, rfl, ⟨⟨rfl, rfl⟩, rfl, by simp [asyncClient]⟩, by simp [asyncClient], rfl, resp.start,
    [], represents_initial, rfl, .connected []⟩

theorem AsyncRun.Attended.all_called {H M : Type} {s : AsyncRun H M} (held : Attended s)
    (read : s.reading.rest ++ s.toClient = []) : s.calls.length = s.served.length := by
  obtain ⟨r, due, _, reads, expected⟩ := held.due
  rw [read, resp.consume_nil] at reads
  obtain ⟨rfl, _⟩ := Consumed.mk.inj reads
  have none : s.served.drop s.calls.length = [] := List.map_eq_nil_iff.mp expected.none
  exact Nat.le_antisymm held.calls_le (List.drop_eq_nil_iff.mp none)

/-- Where a client that subscribes is given confirmations only, no reply is disturbed: each call is
that of the next command with the reply to it, nothing is reported, and once all is read the handler
of every answered command was called. -/
theorem asyncClient_undisturbed {H M : Type} {dummyHandler : H} {s : AsyncRun H M}
    (reached : (asyncClient dummyHandler).Reaches Orderly s) :
    (∀ (k : Nat) (call : H × RedisValue), s.calls[k]? = some call →
      ∃ (items : Items) (handler : H) (reply : Reply), s.executed[k]? = some (items, handler) ∧
        s.served[k]? = some (items.value, reply) ∧ call = (handler, reply.value)) ∧
    s.calls.length ≤ s.served.length ∧ s.served.length ≤ s.executed.length ∧
    s.fault = none ∧ s.impl.reports = [] ∧
    (s.reading.rest ++ s.toClient = [] → s.calls.length = s.served.length) := by
  have held := asyncClient_attended reached
  exact ⟨held.called, held.calls_le, held.understood.served_le, held.fault, held.reports,
    held.all_called⟩

def channelA : Text := ⟨ascii "a", by decide⟩

def subscribedReply : Reply := .array [.bulk (ascii "subscribe"), .bulk (ascii "a"), .integer 1]

def subscribingEvents : List (AsyncEvent Nat Unit) :=
  [.command pingItems 7, .strand, .transmit 0 14, .written 0, .serve (.simple (ascii "PONG")),
    .receive 7, .turn, .subscribe channelA () 8, .handlerReturn, .turn, .strand, .transmit 0 26,
    .written 0, .serve subscribedReply,
    .push (.array [.bulk (ascii "message"), .bulk (ascii "a"), .bulk (ascii "hi")]), .receive 40,
    .turn, .handlerReturn, .turn, .receive 22, .turn, .strand]

def subscribingEnd : AsyncRun Nat Unit :=
  ((asyncClient 0).run (asyncClient 0).initial subscribingEvents).get (by decide +kernel)

theorem asyncClient_undisturbed_subscribing :
    subscribingEnd.delivered = [((), ascii "hi")] ∧ subscribingEnd.calls.map Prod.fst = [7, 8] ∧
    ∀ (k : Nat) (call : Nat × RedisValue), subscribingEnd.calls[k]? = some call →
      ∃ (items : Items) (handler : Nat) (reply : Reply),
        subscribingEnd.executed[k]? = some (items, handler) ∧
        subscribingEnd.served[k]? = some (items.value, reply) ∧ call = (handler, reply.value) :=
  ⟨by decide +kernel, by decide +kernel, (asyncClient_undisturbed
    (System.Reaches.run .initial (by decide +kernel) (Option.some_get _).symm)).1⟩

def AsyncRun.Answering {H M : Type} (s : AsyncRun H M) : AsyncEvent H M → Prop
  | .command _ _ | .publish _ _ _ => s.impl.state = .connected
  | .serve reply => reply.WellFormed intMin intMax ∧
      (s.executed[s.served.length]?.bind (·.1.val.head?.map Subtype.val) =
        some (ascii "SUBSCRIBE") → Confirms reply.value)
  | .subscribe _ _ _ | .singleShotSubscribe _ _ _ | .strand | .transmit _ _ | .written _
  | .receive _ | .turn | .handlerReturn => True
  | .unsubscribe _ | .push _ | .writeFailed _ _ | .readFailed _ => False

instance {H M : Type} (s : AsyncRun H M) : ∀ e, Decidable (s.Answering e)
  | .command _ _ | .publish _ _ _ => inferInstanceAs (Decidable (s.impl.state = .connected))
  | .serve reply => inferInstanceAs (Decidable (reply.WellFormed intMin intMax ∧
      (s.executed[s.served.length]?.bind (·.1.val.head?.map Subtype.val) =
        some (ascii "SUBSCRIBE") → Confirms reply.value)))
  | .subscribe _ _ _ | .singleShotSubscribe _ _ _ | .strand | .transmit _ _ | .written _
  | .receive _ | .turn | .handlerReturn => isTrue trivial
  | .unsubscribe _ | .push _ | .writeFailed _ _ | .readFailed _ => isFalse id

def disturbedEvents : List (AsyncEvent Nat Unit) :=
  [.command pingItems 7, .strand, .transmit 0 14, .written 0, .subscribe channelA () 8,
    .serve (.simple (ascii "PONG")), .receive 7, .turn]

def disturbedEnd : AsyncRun Nat Unit :=
  ((asyncClient 0).run (asyncClient 0).initial disturbedEvents).get (by decide +kernel)

/-- The reply to the command is taken for a protocol error, and its handler is not called. -/
theorem asyncClient_disturbed :
    ¬∀ s, (asyncClient (M := Unit) 0).Reaches Answering s → s.impl.reports = [] ∧
      (s.reading.rest ++ s.toClient = [] → s.calls.length = s.served.length) := by
  intro always
  have reached : (asyncClient 0).Reaches Answering disturbedEnd :=
    System.Reaches.run .initial (by decide +kernel) (Option.some_get _).symm
  have called := (always disturbedEnd reached).2 (by decide +kernel)
  exact absurd called (by decide +kernel)

end Pinocchio.Redis
