import Pinocchio.Redis.AsyncClient

/-! Outgoing commands are serialized.

The queue holds the commands that were not written completely. At most one write
is outstanding, and it is that of the command in front.
-/

set_option autoImplicit false

namespace Pinocchio.Redis
open Semantics

namespace RedisClientImpl
variable {H M : Type} {c d : RedisClientImpl H M}

def SameWrites (c d : RedisClientImpl H M) : Prop := d.queue = c.queue ∧ d.writes = c.writes

theorem SameWrites.refl (c : RedisClientImpl H M) : c.SameWrites c := ⟨rfl, rfl⟩

theorem SameWrites.trans {e : RedisClientImpl H M} (first : c.SameWrites d)
    (second : d.SameWrites e) : c.SameWrites e :=
  ⟨second.1.trans first.1, second.2.trans first.2⟩

theorem sameWrites_post (task : Task H M) : c.SameWrites (c.post task) := ⟨rfl, rfl⟩

/-- The handlers that a message is for: a single shot on its channel, and those of the handles. -/
def called (c : RedisClientImpl H M) (queueName : Bytes) : List M :=
  (c.singleShotMsgHandlers.find? (·.1 = queueName)).toList.map Prod.snd ++
    (c.msgHandlers.filter (·.1 = queueName)).map (·.2.2)

theorem dispatch_called (c : RedisClientImpl H M) (queueName value : Bytes) :
    c.dispatch queueName value =
      { c with
        strand := c.strand ++ (c.called queueName).map (.message · value)
        singleShotMsgHandlers := c.singleShotMsgHandlers.eraseP (·.1 = queueName) } := by
  have posts (found : List (Bytes × Nat × M)) (d : RedisClientImpl H M) :
      found.foldl (fun d entry => d.post (.message entry.2.2 value)) d =
        { d with strand := d.strand ++ (found.map (·.2.2)).map (.message · value) } := by
    induction found generalizing d with
    | nil => simp
    | cons entry rest ih =>
      rw [List.foldl_cons, ih]
      simp [post]
  unfold dispatch called
  cases found : c.singleShotMsgHandlers.find? (·.1 = queueName) with
  | none =>
    have none : c.singleShotMsgHandlers.eraseP (·.1 = queueName) = c.singleShotMsgHandlers :=
      List.eraseP_of_forall_not (by simpa using found)
    rw [none]
    exact posts _ c
  | some shot =>
    dsimp only
    rw [posts]
    simp [post]

theorem dispatch_eq (c : RedisClientImpl H M) (queueName value : Bytes) :
    ∃ called : List M, c.dispatch queueName value =
      { c with
        strand := c.strand ++ called.map (.message · value)
        singleShotMsgHandlers := c.singleShotMsgHandlers.eraseP (·.1 = queueName) } :=
  ⟨_, c.dispatch_called queueName value⟩

theorem process_cases (c : RedisClientImpl H M) (v : RedisValue) :
    (∃ handler, c.doProcessMessage v = (handler, c)) ∨
    (∃ message, c.doProcessMessage v = (none, c.errorHandler message)) ∨
    ∃ command queueName value, c.state = .subscribed ∧ v.toArray = [command, queueName, value] ∧
      command.toString = ascii "message" ∧
      c.doProcessMessage v = (none, c.dispatch queueName.toString value.toByteArray) := by
  unfold doProcessMessage
  split
  · rename_i state
    split
    · rename_i command queueName value array
      dsimp only
      split
      · rename_i message
        exact Or.inr (Or.inr ⟨command, queueName, value, state, array, message, rfl⟩)
      · split
        · exact Or.inl ⟨_, rfl⟩
        · split
          · exact Or.inl ⟨_, rfl⟩
          · exact Or.inr (Or.inl ⟨_, rfl⟩)
    · exact Or.inr (Or.inl ⟨_, rfl⟩)
  · split
    · exact Or.inl ⟨_, rfl⟩
    · exact Or.inr (Or.inl ⟨_, rfl⟩)

def KeepsWrites (c : RedisClientImpl H M) (result : Except Fault (RedisClientImpl H M)) : Prop :=
  ∀ d, result = .ok d → c.SameWrites d

theorem KeepsWrites.ok (same : c.SameWrites d) : c.KeepsWrites (.ok d) := by
  intro e equal
  cases equal
  exact same

theorem KeepsWrites.guard {condition : Bool} {result : Except Fault (RedisClientImpl H M)}
    (kept : c.KeepsWrites result) : c.KeepsWrites (check condition >>= fun _ => result) := by
  cases condition with
  | true => exact kept
  | false => intro d equal; cases equal

theorem keepsWrites_command (items : Items) (handler : H) :
    c.KeepsWrites (c.command items handler) := by
  unfold command stateValid
  simp only [bind_assoc]
  refine .guard ?_
  split
  · exact .ok ⟨rfl, rfl⟩
  · exact .ok (sameWrites_post _)

theorem keepsWrites_publish (channel : Text) (msg : RedisBuffer) (handler : H) :
    c.KeepsWrites (c.publish channel msg handler) := by
  refine .guard ?_
  split
  · exact .ok (sameWrites_post _)
  · exact .ok ⟨rfl, rfl⟩

theorem keepsWrites_subscribe (channel : Text) (msgHandler : M) (handler : H) :
    c.KeepsWrites ((c.subscribe channel msgHandler handler).map Prod.snd) := by
  unfold subscribe
  cases check (c.state = .connected || c.state = .subscribed) with
  | error fault => intro d equal; cases equal
  | ok _ =>
    simp only [bind, Except.bind]
    split
    · exact .ok ⟨rfl, rfl⟩
    · exact .ok ⟨rfl, rfl⟩

theorem keepsWrites_singleShotSubscribe (channel : Text) (msgHandler : M) (handler : H) :
    c.KeepsWrites (c.singleShotSubscribe channel msgHandler handler) := by
  refine .guard ?_
  split
  · exact .ok ⟨rfl, rfl⟩
  · exact .ok ⟨rfl, rfl⟩

theorem keepsWrites_unsubscribe (dummyHandler : H) (handle : Handle) :
    c.KeepsWrites (c.unsubscribe dummyHandler handle) := by
  refine .guard ?_
  split
  · exact .ok ⟨rfl, rfl⟩
  · exact .ok ⟨rfl, rfl⟩

theorem doAsyncCommand_eq (c : RedisClientImpl H M) (buff : Bytes) (handler : H) :
    ∃ writes, c.doAsyncCommand buff handler =
      { c with
        queue := c.queue ++ [⟨handler, buff⟩]
        handlers := c.handlers ++ [handler]
        writes } := by
  unfold doAsyncCommand
  dsimp only
  split
  · exact ⟨_, rfl⟩
  · exact ⟨_, rfl⟩

theorem asyncWrite_eq (call : c.asyncWrite none = .ok d) :
    ∃ queue writes, d = { c with queue, writes } := by
  unfold asyncWrite at call
  cases queue : c.queue with
  | nil => simp [queue] at call
  | cons item rest =>
    cases rest with
    | nil =>
      simp only [queue, Except.ok.injEq] at call
      exact ⟨[], c.writes, call.symm⟩
    | cons next rest =>
      simp only [queue, Except.ok.injEq] at call
      exact ⟨next :: rest, c.writes ++ [next.buff], call.symm⟩

/-! The write that is outstanding. -/

/-- Nothing is being written when the queue is empty, and otherwise a rest of its front. -/
def Outstanding : List (QueueItem H) → List Bytes → Prop
  | [], writes => writes = []
  | item :: _, writes => ∃ unsent, writes = [unsent] ∧ unsent <:+ item.buff

def unsent (c : RedisClientImpl H M) : Bytes := c.writes.flatten ++ c.queue.tail.flatMap (·.buff)

theorem outstanding_length {queue : List (QueueItem H)} {writes : List Bytes}
    (held : Outstanding queue writes) : writes.length ≤ 1 ∧ (writes = [] ↔ queue = []) := by
  cases queue with
  | nil => rw [held]; simp
  | cons item rest =>
    obtain ⟨unsent, rfl, _⟩ := held
    simp

theorem doAsyncCommand_writes (held : Outstanding c.queue c.writes) (buff : Bytes) (handler : H) :
    Outstanding (c.doAsyncCommand buff handler).queue (c.doAsyncCommand buff handler).writes ∧
      (c.doAsyncCommand buff handler).unsent = c.unsent ++ buff := by
  unfold doAsyncCommand unsent
  cases queue : c.queue with
  | nil =>
    rw [queue] at held
    have none : c.writes = [] := held
    simp [startWrite, none, Outstanding]
  | cons item rest =>
    rw [queue] at held
    obtain ⟨unsent, writes, suffix⟩ := held
    simp [Outstanding, writes, suffix]

theorem asyncWrite_writes {write : Nat} (held : Outstanding c.queue c.writes)
    (finished : c.writes[write]? = some []) :
    ∃ d, asyncWrite { c with writes := c.writes.eraseIdx write } none = .ok d ∧
      Outstanding d.queue d.writes ∧ d.unsent = c.unsent := by
  cases queue : c.queue with
  | nil =>
    rw [queue] at held
    have none : c.writes = [] := held
    simp [none] at finished
  | cons item rest =>
    rw [queue] at held
    obtain ⟨rest', writes, suffix⟩ := held
    rw [writes] at finished
    -- There is one write only, so it is the one that was completed.
    obtain ⟨rfl, rfl⟩ : write = 0 ∧ rest' = [] := by
      cases write with
      | zero => simpa using finished
      | succ write => simp at finished
    cases rest with
    | nil =>
      refine ⟨{ c with writes := [], queue := [] }, ?_, rfl, ?_⟩
      · simp only [asyncWrite, writes]
        rfl
      · simp [unsent, queue, writes]
    | cons next rest =>
      refine ⟨{ c with writes := [next.buff], queue := next :: rest }, ?_, ?_, ?_⟩
      · simp only [asyncWrite, writes]
        rfl
      · exact ⟨next.buff, rfl, List.suffix_refl _⟩
      · simp [unsent, queue, writes]

end RedisClientImpl

open RedisClientImpl

namespace AsyncRun
variable {H M : Type} {s t : AsyncRun H M}

/-- What was sent and what is still to be sent are the executed commands, in order. -/
structure Serialized (s : AsyncRun H M) : Prop where
  outstanding : Outstanding s.impl.queue s.impl.writes
  bytes : s.sent ++ s.impl.unsent = s.executed.flatMap fun done => makeCommand done.1

theorem Serialized.frame (held : Serialized s) (same : s.impl.SameWrites t.impl)
    (sent : t.sent = s.sent) (executed : t.executed = s.executed) : Serialized t := by
  obtain ⟨queue, writes⟩ := same
  refine ⟨?_, ?_⟩
  · rw [queue, writes]
    exact held.outstanding
  · rw [sent, executed, unsent, queue, writes]
    exact held.bytes

theorem Serialized.after {result : Except Fault (RedisClientImpl H M)} (held : Serialized s)
    (kept : s.impl.KeepsWrites result) : Serialized (s.after result) := by
  cases result with
  | ok impl => exact held.frame (kept impl rfl) rfl rfl
  | error fault => exact held.frame (.refl _) rfl rfl

theorem Serialized.runTask (held : Serialized s) (task : Task H M) :
    Serialized (s.runTask task) := by
  cases task with
  | command items handler =>
    obtain ⟨outstanding, unsent⟩ :=
      doAsyncCommand_writes held.outstanding (makeCommand items) handler
    refine ⟨outstanding, ?_⟩
    simp only [AsyncRun.runTask, unsent, ← List.append_assoc, held.bytes, List.flatMap_append]
    simp
  | message handler buf => exact held.frame (.refl _) rfl rfl

theorem Serialized.transmit {write n : Nat} {rest : Bytes} (held : Serialized s)
    (found : s.impl.writes[write]? = some rest) : Serialized (s.transmit write n rest) := by
  cases queue : s.impl.queue with
  | nil =>
    have none : s.impl.writes = [] := by simpa [queue, Outstanding] using held.outstanding
    simp [none] at found
  | cons item later =>
    obtain ⟨rest', writes, suffix⟩ : ∃ rest', s.impl.writes = [rest'] ∧ rest' <:+ item.buff := by
      simpa [queue, Outstanding] using held.outstanding
    obtain ⟨rfl, rfl⟩ : write = 0 ∧ rest' = rest := by
      cases write with
      | zero => simpa [writes] using found
      | succ write => simp [writes] at found
    refine ⟨?_, ?_⟩
    · simp only [AsyncRun.transmit, queue, writes, List.set_cons_zero]
      exact ⟨_, rfl, (List.drop_suffix n rest').trans suffix⟩
    · -- The bytes change sides, from the unsent rest to what was sent.
      have bytes := held.bytes
      simp only [unsent, queue, writes, List.flatten_singleton] at bytes
      simp only [AsyncRun.transmit, unsent, queue, writes, List.set_cons_zero,
        List.flatten_singleton]
      rw [← bytes, ← List.append_assoc, ← List.append_assoc, List.append_assoc s.sent,
        List.take_append_drop, List.append_assoc]

/-- What a turn of the loop makes of the client: it has a parser that read on, and besides made a
report or took a message. -/
inductive TurnMakes (c : RedisClientImpl H M) (buf : Bytes) (pos : Nat) :
    RedisClientImpl H M → Prop
  | parsed (redisParser : RedisParser) : TurnMakes c buf pos { c with redisParser }
  | reported (redisParser : RedisParser) (message : Bytes) :
      TurnMakes c buf pos ({ c with redisParser }.errorHandler message)
  | message {redisParser : RedisParser} {v command queueName value : RedisValue} {next : Nat}
      (more : pos < buf.length)
      (got : receive c.redisParser buf pos = .ok (.value v redisParser next))
      (array : v.toArray = [command, queueName, value])
      (message : command.toString = ascii "message") (called : List M) :
      TurnMakes c buf pos
        { c with
          redisParser
          strand := c.strand ++ called.map (.message · value.toByteArray)
          singleShotMsgHandlers := c.singleShotMsgHandlers.eraseP (·.1 = queueName.toString) }

theorem turn_cases (s : AsyncRun H M) (buf : Bytes) (pos : Nat) :
    ∃ impl reading fault calls, s.turn buf pos = { s with impl, reading, fault, calls } ∧
      TurnMakes s.impl buf pos impl := by
  unfold AsyncRun.turn
  split
  · rename_i more
    cases got : receive s.impl.redisParser buf pos with
    | error fault => exact ⟨_, _, _, _, rfl, .parsed s.impl.redisParser⟩
    | ok result =>
      cases result with
      | value v parser next =>
        dsimp only
        rcases process_cases { s.impl with redisParser := parser } v with
          ⟨_ | handler, processed⟩ | ⟨message, processed⟩ |
            ⟨command, queueName, value, _, array, message, processed⟩
        · rw [processed]
          exact ⟨_, _, _, _, rfl, .parsed parser⟩
        · rw [processed]
          exact ⟨_, _, _, _, rfl, .parsed parser⟩
        · rw [processed]
          exact ⟨_, _, _, _, rfl, .reported parser message⟩
        · obtain ⟨called, dispatched⟩ := dispatch_eq { s.impl with redisParser := parser }
            queueName.toString value.toByteArray
          rw [processed, dispatched]
          exact ⟨_, _, _, _, rfl, .message more got array message called⟩
      | more parser next => exact ⟨_, _, _, _, rfl, .parsed parser⟩
      | error parser next => exact ⟨_, _, _, _, rfl, .reported parser _⟩
  · exact ⟨_, _, _, _, rfl, .parsed s.impl.redisParser⟩

theorem Serialized.turn (held : Serialized s) (buf : Bytes) (pos : Nat) :
    Serialized (s.turn buf pos) := by
  obtain ⟨impl, reading, fault, calls, same, makes⟩ := turn_cases s buf pos
  rw [same]
  refine held.frame ?_ rfl rfl
  cases makes with
  | parsed | reported | message => exact ⟨rfl, rfl⟩

def WritesSucceed (_ : AsyncRun H M) : AsyncEvent H M → Prop
  | .writeFailed _ _ => False
  | _ => True

theorem Serialized.step {dummyHandler : H} {e : AsyncEvent H M} (held : Serialized s)
    (allowed : WritesSucceed s e) (taken : Taken dummyHandler s e t) : Serialized t := by
  cases taken with
  | command items handler => exact held.after (keepsWrites_command items handler)
  | publish channel msg handler => exact held.after (keepsWrites_publish channel msg handler)
  | subscribe channel msgHandler handler =>
    exact held.after (keepsWrites_subscribe channel msgHandler handler)
  | singleShotSubscribe channel msgHandler handler =>
    exact held.after (keepsWrites_singleShotSubscribe channel msgHandler handler)
  | unsubscribe handle => exact held.after (keepsWrites_unsubscribe dummyHandler handle)
  | @strand task strand front =>
    have taken : Serialized { s with impl := { s.impl with strand } } :=
      held.frame ⟨rfl, rfl⟩ rfl rfl
    exact taken.runTask task
  | transmit found bounds => exact held.transmit found
  | written finished =>
    obtain ⟨d, call, outstanding, unsent⟩ := asyncWrite_writes held.outstanding finished
    simp only [complete, call]
    refine ⟨outstanding, ?_⟩
    simp only [AsyncRun.after, unsent]
    exact held.bytes
  | writeFailed message started => exact absurd allowed id
  | serve whole => exact held.frame (.refl _) rfl rfl
  | push message => exact held.frame (.refl _) rfl rfl
  | receive waiting bounds => exact held.frame (.refl _) rfl rfl
  | readFailed message waiting => exact held.frame ⟨rfl, rfl⟩ rfl rfl
  | turn parsing => exact held.turn _ _
  | handlerReturn calling => exact held.frame ⟨rfl, rfl⟩ rfl rfl

def buffers (s : AsyncRun H M) : List Bytes := s.executed.map fun done => makeCommand done.1

def Queued (s : AsyncRun H M) : Prop := s.impl.queue.map (·.buff) <:+ s.buffers

theorem Queued.frame (held : Queued s) (queue : t.impl.queue = s.impl.queue)
    (executed : t.executed = s.executed) : Queued t := by
  rw [Queued, buffers, queue, executed]
  exact held

theorem Queued.after {result : Except Fault (RedisClientImpl H M)} (held : Queued s)
    (kept : s.impl.KeepsWrites result) : Queued (s.after result) := by
  cases result with
  | ok impl => exact held.frame (kept impl rfl).1 rfl
  | error fault => exact held

theorem Queued.step {dummyHandler : H} {e : AsyncEvent H M} (held : Queued s)
    (taken : Taken dummyHandler s e t) : Queued t := by
  cases taken with
  | command items handler => exact held.after (keepsWrites_command items handler)
  | publish channel msg handler => exact held.after (keepsWrites_publish channel msg handler)
  | subscribe channel msgHandler handler =>
    exact held.after (keepsWrites_subscribe channel msgHandler handler)
  | singleShotSubscribe channel msgHandler handler =>
    exact held.after (keepsWrites_singleShotSubscribe channel msgHandler handler)
  | unsubscribe handle => exact held.after (keepsWrites_unsubscribe dummyHandler handle)
  | @strand task strand front =>
    cases task with
    | message handler buf => exact held
    | command items handler =>
      obtain ⟨writes, same⟩ := doAsyncCommand_eq { s.impl with strand } (makeCommand items) handler
      obtain ⟨done, split⟩ := held
      refine ⟨done, ?_⟩
      rw [buffers] at split
      simp only [AsyncRun.runTask, same, buffers, List.map_append, ← split, List.append_assoc]
      rfl
  | @written write finished =>
    unfold complete
    cases call : asyncWrite { s.impl with writes := s.impl.writes.eraseIdx write } none with
    | error fault => exact held
    | ok d =>
      -- The front leaves the queue.
      have suffix : d.queue <:+ s.impl.queue := by
        unfold asyncWrite at call
        cases queue : s.impl.queue with
        | nil => simp [queue] at call
        | cons item rest =>
          cases rest with
          | nil =>
            simp only [queue, Except.ok.injEq] at call
            rw [← call]
            exact List.nil_suffix
          | cons next rest =>
            simp only [queue, Except.ok.injEq] at call
            rw [← call]
            exact List.suffix_cons item _
      exact (suffix.map _).trans held
  | turn parsing =>
    obtain ⟨impl, reading, fault, calls, same, makes⟩ := turn_cases s _ _
    rw [same]
    cases makes with
    | parsed | reported | message => exact held
  | transmit found bounds | writeFailed message started | serve whole | push message
  | receive waiting bounds | readFailed message waiting | handlerReturn calling => exact held

theorem Serialized.sent (held : Serialized s) (queued : Queued s) :
    ∃ done, s.buffers = done ++ s.impl.queue.map (·.buff) ∧
      match s.impl.queue with
      | [] => s.impl.writes = [] ∧ s.sent = done.flatten
      | item :: _ => ∃ written unsent, item.buff = written ++ unsent ∧
          s.impl.writes = [unsent] ∧ s.sent = done.flatten ++ written := by
  obtain ⟨done, split⟩ := queued
  refine ⟨done, split.symm, ?_⟩
  have bytes : s.sent ++ s.impl.unsent = s.buffers.flatten := by
    rw [held.bytes, buffers, List.flatMap_def]
  have outstanding := held.outstanding
  rw [← split, unsent] at bytes
  cases queue : s.impl.queue with
  | nil =>
    rw [queue] at outstanding bytes
    have none : s.impl.writes = [] := outstanding
    exact ⟨none, by simpa [none] using bytes⟩
  | cons item rest =>
    rw [queue] at outstanding bytes
    obtain ⟨unsent, writes, written, buff⟩ := outstanding
    refine ⟨written, unsent, buff.symm, writes, ?_⟩
    simp only [writes, List.tail_cons, List.map_cons, List.flatten_append, List.flatten_cons,
      List.flatten_nil, List.append_nil, ← buff, List.flatMap_def, ← List.append_assoc] at bytes
    exact List.append_cancel_right (List.append_cancel_right bytes)

end AsyncRun

open AsyncRun

instance {H M : Type} (s : AsyncRun H M) : ∀ e, Decidable (WritesSucceed s e)
  | .writeFailed _ _ => isFalse id
  | .command _ _ | .publish _ _ _ | .subscribe _ _ _ | .singleShotSubscribe _ _ _ | .unsubscribe _
  | .strand | .transmit _ _ | .written _ | .serve _ | .push _ | .receive _ | .readFailed _ | .turn
  | .handlerReturn => isTrue trivial

/-- As long as no write fails, one write at most is outstanding, and one is when the queue holds
anything, that of its front. What was sent are the commands in the order of their executions, and
the assertion about the queue holds when a write is completed. -/
theorem asyncClient_serialized {H M : Type} {dummyHandler : H} {s : AsyncRun H M}
    (reached : (asyncClient dummyHandler).Reaches WritesSucceed s) :
    s.impl.writes.length ≤ 1 ∧ (s.impl.writes ≠ [] ↔ s.impl.queue ≠ []) ∧
    (∃ done, s.buffers = done ++ s.impl.queue.map (·.buff) ∧
      match s.impl.queue with
      | [] => s.impl.writes = [] ∧ s.sent = done.flatten
      | item :: _ => ∃ written unsent, item.buff = written ++ unsent ∧
          s.impl.writes = [unsent] ∧ s.sent = done.flatten ++ written) ∧
    ∀ write, s.impl.writes[write]? = some [] →
      s.impl.queue ≠ [] ∧ (s.complete write none).fault = s.fault := by
  have held : Serialized s ∧ Queued s := by
    refine reached.invariant (P := fun s => Serialized s ∧ Queued s) ?_
      fun s e t held allowed step => ?_
    · exact ⟨⟨rfl, rfl⟩, List.nil_suffix⟩
    obtain ⟨_, taken⟩ := taken_of_step step
    exact ⟨held.1.step allowed taken, held.2.step taken⟩
  obtain ⟨one, empty⟩ := outstanding_length held.1.outstanding
  refine ⟨one, not_congr empty, held.1.sent held.2, fun write finished => ?_⟩
  obtain ⟨d, call, _⟩ := asyncWrite_writes held.1.outstanding finished
  refine ⟨fun none => ?_, by rw [complete, call]; rfl⟩
  rw [empty.mpr none] at finished
  cases finished

def queuedEvents : List (AsyncEvent Nat Unit) :=
  [.command pingItems 1, .command pingItems 2, .strand, .transmit 0 9, .strand, .transmit 0 5,
    .written 0, .transmit 0 4]

def queuedEnd : AsyncRun Nat Unit :=
  ((asyncClient 0).run (asyncClient 0).initial queuedEvents).get (by decide +kernel)

theorem asyncClient_serialized_queued :
    queuedEnd.sent = makeCommand pingItems ++ ascii "*1\r\n" ∧ queuedEnd.impl.queue.length = 1 ∧
      queuedEnd.impl.writes.length ≤ 1 :=
  ⟨by decide +kernel, by decide +kernel, (asyncClient_serialized
    (System.Reaches.run .initial (by decide +kernel) (Option.some_get _).symm)).1⟩

end Pinocchio.Redis
