import Pinocchio.Redis.AsyncReplies

/-! What the asynchronous client does after its connection failed.

A failed read or write and a parser error are reported, and no other read or write is started. But
the state stays `Connected`, so commands are taken as before.
-/

set_option autoImplicit false

namespace Pinocchio.Redis
open Semantics RedisClientImpl

namespace AsyncRun
variable {H M : Type} {s t : AsyncRun H M}

def Failure (_ : AsyncRun H M) : AsyncEvent H M → AsyncRun H M → Prop
  | .writeFailed _ _, _ | .readFailed _, _ => True
  | .turn, t => t.reading = .stopped
  | _, _ => False

/-- A call of `command` is reported as invalid, and nothing else comes of it. -/
def Refused (s t : AsyncRun H M) : Prop :=
  t = { s with impl := s.impl.errorHandler s.impl.invalidState }

theorem after_keeps (s : AsyncRun H M) {result : Except Fault (RedisClientImpl H M)}
    (kept : s.impl.KeepsWrites result) :
    (s.after result).reading = s.reading ∧ (s.after result).calls = s.calls ∧
      (s.after result).sent = s.sent ∧ s.impl.SameWrites (s.after result).impl := by
  cases result with
  | ok impl => exact ⟨rfl, rfl, rfl, kept impl rfl⟩
  | error fault => exact ⟨rfl, rfl, rfl, .refl _⟩

theorem stopped_step {dummyHandler : H} {e : AsyncEvent H M} (stopped : s.reading = .stopped)
    (taken : Taken dummyHandler s e t) : t.reading = .stopped ∧ t.calls = s.calls := by
  have client {result : Except Fault (RedisClientImpl H M)} :
      (s.after result).reading = .stopped ∧ (s.after result).calls = s.calls := by
    cases result with
    | ok impl => exact ⟨stopped, rfl⟩
    | error fault => exact ⟨stopped, rfl⟩
  cases taken with
  | command | publish | subscribe | singleShotSubscribe | unsubscribe | written | writeFailed =>
    exact client
  | @strand task strand front =>
    cases task with
    | command items handler => exact ⟨stopped, rfl⟩
    | message handler buf => exact ⟨stopped, rfl⟩
  | transmit | serve | push => exact ⟨stopped, rfl⟩
  | receive waiting bounds => rw [stopped] at waiting; cases waiting
  | readFailed message waiting => rw [stopped] at waiting; cases waiting
  | turn parsing => rw [stopped] at parsing; cases parsing
  | handlerReturn calling => rw [stopped] at calling; cases calling

/-- The command in front of the queue is not being written, and never leaves it. -/
def Stuck (s : AsyncRun H M) : Prop := s.impl.writes = [] ∧ s.impl.queue ≠ []

theorem Stuck.frame (held : Stuck s) (same : s.impl.SameWrites t.impl) : Stuck t :=
  ⟨same.2.trans held.1, same.1 ▸ held.2⟩

theorem Stuck.step {dummyHandler : H} {e : AsyncEvent H M} (held : Stuck s)
    (taken : Taken dummyHandler s e t) : Stuck t ∧ t.sent = s.sent := by
  have client {result : Except Fault (RedisClientImpl H M)} (kept : s.impl.KeepsWrites result) :
      Stuck (s.after result) ∧ (s.after result).sent = s.sent := by
    obtain ⟨_, _, sent, same⟩ := s.after_keeps kept
    exact ⟨held.frame same, sent⟩
  cases taken with
  | command items handler => exact client (keepsWrites_command items handler)
  | publish channel msg handler => exact client (keepsWrites_publish channel msg handler)
  | subscribe channel msgHandler handler =>
    exact client (keepsWrites_subscribe channel msgHandler handler)
  | singleShotSubscribe channel msgHandler handler =>
    exact client (keepsWrites_singleShotSubscribe channel msgHandler handler)
  | unsubscribe handle => exact client (keepsWrites_unsubscribe dummyHandler handle)
  | @strand task strand front =>
    cases task with
    | message handler buf => exact ⟨held, rfl⟩
    | command items handler =>
      -- The queue is longer than one, so no write is started.
      let item : QueueItem H := ⟨handler, makeCommand items⟩
      have long : (s.impl.queue ++ [item]).length ≠ 1 := by
        have some := List.length_pos_iff.mpr held.2
        rw [List.length_append, List.length_singleton]
        omega
      refine ⟨⟨?_, ?_⟩, rfl⟩
      · simp only [AsyncRun.runTask, doAsyncCommand, item, if_neg long]
        exact held.1
      · simp only [AsyncRun.runTask, doAsyncCommand, item, if_neg long]
        exact List.append_ne_nil_of_right_ne_nil _ (List.cons_ne_nil _ _)
  | transmit found bounds => rw [held.1] at found; cases found
  | written finished => rw [held.1] at finished; cases finished
  | writeFailed message started => rw [held.1] at started; cases started
  | turn parsing =>
    obtain ⟨impl, reading, fault, calls, same, makes⟩ := turn_cases s _ _
    rw [same]
    cases makes with
    | parsed | reported | message => exact ⟨held, rfl⟩
  | serve whole | push message | receive waiting bounds | readFailed message waiting
  | handlerReturn calling => exact ⟨held, rfl⟩

theorem stuck_of_failed {dummyHandler : H} {write : Nat} {message : Bytes}
    (held : Serialized s ∨ Stuck s) (taken : Taken dummyHandler s (.writeFailed write message) t) :
    Stuck t := by
  cases taken with
  | writeFailed message started =>
  rcases held with held | stuck
  · obtain ⟨one, empty⟩ := outstanding_length held.outstanding
    have first : write = 0 := by omega
    refine ⟨?_, fun none => ?_⟩
    -- The only write is given up, and its command stays in front.
    · have writes : ∃ unsent, s.impl.writes = [unsent] := List.length_eq_one_iff.mp (by omega)
      obtain ⟨unsent, writes⟩ := writes
      simp only [complete, asyncWrite, AsyncRun.after, RedisClientImpl.errorHandler, writes, first]
      rfl
    · have writes : s.impl.writes = [] := empty.mpr none
      rw [writes] at started
      cases started
  · exact absurd started (by simp [stuck.1])

theorem serialized_or_stuck {dummyHandler : H} {e : AsyncEvent H M}
    (held : Serialized s ∨ Stuck s) (taken : Taken dummyHandler s e t) :
    Serialized t ∨ Stuck t := by
  by_cases failed : ∃ write message, e = .writeFailed write message
  · obtain ⟨write, message, rfl⟩ := failed
    exact Or.inr (stuck_of_failed held taken)
  · have succeeds : WritesSucceed s e := by
      cases e with
      | writeFailed write message => exact absurd ⟨write, message, rfl⟩ failed
      | _ => trivial
    exact held.imp (fun held => held.step succeeds taken) fun stuck => (stuck.step taken).1

theorem not_refused {dummyHandler : H} {items : Items} {handler : H} (running : s.fault = none)
    (taken : Taken dummyHandler s (.command items handler) t) :
    ¬Refused s t ∧ (s.impl.state = .connected → t = { s with
      impl := s.impl.post (.command items handler) }) := by
  cases taken
  by_cases connected : s.impl.state = .connected
  · have posted : s.after (s.impl.command items handler) =
        { s with impl := s.impl.post (.command items handler) } := by
      rw [command_connected connected]
      rfl
    refine ⟨fun refused => ?_, fun _ => posted⟩
    -- A refused call does not grow the strand.
    rw [posted] at refused
    have strand := congrArg (fun u => u.impl.strand.length) refused
    simp [RedisClientImpl.post, RedisClientImpl.errorHandler] at strand
  · refine ⟨fun refused => ?_, fun is => absurd is connected⟩
    have failed : s.impl.command items handler = .error .assertion := by
      simp only [RedisClientImpl.command, stateValid, check, connected, decide_false]
      rfl
    rw [failed] at refused
    have fault : some Fault.assertion = s.fault := congrArg AsyncRun.fault refused
    rw [running] at fault
    cases fault

end AsyncRun

open AsyncRun

section Runs
variable {H M : Type} {dummyHandler : H} {a b s u : AsyncRun H M} {events : List (AsyncEvent H M)}

theorem stopped_run (stopped : a.reading = .stopped)
    (path : (asyncClient dummyHandler).run a events = some s) :
    s.reading = .stopped ∧ s.calls = a.calls := by
  refine System.run_invariant (P := fun s => s.reading = .stopped ∧ s.calls = a.calls)
    ⟨stopped, rfl⟩ path ?_
  rintro s e t ⟨reading, calls⟩ step
  obtain ⟨after, same⟩ := stopped_step reading (taken_of_step step).2
  exact ⟨after, same.trans calls⟩

theorem stuck_run (stuck : Stuck a) (path : (asyncClient dummyHandler).run a events = some s) :
    Stuck s ∧ s.sent = a.sent := by
  refine System.run_invariant (P := fun s => Stuck s ∧ s.sent = a.sent) ⟨stuck, rfl⟩ path ?_
  rintro s e t ⟨held, sent⟩ step
  obtain ⟨after, same⟩ := held.step (taken_of_step step).2
  exact ⟨after, same.trans sent⟩

theorem failure_stops {e : AsyncEvent H M} (failure : Failure a e b)
    (taken : Taken dummyHandler a e b) :
    match e with
    | .writeFailed _ _ => True
    | _ => b.reading = .stopped := by
  cases e with
  | readFailed message => cases taken; rfl
  | writeFailed => trivial
  | turn => exact failure
  | _ => exact absurd failure id

/-- A reported failure refuses a call of `command` afterwards. -/
def RefusesCommands (s : AsyncRun H M) : AsyncEvent H M → AsyncRun H M → Prop
  | .command _ _, t => Refused s t
  | _, _ => True

theorem refuses_iff {e : AsyncEvent H M} {t : AsyncRun H M}
    (step : (asyncClient dummyHandler).step s e = some t) :
    RefusesCommands s e t ↔ ∀ items handler, e ≠ .command items handler := by
  obtain ⟨running, taken⟩ := taken_of_step step
  cases e with
  | command items handler =>
    refine ⟨fun refused => absurd refused (not_refused running taken).1, fun other => ?_⟩
    exact absurd rfl (other items handler)
  | _ => exact ⟨fun _ _ _ => nofun, fun _ => trivial⟩

theorem refuses_run_iff {between : List (AsyncEvent H M)}
    (rest : (asyncClient dummyHandler).run b between = some s) :
    (asyncClient dummyHandler).Along RefusesCommands b between ↔
      ∀ items handler, AsyncEvent.command items handler ∉ between := by
  induction between generalizing b with
  | nil => simp [System.Along]
  | cons e between ih =>
    obtain ⟨c, step, rest⟩ := ((asyncClient dummyHandler).run_cons_some).mp rest
    rw [System.along_cons step, refuses_iff step, ih rest]
    simp only [List.mem_cons, not_or, ← forall_and, ne_comm]

/-- What a failure puts an end to: nothing is sent any more, or no handler is called. -/
def Silenced : AsyncEvent H M → AsyncRun H M → AsyncRun H M → Prop
  | .writeFailed _ _, s, u => u.sent = s.sent
  | _, s, u => u.calls = s.calls

/-- After an error of the connection every call of `command` is refused only where there is none.
A client in the state `Connected` takes it, and from then on, either no handler is called, or
nothing is sent. -/
theorem asyncClient_refuses {e : AsyncEvent H M} {between : List (AsyncEvent H M)}
    (path : (asyncClient dummyHandler).run (asyncClient dummyHandler).initial events = some a)
    (step : (asyncClient dummyHandler).step a e = some b) (failure : Failure a e b)
    (rest : (asyncClient dummyHandler).run b between = some s) :
    ((asyncClient dummyHandler).Along RefusesCommands b between ↔
      ∀ items handler, AsyncEvent.command items handler ∉ between) ∧
    ∀ items handler t, (asyncClient dummyHandler).step s (.command items handler) = some t →
      s.impl.state = .connected →
      t = { s with impl := s.impl.post (.command items handler) } ∧
      ∀ later u, (asyncClient dummyHandler).run t later = some u → Silenced e s u := by
  refine ⟨refuses_run_iff rest, fun items handler t call connected => ?_⟩
  obtain ⟨running, called⟩ :
      s.fault = none ∧ Taken dummyHandler s (.command items handler) t := taken_of_step call
  refine ⟨(not_refused running called).2 connected, fun later u after => ?_⟩
  have onward : (asyncClient dummyHandler).run s (.command items handler :: later) = some u :=
    ((asyncClient dummyHandler).run_cons_some).mpr ⟨t, call, after⟩
  have taken := (taken_of_step step).2
  have stops := failure_stops failure taken
  cases e with
  | writeFailed write message =>
    have start : Serialized (asyncClient (M := M) dummyHandler).initial := ⟨rfl, rfl⟩
    have held : Serialized a ∨ Stuck a := by
      refine System.run_invariant (P := fun s => Serialized s ∨ Stuck s) (Or.inl start) path ?_
      intro s e t held step
      exact serialized_or_stuck held (taken_of_step step).2
    exact (stuck_run (stuck_run (stuck_of_failed held taken) rest).1 onward).2
  | _ => exact (stopped_run (stopped_run stops rest).1 onward).2

end Runs

def closingEvents : List (AsyncEvent Nat Unit) :=
  [.command pingItems 1, .strand, .transmit 0 14, .written 0]

def closingEnd : AsyncRun Nat Unit :=
  ((asyncClient 0).run (asyncClient 0).initial closingEvents).get (by decide +kernel)

def closedEnd : AsyncRun Nat Unit :=
  (closingEnd.step 0 (.readFailed (ascii "End of file"))).get (by decide +kernel)

def commandedEnd : AsyncRun Nat Unit :=
  (closedEnd.step 0 (.command pingItems 2)).get (by decide +kernel)

/-- The failure is reported, and the next command is taken and not refused. -/
theorem asyncClient_refuses_closed :
    closedEnd.impl.reports = [ascii "End of file"] ∧ closedEnd.impl.state = .connected ∧
      commandedEnd.impl.strand.length = 1 ∧
      ¬(asyncClient 0).Along RefusesCommands closedEnd [.command pingItems 2] := by
  refine ⟨by decide +kernel, by decide +kernel, by decide +kernel, fun refuses => ?_⟩
  have path : (asyncClient 0).run (asyncClient 0).initial closingEvents = some closingEnd :=
    (Option.some_get _).symm
  have step : (asyncClient 0).step closingEnd (.readFailed (ascii "End of file")) =
      some closedEnd := (Option.some_get _).symm
  have call : (asyncClient 0).step closedEnd (.command pingItems 2) = some commandedEnd :=
    (Option.some_get _).symm
  have rest : (asyncClient 0).run closedEnd [.command pingItems 2] = some commandedEnd :=
    ((asyncClient 0).run_cons_some).mpr ⟨commandedEnd, call, rfl⟩
  have refused := (asyncClient_refuses path step trivial rest).1.mp refuses
  exact refused pingItems 2 (List.mem_singleton_self _)

/-- It is so although a failure was reported before. -/
theorem asyncClient_accepts_closed :
    ¬∀ (events between : List (AsyncEvent Nat Unit)) (e : AsyncEvent Nat Unit)
      (a b s : AsyncRun Nat Unit),
      (asyncClient 0).run (asyncClient 0).initial events = some a →
      (asyncClient 0).step a e = some b → Failure a e b →
      (asyncClient 0).run b between = some s → (asyncClient 0).Along RefusesCommands b between := by
  intro always
  have refuses (a b s : AsyncRun Nat Unit)
      (path : (asyncClient 0).run (asyncClient 0).initial closingEvents = some a)
      (step : (asyncClient 0).step a (.readFailed (ascii "End of file")) = some b)
      (call : (asyncClient 0).step b (.command pingItems 2) = some s) : Refused b s := by
    have rest : (asyncClient 0).run b [.command pingItems 2] = some s :=
      ((asyncClient 0).run_cons_some).mpr ⟨s, call, rfl⟩
    have along := always closingEvents [.command pingItems 2] _ a b s path step trivial rest
    exact ((System.along_cons call).mp along).1
  have refused := refuses closingEnd closedEnd commandedEnd (Option.some_get _).symm
    (Option.some_get _).symm (Option.some_get _).symm
  have strand := congrArg (fun s => s.impl.strand.length) refused
  exact absurd strand (by decide +kernel)

end Pinocchio.Redis
