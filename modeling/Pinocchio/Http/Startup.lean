import Pinocchio.Http.Routes
import Pinocchio.Redis.AsyncReplies
import Pinocchio.Redis.SyncReturns

/-! The start of the program.

The manager starts to connect both clients. Only the synchronous one is waited for, and nothing looks
at what `Initialize` returns. The asynchronous one gets its connection on the thread that runs the
input and output, while requests are already served. What is read and written there is left out but
for the values that come to handlers.
-/

set_option autoImplicit false

namespace Pinocchio.Http
open Semantics Redis Database

inductive Client where
  | async
  | sync
  deriving DecidableEq

/-- The two clients and how far the start is. A call of `GetMsg` waits for its answer, and every call
of `command` leaves the state that its client was in. -/
structure StartupRun where
  asyncClient : RedisClientImpl Handler Empty := {}
  syncClient : SyncClient := { state := .notConnected }
  initialized : Option Int := none
  loaded : Bool := false
  ioThread : Bool := false
  connecting : Bool := true
  stopped : Bool := false
  waiting : List Text := []
  commands : List (Client × ClientState) := []
  fault : Option Fault := none

/-- Connections succeed or fail. An answer to `GetMsg` is a value, unless its call throws. -/
inductive StartupEvent where
  | syncConnect (ok : Bool)
  | ioThread
  | asyncConnect (ok : Bool)
  | load
  | request (request : HttpRequest)
  | answer (call : Nat) (result : Option RedisValue)
  | strand
  | reply (v : RedisValue)

namespace StartupRun
variable (s : StartupRun)

def asyncCommand (command : Command) (handler : Handler) : StartupRun :=
  let s := { s with commands := s.commands ++ [(Client.async, s.asyncClient.state)] }
  match s.asyncClient.command command.items handler with
  | .ok asyncClient => { s with asyncClient }
  | .error fault => { s with fault := some fault }

/-- The build has assertions. The words that are sent play no part here. -/
def syncCommand : StartupRun :=
  let s := { s with commands := s.commands ++ [(Client.sync, s.syncClient.state)] }
  match s.syncClient.stateValid true with
  | .ok (_, syncClient) => { s with syncClient }
  | .error fault => { s with fault := some fault }

def managerInitialize (ok : Bool) : StartupRun :=
  if ok then
    { s with syncClient := { s.syncClient with state := .connected }, initialized := some 0 }
  else { s with initialized := some (-1) }

def handleAsyncConnect (ok : Bool) : StartupRun :=
  let s := { s with connecting := false }
  if ok then { s with asyncClient := { s.asyncClient with state := .connected } }
  else { s with stopped := true }

def load : StartupRun := { s.syncCommand with loaded := true }

def handle : HttpRequest → StartupRun
  | .regist token =>
    if token.val.length < 40 ∨ token.val.length > 128 then s else s.syncCommand
  | .send x =>
    match posting x with
    | .error _ => s
    | .ok (token, msg) =>
      s.asyncCommand (.lpush token ⟨s.commands.length, msg⟩) (.pushed token)
  | .recv token =>
    if token.val.length > 128 then s
    else { s.syncCommand with waiting := s.waiting ++ [token] }

def getMsg (token : Text) : Option RedisValue → StartupRun
  | none => s
  | some v => if v.isOk then s.asyncCommand (clearTrim token) .trimmed else s

/-- The thread runs and `io_service_` was not stopped. -/
def Running : Prop := s.ioThread = true ∧ s.stopped = false

instance : Decidable s.Running := inferInstanceAs (Decidable (_ ∧ _))

def step : StartupEvent → Option StartupRun
  | .syncConnect ok => if s.initialized = none then some (s.managerInitialize ok) else none
  | .ioThread =>
    -- `run` is called only after the connection was made.
    if s.initialized = some 0 ∧ s.ioThread = false then some { s with ioThread := true } else none
  | .asyncConnect ok =>
    if s.Running ∧ s.connecting = true then some (s.handleAsyncConnect ok) else none
  | .load => if s.initialized ≠ none ∧ s.loaded = false then some s.load else none
  | .request request => if s.loaded = true then some (s.handle request) else none
  | .answer call result =>
    match s.waiting[call]? with
    | none => none
    | some token => some (getMsg { s with waiting := s.waiting.eraseIdx call } token result)
  | .strand =>
    match s.asyncClient.strand with
    | .command items handler :: strand =>
      if s.Running then
        some { s with asyncClient :=
          { s.asyncClient with strand }.doAsyncCommand (makeCommand items) handler }
      else none
    | _ => none
  | .reply v =>
    -- Reading starts with the connection.
    if s.Running ∧ s.asyncClient.state = .connected then
      match s.asyncClient.handlers with
      | [] => none
      | handler :: handlers =>
        let s := (handler.run v).foldl (fun s posted => s.asyncCommand posted.1 posted.2) s
        some { s with asyncClient := { s.asyncClient with handlers } }
    else none

end StartupRun

def startup : System StartupRun StartupEvent :=
  ⟨{}, fun s e => if s.fault = none then s.step e else none⟩

def StartupEvent.connects : Client → StartupEvent → Bool
  | .sync, .syncConnect ok => ok
  | .async, .asyncConnect ok => ok
  | _, _ => false

/-- Whether an event leads to a call of the client: the load to one of the synchronous client, and
an accepted post or an answer to `GetMsg` that is no error to one of the other. -/
def StartupEvent.Asks : Client → StartupEvent → Prop
  | .sync, .load => True
  | .async, .request (.send x) => ∃ pair, posting x = .ok pair
  | .async, .answer _ (some v) => v.isOk = true
  | _, _ => False

/-- A client is asked only after an event that brought its connection. -/
def Waits (connected : Client → Bool) : List StartupEvent → Prop
  | [] => True
  | e :: events =>
    (∀ client, e.Asks client → connected client = true) ∧
      Waits (fun client => connected client || e.connects client) events

namespace StartupRun

/-- Every call of `command` found its client connected, and no assertion failed. -/
structure Safe (s : StartupRun) : Prop where
  commands : ∀ command ∈ s.commands, command.2 = .connected
  fault : s.fault = none

structure Connected (connected : Client → Bool) (s : StartupRun) : Prop where
  async : s.asyncClient.state = .connected ↔ connected .async = true
  sync : s.syncClient.state = .connected ↔ connected .sync = true
  loaded : s.loaded = true → s.syncClient.state = .connected

variable {s t : StartupRun} {connected : Client → Bool}

theorem Safe.call (safe : s.Safe) (client : Client) :
    ∀ command ∈ s.commands ++ [(client, .connected)], command.2 = ClientState.connected := by
  intro command member
  rcases List.mem_append.mp member with old | new
  · exact safe.commands command old
  · exact List.mem_singleton.mp new ▸ rfl

theorem asyncCommand_connected (is : s.asyncClient.state = .connected) (command : Command)
    (handler : Handler) :
    s.asyncCommand command handler = { s with
      asyncClient := s.asyncClient.post (.command command.items handler)
      commands := s.commands ++ [(.async, .connected)] } := by
  have taken := RedisClientImpl.command_connected is command.items handler
  simp only [asyncCommand, taken, is]

theorem asyncCommand_fault (other : s.asyncClient.state ≠ .connected) (command : Command)
    (handler : Handler) : (s.asyncCommand command handler).fault = some .assertion := by
  have failed : s.asyncClient.command command.items handler = .error .assertion := by
    simp only [RedisClientImpl.command, RedisClientImpl.stateValid, check, other, decide_false]
    rfl
  simp only [asyncCommand, failed]

theorem syncCommand_connected (is : s.syncClient.state = .connected) :
    s.syncCommand = { s with commands := s.commands ++ [(.sync, .connected)] } := by
  have valid : s.syncClient.stateValid true = .ok (true, s.syncClient) := by
    simp only [SyncClient.stateValid, check, is]
    rfl
  simp only [syncCommand, valid, is]

theorem syncCommand_fault (other : s.syncClient.state ≠ .connected) :
    s.syncCommand.fault = some .assertion := by
  have failed : s.syncClient.stateValid true = .error .assertion := by
    simp [SyncClient.stateValid, check, other]
  simp only [syncCommand, failed]

/-- What a step leaves: it is safe if the clients that it asks are connected, and else an assertion
failed. -/
inductive Kept (connected : Client → Bool) (e : StartupEvent) (t : StartupRun) : Prop where
  | safe (asked : ∀ client, e.Asks client → connected client = true) (safe : t.Safe)
    (held : Connected (fun client => connected client || e.connects client) t)
  | failed (asked : ¬∀ client, e.Asks client → connected client = true) (fault : t.fault ≠ none)

variable {e : StartupEvent}

theorem kept_unasked (asks : ∀ client, ¬e.Asks client) (safe : t.Safe)
    (held : Connected (fun client => connected client || e.connects client) t) :
    Kept connected e t :=
  .safe (fun client asked => absurd asked (asks client)) safe held

theorem Connected.silent (held : Connected connected t) (silent : ∀ client, e.connects client = false) :
    Connected (fun client => connected client || e.connects client) t := by
  simpa only [silent, Bool.or_false] using held

theorem kept_quiet (asks : ∀ client, ¬e.Asks client) (silent : ∀ client, e.connects client = false)
    (safe : t.Safe) (held : Connected connected t) : Kept connected e t :=
  kept_unasked asks safe (held.silent silent)

theorem kept_managerInitialize (safe : s.Safe) (held : Connected connected s) (ok : Bool) :
    Kept connected (.syncConnect ok) (s.managerInitialize ok) := by
  refine kept_unasked (fun client => by cases client <;> exact id) ?_ ?_
  · cases ok with
    | true => exact ⟨safe.commands, safe.fault⟩
    | false => exact ⟨safe.commands, safe.fault⟩
  · cases ok with
    | true =>
      refine ⟨?_, ?_, fun _ => rfl⟩
      · simpa [managerInitialize, StartupEvent.connects] using held.async
      · simp [managerInitialize, StartupEvent.connects]
    | false =>
      refine ⟨?_, ?_, held.loaded⟩
      · simpa [managerInitialize, StartupEvent.connects] using held.async
      · simpa [managerInitialize, StartupEvent.connects] using held.sync

theorem kept_handleAsyncConnect (safe : s.Safe) (held : Connected connected s) (ok : Bool) :
    Kept connected (.asyncConnect ok) (s.handleAsyncConnect ok) := by
  refine kept_unasked (fun client => by cases client <;> exact id) ?_ ?_
  · cases ok with
    | true => exact ⟨safe.commands, safe.fault⟩
    | false => exact ⟨safe.commands, safe.fault⟩
  · cases ok with
    | true =>
      refine ⟨?_, ?_, held.loaded⟩
      · simp [handleAsyncConnect, StartupEvent.connects]
      · simpa [handleAsyncConnect, StartupEvent.connects] using held.sync
    | false =>
      refine ⟨?_, ?_, held.loaded⟩
      · simpa [handleAsyncConnect, StartupEvent.connects] using held.async
      · simpa [handleAsyncConnect, StartupEvent.connects] using held.sync

theorem kept_load (safe : s.Safe) (held : Connected connected s) : Kept connected .load s.load := by
  by_cases is : s.syncClient.state = .connected
  · refine .safe (fun client asked => ?_) ?_ (Connected.silent ?_ fun client => ?_)
    · cases client with
      | async => exact asked.elim
      | sync => exact held.sync.mp is
    · rw [load, syncCommand_connected is]
      exact ⟨safe.call .sync, safe.fault⟩
    · rw [load, syncCommand_connected is]
      exact ⟨held.async, held.sync, fun _ => is⟩
    · cases client <;> rfl
  · refine .failed (fun asked => is (held.sync.mpr (asked .sync trivial))) ?_
    have fault := syncCommand_fault is
    simp [load, fault]

theorem kept_asyncCommand (safe : s.Safe) (held : Connected connected s)
    (asks : ∀ client, e.Asks client ↔ client = .async)
    (silent : ∀ client, e.connects client = false) (command : Command) (handler : Handler) :
    Kept connected e (s.asyncCommand command handler) := by
  by_cases is : s.asyncClient.state = .connected
  · refine .safe (fun client asked => ?_) ?_ (Connected.silent ?_ silent)
    · rw [(asks client).mp asked]
      exact held.async.mp is
    · rw [asyncCommand_connected is]
      exact ⟨safe.call .async, safe.fault⟩
    · rw [asyncCommand_connected is]
      exact ⟨held.async, held.sync, held.loaded⟩
  · refine .failed (fun asked => is (held.async.mpr (asked .async ((asks .async).mpr rfl)))) ?_
    rw [asyncCommand_fault is]
    exact Option.some_ne_none _

/-- Requests are served only after the load, so the synchronous client is connected. -/
theorem kept_handle (safe : s.Safe) (held : Connected connected s) (loaded : s.loaded = true)
    (request : HttpRequest) : Kept connected (.request request) (s.handle request) := by
  have silent (client : Client) : (StartupEvent.request request).connects client = false := by
    cases client <;> rfl
  -- The load came after the connection, and no event takes that away.
  have is := held.loaded loaded
  have safely : s.syncCommand.Safe := by
    rw [syncCommand_connected is]
    exact ⟨safe.call .sync, safe.fault⟩
  have asked : Connected connected s.syncCommand := by
    rw [syncCommand_connected is]
    exact ⟨held.async, held.sync, held.loaded⟩
  have asks (token : Text) (client : Client) :
      ¬(StartupEvent.request (.regist token)).Asks client ∧
        ¬(StartupEvent.request (.recv token)).Asks client := by
    cases client <;> exact ⟨id, id⟩
  cases request with
  | regist token =>
    have both : (s.handle (.regist token)).Safe ∧ Connected connected (s.handle (.regist token)) := by
      simp only [handle]
      split
      · exact ⟨safe, held⟩
      · exact ⟨safely, asked⟩
    exact kept_quiet (fun client => (asks token client).1) silent both.1 both.2
  | recv token =>
    have both : (s.handle (.recv token)).Safe ∧ Connected connected (s.handle (.recv token)) := by
      simp only [handle]
      split
      · exact ⟨safe, held⟩
      · exact ⟨⟨safely.commands, safely.fault⟩, asked.async, asked.sync, asked.loaded⟩
    exact kept_quiet (fun client => (asks token client).2) silent both.1 both.2
  | send x =>
    cases accepted : posting x with
    | error response =>
      have same : s.handle (.send x) = s := by simp only [handle, accepted]
      rw [same]
      refine kept_quiet (fun client => ?_) silent safe held
      cases client with
      | sync => exact id
      | async =>
        rintro ⟨pair, other⟩
        rw [accepted] at other
        cases other
    | ok pair =>
      have same : s.handle (.send x) =
          s.asyncCommand (.lpush pair.1 ⟨s.commands.length, pair.2⟩) (.pushed pair.1) := by
        simp only [handle, accepted]
      rw [same]
      refine kept_asyncCommand safe held (fun client => ?_) silent _ _
      cases client with
      | sync => exact ⟨fun asked => asked.elim, fun other => by cases other⟩
      | async => exact ⟨fun _ => rfl, fun _ => ⟨pair, accepted⟩⟩

theorem kept_getMsg (safe : s.Safe) (held : Connected connected s) (call : Nat) (token : Text)
    (result : Option RedisValue) : Kept connected (.answer call result) (s.getMsg token result) := by
  have silent (client : Client) : (StartupEvent.answer call result).connects client = false := by
    cases client <;> rfl
  cases result with
  | none =>
    exact kept_quiet (fun client => by cases client <;> exact id) silent safe held
  | some v =>
    by_cases ok : v.isOk = true
    · have same : s.getMsg token (some v) = s.asyncCommand (clearTrim token) .trimmed := by
        simp only [getMsg, if_pos ok]
      rw [same]
      refine kept_asyncCommand safe held (fun client => ?_) silent _ _
      cases client with
      | sync => exact ⟨fun asked => asked.elim, fun other => by cases other⟩
      | async => exact ⟨fun _ => rfl, fun _ => ok⟩
    · have same : s.getMsg token (some v) = s := by simp only [getMsg, if_neg ok]
      rw [same]
      refine kept_quiet (fun client => ?_) silent safe held
      cases client with
      | sync => exact id
      | async => exact ok

theorem posted_safe (posted : List (Command × Handler)) (safe : s.Safe)
    (held : Connected connected s) (is : s.asyncClient.state = .connected) :
    let t := posted.foldl (fun s entry => s.asyncCommand entry.1 entry.2) s
    t.Safe ∧ Connected connected t := by
  induction posted generalizing s with
  | nil => exact ⟨safe, held⟩
  | cons entry posted ih =>
    rw [List.foldl_cons, asyncCommand_connected is]
    exact ih ⟨safe.call .async, safe.fault⟩ ⟨held.async, held.sync, held.loaded⟩ is

theorem kept_step (safe : s.Safe) (held : Connected connected s) (step : s.step e = some t) :
    Kept connected e t := by
  cases e with
  | syncConnect ok =>
    obtain ⟨_, same⟩ := Option.ite_none_right_eq_some.mp step
    cases same
    exact kept_managerInitialize safe held ok
  | ioThread =>
    obtain ⟨_, same⟩ := Option.ite_none_right_eq_some.mp step
    cases same
    exact kept_quiet (fun client => by cases client <;> exact id)
      (fun client => by cases client <;> rfl) ⟨safe.commands, safe.fault⟩
      ⟨held.async, held.sync, held.loaded⟩
  | asyncConnect ok =>
    obtain ⟨_, same⟩ := Option.ite_none_right_eq_some.mp step
    cases same
    exact kept_handleAsyncConnect safe held ok
  | load =>
    obtain ⟨_, same⟩ := Option.ite_none_right_eq_some.mp step
    cases same
    exact kept_load safe held
  | request request =>
    obtain ⟨loaded, same⟩ := Option.ite_none_right_eq_some.mp step
    cases same
    exact kept_handle safe held loaded request
  | answer call result =>
    simp only [StartupRun.step] at step
    split at step
    · cases step
    · rename_i token _
      cases step
      have called : Safe { s with waiting := s.waiting.eraseIdx call } :=
        ⟨safe.commands, safe.fault⟩
      exact kept_getMsg called ⟨held.async, held.sync, held.loaded⟩ call token result
  | strand =>
    simp only [StartupRun.step] at step
    split at step
    · rename_i items handler strand _
      obtain ⟨_, same⟩ := Option.ite_none_right_eq_some.mp step
      -- A task of the strand may start a write, but leaves the state of the client alone.
      obtain ⟨writes, client⟩ := RedisClientImpl.doAsyncCommand_eq
        { s.asyncClient with strand } (makeCommand items) handler
      rw [client] at same
      cases same
      exact kept_quiet (fun client => by cases client <;> exact id)
        (fun client => by cases client <;> rfl) ⟨safe.commands, safe.fault⟩
        ⟨held.async, held.sync, held.loaded⟩
    · cases step
  | reply v =>
    obtain ⟨⟨_, is⟩, step⟩ := Option.ite_none_right_eq_some.mp step
    split at step
    · cases step
    · rename_i handler handlers _
      cases step
      obtain ⟨posted, kept⟩ := posted_safe (handler.run v) safe held is
      exact kept_quiet (fun client => by cases client <;> exact id)
        (fun client => by cases client <;> rfl) ⟨posted.commands, posted.fault⟩
        ⟨kept.async, kept.sync, kept.loaded⟩

end StartupRun

theorem startup_waits {events : List StartupEvent} {s t : StartupRun} {connected : Client → Bool}
    (safe : s.Safe) (held : StartupRun.Connected connected s)
    (path : startup.run s events = some t) : t.Safe ↔ Waits connected events := by
  induction events generalizing s connected with
  | nil =>
    cases path
    exact iff_of_true safe trivial
  | cons e events ih =>
    obtain ⟨u, step, rest⟩ := (startup.run_cons_some).mp path
    obtain ⟨_, step⟩ := Option.ite_none_right_eq_some.mp step
    rw [Waits]
    cases StartupRun.kept_step safe held step with
    | safe asked safe held =>
      rw [ih safe held rest]
      exact ⟨fun waits => ⟨asked, waits⟩, fun waits => waits.2⟩
    | failed asked fault =>
      -- The program has ended.
      refine iff_of_false (fun safe => fault ?_) fun waits => asked waits.1
      cases events with
      | nil =>
        cases rest
        exact safe.fault
      | cons e events =>
        obtain ⟨_, next, _⟩ := (startup.run_cons_some).mp rest
        exact absurd (Option.ite_none_right_eq_some.mp next).1 fault

/-- In a run every call of `command` finds its client connected, and no assertion fails, exactly
when the synchronous connection is there before the load, and the other one before every accepted
post and before every answer to `GetMsg` that is no error. -/
theorem startup_safe {events : List StartupEvent} {s : StartupRun}
    (path : startup.run startup.initial events = some s) :
    s.Safe ↔ Waits (fun _ => false) events := by
  refine startup_waits ⟨?_, rfl⟩ ⟨?_, ?_, ?_⟩ path
  · exact fun command member => nomatch member
  · exact iff_of_false (by decide) (by decide)
  · exact iff_of_false (by decide) (by decide)
  · exact fun loaded => nomatch loaded

def earlyPost : StartupEvent :=
  .request (.send (some ⟨some shortToken, some sampleText⟩))

def patientEvents : List StartupEvent :=
  [.syncConnect true, .load, .ioThread, .asyncConnect true, earlyPost, .strand, .reply (.int 100)]

def patientEnd : StartupRun := (startup.run startup.initial patientEvents).get (by decide +kernel)

/-- A post after both connections. -/
theorem startup_safe_patient : patientEnd.Safe ∧ patientEnd.commands.length = 3 := by
  refine ⟨(startup_safe (Option.some_get _).symm).mpr ?_, by decide +kernel⟩
  refine ⟨?_, ?_, ?_, ?_, ?_, ?_, ?_, trivial⟩
  all_goals
    intro client
    cases client
  all_goals first | exact fun _ => rfl | exact fun asked => asked.elim

def earlyEnd : StartupRun :=
  (startup.run startup.initial [.syncConnect true, .load, .ioThread, earlyPost]).get
    (by decide +kernel)

/-- A post before the asynchronous connection. -/
theorem startup_early :
    ¬∀ events s, startup.run startup.initial events = some s → s.Safe := by
  intro always
  have fault := (always _ earlyEnd (Option.some_get _).symm).fault
  exact absurd fault (by decide +kernel)

end Pinocchio.Http
