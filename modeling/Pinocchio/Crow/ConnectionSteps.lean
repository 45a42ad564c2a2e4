import Pinocchio.Crow.Connection

/-! What one step of a connection does.

A step answers what it was given, and it leaves the operations that its flags stand for.
-/

set_option autoImplicit false

namespace Pinocchio.Crow
open Semantics

namespace Connection

/-! ## What is begun -/

/-- No response is left for later, as every handler answers before it returns. -/
structure Synchronous (s : Connection) : Prop where
  after : s.needToCallAfterHandlers = false
  start : s.needToStartReadAfterComplete = false

/-- Writes were begun, and nothing else that is outstanding. -/
structure Began (s t : Connection) (bs : List Bytes) : Prop where
  sync : Synchronous t
  isOpen : t.isOpen = s.isOpen
  connected : t.connected = s.connected
  isReading : t.isReading = s.isReading
  reads : t.reads = s.reads
  started : t.started = s.started
  isWriting : t.isWriting = (s.isWriting || !bs.isEmpty)
  writes : t.writes = s.writes ++ bs
  begun : t.begun = s.begun ++ bs

section
variable {s t u : Connection} {bs cs : List Bytes}

theorem Began.trans (first : Began s t bs) (second : Began t u cs) : Began s u (bs ++ cs) where
  sync := second.sync
  isOpen := second.isOpen.trans first.isOpen
  connected := second.connected.trans first.connected
  isReading := second.isReading.trans first.isReading
  reads := second.reads.trans first.reads
  started := second.started.trans first.started
  isWriting := by
    rw [second.isWriting, first.isWriting, Bool.or_assoc]
    cases bs <;> cases cs <;> rfl
  writes := by rw [second.writes, first.writes, List.append_assoc]
  begun := by rw [second.begun, first.begun, List.append_assoc]

/-- Nothing that is outstanding differs, and no write that was begun. -/
structure Alike (s t : Connection) : Prop where
  isOpen : t.isOpen = s.isOpen
  connected : t.connected = s.connected
  isReading : t.isReading = s.isReading
  reads : t.reads = s.reads
  started : t.started = s.started
  isWriting : t.isWriting = s.isWriting
  writes : t.writes = s.writes
  begun : t.begun = s.begun

theorem Alike.began (alike : Alike s t) (began : Began t u bs) : Began s u bs where
  sync := began.sync
  isOpen := began.isOpen.trans alike.isOpen
  connected := began.connected.trans alike.connected
  isReading := began.isReading.trans alike.isReading
  reads := began.reads.trans alike.reads
  started := began.started.trans alike.started
  isWriting := alike.isWriting ▸ began.isWriting
  writes := alike.writes ▸ began.writes
  begun := alike.begun ▸ began.begun

theorem Began.alike (began : Began s t bs) (alike : Alike t u) (sync : Synchronous u) :
    Began s u bs where
  sync := sync
  isOpen := alike.isOpen.trans began.isOpen
  connected := alike.connected.trans began.connected
  isReading := alike.isReading.trans began.isReading
  reads := alike.reads.trans began.reads
  started := alike.started.trans began.started
  isWriting := alike.isWriting.trans began.isWriting
  writes := alike.writes.trans began.writes
  begun := alike.begun.trans began.begun

theorem Began.refl (sync : Synchronous s) : Began s s [] :=
  ⟨sync, rfl, rfl, rfl, rfl, rfl, by simp, by simp, by simp⟩

variable (server : Server) (date : Bytes)

theorem completeRequest_began (isOpen : s.isOpen = true) (later : s.needToStartReadAfterComplete = false) :
    Began s (s.completeRequest server date) [s.res.bytes server date s.addKeepAlive] ∧
      (s.completeRequest server date).status = s.status ∧
      (s.completeRequest server date).completed = s.completed := by
  unfold completeRequest
  simp only [isOpen, Bool.not_true, Bool.false_eq_true, if_false, doWrite, later, and_self, and_true]
  exact ⟨⟨rfl, rfl⟩, isOpen.symm, rfl, rfl, rfl, rfl, by simp, rfl, rfl⟩

/-! ## What a callback begins -/

def keepsAlive (version : Version) (headers : CiMap) : Bool :=
  (({} : Connection).negotiate version headers).addKeepAlive

def closes (version : Version) (headers : CiMap) : Bool :=
  (({} : Connection).negotiate version headers).closeConnection

def answersTo : Callback → List Bytes
  | .header version headers => if expects version headers then [expect100Continue] else []
  | .message version req =>
    let res := if isInvalidRequest version req.headers then { code := 400 } else server.handle req
    [res.bytes server date (keepsAlive version req.headers)]

theorem negotiate_eq (s : Connection) (version : Version) (headers : CiMap) :
    s.negotiate version headers =
      { s with
        addKeepAlive := keepsAlive version headers
        closeConnection := s.closeConnection || closes version headers } := by
  unfold keepsAlive closes negotiate
  simp only []
  split_ifs <;> simp

theorem handle_stopped (version : Version) (req : Request) (gone : (s.isOpen && s.connected) = false)
    (sync : Synchronous s) :
    Began s (s.handle server date version req) [] ∧
      (s.handle server date version req).status = .stopped := by
  unfold handle
  simp only [negotiate_eq, cancelDeadlineTimer]
  cases isInvalidRequest version req.headers with
  | true =>
    simp only [if_true, gone, Bool.not_false, and_true]
    exact (Began.refl sync).alike ⟨rfl, rfl, rfl, rfl, rfl, rfl, rfl, rfl⟩ ⟨sync.after, sync.start⟩
  | false =>
    simp only [Bool.false_eq_true, if_false, gone, Bool.not_false, if_true, and_true]
    exact (Began.refl sync).alike ⟨rfl, rfl, rfl, rfl, rfl, rfl, rfl, rfl⟩ ⟨sync.after, sync.start⟩

theorem handle_began (version : Version) (req : Request) (there : (s.isOpen && s.connected) = true)
    (sync : Synchronous s) :
    ∃ bytes, Began s (s.handle server date version req) [bytes] ∧
      (s.handle server date version req).status = s.status ∧
      (s.completed = false → [bytes] = answersTo server date (.message version req)) := by
  have isOpen := (Bool.and_eq_true_iff.mp there).1
  let t : Connection := { s with
    closeConnection := s.closeConnection || closes version req.headers
    addKeepAlive := keepsAlive version req.headers
    deadline := false }
  have alike : Alike s t := ⟨rfl, rfl, rfl, rfl, rfl, rfl, rfl, rfl⟩
  have same : s.cancelDeadlineTimer.negotiate version req.headers = t := negotiate_eq _ _ _
  have open' : t.isOpen = true := isOpen
  have there' : (t.isOpen && t.connected) = true := there
  have start : t.needToStartReadAfterComplete = false := sync.start
  unfold handle answersTo
  simp only [same]
  cases isInvalidRequest version req.headers with
  | true =>
    simp only [if_true, there', Bool.not_true, Bool.false_eq_true, if_false]
    obtain ⟨began, status, _⟩ := completeRequest_began (s := { t with
      res := { code := 400 }, completed := false, needToCallAfterHandlers := false })
      server date open' start
    have alike' : Alike s { t with
      res := { code := 400 }, completed := false, needToCallAfterHandlers := false } :=
        ⟨rfl, rfl, rfl, rfl, rfl, rfl, rfl, rfl⟩
    exact ⟨_, alike'.began began, status, fun _ => rfl⟩
  | false =>
    simp only [Bool.false_eq_true, if_false, there', Bool.not_true]
    by_cases completed : s.completed = true
    · obtain ⟨began, status, _⟩ := completeRequest_began (s := { t with
        needToCallAfterHandlers := false }) server date open' start
      have alike' : Alike s { t with needToCallAfterHandlers := false } :=
        ⟨rfl, rfl, rfl, rfl, rfl, rfl, rfl, rfl⟩
      rw [if_pos completed]
      exact ⟨_, alike'.began began, status, fun fresh => by simp [fresh] at completed⟩
    · rw [if_neg completed]
      obtain ⟨began, status, _⟩ := completeRequest_began (s := { t with
        needToCallAfterHandlers := true, res := server.handle req, completed := true })
        server date open' start
      have alike' : Alike s { t with
        needToCallAfterHandlers := true, res := server.handle req, completed := true } :=
          ⟨rfl, rfl, rfl, rfl, rfl, rfl, rfl, rfl⟩
      split
      · refine ⟨_, (alike'.began began).alike ⟨rfl, rfl, rfl, rfl, rfl, rfl, rfl, rfl⟩
          ⟨began.sync.after, began.sync.start⟩, status, fun _ => rfl⟩
      · exact ⟨_, alike'.began began, status, fun _ => rfl⟩

theorem handleHeader_began (version : Version) (headers : CiMap) (sync : Synchronous s) :
    Began s (s.handleHeader version headers) (answersTo server date (.header version headers)) ∧
      (s.handleHeader version headers).status = s.status ∧
      (s.handleHeader version headers).completed = s.completed := by
  unfold handleHeader answersTo
  simp only []
  split
  · exact ⟨⟨⟨sync.after, sync.start⟩, rfl, rfl, rfl, rfl, rfl, by simp [doWrite], rfl, rfl⟩, rfl, rfl⟩
  · exact ⟨.refl sync, rfl, rfl⟩

def isMessage : Callback → Bool
  | .header _ _ => false
  | .message _ _ => true

theorem callback_began (call : Callback) (sync : Synchronous s) :
    ∃ bs, Began s (s.callback server date call) bs ∧
      (((s.callback server date call).status = s.status ∧
          bs.length = (answersTo server date call).length ∧
          (s.completed = false → bs = answersTo server date call) ∧
          (bs = [] → (s.callback server date call).completed = s.completed)) ∨
        (s.callback server date call).status = .stopped ∧ bs = [] ∧
          (s.isOpen && s.connected) = false ∧ isMessage call = true) := by
  cases call with
  | header version headers =>
    obtain ⟨began, status, completed⟩ := handleHeader_began server date version headers sync
    exact ⟨_, began, Or.inl ⟨status, rfl, fun _ => rfl, fun _ => completed⟩⟩
  | message version req =>
    cases there : s.isOpen && s.connected with
    | false =>
      obtain ⟨began, status⟩ := handle_stopped server date version req there sync
      exact ⟨_, began, Or.inr ⟨status, rfl, rfl, rfl⟩⟩
    | true =>
      obtain ⟨bytes, began, status, answer⟩ := handle_began server date version req there sync
      exact ⟨_, began, Or.inl ⟨status, rfl, answer, fun none => by cases none⟩⟩

def answersToAll (calls : List Callback) : List Bytes := calls.flatMap (answersTo server date)

/-- A buffer is answered in the order of its callbacks, each once, and up to a request for a peer that
is gone. The answers are those of the requests where there is one at most. -/
theorem feed_began (calls : List Callback) {s : Connection} (running : s.status ≠ .stopped)
    (sync : Synchronous s) :
    ∃ bs, Began s (s.feed server date calls) bs ∧
      bs.length ≤ (answersToAll server date calls).length ∧
      (s.completed = false → (answersToAll server date calls).length ≤ 1 →
        bs <+: answersToAll server date calls) ∧
      (((s.feed server date calls).status = s.status ∧
          bs.length = (answersToAll server date calls).length ∧
          (bs = [] → (s.feed server date calls).completed = s.completed)) ∨
        (s.feed server date calls).status = .stopped ∧ (s.isOpen && s.connected) = false ∧
          ∃ call ∈ calls, isMessage call = true) := by
  induction calls generalizing s with
  | nil =>
    exact ⟨[], .refl sync, Nat.le_refl _, fun _ _ => List.prefix_refl _,
      Or.inl ⟨rfl, rfl, fun _ => rfl⟩⟩
  | cons call calls ih =>
    have all : answersToAll server date (call :: calls) =
        answersTo server date call ++ answersToAll server date calls := rfl
    obtain ⟨bs, began, outcome⟩ := callback_began server date call sync
    rw [feed, all, List.length_append]
    rcases outcome with ⟨status, length, own, quiet⟩ | ⟨stopped, rfl, gone, message⟩
    · simp only [status, running, if_false]
      obtain ⟨cs, began', short, same, outcome'⟩ := ih (status ▸ running) began.sync
      refine ⟨bs ++ cs, began.trans began', ?_, fun fresh few => ?_, ?_⟩
      · rw [List.length_append]
        omega
      · rw [own fresh]
        refine List.prefix_append_right_inj _ |>.mpr ?_
        by_cases none : bs = []
        · exact same ((quiet none).trans fresh) (by omega)
        · have some : 0 < bs.length := List.length_pos_iff.mpr none
          have nothing : cs = [] := List.length_eq_zero_iff.mp (by omega)
          rw [nothing]
          exact List.nil_prefix
      · rcases outcome' with ⟨status', length', quiet'⟩ | ⟨stopped, gone, other, member, message⟩
        · left
          refine ⟨status'.trans status, ?_, fun none => ?_⟩
          · rw [List.length_append]
            omega
          · obtain ⟨none, none'⟩ := List.append_eq_nil_iff.mp none
            exact (quiet' none').trans (quiet none)
        · right
          rw [began.isOpen, began.connected] at gone
          exact ⟨stopped, gone, other, List.mem_cons_of_mem _ member, message⟩
    · rw [if_pos stopped]
      exact ⟨[], began, Nat.zero_le _, fun _ _ => List.nil_prefix,
        Or.inr ⟨stopped, gone, call, List.mem_cons_self, message⟩⟩

end

/-! ## What every run keeps -/

structure Ready (s : Connection) : Prop where
  sync : Synchronous s
  reads : s.reads = if s.isReading then 1 else 0
  closing : s.closeConnection = true → s.isReading = false
  ended : s.started = true → s.isReading = false → s.isOpen = false
  fresh : s.started = false → s.isReading = false ∧ s.isWriting = false ∧ s.closeConnection = false

theorem checkDestroy_busy {s : Connection} (busy : s.isReading = true ∨ s.isWriting = true) :
    s.checkDestroy = s := by
  unfold checkDestroy
  rcases busy with busy | busy <;> simp [busy]

theorem checkDestroy_idle {s : Connection} (noRead : s.isReading = false)
    (noWrite : s.isWriting = false) :
    s.checkDestroy = { s with deadline := false, status := .deleted } := by
  unfold checkDestroy
  simp [noRead, noWrite, cancelDeadlineTimer]

theorem stopReading_writing {s : Connection} (writing : s.isWriting = true) :
    s.stopReading = { s with isOpen := false, deadline := false, isReading := false } :=
  checkDestroy_busy (Or.inr writing)

theorem stopReading_idle {s : Connection} (noWrite : s.isWriting = false) :
    s.stopReading =
      { s with isOpen := false, deadline := false, isReading := false, status := .deleted } :=
  checkDestroy_idle rfl noWrite

/-- What a step leaves of a connection that was alive: it goes on, or nothing that its flags stand for
is outstanding. -/
def Goes (t : Connection) : Prop :=
  (t.status = .alive ∧ Ready t) ∨
    t.status = .deleted ∧ t.isWriting = false ∧ t.reads = 0

theorem stopReading_goes {s : Connection} (alive : s.status = .alive) (sync : Synchronous s)
    (none : s.reads = 0) (started : s.started = true) : Goes s.stopReading := by
  cases writing : s.isWriting with
  | true =>
    rw [stopReading_writing writing]
    exact Or.inl ⟨alive, ⟨sync.after, sync.start⟩, none, fun _ => rfl, fun _ _ => rfl,
      fun unstarted => by cases started.symm.trans unstarted⟩
  | false =>
    rw [stopReading_idle writing]
    exact Or.inr ⟨rfl, writing, none⟩

theorem stopReading_busy {s : Connection} (alive : s.stopReading.status = .alive) :
    s.stopReading.isWriting = true := by
  cases writing : s.isWriting with
  | true =>
    rw [stopReading_writing writing]
    exact writing
  | false =>
    rw [stopReading_idle writing] at alive
    cases alive

theorem stopReading_keeps (s : Connection) :
    s.stopReading.isWriting = s.isWriting ∧ s.stopReading.writes = s.writes ∧
      s.stopReading.begun = s.begun ∧ s.stopReading.completed = s.completed ∧
      s.stopReading.started = s.started := by
  cases writing : s.isWriting with
  | true => rw [stopReading_writing writing]; exact ⟨writing, rfl, rfl, rfl, rfl⟩
  | false => rw [stopReading_idle writing]; exact ⟨writing, rfl, rfl, rfl, rfl⟩

def answersToEvent (server : Server) : ConnectionEvent → List Bytes
  | .read (some chunk) => answersToAll server chunk.date chunk.callbacks
  | _ => []

def Requests (chunk : Option Chunk) : Prop :=
  ∃ c, chunk = some c ∧ ∃ call ∈ c.callbacks, isMessage call = true

structure Serves (server : Server) (s t : Connection) (chunk : Option Chunk) (bs : List Bytes) :
    Prop where
  begun : t.begun = s.begun ++ bs
  writes : t.writes = s.writes ++ bs
  isWriting : t.isWriting = (s.isWriting || !bs.isEmpty)
  started : t.started = true
  short : bs.length ≤ (answersToEvent server (.read chunk)).length
  own : s.completed = false → (answersToEvent server (.read chunk)).length ≤ 1 →
    bs <+: answersToEvent server (.read chunk)
  busy : t.status = .alive → t.isReading = true ∨ t.isWriting = true
  outcome : (Goes t ∧ bs.length = (answersToEvent server (.read chunk)).length ∧
      (bs = [] → t.completed = s.completed)) ∨
    t.status = .stopped ∧ (s.isOpen && s.connected) = false ∧ Requests chunk

theorem Ready.reading {s : Connection} (ready : Ready s) (reading : s.reads ≠ 0) :
    s.isReading = true ∧ s.reads - 1 = 0 ∧ s.started = true := by
  have isReading : s.isReading = true := by
    by_contra not
    rw [Bool.not_eq_true] at not
    exact reading (by rw [ready.reads, not]; rfl)
  refine ⟨isReading, by rw [ready.reads, isReading]; rfl, ?_⟩
  by_contra not
  rw [Bool.not_eq_true] at not
  exact absurd (ready.fresh not).1 (by simp [isReading])

theorem onRead_some (server : Server) (s : Connection) (chunk : Chunk) :
    s.onRead server (some chunk) =
      let t := ({ s with reads := s.reads - 1 } : Connection).feed server chunk.date chunk.callbacks
      if t.status = .stopped then t
      else if !(chunk.parsed && t.isOpen && !t.closeConnection) then t.stopReading
      else if !t.needToCallAfterHandlers then t.startDeadline.doRead
      else { t with needToStartReadAfterComplete := true } := rfl

theorem onRead_serves {server : Server} {s : Connection} (alive : s.status = .alive) (ready : Ready s)
    (reading : s.reads ≠ 0) (chunk : Option Chunk) :
    ∃ bs, Serves server s (s.onRead server chunk) chunk bs := by
  obtain ⟨isReading, none, started⟩ := ready.reading reading
  let s' : Connection := { s with reads := s.reads - 1 }
  have sync : Synchronous s' := ⟨ready.sync.after, ready.sync.start⟩
  cases chunk with
  | none =>
    have same : s.onRead server .none = s'.stopReading := rfl
    obtain ⟨isWriting, writes, begun, completed, started'⟩ := stopReading_keeps s'
    rw [same]
    exact ⟨[], by simp [begun, s'], by simp [writes, s'], by simp [isWriting, s'], started'.trans started,
      Nat.le_refl _, fun _ _ => List.prefix_refl _, fun alive => Or.inr (stopReading_busy alive),
      Or.inl ⟨stopReading_goes alive sync none started, rfl, fun _ => completed⟩⟩
  | some chunk =>
    have running : s'.status ≠ .stopped := by rw [show s'.status = .alive from alive]; decide
    obtain ⟨bs, began, short, own, outcome⟩ :=
      feed_began server chunk.date chunk.callbacks running sync
    rw [onRead_some]
    change ∃ bs, Serves server s (let t := s'.feed server chunk.date chunk.callbacks; _) (some chunk) bs
    generalize s'.feed server chunk.date chunk.callbacks = t at began outcome
    refine ⟨bs, ?_⟩
    simp only []
    rcases outcome with ⟨status, length, quiet⟩ | ⟨stopped, gone, request⟩
    · have alive' : t.status = .alive := status.trans alive
      have none' : t.reads = 0 := began.reads.trans none
      have started' : t.started = true := began.started.trans started
      rw [if_neg (by rw [alive']; decide)]
      split
      · obtain ⟨isWriting, writes, begun, completed, same'⟩ := stopReading_keeps t
        exact ⟨begun.trans began.begun, writes.trans began.writes, isWriting.trans began.isWriting,
          same'.trans started', short, own, fun alive => Or.inr (stopReading_busy alive),
          Or.inl ⟨stopReading_goes alive' began.sync none' started', length,
            fun nothing => completed.trans (quiet nothing)⟩⟩
      · rename_i goesOn
        rw [if_pos (by rw [began.sync.after]; rfl)]
        have stays : t.closeConnection = false := by
          cases closing : t.closeConnection with
          | false => rfl
          | true => simp [closing] at goesOn
        refine ⟨began.begun, began.writes, began.isWriting, started', short, own,
          fun _ => Or.inl rfl, Or.inl ⟨Or.inl ⟨alive', ?_⟩, length, quiet⟩⟩
        refine ⟨⟨began.sync.after, began.sync.start⟩, ?_, fun closing => ?_, fun _ ended => ?_,
          fun unstarted => ?_⟩
        · change t.reads + 1 = 1
          rw [none']
        · cases stays.symm.trans closing
        · cases ended
        · cases started'.symm.trans unstarted
    · rw [if_pos stopped]
      exact ⟨began.begun, began.writes, began.isWriting, began.started.trans started, short, own,
        fun alive => (by cases stopped.symm.trans alive), Or.inr ⟨stopped, gone, chunk, rfl, request⟩⟩

theorem onWrote_cases {s : Connection} (alive : s.status = .alive) (ready : Ready s) (place : Nat)
    (ok : Bool) :
    Goes (s.onWrote place ok) ∧ (s.onWrote place ok).isWriting = false ∧
      (s.onWrote place ok).writes = s.writes.eraseIdx place ∧
      (s.onWrote place ok).begun = s.begun ∧ (s.onWrote place ok).completed = false ∧
      (s.onWrote place ok).started = s.started ∧ (s.onWrote place ok).isReading = s.isReading ∧
      ((s.onWrote place ok).status = .alive → s.started = true → s.isReading = false →
        ok = true ∧ s.closeConnection = false) := by
  let s' : Connection := { s with
    writes := s.writes.eraseIdx place, isWriting := false, res := {}, completed := false,
    resBodyCopy := [] }
  have ready' : Ready s' := ⟨⟨ready.sync.after, ready.sync.start⟩, ready.reads, ready.closing,
    ready.ended, fun unstarted => ⟨(ready.fresh unstarted).1, rfl, (ready.fresh unstarted).2.2⟩⟩
  have unread (noRead : s.isReading = false) : s.reads = 0 := by rw [ready.reads, noRead]; rfl
  have same : s.onWrote place ok =
      if ok = true then if s'.closeConnection = true then s'.close.checkDestroy else s'
      else s'.checkDestroy := rfl
  rw [same]
  split
  · split
    · rename_i closing
      have noRead : s.isReading = false := ready.closing closing
      rw [checkDestroy_idle (s := s'.close) noRead rfl]
      exact ⟨Or.inr ⟨rfl, rfl, unread noRead⟩, rfl, rfl, rfl, rfl, rfl, rfl, fun no => by cases no⟩
    · rename_i keeps
      exact ⟨Or.inl ⟨alive, ready'⟩, rfl, rfl, rfl, rfl, rfl, rfl,
        fun _ _ _ => ⟨‹ok = true›, Bool.not_eq_true _ ▸ keeps⟩⟩
  · cases reading : s.isReading with
    | true =>
      rw [checkDestroy_busy (s := s') (Or.inl reading)]
      exact ⟨Or.inl ⟨alive, ready'⟩, rfl, rfl, rfl, rfl, rfl, reading, fun _ _ no => by cases no⟩
    | false =>
      rw [checkDestroy_idle (s := s') reading rfl]
      exact ⟨Or.inr ⟨rfl, rfl, unread reading⟩, rfl, rfl, rfl, rfl, rfl, reading, fun no => by cases no⟩

section
variable {server : Server} {s t : Connection} {e : ConnectionEvent}

theorem step_wrote {place : Nat} {ok : Bool} (alive : s.status = .alive)
    (step : step server s (.wrote place ok) = some t) :
    place < s.writes.length ∧ t = s.onWrote place ok := by
  simp only [Connection.step, alive, reduceCtorEq, decide_false, Bool.or_false, if_true] at step
  split at step
  · cases step
  · rename_i inside
    cases step
    exact ⟨by simpa using inside, rfl⟩

theorem step_alive (alive : s.status = .alive) (ready : Ready s) (step : step server s e = some t) :
    (∃ chunk bs, e = .read chunk ∧ Serves server s t chunk bs) ∨
    (∃ place ok, e = .wrote place ok ∧ place < s.writes.length ∧ t = s.onWrote place ok) ∨
    answersToEvent server e = [] ∧ t.status = .alive ∧ Ready t ∧ t.isWriting = s.isWriting ∧
      t.writes = s.writes ∧ t.begun = s.begun ∧ t.completed = s.completed ∧
      (t.started = s.started ∧ t.isReading = s.isReading ∨
        s.started = false ∧ t.started = true ∧ t.isReading = true) := by
  cases e with
  | start =>
    right; right
    simp only [Connection.step] at step
    split at step
    · cases step
    · rename_i unstarted
      rw [Bool.not_eq_true] at unstarted
      obtain ⟨noRead, _, keeps⟩ := ready.fresh unstarted
      cases step
      refine ⟨rfl, alive, ⟨⟨ready.sync.after, ready.sync.start⟩, ?_, fun closing => ?_,
        fun _ no => (by cases no), fun no => (by cases no)⟩, rfl, rfl, rfl, rfl,
        Or.inr ⟨unstarted, rfl, rfl⟩⟩
      · change s.reads + 1 = 1
        rw [ready.reads, noRead]
        rfl
      · cases keeps.symm.trans closing
  | read chunk =>
    left
    simp only [Connection.step, alive, reduceCtorEq, decide_false, Bool.or_false, if_true] at step
    split at step
    · cases step
    · rename_i some
      cases step
      obtain ⟨bs, serves⟩ := onRead_serves alive ready (by simpa using some) chunk
      exact ⟨chunk, bs, rfl, serves⟩
  | wrote place ok =>
    obtain ⟨inside, rfl⟩ := step_wrote alive step
    exact Or.inr (Or.inl ⟨place, ok, rfl, inside, rfl⟩)
  | timeout =>
    right; right
    simp only [Connection.step] at step
    split at step
    · cases step
      exact ⟨rfl, alive, ⟨⟨ready.sync.after, ready.sync.start⟩, ready.reads, ready.closing,
        fun _ _ => rfl, ready.fresh⟩, rfl, rfl, rfl, rfl,
        Or.inl ⟨rfl, rfl⟩⟩
    · cases step
  | reset =>
    right; right
    simp only [Connection.step] at step
    split at step
    · cases step
      exact ⟨rfl, alive, ⟨⟨ready.sync.after, ready.sync.start⟩, ready.reads, ready.closing,
        ready.ended, ready.fresh⟩, rfl, rfl, rfl, rfl,
        Or.inl ⟨rfl, rfl⟩⟩
    · cases step

theorem step_over (past : s.status ≠ .alive) (started : s.started = true)
    (step : step server s e = some t) :
    t.begun = s.begun ∧ t.started = true ∧
      ((t.status = s.status ∧ t.reads = s.reads ∧ t.writes = s.writes ∧ t.isWriting = s.isWriting ∧
        answersToEvent server e = []) ∨
      s.status ≠ .stopped ∧ t.status = .freed ∧ (s.reads ≠ 0 ∨ s.writes ≠ [])) := by
  cases e with
  | start =>
    simp only [Connection.step, started, if_true] at step
    cases step
  | read chunk =>
    simp only [Connection.step] at step
    split at step
    · cases step
    · rename_i goes
      simp only [Bool.or_eq_true, decide_eq_true_eq, not_or] at goes
      cases step
      exact ⟨rfl, started, Or.inr ⟨goes.2, rfl, Or.inl goes.1⟩⟩
  | wrote place ok =>
    simp only [Connection.step] at step
    split at step
    · cases step
    · rename_i goes
      simp only [Bool.or_eq_true, decide_eq_true_eq, not_or] at goes
      cases step
      refine ⟨rfl, started, Or.inr ⟨goes.2, rfl, Or.inr ?_⟩⟩
      rintro none
      rw [none] at goes
      exact goes.1 (Nat.zero_le _)
  | timeout =>
    simp only [Connection.step, past, decide_false, Bool.and_false] at step
    cases step
  | reset =>
    simp only [Connection.step] at step
    split at step
    · cases step
      exact ⟨rfl, started, Or.inl ⟨rfl, rfl, rfl, rfl, rfl⟩⟩
    · cases step

end

end Connection

end Pinocchio.Crow
