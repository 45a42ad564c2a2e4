import Pinocchio.Crow.ConnectionRuns

/-! How the runs of a connection end, whatever is sent at a time.

As many answers are begun as are asked for, though not each of them is its handler's. A write that the
deletion does not wait for is outstanding beside another one.
-/

set_option autoImplicit false

namespace Pinocchio.Crow
open Semantics

namespace Connection

section
variable {server : Server} {s t : Connection} {e : ConnectionEvent}

/-! ## All runs -/

structure Sane (s : Connection) : Prop where
  ready : s.status = .alive → Ready s
  started : s.started = false → s.status = .alive ∧ s.writes = []
  cleared : s.status = .alive → s.completed = true → s.isWriting = true
  flag : s.status = .alive → s.isWriting = true → s.writes ≠ []

theorem Sane.of_over (past : s.status ≠ .alive) (started : s.started = true) : Sane s where
  ready alive := absurd alive past
  started unstarted := by cases started.symm.trans unstarted
  cleared alive := absurd alive past
  flag alive := absurd alive past

theorem Sane.begun (sane : Sane s) (some : s.status ≠ .alive ∨ s.writes ≠ []) :
    s.started = true := by
  by_contra not
  rw [Bool.not_eq_true] at not
  obtain ⟨alive, none⟩ := sane.started not
  rcases some with past | some
  · exact past alive
  · exact some none

theorem sane_initial : Sane {} :=
  ⟨tidy_initial.ready, fun _ => ⟨rfl, rfl⟩, fun _ no => (by cases no), fun _ no => (by cases no)⟩

theorem Serves.sane {chunk : Option Chunk} {bs : List Bytes} (serves : Serves server s t chunk bs)
    (alive : s.status = .alive) (sane : Sane s) : Sane t := by
  by_cases alive' : t.status = .alive
  · rcases serves.outcome with ⟨⟨_, ready⟩ | ⟨deleted, _⟩, _, quiet⟩ | ⟨stopped, _⟩
    · refine ⟨fun _ => ready, fun unstarted => ?_, fun _ completed => ?_, fun _ writing => ?_⟩
      · cases serves.started.symm.trans unstarted
      · rw [serves.isWriting]
        cases bs with
        | nil => rw [sane.cleared alive (quiet rfl ▸ completed)]; rfl
        | cons b bs => simp
      · rw [serves.isWriting] at writing
        rw [serves.writes]
        cases bs with
        | nil => simpa using sane.flag alive (by simpa using writing)
        | cons b bs => simp
    · cases deleted.symm.trans alive'
    · cases stopped.symm.trans alive'
  · exact .of_over alive' serves.started

theorem onWrote_sane (alive : s.status = .alive) (sane : Sane s) (place : Nat) (ok : Bool)
    (inside : place < s.writes.length) : Sane (s.onWrote place ok) := by
  obtain ⟨goes, noWrite, _, _, completed, started, _⟩ :=
    onWrote_cases alive (sane.ready alive) place ok
  refine ⟨fun alive' => ?_, fun unstarted => ?_, fun _ no => ?_, fun _ no => ?_⟩
  · rcases goes with ⟨_, ready⟩ | ⟨deleted, _⟩
    · exact ready
    · cases deleted.symm.trans alive'
  · rw [(sane.started (started.symm.trans unstarted)).2] at inside
    cases inside
  · cases completed.symm.trans no
  · cases noWrite.symm.trans no

theorem step_sane (sane : Sane s) (step : step server s e = some t) : Sane t := by
  by_cases alive : s.status = .alive
  · rcases step_alive alive (sane.ready alive) step with ⟨chunk, bs, rfl, serves⟩ |
      ⟨place, ok, rfl, inside, rfl⟩ | ⟨_, alive', ready', writing, writes, _, completed, reading⟩
    · exact serves.sane alive sane
    · exact onWrote_sane alive sane place ok inside
    · refine ⟨fun _ => ready', fun unstarted => ⟨alive', ?_⟩, fun _ => ?_, fun _ => ?_⟩
      · rcases reading with ⟨same, _⟩ | ⟨_, started, _⟩
        · rw [writes]
          exact (sane.started (same.symm.trans unstarted)).2
        · cases started.symm.trans unstarted
      · rw [completed, writing]
        exact sane.cleared alive
      · rw [writing, writes]
        exact sane.flag alive
  · have started := sane.begun (Or.inl alive)
    obtain ⟨_, started', ⟨status, _⟩ | ⟨_, freed, _⟩⟩ := step_over alive started step
    · exact .of_over (by rwa [status]) started'
    · exact .of_over (by rw [freed]; decide) started'

theorem run_sane {es : List ConnectionEvent} (path : (system server).run {} es = some t) : Sane t :=
  System.run_invariant sane_initial path fun _ _ _ sane step => step_sane sane step

/-- The completions of the operations that are outstanding, and what the peer and the clock do. -/
def Quiet (server : Server) (e : ConnectionEvent) : Prop := answersToEvent server e = []

def Flagged (s : Connection) : Prop := s.writes.length = if s.isWriting then 1 else 0

theorem Sane.tidy (sane : Sane s) (alive : s.status = .alive) (flagged : Flagged s) : Tidy s :=
  .of_alive alive (sane.ready alive) flagged (sane.cleared alive)

theorem step_quiet (tidy : Tidy s) (quiet : Quiet server e) (step : step server s e = some t) :
    Tidy t := by
  by_cases stopped : s.status = .stopped
  · have past : s.status ≠ .alive := by rw [stopped]; decide
    obtain ⟨_, started, ⟨status, _⟩ | ⟨running, _⟩⟩ := step_over past (tidy.started past) step
    · exact .of_stopped (status.trans stopped) started
    · exact absurd stopped running
  · have flag := tidy.writes stopped
    have orderly : Orderly server s e := by
      unfold Orderly
      rw [quiet, flag]
      split <;> decide
    exact (step_answered tidy orderly step).tidy

theorem run_quiet {es : List ConnectionEvent} (tidy : Tidy s) (quiet : ∀ e ∈ es, Quiet server e)
    (path : (system server).run s es = some t) : Tidy t := by
  have along : (system server).Along (fun _ e _ => Quiet server e) s es :=
    System.along_of_forall (fun e member _ _ => quiet e member) s
  exact System.along_invariant tidy along path fun _ _ _ before quiet step =>
    step_quiet before quiet step

/-- The last write is outstanding and no flag tells of it, but nothing else is. -/
structure Last (s : Connection) : Prop where
  alive : s.status = .alive
  ready : Ready s
  started : s.started = true
  noRead : s.isReading = false
  writes : s.writes.length = 1

theorem step_last (last : Last s) (step : step server s e = some t) : Last t ∨ Tidy t := by
  rcases step_alive last.alive last.ready step with ⟨chunk, _, rfl, _⟩ |
    ⟨place, ok, rfl, inside, rfl⟩ | ⟨_, alive, ready, _, writes, _, _, reading⟩
  · have none : s.reads = 0 := by rw [last.ready.reads, last.noRead]; rfl
    simp [Connection.step, none] at step
  · exact Or.inr
      (onWrote_tidy last.alive last.ready last.started place ok inside (Nat.le_of_eq last.writes))
  · rcases reading with ⟨started, same⟩ | ⟨unstarted, _⟩
    · exact Or.inl ⟨alive, ready, started.trans last.started, same.trans last.noRead,
        by rw [writes, last.writes]⟩
    · cases unstarted.symm.trans last.started

theorem run_last {es : List ConnectionEvent} (last : Last s) (quiet : ∀ e ∈ es, Quiet server e)
    (path : (system server).run s es = some t) : Last t ∨ Tidy t := by
  have along : (system server).Along (fun _ e _ => Quiet server e) s es :=
    System.along_of_forall (fun e member _ _ => quiet e member) s
  refine System.along_invariant (P := fun u => Last u ∨ Tidy u) (Or.inl last) along path ?_
  rintro u e v (last | tidy) quiet step
  · exact step_last last step
  · exact Or.inr (step_quiet tidy quiet step)

/-- A write is outstanding that the deletion of the connection does not wait for. -/
def Exposed (s : Connection) : Prop :=
  (if s.isReading && !s.isWriting then 0 else 1) < s.writes.length

/-- A write completes, or the read fails. -/
def Completes : ConnectionEvent → Prop
  | .wrote _ _ | .read none => True
  | .start | .read (some _) | .timeout | .reset => False

/-- Events of one kind alone can come to use the connection after it is deleted. -/
def Dangles (server : Server) (kind : ConnectionEvent → Prop) (s : Connection) : Prop :=
  ∃ es t, (∀ e ∈ es, kind e) ∧ (system server).run s es = some t ∧ t.status = .freed

theorem Dangles.mono {kind other : ConnectionEvent → Prop} (dangles : Dangles server kind s)
    (less : ∀ e, kind e → other e) : Dangles server other s := by
  obtain ⟨es, t, each, path, freed⟩ := dangles
  exact ⟨es, t, fun e member => less e (each e member), path, freed⟩

theorem Completes.quiet (completes : Completes e) : Quiet server e := by
  cases e with
  | wrote place ok => rfl
  | read chunk =>
    cases chunk with
    | none => rfl
    | some chunk => cases completes
  | start | timeout | reset => cases completes

theorem Dangles.before (dangles : Dangles server Completes t) (step : step server s e = some t)
    (completes : Completes e) : Dangles server Completes s := by
  obtain ⟨es, u, later, rest, freed⟩ := dangles
  refine ⟨e :: es, u, ?_, ((system server).run_cons_some).mpr ⟨t, step, rest⟩, freed⟩
  intro f member
  rcases List.mem_cons.mp member with rfl | member
  · exact completes
  · exact later f member

theorem dangles_of_deleted (deleted : s.status = .deleted) (some : s.writes ≠ []) :
    Dangles server Completes s := by
  have step : step server s (.wrote 0 true) =
      .some { s with status := .freed, writes := s.writes.eraseIdx 0 } := by
    simp [Connection.step, deleted, List.length_eq_zero_iff, some]
  have freed : Dangles server Completes { s with status := .freed, writes := s.writes.eraseIdx 0 } :=
    ⟨[], _, fun _ none => (by cases none), rfl, rfl⟩
  exact freed.before step trivial

theorem dangles_of_unflagged (alive : s.status = .alive) (ready : Ready s)
    (reading : s.isReading = true) (noWrite : s.isWriting = false) (some : s.writes ≠ []) :
    Dangles server Completes s := by
  have ended : s.onRead server none = { s with
      reads := s.reads - 1, isOpen := false, deadline := false, isReading := false
      status := .deleted } :=
    stopReading_idle (s := { s with reads := s.reads - 1 }) noWrite
  have step : step server s (.read none) = .some (s.onRead server none) := by
    have reads : s.reads = 1 := by rw [ready.reads, reading]; rfl
    simp [Connection.step, reads, alive]
  rw [ended] at step
  refine Dangles.before ?_ step trivial
  exact dangles_of_deleted rfl some

theorem dangles_of_two (alive : s.status = .alive) (ready : Ready s) (started : s.started = true)
    (two : 1 < s.writes.length) : Dangles server Completes s := by
  have step : step server s (.wrote 0 false) = some (s.onWrote 0 false) := by
    have inside : ¬s.writes.length ≤ 0 := by omega
    simp [Connection.step, alive, inside]
  obtain ⟨goes, noWrite, writes, _, _, _, same, lost⟩ := onWrote_cases alive ready 0 false
  have some : (s.onWrote 0 false).writes ≠ [] := by
    rw [writes]
    refine List.ne_nil_of_length_pos ?_
    rw [List.length_eraseIdx_of_lt (by omega)]
    omega
  refine Dangles.before ?_ step trivial
  rcases goes with ⟨alive', ready'⟩ | ⟨deleted, _⟩
  · refine dangles_of_unflagged alive' ready' ?_ noWrite some
    by_contra not
    rw [Bool.not_eq_true, same] at not
    cases (lost alive' started not).1
  · exact dangles_of_deleted deleted some

theorem flagged_of_none (none : s.writes = []) (noWrite : s.isWriting = false) : Flagged s := by
  unfold Flagged
  rw [none, noWrite]
  rfl

theorem covered (sane : Sane s) (alive : s.status = .alive) (few : ¬Exposed s) :
    Last s ∨ Tidy s := by
  have ready := sane.ready alive
  unfold Exposed at few
  rw [Nat.not_lt] at few
  by_cases only : (s.isReading && !s.isWriting) = true
  · rw [if_pos only] at few
    rw [Bool.and_eq_true_iff, Bool.not_eq_true'] at only
    exact Or.inr (sane.tidy alive
      (flagged_of_none (List.length_eq_zero_iff.mp (Nat.le_zero.mp few)) only.2))
  · rw [if_neg only] at few
    by_cases none : s.writes = []
    · cases writing : s.isWriting with
      | true => exact absurd none (sane.flag alive writing)
      | false => exact Or.inr (sane.tidy alive (flagged_of_none none writing))
    · have some := List.length_pos_iff.mpr none
      have one : s.writes.length = 1 := by omega
      cases writing : s.isWriting with
      | true =>
        refine Or.inr (sane.tidy alive ?_)
        unfold Flagged
        rw [one, writing]
        rfl
      | false =>
        have started := sane.begun (Or.inr none)
        have noRead : s.isReading = false := by simpa [writing] using only
        exact Or.inl ⟨alive, ready, started, noRead, one⟩

theorem exposed_of_dangles (sane : Sane s) (alive : s.status = .alive)
    (dangles : Dangles server (Quiet server) s) : Exposed s := by
  obtain ⟨fs, t, quiet, rest, freed⟩ := dangles
  by_contra few
  rcases covered sane alive few with last | tidy
  · rcases run_last last quiet rest with last | tidy
    · cases last.alive.symm.trans freed
    · exact tidy.safe freed
  · exact (run_quiet tidy quiet rest).safe freed

theorem dangles_of_exposed (sane : Sane s) (alive : s.status = .alive) (exposed : Exposed s) :
    Dangles server Completes s := by
  have ready := sane.ready alive
  unfold Exposed at exposed
  have some : s.writes ≠ [] := List.ne_nil_of_length_pos (by omega)
  have started := sane.begun (Or.inr some)
  by_cases two : 1 < s.writes.length
  · exact dangles_of_two alive ready started two
  · have only : (s.isReading && !s.isWriting) = true := by
      by_contra not
      rw [if_neg not] at exposed
      exact two exposed
    rw [Bool.and_eq_true_iff, Bool.not_eq_true'] at only
    exact dangles_of_unflagged alive ready only.1 only.2 some

/-- In every run, completions of writes and a failed read can use a connection after it is deleted, if
and only if a write is outstanding beside the one that the deletion waits for. The peer, the clock and
reads that ask for no answer add nothing to that. -/
theorem connection_dangles_iff {es : List ConnectionEvent}
    (path : (system server).run {} es = some s) (alive : s.status = .alive) :
    (Dangles server Completes s ↔ Exposed s) ∧ (Dangles server (Quiet server) s ↔ Exposed s) := by
  have sane := run_sane path
  refine ⟨⟨fun dangles => ?_, dangles_of_exposed sane alive⟩, exposed_of_dangles sane alive,
    fun exposed => ?_⟩
  · exact exposed_of_dangles sane alive (dangles.mono fun _ => Completes.quiet)
  · exact (dangles_of_exposed sane alive exposed).mono fun _ => Completes.quiet

def hastened (first second : Request) : List ConnectionEvent :=
  [.start, .read (some ⟨[.message (1, 1) first, .message (1, 1) second], true, ascii "now"⟩)]

def hosted (url : Bytes) : Request := ⟨1, url, url, [(ascii "host", ascii "h")], []⟩

theorem connection_dangles_iff_hastened : ∃ s,
    (system greeter).run {} (hastened (hosted (ascii "/a")) (hosted (ascii "/b"))) = some s ∧
      (Dangles greeter Completes s ↔ Exposed s) ∧
      (Dangles greeter (Quiet greeter) s ↔ Exposed s) := by
  have runs : (((system greeter).run {} (hastened (hosted (ascii "/a")) (hosted (ascii "/b")))).map
      Connection.status) = some .alive := by decide +kernel
  obtain ⟨s, path, alive⟩ := Option.map_eq_some_iff.mp runs
  exact ⟨s, path, connection_dangles_iff path alive⟩

/-! ## Requests that do not wait -/

theorem step_count (sane : Sane s) (step : step server s e = some t) (runs : t.status ≠ .stopped)
    (kept : t.status ≠ .freed) :
    t.begun.length = s.begun.length + (answersToEvent server e).length := by
  by_cases alive : s.status = .alive
  · have ready := sane.ready alive
    rcases step_alive alive ready step with ⟨chunk, bs, rfl, serves⟩ |
      ⟨place, ok, rfl, _, rfl⟩ | ⟨none, _, _, _, _, begun, _⟩
    · rcases serves.outcome with ⟨_, length, _⟩ | ⟨stopped, _⟩
      · rw [serves.begun, List.length_append, length]
      · exact absurd stopped runs
    · rw [(onWrote_cases alive ready place ok).2.2.2.1]
      rfl
    · rw [begun, none]
      rfl
  · obtain ⟨begun, _, ⟨_, _, _, _, none⟩ | ⟨_, freed, _⟩⟩ :=
      step_over alive (sane.begun (Or.inl alive)) step
    · rw [begun, none]
      rfl
    · exact absurd freed kept

theorem step_ends (sane : Sane s) (step : step server s e = some t)
    (ended : s.status = .stopped ∨ s.status = .freed) : t.status = .stopped ∨ t.status = .freed := by
  have past : s.status ≠ .alive := by rcases ended with ended | ended <;> rw [ended] <;> decide
  obtain ⟨_, _, ⟨status, _⟩ | ⟨_, freed, _⟩⟩ := step_over past (sane.begun (Or.inl past)) step
  · rwa [status]
  · exact Or.inr freed

theorem run_count (es : List ConnectionEvent) {s t : Connection} (sane : Sane s)
    (path : (system server).run s es = some t) :
    (s.status = .stopped ∨ s.status = .freed → t.status = .stopped ∨ t.status = .freed) ∧
      (¬(t.status = .stopped ∨ t.status = .freed) →
        t.begun.length = s.begun.length + (es.flatMap (answersToEvent server)).length) := by
  induction es generalizing s with
  | nil =>
    cases path
    exact ⟨fun ended => ended, fun _ => rfl⟩
  | cons e es ih =>
    obtain ⟨u, step, rest⟩ := ((system server).run_cons_some).mp path
    obtain ⟨ends, count⟩ := ih (step_sane sane step) rest
    refine ⟨fun ended => ends (step_ends sane step ended), fun goesOn => ?_⟩
    have before := not_or.mp fun ended => goesOn (ends ended)
    rw [count goesOn, step_count sane step before.1 before.2, List.flatMap_cons, List.length_append]
    omega

/-- In every run, as many answers are begun as were asked for, however many requests come at a time.
Nothing is said of what they are. -/
theorem connection_counts {es : List ConnectionEvent} (path : (system server).run {} es = some t)
    (runs : t.status ≠ .stopped) (kept : t.status ≠ .freed) :
    t.begun.length = (es.flatMap (answersToEvent server)).length := by
  have count := (run_count es sane_initial path).2 (not_or.mpr ⟨runs, kept⟩)
  rw [count]
  exact Nat.zero_add _

theorem connection_counts_hastened : ∃ t,
    (system greeter).run {} (hastened (hosted (ascii "/a")) (hosted (ascii "/b"))) = some t ∧
      t.begun.length =
        ((hastened (hosted (ascii "/a")) (hosted (ascii "/b"))).flatMap
          (answersToEvent greeter)).length := by
  have runs : (((system greeter).run {} (hastened (hosted (ascii "/a")) (hosted (ascii "/b")))).map
      Connection.status) = some .alive := by decide +kernel
  obtain ⟨t, path, alive⟩ := Option.map_eq_some_iff.mp runs
  exact ⟨t, path, connection_counts path (by rw [alive]; decide) (by rw [alive]; decide)⟩

theorem completeRequest_named {other : Server} (same : other.name = server.name) (date : Bytes)
    (s : Connection) : s.completeRequest other date = s.completeRequest server date := by
  unfold completeRequest
  simp only [Response.bytes, Response.head, same]

theorem completeRequest_completed (date : Bytes) (s : Connection) :
    (s.completeRequest server date).completed = s.completed := by
  unfold completeRequest
  simp only []
  split
  · rfl
  · split <;> rfl

/-- A request with its host is answered by its handler only where no response is completed, and one is
then. -/
theorem handle_named {other : Server} (same : other.name = server.name) (date : Bytes)
    (version : Version) (req : Request) (hosted : isInvalidRequest version req.headers = false)
    (answer : s.completed = false → other.handle req = server.handle req) :
    s.handle other date version req = s.handle server date version req ∧
      ((s.handle server date version req).status = .stopped ∨
        (s.handle server date version req).completed = true) := by
  have kept : (s.cancelDeadlineTimer.negotiate version req.headers).completed = s.completed := by
    rw [negotiate_eq]
    rfl
  unfold handle
  generalize s.cancelDeadlineTimer.negotiate version req.headers = u at kept
  simp only [hosted, Bool.false_eq_true, if_false, respond, completeRequest_named same]
  cases completed : s.completed with
  | true =>
    rw [completed] at kept
    simp only [kept, if_true, true_and]
    split
    · exact Or.inl rfl
    · exact Or.inr (completeRequest_completed ..)
  | false =>
    rw [completed] at kept
    simp only [kept, Bool.false_eq_true, if_false, answer completed, true_and]
    split
    · exact Or.inl rfl
    · right
      split <;> exact completeRequest_completed ..

theorem handleHeader_completed (s : Connection) (version : Version) (headers : CiMap) :
    (s.handleHeader version headers).completed = s.completed := by
  unfold handleHeader
  split <;> rfl

/-- What is answered depends on the handlers by the first request, where no response is completed. -/
theorem feed_named {other : Server} (same : other.name = server.name) (date : Bytes)
    (calls : List Callback) {s : Connection}
    (hosted : ∀ version req, .message version req ∈ calls →
      isInvalidRequest version req.headers = false)
    (first : s.completed = false → ∀ version req,
      calls.find? isMessage = some (.message version req) → other.handle req = server.handle req) :
    s.feed other date calls = s.feed server date calls := by
  induction calls generalizing s with
  | nil => rfl
  | cons call calls ih =>
    have hosted' version req (member : .message version req ∈ calls) :=
      hosted version req (List.mem_cons_of_mem _ member)
    cases call with
    | header version headers =>
      have later := ih (s := s.handleHeader version headers) hosted' fun fresh =>
        first ((handleHeader_completed ..).symm.trans fresh)
      rw [feed, feed]
      simp only [callback, later]
      rfl
    | message version req =>
      obtain ⟨agrees, ended⟩ := handle_named (s := s) same date version req
        (hosted version req List.mem_cons_self) fun fresh => first fresh version req rfl
      rw [feed, feed]
      simp only [callback, agrees]
      rcases ended with stopped | completed
      · simp only [stopped, if_true]
      · rw [ih hosted' fun fresh => by cases completed.symm.trans fresh]
        rfl

/-- A handler is called for the first request of what is read at most, and for none where a completed
response is not cleared: requests that have their hosts are answered alike by servers that agree on that
one. -/
theorem connection_pipelined {other : Server} (same : other.name = server.name) (chunk : Chunk)
    (hosted : ∀ version req, .message version req ∈ chunk.callbacks →
      isInvalidRequest version req.headers = false)
    (first : s.completed = false → ∀ version req,
      chunk.callbacks.find? isMessage = some (.message version req) →
        other.handle req = server.handle req) :
    step other s (.read (some chunk)) = step server s (.read (some chunk)) := by
  have fed : { s with reads := s.reads - 1 }.feed other chunk.date chunk.callbacks =
      { s with reads := s.reads - 1 }.feed server chunk.date chunk.callbacks :=
    feed_named same chunk.date chunk.callbacks hosted first
  simp only [step, onRead, fed]

def reserved : Server := ⟨ascii "pinocchio", fun req =>
  if req.url = ascii "/a" then { body := ascii "hello" } else { code := 404 }⟩

theorem connection_pipelined_hastened :
    step reserved ({} : Connection).doRead (.read (some
        ⟨[.message (1, 1) (hosted (ascii "/a")), .message (1, 1) (hosted (ascii "/b"))], true, []⟩)) =
      step greeter ({} : Connection).doRead (.read (some
        ⟨[.message (1, 1) (hosted (ascii "/a")), .message (1, 1) (hosted (ascii "/b"))], true, []⟩)) := by
  have askedHosted : ∀ version req, .message version req ∈
      [Callback.message (1, 1) (hosted (ascii "/a")), .message (1, 1) (hosted (ascii "/b"))] →
        isInvalidRequest version req.headers = false := by
    intro version req member
    rcases List.mem_pair.mp member with asked | asked <;> cases asked <;> decide
  refine @connection_pipelined greeter _ reserved rfl ⟨_, true, []⟩ askedHosted ?_
  intro _ version req first
  cases first
  decide

/-! ## The end of a thread -/

/-- A request completes, and the log asks for the address of a peer that is gone. -/
def Fatal (s : Connection) (e : ConnectionEvent) : Prop :=
  s.status = .alive ∧ (s.isOpen && s.connected) = false ∧ ∃ chunk, e = .read chunk ∧ Requests chunk

theorem feed_stopped (date : Bytes) (calls : List Callback) {s : Connection} (sync : Synchronous s)
    (gone : (s.isOpen && s.connected) = false) (request : ∃ call ∈ calls, isMessage call = true) :
    (s.feed server date calls).status = .stopped := by
  induction calls generalizing s with
  | nil =>
    obtain ⟨_, member, _⟩ := request
    cases member
  | cons call calls ih =>
    rw [feed]
    split
    · assumption
    · rename_i running
      obtain ⟨bs, began, _⟩ := callback_began server date call sync
      refine ih began.sync (by rw [began.isOpen, began.connected, gone]) ?_
      obtain ⟨other, member, message⟩ := request
      rcases List.mem_cons.mp member with rfl | member
      · cases other with
        | header version headers => cases message
        | message version req =>
          exact absurd (handle_stopped server date version req gone sync).2 running
      · exact ⟨other, member, message⟩

theorem step_stopped_iff (sane : Sane s) (step : step server s e = some t) :
    t.status = .stopped ↔ s.status = .stopped ∨ Fatal s e := by
  by_cases alive : s.status = .alive
  · have ready := sane.ready alive
    have running : s.status ≠ .stopped := by rw [alive]; decide
    constructor
    · intro stopped
      right
      rcases step_alive alive ready step with ⟨chunk, bs, rfl, serves⟩ |
        ⟨place, ok, rfl, _, rfl⟩ | ⟨_, alive', _⟩
      · rcases serves.outcome with ⟨⟨alive', _⟩ | ⟨deleted, _⟩, _⟩ | ⟨_, gone, request⟩
        · cases alive'.symm.trans stopped
        · cases deleted.symm.trans stopped
        · exact ⟨alive, gone, chunk, rfl, request⟩
      · obtain ⟨⟨alive', _⟩ | ⟨deleted, _⟩, _⟩ := onWrote_cases alive ready place ok
        · cases alive'.symm.trans stopped
        · cases deleted.symm.trans stopped
      · cases alive'.symm.trans stopped
    · rintro (stopped | ⟨_, gone, _, rfl, chunk, rfl, request⟩)
      · exact absurd stopped running
      · simp only [Connection.step, alive, reduceCtorEq, decide_false, Bool.or_false, if_true] at step
        split at step
        · cases step
        · cases step
          have sync : Synchronous { s with reads := s.reads - 1 } :=
            ⟨ready.sync.after, ready.sync.start⟩
          have stopped : ({ s with reads := s.reads - 1 }.feed server chunk.date
              chunk.callbacks).status = .stopped :=
            feed_stopped chunk.date chunk.callbacks sync gone request
          unfold onRead
          simp only [stopped, if_true]
  · have started := sane.begun (Or.inl alive)
    have harmless : ¬Fatal s e := fun fatal => alive fatal.1
    simp only [harmless, or_false]
    obtain ⟨_, _, ⟨status, _⟩ | ⟨running, freed, _⟩⟩ := step_over alive started step
    · rw [status]
    · simp [freed, running]

theorem run_stopped_iff (es : List ConnectionEvent) {s t : Connection} (sane : Sane s)
    (path : (system server).run s es = some t) :
    t.status = .stopped ↔
      s.status = .stopped ∨ ¬(system server).Along (fun s e _ => ¬Fatal s e) s es := by
  induction es generalizing s with
  | nil =>
    cases path
    simp [System.Along]
  | cons e es ih =>
    obtain ⟨u, step, rest⟩ := ((system server).run_cons_some).mp path
    rw [ih (step_sane sane step) rest, step_stopped_iff sane step, System.along_cons step]
    tauto

/-- A run ends the thread, if and only if a request completes while the connection is closed or its
peer is gone. -/
theorem connection_stopped_iff {es : List ConnectionEvent}
    (path : (system server).run {} es = some t) :
    t.status = .stopped ↔ ¬(system server).Along (fun s e _ => ¬Fatal s e) {} es := by
  rw [run_stopped_iff es sane_initial path]
  simp

theorem connection_stopped_iff_reset : ∃ t,
    (system greeter).run {} [.start, .reset, greeting []] = some t ∧
      (t.status = .stopped ↔
        ¬(system greeter).Along (fun s e _ => ¬Fatal s e) {} [.start, .reset, greeting []]) := by
  have runs : ((system greeter).run {} [.start, .reset, greeting []]).isSome = true := by
    decide +kernel
  obtain ⟨t, path⟩ := Option.isSome_iff_exists.mp runs
  exact ⟨t, path, connection_stopped_iff path⟩

/-! ## The end of a connection -/

theorem wrote_closing (sane : Sane s) (alive : s.status = .alive) (closing : s.closeConnection = true)
    {place : Nat} {ok : Bool} (step : step server s (.wrote place ok) = some t) :
    t.status = .deleted := by
  have ready := sane.ready alive
  obtain ⟨inside, rfl⟩ := step_wrote alive step
  obtain ⟨goes, _, _, _, _, _, _, lost⟩ := onWrote_cases alive ready place ok
  have started := sane.begun (Or.inr (List.ne_nil_of_length_pos (Nat.zero_lt_of_lt inside)))
  rcases goes with ⟨alive', _⟩ | ⟨deleted, _⟩
  · cases closing.symm.trans (lost alive' started (ready.closing closing)).2
  · exact deleted

theorem step_closing (sane : Sane s) (closing : s.status = .alive → s.closeConnection = true)
    (step : step server s e = some t) :
    t.begun = s.begun ∧ (t.status = .alive →
      s.status = .alive ∧ t.closeConnection = true ∧ ∀ place ok, e ≠ .wrote place ok) := by
  by_cases alive : s.status = .alive
  · have ready := sane.ready alive
    have closing := closing alive
    have noRead := ready.closing closing
    cases e with
    | start =>
      have started : s.started = true := by
        by_contra not
        rw [Bool.not_eq_true] at not
        cases closing.symm.trans (ready.fresh not).2.2
      simp [Connection.step, started] at step
    | read chunk =>
      have none : s.reads = 0 := by rw [ready.reads, noRead]; rfl
      simp [Connection.step, none] at step
    | wrote place ok =>
      have deleted := wrote_closing sane alive closing step
      obtain ⟨_, rfl⟩ := step_wrote alive step
      obtain ⟨_, _, _, begun, _⟩ := onWrote_cases alive ready place ok
      exact ⟨begun, fun alive' => by cases deleted.symm.trans alive'⟩
    | timeout =>
      simp only [Connection.step] at step
      split at step
      · cases step
        exact ⟨rfl, fun _ => ⟨alive, closing, fun _ _ no => by cases no⟩⟩
      · cases step
    | reset =>
      simp only [Connection.step] at step
      split at step
      · cases step
        exact ⟨rfl, fun _ => ⟨alive, closing, fun _ _ no => by cases no⟩⟩
      · cases step
  · have started := sane.begun (Or.inl alive)
    obtain ⟨begun, _, ⟨status, _⟩ | ⟨_, freed, _⟩⟩ := step_over alive started step
    · exact ⟨begun, fun alive' => absurd (status.symm.trans alive') alive⟩
    · exact ⟨begun, fun alive' => by cases freed.symm.trans alive'⟩

theorem run_closing (fs : List ConnectionEvent) {s t : Connection} (sane : Sane s)
    (closing : s.status = .alive → s.closeConnection = true)
    (path : (system server).run s fs = some t) :
    t.begun = s.begun ∧ (t.status = .alive →
      s.status = .alive ∧ t.closeConnection = true ∧ ∀ place ok, .wrote place ok ∉ fs) := by
  induction fs generalizing s with
  | nil =>
    cases path
    exact ⟨rfl, fun alive => ⟨alive, closing alive, fun _ _ member => by cases member⟩⟩
  | cons e fs ih =>
    obtain ⟨u, step, rest⟩ := ((system server).run_cons_some).mp path
    obtain ⟨begun, before⟩ := step_closing sane closing step
    obtain ⟨begun', none⟩ := ih (step_sane sane step) (fun alive => (before alive).2.1) rest
    refine ⟨begun'.trans begun, fun alive => ?_⟩
    obtain ⟨alive', closing', later⟩ := none alive
    obtain ⟨alive'', _, other⟩ := before alive'
    refine ⟨alive'', closing', fun place ok member => ?_⟩
    rcases List.mem_cons.mp member with rfl | member
    · exact other place ok rfl
    · exact later place ok member

/-- A connection that is to be closed answers nothing any more. While it lives no write has completed,
and the first one that does deletes it. -/
theorem connection_closing {es fs : List ConnectionEvent}
    (first : (system server).run {} es = some s) (closing : s.closeConnection = true)
    (path : (system server).run s fs = some t) :
    t.begun = s.begun ∧ (t.status = .alive → ∀ place ok, .wrote place ok ∉ fs ∧
      ∀ u, step server t (.wrote place ok) = some u → u.status = .deleted) := by
  have sane := run_sane first
  obtain ⟨begun, none⟩ := run_closing fs sane (fun _ => closing) path
  refine ⟨begun, fun alive place ok => ?_⟩
  obtain ⟨_, closing', none⟩ := none alive
  have sane' : Sane t := System.run_invariant sane path fun _ _ _ sane step => step_sane sane step
  exact ⟨none place ok, fun u step => wrote_closing sane' alive closing' step⟩

def parting : List ConnectionEvent := [.start, greeting [(ascii "connection", ascii "close")]]

theorem connection_closing_parting : ∃ s t, (system greeter).run {} parting = some s ∧
    (system greeter).run s [.reset] = some t ∧ t.begun = s.begun ∧
      (t.status = .alive → ∀ place ok, .wrote place ok ∉ [ConnectionEvent.reset] ∧
        ∀ u, step greeter t (.wrote place ok) = some u → u.status = .deleted) := by
  have runs : (((system greeter).run {} parting).map fun s =>
      (s.closeConnection, ((system greeter).run s [.reset]).isSome)) = some (true, true) := by
    decide +kernel
  obtain ⟨s, path, seen⟩ := Option.map_eq_some_iff.mp runs
  obtain ⟨closing, later⟩ := Prod.mk.inj seen
  obtain ⟨t, rest⟩ := Option.isSome_iff_exists.mp later
  exact ⟨s, t, path, rest, connection_closing path closing rest⟩

end

end Connection

end Pinocchio.Crow
