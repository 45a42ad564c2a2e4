import Pinocchio.Crow.ConnectionSteps

/-! Runs with one write at a time.

A flag stands for the operations of a kind, so it is right as long as at most one write is begun at a
time. Then a connection is deleted when nothing of it is outstanding, and not used afterwards.
-/

set_option autoImplicit false

namespace Pinocchio.Crow
open Semantics

namespace Connection

section
variable {server : Server} {s t : Connection} {e : ConnectionEvent}

/-- Nothing is answered while a write is outstanding, and one thing at a time. -/
def Orderly (server : Server) (s : Connection) (e : ConnectionEvent) : Prop :=
  s.writes.length + (answersToEvent server e).length ≤ 1

instance : DecidablePred (Orderly server s) := fun _ => inferInstanceAs (Decidable (_ ≤ _))

structure Tidy (s : Connection) : Prop where
  safe : s.status ≠ .freed
  ready : s.status = .alive → Ready s
  started : s.status ≠ .alive → s.started = true
  writes : s.status ≠ .stopped → s.writes.length = if s.isWriting then 1 else 0
  gone : s.status = .deleted → s.isWriting = false ∧ s.reads = 0
  cleared : s.status = .alive → s.completed = true → s.isWriting = true

theorem Tidy.of_alive (alive : s.status = .alive) (ready : Ready s)
    (flag : s.writes.length = if s.isWriting then 1 else 0)
    (cleared : s.completed = true → s.isWriting = true) : Tidy s where
  safe := by rw [alive]; decide
  ready _ := ready
  started past := absurd alive past
  writes _ := flag
  gone deleted := by cases alive.symm.trans deleted
  cleared _ := cleared

theorem Tidy.of_deleted (deleted : s.status = .deleted) (started : s.started = true)
    (none : s.writes = []) (noWrite : s.isWriting = false) (noRead : s.reads = 0) : Tidy s where
  safe := by rw [deleted]; decide
  ready alive := by cases deleted.symm.trans alive
  started _ := started
  writes _ := by rw [none, noWrite]; rfl
  gone _ := ⟨noWrite, noRead⟩
  cleared alive := by cases deleted.symm.trans alive

theorem Tidy.of_stopped (stopped : s.status = .stopped) (started : s.started = true) : Tidy s where
  safe := by rw [stopped]; decide
  ready alive := by cases stopped.symm.trans alive
  started _ := started
  writes running := absurd stopped running
  gone deleted := by cases stopped.symm.trans deleted
  cleared alive := by cases stopped.symm.trans alive

theorem tidy_initial : Tidy {} :=
  .of_alive rfl ⟨⟨rfl, rfl⟩, rfl, fun _ => rfl, fun no => (by cases no), fun _ => ⟨rfl, rfl, rfl⟩⟩ rfl
    fun no => by cases no

/-- What was written by a step are the answers to its event, unless the peer is gone. -/
structure Answered (server : Server) (s : Connection) (e : ConnectionEvent) (t : Connection) :
    Prop where
  tidy : Tidy t
  answers : ∃ bs, t.begun = s.begun ++ bs ∧ bs <+: answersToEvent server e ∧
    (t.status ≠ .stopped → bs = answersToEvent server e)
  stopped : t.status = .stopped → s.status = .stopped ∨ (s.isOpen && s.connected) = false

theorem Serves.answered {chunk : Option Chunk} {bs : List Bytes} (serves : Serves server s t chunk bs)
    (alive : s.status = .alive) (tidy : Tidy s) (orderly : Orderly server s (.read chunk)) :
    Answered server s (.read chunk) t := by
  have running : s.status ≠ .stopped := by rw [alive]; decide
  have flag : s.writes.length = if s.isWriting then 1 else 0 := tidy.writes running
  have short := serves.short
  unfold Orderly at orderly
  -- A response that is not cleared is being written, so nothing may be answered.
  have own : bs <+: answersToEvent server (.read chunk) := by
    cases completed : s.completed with
    | false => exact serves.own completed (by omega)
    | true =>
      rw [tidy.cleared alive completed, if_pos rfl] at flag
      rw [List.length_eq_zero_iff.mp (show bs.length = 0 by omega)]
      exact List.nil_prefix
  rcases serves.outcome with ⟨goes, length, quiet⟩ | ⟨stopped, gone, _⟩
  · have whole : bs = answersToEvent server (.read chunk) := own.eq_of_length length
    refine ⟨?_, ⟨bs, serves.begun, own, fun _ => whole⟩, ?_⟩
    · rcases goes with ⟨alive', ready'⟩ | ⟨deleted, noWrite, noRead⟩
      · refine .of_alive alive' ready' ?_ fun completed => ?_
        · rw [serves.writes, serves.isWriting, List.length_append, flag]
          cases bs with
          | nil => cases s.isWriting <;> rfl
          | cons b bs =>
            rw [List.length_cons] at short ⊢
            cases writing : s.isWriting with
            | true =>
              rw [writing, if_pos rfl] at flag
              omega
            | false =>
              have none : bs.length = 0 := by omega
              simp [none]
        · rw [serves.isWriting]
          cases bs with
          | nil => rw [tidy.cleared alive (quiet rfl ▸ completed)]; rfl
          | cons b bs => simp
      · have idle := serves.isWriting
        rw [noWrite] at idle
        obtain ⟨noWrite', nothing⟩ := Bool.or_eq_false_iff.mp idle.symm
        rw [noWrite'] at flag
        have none : bs = [] := by simpa using nothing
        refine .of_deleted deleted serves.started ?_ noWrite noRead
        rw [serves.writes, none, List.append_nil]
        exact List.length_eq_zero_iff.mp flag
    · intro stopped
      rcases goes with ⟨alive', _⟩ | ⟨deleted, _⟩
      · cases alive'.symm.trans stopped
      · cases deleted.symm.trans stopped
  · exact ⟨.of_stopped stopped serves.started,
      ⟨bs, serves.begun, own, fun running => absurd stopped running⟩, fun _ => Or.inr gone⟩

theorem Answered.quiet (tidy : Tidy t) (begun : t.begun = s.begun) (none : answersToEvent server e = [])
    (stopped : t.status = .stopped → s.status = .stopped) : Answered server s e t :=
  ⟨tidy, ⟨[], by simp [begun], List.nil_prefix, fun _ => none.symm⟩, fun no => Or.inl (stopped no)⟩

theorem onWrote_tidy (alive : s.status = .alive) (ready : Ready s) (started : s.started = true)
    (place : Nat) (ok : Bool) (inside : place < s.writes.length) (one : s.writes.length ≤ 1) :
    Tidy (s.onWrote place ok) := by
  obtain ⟨goes, noWrite, writes, _, completed, same, _⟩ := onWrote_cases alive ready place ok
  have none : (s.onWrote place ok).writes = [] := by
    rw [writes]
    refine List.length_eq_zero_iff.mp ?_
    rw [List.length_eraseIdx_of_lt inside]
    omega
  rcases goes with ⟨alive', ready'⟩ | ⟨deleted, _, noRead⟩
  · refine .of_alive alive' ready' (by rw [none, noWrite]; rfl) fun no => ?_
    cases completed.symm.trans no
  · exact .of_deleted deleted (same.trans started) none noWrite noRead

theorem onWrote_answered (alive : s.status = .alive) (tidy : Tidy s) (place : Nat) (ok : Bool)
    (inside : place < s.writes.length) (one : s.writes.length ≤ 1) :
    Answered server s (.wrote place ok) (s.onWrote place ok) := by
  have ready := tidy.ready alive
  obtain ⟨goes, _, _, begun, _⟩ := onWrote_cases alive ready place ok
  have flag : s.writes.length = if s.isWriting then 1 else 0 :=
    tidy.writes (by rw [alive]; decide)
  have started : s.started = true := by
    by_contra not
    rw [Bool.not_eq_true] at not
    rw [(ready.fresh not).2.1, if_neg (by decide)] at flag
    omega
  refine .quiet (onWrote_tidy alive ready started place ok inside one) begun rfl fun no => ?_
  rcases goes with ⟨alive', _⟩ | ⟨deleted, _⟩
  · cases alive'.symm.trans no
  · cases deleted.symm.trans no

theorem step_answered (tidy : Tidy s) (orderly : Orderly server s e)
    (step : step server s e = some t) : Answered server s e t := by
  by_cases alive : s.status = .alive
  · have ready := tidy.ready alive
    rcases step_alive alive ready step with ⟨chunk, bs, rfl, serves⟩ |
      ⟨place, ok, rfl, inside, rfl⟩ | ⟨none, alive', ready', writing, writes, begun, completed, _⟩
    · exact serves.answered alive tidy orderly
    · exact onWrote_answered alive tidy place ok inside (Nat.le_of_add_right_le orderly)
    · refine .quiet (.of_alive alive' ready' ?_ ?_) begun none fun no => ?_
      · rw [writes, writing]
        exact tidy.writes (by rw [alive]; decide)
      · rw [completed, writing]
        exact tidy.cleared alive
      · cases alive'.symm.trans no
  · obtain ⟨begun, started, same | freed⟩ := step_over alive (tidy.started alive) step
    · obtain ⟨status, reads, writes, writing, none⟩ := same
      refine .quiet ⟨by rw [status]; exact tidy.safe, fun no => absurd (status ▸ no) alive,
        fun _ => started, fun running => ?_, fun deleted => ?_, fun no => absurd (status ▸ no) alive⟩
        begun none fun no => status ▸ no
      · rw [writes, writing]
        exact tidy.writes (status ▸ running)
      · rw [writing, reads]
        exact tidy.gone (status ▸ deleted)
    · obtain ⟨running, _, outstanding⟩ := freed
      have deleted : s.status = .deleted := by
        cases status : s.status with
        | alive => exact absurd status alive
        | deleted => rfl
        | stopped => exact absurd status running
        | freed => exact absurd status tidy.safe
      obtain ⟨noWrite, noRead⟩ := tidy.gone deleted
      have none := tidy.writes running
      rw [noWrite, if_neg (by decide)] at none
      rcases outstanding with some | some
      · exact absurd noRead some
      · exact absurd (List.length_eq_zero_iff.mp none) some

/-! ## Whole runs -/

/-- A step that leaves a connection with nothing outstanding and not deleted: a write that went well
after the end of reading, of a connection that was to be kept. -/
def Abandons (s : Connection) (e : ConnectionEvent) : Prop :=
  s.status = .alive ∧ s.started = true ∧ s.isReading = false ∧ s.closeConnection = false ∧
    ∃ place, e = .wrote place true

def Idle (s : Connection) : Prop := s.started = true ∧ s.reads = 0 ∧ s.writes = []

theorem run_stopped {es : List ConnectionEvent} (stopped : s.status = .stopped)
    (started : s.started = true) (path : (system server).run s es = some t) :
    t.status = .stopped ∧ t.begun = s.begun := by
  have kept : t.status = .stopped ∧ t.started = true ∧ t.begun = s.begun := by
    refine System.run_invariant (P := fun u => u.status = .stopped ∧ u.started = true ∧
      u.begun = s.begun) ⟨stopped, started, rfl⟩ path ?_
    rintro u e v ⟨stopped, started, begun⟩ step
    have past : u.status ≠ .alive := by rw [stopped]; decide
    obtain ⟨begun', started', ⟨status, _⟩ | ⟨running, _⟩⟩ := step_over past started step
    · exact ⟨status.trans stopped, started', begun'.trans begun⟩
    · exact absurd stopped running
  exact ⟨kept.1, kept.2.2⟩

theorem run_answered (es : List ConnectionEvent) {s t : Connection} (tidy : Tidy s)
    (orderly : (system server).Along (fun s e _ => Orderly server s e) s es)
    (path : (system server).run s es = some t) :
    Tidy t ∧ ∃ bs, t.begun = s.begun ++ bs ∧ bs <+: es.flatMap (answersToEvent server) ∧
      (t.status ≠ .stopped → bs = es.flatMap (answersToEvent server)) := by
  induction es generalizing s with
  | nil =>
    cases path
    exact ⟨tidy, [], by simp, List.nil_prefix, fun _ => rfl⟩
  | cons e es ih =>
    obtain ⟨u, step, rest⟩ := ((system server).run_cons_some).mp path
    obtain ⟨first, later⟩ := (System.along_cons step).mp orderly
    obtain ⟨tidy', ⟨bs, begun, front, whole⟩, _⟩ := step_answered tidy first step
    obtain ⟨tidy'', cs, begun', front', whole'⟩ := ih tidy' later rest
    rw [List.flatMap_cons]
    by_cases stopped : u.status = .stopped
    · have past : u.status ≠ .alive := by rw [stopped]; decide
      obtain ⟨stays, nothing⟩ := run_stopped stopped (tidy'.started past) rest
      exact ⟨tidy'', bs, nothing.trans begun, front.trans (List.prefix_append _ _),
        fun running => absurd stays running⟩
    · rw [whole stopped] at begun
      refine ⟨tidy'', answersToEvent server e ++ cs, by rw [begun', begun, List.append_assoc],
        (List.prefix_append_right_inj _).mpr front', fun running => ?_⟩
      rw [whole' running]

/-- Alive, begun, and nothing of it goes on. -/
def Abandoned (s : Connection) : Prop :=
  s.status = .alive ∧ s.started = true ∧ s.isReading = false ∧ s.isWriting = false

theorem step_abandoned (tidy : Tidy s) (kept : ¬Abandoned s)
    (step : step server s e = some t) (still : ¬Abandons s e) : ¬Abandoned t := by
  rintro ⟨alive', started', noRead, noWrite⟩
  by_cases alive : s.status = .alive
  · have ready := tidy.ready alive
    rcases step_alive alive ready step with ⟨chunk, bs, rfl, serves⟩ |
      ⟨place, ok, rfl, inside, rfl⟩ | ⟨_, _, _, writing, _, _, _, reading⟩
    · rcases serves.busy alive' with some | some
      · cases noRead.symm.trans some
      · cases noWrite.symm.trans some
    · obtain ⟨_, _, _, _, _, started, same, lost⟩ := onWrote_cases alive ready place ok
      have begun := started.symm.trans started'
      obtain ⟨rfl, keeps⟩ := lost alive' begun (same.symm.trans noRead)
      exact still ⟨alive, begun, same.symm.trans noRead, keeps, place, rfl⟩
    · rcases reading with ⟨started, same⟩ | ⟨_, _, some⟩
      · exact kept ⟨alive, started.symm.trans started', same.symm.trans noRead,
          writing.symm.trans noWrite⟩
      · cases noRead.symm.trans some
  · obtain ⟨_, _, ⟨status, _⟩ | ⟨_, freed, _⟩⟩ := step_over alive (tidy.started alive) step
    · exact alive (status.symm.trans alive')
    · cases freed.symm.trans alive'

theorem run_lost {es : List ConnectionEvent} (alive : s.status = .alive) (idle : Idle s)
    (path : (system server).run s es = some t) : t.status = .alive := by
  have kept : t.status = .alive ∧ Idle t := by
    refine System.run_invariant (P := fun u => u.status = .alive ∧ Idle u) ⟨alive, idle⟩ path ?_
    rintro u e v ⟨alive, started, noReads, noWrites⟩ step
    cases e with
    | start => simp [system, Connection.step, started] at step
    | read chunk => simp [system, Connection.step, noReads] at step
    | wrote place ok => simp [system, Connection.step, noWrites] at step
    | timeout =>
      simp only [system, Connection.step] at step
      split at step
      · cases step
        exact ⟨alive, started, noReads, noWrites⟩
      · cases step
    | reset =>
      simp only [system, Connection.step] at step
      split at step
      · cases step
        exact ⟨alive, started, noReads, noWrites⟩
      · cases step
  exact kept.1

theorem abandons_idle (tidy : Tidy s) (orderly : Orderly server s e) (lost : Abandons s e)
    (step : step server s e = some t) : t.status = .alive ∧ Idle t := by
  obtain ⟨alive, started, noRead, keeps, place, rfl⟩ := lost
  have ready := tidy.ready alive
  obtain ⟨inside, rfl⟩ := step_wrote alive step
  have status : (s.onWrote place true).status = .alive := by
    unfold onWrote
    simp only [if_true, keeps, Bool.false_eq_true, if_false]
    exact alive
  obtain ⟨goes, _, writes, _, _, begun, same, _⟩ := onWrote_cases alive ready place true
  rcases goes with ⟨_, ready'⟩ | ⟨deleted, _⟩
  · refine ⟨status, begun.trans started, ?_, ?_⟩
    · rw [ready'.reads, same, noRead]
      rfl
    · rw [writes]
      refine List.length_eq_zero_iff.mp ?_
      have one := Nat.le_of_add_right_le orderly
      rw [List.length_eraseIdx_of_lt inside]
      omega
  · cases status.symm.trans deleted

theorem run_kept (es : List ConnectionEvent) {s t : Connection} (tidy : Tidy s) (kept : ¬Abandoned s)
    (orderly : (system server).Along (fun s e _ => Orderly server s e) s es)
    (path : (system server).run s es = some t) :
    ((system server).Along (fun s e _ => ¬Abandons s e) s es → ¬Abandoned t) ∧
      (t.status = .deleted → (system server).Along (fun s e _ => ¬Abandons s e) s es) := by
  induction es generalizing s with
  | nil =>
    cases path
    exact ⟨fun _ => kept, fun _ => trivial⟩
  | cons e es ih =>
    obtain ⟨u, step, rest⟩ := ((system server).run_cons_some).mp path
    obtain ⟨first, later⟩ := (System.along_cons step).mp orderly
    have tidy' := (step_answered tidy first step).tidy
    rw [System.along_cons step]
    by_cases lost : Abandons s e
    · obtain ⟨alive, idle⟩ := abandons_idle tidy first lost step
      refine ⟨fun still => absurd lost still.1, fun deleted => ?_⟩
      cases (run_lost alive idle rest).symm.trans deleted
    · obtain ⟨none, deleted⟩ := ih tidy' (step_abandoned tidy kept step lost) later rest
      exact ⟨fun still => none still.2, fun gone => ⟨lost, deleted gone⟩⟩

/-- With one write at a time, what the writes were begun with are the answers to the requests in their
order, each once, unless a thread was ended by one of them. -/
theorem connection_answers {es : List ConnectionEvent}
    (orderly : (system server).Along (fun s e _ => Orderly server s e) {} es)
    (path : (system server).run {} es = some t) :
    t.begun <+: es.flatMap (answersToEvent server) ∧
      (t.status ≠ .stopped → t.begun = es.flatMap (answersToEvent server)) := by
  obtain ⟨_, bs, begun, front, whole⟩ := run_answered es tidy_initial orderly path
  rw [List.nil_append] at begun
  rw [begun]
  exact ⟨front, whole⟩

def greeter : Server := ⟨ascii "pinocchio", fun _ => { body := ascii "hello" }⟩

def greeting (headers : CiMap) : ConnectionEvent :=
  .read (some ⟨[.message (1, 1) ⟨1, ascii "/", ascii "/", (ascii "host", ascii "h") :: headers, []⟩],
    true, ascii "now"⟩)

def greeted : List ConnectionEvent :=
  [.start, greeting [], .wrote 0 true, greeting [], .wrote 0 true, .read none]

theorem greeted_orderly : (system greeter).Along (fun s e _ => Orderly greeter s e) {} greeted := by
  decide +kernel

theorem connection_answers_greeted : ∃ t, (system greeter).run {} greeted = some t ∧
    t.begun <+: greeted.flatMap (answersToEvent greeter) ∧
      (t.status ≠ .stopped → t.begun = greeted.flatMap (answersToEvent greeter)) := by
  have runs : ((system greeter).run {} greeted).isSome = true := by decide +kernel
  obtain ⟨t, path⟩ := Option.isSome_iff_exists.mp runs
  exact ⟨t, path, connection_answers greeted_orderly path⟩

/-- With one write at a time, no completion runs on a connection that is deleted. -/
theorem connection_safe {es : List ConnectionEvent}
    (orderly : (system server).Along (fun s e _ => Orderly server s e) {} es)
    (path : (system server).run {} es = some t) : t.status ≠ .freed :=
  (run_answered es tidy_initial orderly path).1.safe

theorem connection_safe_greeted :
    ∃ t, (system greeter).run {} greeted = some t ∧ t.status ≠ .freed := by
  have runs : ((system greeter).run {} greeted).isSome = true := by decide +kernel
  obtain ⟨t, path⟩ := Option.isSome_iff_exists.mp runs
  exact ⟨t, path, connection_safe greeted_orderly path⟩

/-- With one write at a time, and unless an exception ended the thread, a connection is deleted once
nothing of it is outstanding, if and only if no write went well after the end of reading on a connection
that was to be kept. -/
theorem connection_deleted_iff {es : List ConnectionEvent}
    (orderly : (system server).Along (fun s e _ => Orderly server s e) {} es)
    (path : (system server).run {} es = some t) (idle : Idle t) (runs : t.status ≠ .stopped) :
    t.status = .deleted ↔ (system server).Along (fun s e _ => ¬Abandons s e) {} es := by
  have fresh : ¬Abandoned {} := fun abandoned => by cases abandoned.2.1
  obtain ⟨none, deleted⟩ := run_kept es tidy_initial fresh orderly path
  have tidy := (run_answered es tidy_initial orderly path).1
  refine ⟨deleted, fun still => ?_⟩
  obtain ⟨started, noReads, noWrites⟩ := idle
  cases status : t.status with
  | deleted => rfl
  | stopped => exact absurd status runs
  | freed => exact absurd status tidy.safe
  | alive =>
    refine absurd ⟨status, started, ?_, ?_⟩ (none still)
    · have reads := (tidy.ready status).reads
      cases reading : t.isReading with
      | false => rfl
      | true => rw [noReads, reading] at reads; cases reads
    · have flag := tidy.writes runs
      cases writing : t.isWriting with
      | false => rfl
      | true => rw [noWrites, writing] at flag; cases flag

theorem connection_deleted_iff_greeted : ∃ t, (system greeter).run {} greeted = some t ∧
    (t.status = .deleted ↔ (system greeter).Along (fun s e _ => ¬Abandons s e) {} greeted) := by
  have runs : (((system greeter).run {} greeted).map fun t =>
      (t.status, t.started, t.reads, t.writes)) = some (.deleted, true, 0, []) := by decide +kernel
  obtain ⟨t, path, seen⟩ := Option.map_eq_some_iff.mp runs
  obtain ⟨deleted, started, noReads, noWrites⟩ :
      t.status = .deleted ∧ t.started = true ∧ t.reads = 0 ∧ t.writes = [] := by
    simpa [Prod.ext_iff] using seen
  exact ⟨t, path, connection_deleted_iff greeted_orderly path ⟨started, noReads, noWrites⟩
    (by rw [deleted]; decide)⟩

end

end Connection

end Pinocchio.Crow
