import Pinocchio.Crow.HttpMessages
import Pinocchio.Crow.ConnectionEnds
import Pinocchio.Semantics.Simulation

/-! A connection with its parser.

What is read goes through the parser, whose callbacks the connection answers. So a run of both is seen
as a run of the connection, and requests that are cut in any way are answered in their order.
-/

set_option autoImplicit false

namespace Pinocchio.Crow
open Semantics

structure Session where
  parser : HTTPParser := {}
  connection : Connection := {}

/-- A read completes with an error, or with bytes, at a time whose date is sent. -/
inductive SessionEvent where
  | start
  | read (data : Option Bytes) (date : Bytes)
  | wrote (place : Nat) (ok : Bool)
  | timeout
  | reset

namespace Session

def bufferSize : Nat := 4096

/-- The parser is told where reading ends, unless the thread was ended before that. -/
def done (parser : HTTPParser) (c : Connection) : Option HTTPParser :=
  if c.isOpen || c.status = .stopped then some parser else (parser.feed []).map (·.1)

def step (server : Server) (s : Session) : SessionEvent → Option Session
  | .start => (s.connection.step server .start).map fun c => { s with connection := c }
  | .read none _ =>
    (s.connection.step server (.read none)).bind fun c => (done s.parser c).map (⟨·, c⟩)
  | .read (some data) date =>
    if data = [] ∨ bufferSize < data.length then none
    else
      (s.parser.feed data).bind fun (parser, callbacks, parsed) =>
        (s.connection.step server (.read (some ⟨callbacks, parsed, date⟩))).bind fun c =>
          (done parser c).map (⟨·, c⟩)
  | .wrote place ok => (s.connection.step server (.wrote place ok)).map fun c => { s with connection := c }
  | .timeout => (s.connection.step server .timeout).map fun c => { s with connection := c }
  | .reset => (s.connection.step server .reset).map fun c => { s with connection := c }

def system (server : Server) : System Session SessionEvent := ⟨{}, step server⟩

def seen (s : Session) : SessionEvent → ConnectionEvent
  | .start => .start
  | .read none _ => .read none
  | .read (some data) date =>
    .read ((s.parser.feed data).map fun (_, callbacks, parsed) => ⟨callbacks, parsed, date⟩)
  | .wrote place ok => .wrote place ok
  | .timeout => .timeout
  | .reset => .reset

section
variable {server : Server} {s t : Session} {e : SessionEvent}

theorem step_seen (step : step server s e = some t) :
    s.connection.step server (s.seen e) = some t.connection := by
  have keeps {e : ConnectionEvent}
      (same : (s.connection.step server e).map (fun c => { s with connection := c }) = some t) :
      s.connection.step server e = some t.connection := by
    obtain ⟨c, taken, rfl⟩ := Option.map_eq_some_iff.mp same
    exact taken
  cases e with
  | start => exact keeps step
  | wrote place ok => exact keeps step
  | timeout => exact keeps step
  | reset => exact keeps step
  | read data date =>
    cases data with
    | none =>
      obtain ⟨c, taken, rest⟩ := Option.bind_eq_some_iff.mp step
      obtain ⟨parser, _, rfl⟩ := Option.map_eq_some_iff.mp rest
      exact taken
    | some data =>
      simp only [Session.step] at step
      split at step
      · cases step
      obtain ⟨⟨parser, callbacks, parsed⟩, fed, rest⟩ := Option.bind_eq_some_iff.mp step
      obtain ⟨c, taken, rest⟩ := Option.bind_eq_some_iff.mp rest
      obtain ⟨parser, _, rfl⟩ := Option.map_eq_some_iff.mp rest
      rw [seen, fed]
      exact taken

/-! ## The parser -/

theorem feed_parser_sound {p q : HTTPParser} {data : Bytes} {calls : List Callback} {ok : Bool}
    (sound : p.Sound) (fed : p.feed data = some (q, calls, ok)) : q.Sound := by
  obtain ⟨q', calls', ok', fed', sound'⟩ := HTTPParser.feed_sound sound data
  cases fed.symm.trans fed'
  exact sound'

theorem done_sound {p : HTTPParser} (sound : p.Sound) (c : Connection) :
    ∃ q, done p c = some q ∧ q.Sound := by
  unfold done
  split
  · exact ⟨p, rfl, sound⟩
  · obtain ⟨q, calls, ok, fed, sound'⟩ := HTTPParser.feed_sound sound []
    exact ⟨q, by rw [fed]; rfl, sound'⟩

theorem step_sound (sound : s.parser.Sound) (step : Session.step server s e = some t) :
    t.parser.Sound := by
  have keeps {e : ConnectionEvent}
      (same : (s.connection.step server e).map (fun c => { s with connection := c }) = some t) :
      t.parser.Sound := by
    obtain ⟨c, taken, rfl⟩ := Option.map_eq_some_iff.mp same
    exact sound
  have ends {p : HTTPParser} {c : Connection} (sound : p.Sound)
      (same : (done p c).map (⟨·, c⟩) = some t) : t.parser.Sound := by
    obtain ⟨q, past, rfl⟩ := Option.map_eq_some_iff.mp same
    obtain ⟨q', past', sound'⟩ := done_sound sound c
    cases past.symm.trans past'
    exact sound'
  cases e with
  | start => exact keeps step
  | wrote place ok => exact keeps step
  | timeout => exact keeps step
  | reset => exact keeps step
  | read data date =>
    cases data with
    | none =>
      obtain ⟨c, _, rest⟩ := Option.bind_eq_some_iff.mp step
      exact ends sound rest
    | some data =>
      simp only [Session.step] at step
      split at step
      · cases step
      obtain ⟨⟨parser, callbacks, parsed⟩, fed, rest⟩ := Option.bind_eq_some_iff.mp step
      obtain ⟨c, _, rest⟩ := Option.bind_eq_some_iff.mp rest
      exact ends (feed_parser_sound sound fed) rest

theorem run_sound {es : List SessionEvent} (path : (system server).run {} es = some t) :
    t.parser.Sound :=
  System.run_invariant (P := fun t : Session => t.parser.Sound) HTTPParser.sound_initial path
    fun _ _ _ sound step => step_sound sound step

theorem session_goes {es : List SessionEvent} (path : (system server).run {} es = some t)
    (e : SessionEvent) (fits : ∀ data date, e = .read (some data) date → data ≠ [] ∧ data.length ≤ bufferSize) :
    (Session.step server t e).isSome = (t.connection.step server (t.seen e)).isSome := by
  have sound := run_sound path
  cases e with
  | start => exact Option.isSome_map
  | wrote place ok => exact Option.isSome_map
  | timeout => exact Option.isSome_map
  | reset => exact Option.isSome_map
  | read data date =>
    cases data with
    | none =>
      change ((t.connection.step server (.read none)).bind _).isSome = (t.connection.step server (.read none)).isSome
      cases t.connection.step server (.read none) with
      | none => rfl
      | some c =>
        obtain ⟨q, past, _⟩ := done_sound sound c
        simp [past]
    | some data =>
      obtain ⟨some', short⟩ := fits data date rfl
      obtain ⟨q, calls, ok, fed, sound'⟩ := HTTPParser.feed_sound sound data
      simp only [Session.step, seen, fed, if_neg (not_or.mpr ⟨some', Nat.not_lt.mpr short⟩), Option.bind_some,
        Option.map_some]
      cases t.connection.step server (.read (some ⟨calls, ok, date⟩)) with
      | none => rfl
      | some c =>
        obtain ⟨q', past, _⟩ := done_sound sound' c
        simp [past]

/-! ## What is called back -/

/-- The buffers that an event fills. -/
def received : SessionEvent → List Bytes
  | .read (some data) _ => [data]
  | _ => []

def callbacksOf : ConnectionEvent → List Callback
  | .read (some chunk) => chunk.callbacks
  | _ => []

def Over (c : Connection) : Prop := c.started = true ∧ (c.status = .stopped ∨ c.reads = 0)

theorem Over.step {c d : Connection} {e : ConnectionEvent} (past : Over c)
    (step : c.step server e = some d) : Over d ∧ ∀ chunk, e ≠ .read chunk := by
  obtain ⟨started, outcome⟩ := past
  cases e with
  | start =>
    simp only [Connection.step, started, if_true] at step
    cases step
  | read chunk =>
    simp only [Connection.step] at step
    rcases outcome with stopped | none
    · simp only [stopped, decide_true, Bool.or_true, if_true] at step
      cases step
    · simp only [none, decide_true, Bool.true_or, if_true] at step
      cases step
  | wrote place ok =>
    simp only [Connection.step] at step
    split at step
    · cases step
    rename_i goes
    simp only [Bool.or_eq_true, decide_eq_true_eq, not_or] at goes
    have none : c.reads = 0 := outcome.resolve_left goes.2
    refine ⟨?_, fun _ no => by cases no⟩
    split at step
    · cases step
      unfold Connection.onWrote Connection.checkDestroy
      simp only []
      repeat' split
      all_goals exact ⟨started, Or.inr none⟩
    · cases step
      exact ⟨started, Or.inr none⟩
  | timeout =>
    simp only [Connection.step] at step
    split at step
    · cases step
      exact ⟨⟨started, outcome⟩, fun _ no => by cases no⟩
    · cases step
  | reset =>
    simp only [Connection.step] at step
    split at step
    · cases step
      exact ⟨⟨started, outcome⟩, fun _ no => by cases no⟩
    · cases step

theorem onRead_cases {c : Connection} (alive : c.status = .alive) (ready : c.Ready) (reading : c.reads ≠ 0)
    (chunk : Chunk) :
    Over (c.onRead server (some chunk)) ∨
      chunk.parsed = true ∧ (c.onRead server (some chunk)).isOpen = true := by
  obtain ⟨_, none, started⟩ := ready.reading reading
  obtain ⟨bs, began, _⟩ := @Connection.feed_began server chunk.date chunk.callbacks
    { c with reads := c.reads - 1 } (by rw [alive]; decide) ⟨ready.sync.after, ready.sync.start⟩
  rw [Connection.onRead_some]
  generalize ({ c with reads := c.reads - 1 } : Connection).feed server chunk.date chunk.callbacks = d
    at began ⊢
  have started' : d.started = true := began.started.trans started
  simp only []
  split
  · exact Or.inl ⟨started', Or.inl ‹_›⟩
  split
  · left
    have none' : d.reads = 0 := began.reads.trans none
    unfold Connection.stopReading Connection.checkDestroy
    split <;> exact ⟨started', Or.inr none'⟩
  · rename_i goesOn
    simp only [Bool.not_eq_true', Bool.and_eq_false_iff, not_or, Bool.not_eq_false] at goesOn
    rw [if_pos (by rw [began.sync.after]; rfl)]
    exact Or.inr ⟨goesOn.1.1, goesOn.1.2⟩

theorem step_read {c d : Connection} {chunk : Option Chunk} (step : c.step server (.read chunk) = some d) :
    c.reads ≠ 0 ∧ (c.status = .alive ∧ d = c.onRead server chunk ∨
      c.status ≠ .alive ∧ d.status = .freed ∧ d.started = c.started) := by
  simp only [Connection.step] at step
  split at step
  · cases step
  rename_i goes
  simp only [Bool.or_eq_true, decide_eq_true_eq, not_or] at goes
  refine ⟨goes.1, ?_⟩
  split at step
  · cases step
    exact Or.inl ⟨‹_›, rfl⟩
  · cases step
    exact Or.inr ⟨‹_›, rfl, rfl⟩

theorem run_over {es : List SessionEvent} (past : Over s.connection) (path : (system server).run s es = some t) :
    es.flatMap received = [] ∧ ((system server).trace seen s es).flatMap callbacksOf = [] := by
  induction es generalizing s with
  | nil => exact ⟨rfl, rfl⟩
  | cons e es ih =>
    obtain ⟨u, step, rest⟩ := ((system server).run_cons_some).mp path
    obtain ⟨past', noRead⟩ := past.step (step_seen step)
    obtain ⟨none, silent⟩ := ih past' rest
    rw [System.trace_cons step, List.flatMap_cons, List.flatMap_cons, none, silent]
    cases e with
    | read data date =>
      cases data with
      | none => exact absurd rfl (noRead _)
      | some data => exact absurd rfl (noRead _)
    | _ => exact ⟨rfl, rfl⟩

theorem run_freed {es : List SessionEvent} (freed : s.connection.status = .freed)
    (started : s.connection.started = true) (path : (system server).run s es = some t) :
    t.connection.status = .freed := by
  induction es generalizing s with
  | nil =>
    cases path
    exact freed
  | cons e es ih =>
    obtain ⟨u, step, rest⟩ := ((system server).run_cons_some).mp path
    obtain ⟨_, started', ⟨status, _⟩ | ⟨_, freed', _⟩⟩ :=
      Connection.step_over (by rw [freed]; decide) started (step_seen step)
    · exact ih (status.trans freed) started' rest
    · exact ih freed' started' rest

/-- What the connection sees is what the parser calls back for all that was read, as long as nothing runs
on a connection that is deleted. -/
theorem run_calls {es : List SessionEvent} (sane : s.connection.Sane) (sound : s.parser.Sound)
    (kept : t.connection.status ≠ .freed) (path : (system server).run s es = some t) :
    ∃ q ok, s.parser.feedAll (es.flatMap received) =
      some (q, ((system server).trace seen s es).flatMap callbacksOf, ok) := by
  induction es generalizing s with
  | nil => exact ⟨s.parser, true, rfl⟩
  | cons e es ih =>
    obtain ⟨u, step, rest⟩ := ((system server).run_cons_some).mp path
    have taken := step_seen step
    have sane' := Connection.step_sane sane taken
    have sound' := step_sound sound step
    rw [System.trace_cons step, List.flatMap_cons, List.flatMap_cons]
    have keeps {e : ConnectionEvent}
        (same : (s.connection.step server e).map (fun c => { s with connection := c }) = some u) :
        ∃ q ok, s.parser.feedAll (es.flatMap received) =
          some (q, ((system server).trace seen u es).flatMap callbacksOf, ok) := by
      obtain ⟨c, _, rfl⟩ := Option.map_eq_some_iff.mp same
      exact ih sane' sound' rest
    cases e with
    | start => exact keeps step
    | wrote place ok => exact keeps step
    | timeout => exact keeps step
    | reset => exact keeps step
    | read data date =>
      have live {chunk : Option Chunk} (taken : s.connection.step server (.read chunk) = some u.connection) :
          s.connection.reads ≠ 0 ∧ s.connection.status = .alive ∧
            u.connection = s.connection.onRead server chunk := by
        obtain ⟨reading, ⟨alive, same⟩ | ⟨gone, freed, started⟩⟩ := step_read taken
        · exact ⟨reading, alive, same⟩
        · exact absurd (run_freed freed (started.trans (sane.begun (Or.inl gone))) rest) kept
      cases data with
      | none =>
        obtain ⟨reading, alive, same⟩ := live taken
        obtain ⟨_, no, started⟩ := (sane.ready alive).reading reading
        have past : Over u.connection := by
          rw [same]
          change Over (Connection.stopReading _)
          unfold Connection.stopReading Connection.checkDestroy
          split <;> exact ⟨started, Or.inr no⟩
        obtain ⟨nothing, silent⟩ := run_over past rest
        rw [nothing, silent]
        exact ⟨s.parser, true, rfl⟩
      | some data =>
        obtain ⟨q, calls, ok, fed, _⟩ := HTTPParser.feed_sound sound data
        have here : s.seen (.read (some data) date) = .read (some ⟨calls, ok, date⟩) := by
          rw [seen, fed]
          rfl
        rw [here] at taken ⊢
        obtain ⟨reading, alive, same⟩ := live taken
        change ∃ q' ok', s.parser.feedAll (data :: es.flatMap received) = some (q', calls ++ _, ok')
        rw [HTTPParser.feedAll, fed, Option.bind_some]
        rcases onRead_cases alive (sane.ready alive) reading ⟨calls, ok, date⟩ with past | ⟨parsed, isOpen⟩
        · rw [← same] at past
          obtain ⟨nothing, silent⟩ := run_over past rest
          rw [nothing, silent, List.append_nil]
          cases ok with
          | true => exact ⟨q, true, by simp [HTTPParser.feedAll]⟩
          | false => exact ⟨q, false, rfl⟩
        · rw [← same] at isOpen
          change Session.step server s (.read (some data) date) = some u at step
          simp only [Session.step, fed, Option.bind_some] at step
          split at step
          · cases step
          obtain ⟨c, _, last⟩ := Option.bind_eq_some_iff.mp step
          obtain ⟨p, past, rfl⟩ := Option.map_eq_some_iff.mp last
          have still : done q c = some q := if_pos (by rw [isOpen]; rfl)
          cases past.symm.trans still
          obtain ⟨q', ok', fed'⟩ := ih sane' sound' rest
          cases parsed
          exact ⟨q', ok', by simp [fed']⟩

/-! ## What is answered -/

/-- The callbacks of an event with the date that is sent in the answers to them. -/
def dated : ConnectionEvent → List (Bytes × Callback)
  | .read (some chunk) => chunk.callbacks.map fun call => (chunk.date, call)
  | _ => []

theorem dated_callbacks (e : ConnectionEvent) : (dated e).map Prod.snd = callbacksOf e := by
  cases e with
  | read chunk =>
    cases chunk with
    | none => rfl
    | some chunk => simp [dated, callbacksOf, Function.comp_def]
  | _ => rfl

theorem dated_answers (e : ConnectionEvent) :
    Connection.answersToEvent server e =
      (dated e).flatMap fun call => Connection.answersTo server call.1 call.2 := by
  cases e with
  | read chunk =>
    cases chunk with
    | none => rfl
    | some chunk => simp [dated, Connection.answersToEvent, Connection.answersToAll, List.flatMap_map]
  | _ => rfl

theorem seen_dated {call : Bytes × Callback} (member : call ∈ dated (s.seen e)) :
    ∃ data, e = .read data call.1 := by
  cases e with
  | read data date =>
    cases data with
    | none => cases member
    | some data =>
      rw [seen] at member
      cases fed : s.parser.feed data with
      | none =>
        rw [fed] at member
        cases member
      | some result =>
        rw [fed] at member
        obtain ⟨_, _, rfl⟩ := List.mem_map.mp member
        exact ⟨some data, rfl⟩
  | _ => cases member

theorem trace_dated {es : List SessionEvent} {call : Bytes × Callback}
    (member : call ∈ ((system server).trace seen s es).flatMap dated) : ∃ data, .read data call.1 ∈ es := by
  induction es generalizing s with
  | nil => cases member
  | cons e es ih =>
    cases step : (system server).step s e with
    | none =>
      simp only [System.trace, step] at member
      cases member
    | some u =>
      rw [System.trace_cons step, List.flatMap_cons] at member
      rcases List.mem_append.mp member with here | later
      · obtain ⟨data, rfl⟩ := seen_dated here
        exact ⟨data, List.mem_cons_self⟩
      · obtain ⟨data, found⟩ := ih later
        exact ⟨data, List.mem_cons_of_mem _ found⟩

theorem received_ne_nil {es : List SessionEvent} (path : (system server).run s es = some t) :
    ∀ data ∈ es.flatMap received, data ≠ [] := by
  induction es generalizing s with
  | nil => exact fun _ no => by cases no
  | cons e es ih =>
    obtain ⟨u, step, rest⟩ := ((system server).run_cons_some).mp path
    intro data member
    rw [List.flatMap_cons] at member
    rcases List.mem_append.mp member with here | later
    · cases e with
      | read filled date =>
        cases filled with
        | none => cases here
        | some filled =>
          cases List.mem_singleton.mp here
          rintro rfl
          cases step
      | _ => cases here
    · exact ih rest data later

def spoken : List SessionEvent :=
  [.start, .read (some (posting.written.take 40)) (ascii "now"), .read (some (posting.written.drop 40)) (ascii "now"),
    .wrote 0 true, .read (some asking.written) (ascii "later")]

theorem spoken_orderly : (system Connection.greeter).Along
    (fun s e _ => Connection.Orderly Connection.greeter s.connection (s.seen e)) {} spoken := by
  decide +kernel

end

end Session

end Pinocchio.Crow
