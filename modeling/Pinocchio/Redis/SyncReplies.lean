import Pinocchio.Semantics.History
import Pinocchio.Redis.SyncClient

/-! When synchronous commands of several threads do not mix.

Nothing in `doSyncCommand` keeps the threads apart, so one can read the bytes of
another's reply. As long as every thread takes bytes of its own reply only, and
does not parse them in the middle of another one, every value is returned to the
call that asked for it.
-/

set_option autoImplicit false

namespace Pinocchio.Redis
open Semantics Reader

namespace SyncRun
variable {T : Type} {s u : SyncRun T}

/-- The bytes on their way that answer a call. -/
def own (s : SyncRun T) (call : Nat) : Bytes :=
  (s.toClient.filter (·.1 = call)).map Prod.snd

def answer (s : SyncRun T) (call : Nat) : Bytes :=
  match s.served[call]? with
  | some (_, reply) => reply.encode
  | none => []

/-- The reply to a call: what the parser was fed of it, what its thread has read besides, and
what is on its way. Only the holder's part was fed. -/
def Progresses (s : SyncRun T) (call : Nat) (rest : Bytes) : Prop :=
  ∃ fed r, resp.scan resp.start fed = .pending r ∧ fed ++ rest ++ s.own call = s.answer call ∧
    if s.holder = some call then Represents s.redisParser r else fed = []

structure Separate (s : SyncRun T) : Prop where
  returned : OwnReplies s
  unread : s.toServer = (s.calls.drop s.served.length).flatMap fun done => makeCommand done.2
  answered : ∀ (k : Nat) (command : RedisValue) (reply : Reply),
    s.served[k]? = some (command, reply) → reply.WellFormed intMin intMax ∧
      ∃ (t : T) (items : Items), s.calls[k]? = some (t, items) ∧ command = items.value
  tags : ∀ byte ∈ s.toClient, byte.1 < s.served.length
  owner : ∀ (t : T) (call : Nat) (rest : Bytes), (s.threads t).current = some (call, rest) →
    ∃ items : Items, s.calls[call]? = some (t, items)
  progress : ∀ (t : T) (call : Nat) (rest : Bytes), (s.threads t).current = some (call, rest) →
    s.Progresses call rest
  holder : ∀ call, s.holder = some call →
    ∃ (t : T) (rest : Bytes), (s.threads t).current = some (call, rest)
  fresh : s.holder = none → Represents s.redisParser resp.start

theorem Separate.served_le (held : Separate s) : s.served.length ≤ s.calls.length := by
  by_contra longer
  have last : s.calls.length < s.served.length := by omega
  obtain ⟨_, t, items, found, _⟩ := held.answered s.calls.length _ _ (List.getElem?_eq_getElem last)
  simp at found

theorem Separate.apart (held : Separate s) {t v : T} {call : Nat} {rest other : Bytes}
    (first : (s.threads t).current = some (call, rest))
    (second : (s.threads v).current = some (call, other)) : t = v := by
  obtain ⟨items, here⟩ := held.owner t call rest first
  obtain ⟨others, there⟩ := held.owner v call other second
  rw [here] at there
  exact congrArg Prod.fst (Option.some.inj there)

theorem own_append (s : SyncRun T) (call : Nat) (n : Nat) :
    s.own call = ((s.toClient.take n).filter (·.1 = call)).map Prod.snd ++
      ((s.toClient.drop n).filter (·.1 = call)).map Prod.snd := by
  rw [← List.map_append, ← List.filter_append, List.take_append_drop]
  rfl

theorem Separate.own_unserved (held : Separate s) {call : Nat} (late : s.served.length ≤ call) :
    s.own call = [] := by
  have none : s.toClient.filter (·.1 = call) = [] := by
    rw [List.filter_eq_nil_iff]
    intro byte member
    have early := held.tags byte member
    simp only [decide_eq_true_eq]
    omega
  rw [own, none, List.map_nil]

theorem Progresses.of_same {call : Nat} {rest : Bytes} (held : s.Progresses call rest)
    (own : u.own call = s.own call) (answer : u.answer call = s.answer call)
    (holder : u.holder = s.holder) (parser : u.redisParser = s.redisParser) :
    u.Progresses call rest := by
  obtain ⟨fed, r, pending, bytes, role⟩ := held
  refine ⟨fed, r, pending, ?_, ?_⟩
  · rw [own, answer]
    exact bytes
  · rw [holder, parser]
    exact role

theorem Separate.serve (held : Separate s) {command : RedisValue} {used : Nat} {reply : Reply}
    (whole : resp.scan resp.start s.toServer = .done command used)
    (fits : reply.WellFormed intMin intMax) : Separate (s.serve command used reply) := by
  have unread := held.unread
  obtain ⟨t, items, found, rfl, left⟩ : ∃ (t : T) (items : Items),
      s.calls[s.served.length]? = some (t, items) ∧ command = items.value ∧
      s.toServer.drop used =
        (s.calls.drop (s.served.length + 1)).flatMap fun done => makeCommand done.2 := by
    cases due : s.calls.drop s.served.length with
    | nil =>
      rw [unread, due] at whole
      cases whole
    | cons first later =>
      obtain ⟨t, items⟩ := first
      rw [unread, due, List.flatMap_cons, (makeCommand_yields items).done] at whole
      cases whole
      refine ⟨t, items, getElem?_of_drop due, rfl, ?_⟩
      rw [unread, due, List.flatMap_cons, List.drop_left, ← List.drop_drop, due, List.drop_one,
        List.tail_cons]
  have own (call : Nat) : (s.serve items.value used reply).own call =
      s.own call ++ if call = s.served.length then reply.encode else [] := by
    simp only [SyncRun.own, SyncRun.serve, List.filter_append, List.map_append, List.filter_map]
    split
    · rename_i same
      simp [Function.comp_def, same]
    · rename_i other
      simp [Function.comp_def, Ne.symm other]
  have answer (call : Nat) (other : call ≠ s.served.length) :
      (s.serve items.value used reply).answer call = s.answer call := by
    simp only [SyncRun.answer, SyncRun.serve, getElem?_grow_other other]
  refine ⟨?_, ?_, ?_, ?_, held.owner, ?_, held.holder, held.fresh⟩
  · intro call v member
    obtain ⟨w, words, old, called, answered, same⟩ := held.returned call v member
    exact ⟨w, words, old, called, getElem?_grow answered _, same⟩
  · simp only [SyncRun.serve, List.length_append, List.length_singleton]
    exact left
  · intro k other old here
    rcases getElem?_grow_one here with before | ⟨rfl, new⟩
    · exact held.answered k other old before
    · cases new
      exact ⟨fits, t, items, found, rfl⟩
  · intro byte member
    simp only [SyncRun.serve, List.length_append, List.length_singleton, List.mem_append,
      List.mem_map] at member ⊢
    rcases member with old | ⟨_, _, rfl⟩
    · exact Nat.lt_succ_of_lt (held.tags byte old)
    · exact Nat.lt_succ_self _
  · intro v call rest here
    have before := held.progress v call rest here
    by_cases same : call = s.served.length
    · -- The reply to this very call arrives: nothing of it was read before.
      obtain ⟨fed, r, pending, bytes, role⟩ := before
      have nothing : s.answer call = [] := by
        rw [SyncRun.answer, same, List.getElem?_eq_none (Nat.le_refl _)]
      have whole : (s.serve items.value used reply).answer call = reply.encode := by
        simp [SyncRun.answer, SyncRun.serve, same]
      refine ⟨fed, r, pending, ?_, role⟩
      rw [own call, if_pos same, whole, ← List.append_assoc, bytes, nothing, List.nil_append]
    · refine before.of_same ?_ (answer call same) rfl rfl
      rw [own call, if_neg same, List.append_nil]

theorem Separate.parsed (held : Separate s) {t : T} {call : Nat} {rest : Bytes}
    (here : (s.threads t).current = some (call, rest))
    (mine : s.holder = none ∨ s.holder = some call) :
    ∃ fed r, Represents s.redisParser r ∧ resp.scan resp.start fed = .pending r ∧
      fed ++ rest ++ s.own call = s.answer call := by
  obtain ⟨fed, r, pending, bytes, role⟩ := held.progress t call rest here
  rcases mine with free | holding
  · rw [if_neg (by rw [free]; simp)] at role
    subst role
    cases pending
    exact ⟨[], resp.start, held.fresh free, rfl, bytes⟩
  · rw [if_pos holding] at role
    exact ⟨fed, r, role, pending, bytes⟩

/-- A call that has bytes to parse was answered, and these bytes with those on their way take
the parser to the end of the reply. -/
theorem Separate.due (held : Separate s) {call : Nat} {fed rest : Bytes} {r : Reader}
    (present : rest ≠ []) (pending : resp.scan resp.start fed = .pending r)
    (bytes : fed ++ rest ++ s.own call = s.answer call) :
    ∃ (t : T) (items : Items) (reply : Reply), s.calls[call]? = some (t, items) ∧
      s.served[call]? = some (items.value, reply) ∧
      resp.scan r (rest ++ s.own call) = .done reply.value (rest ++ s.own call).length := by
  cases served : s.served[call]? with
  | none =>
    rw [answer, served] at bytes
    have empty := (List.append_eq_nil_iff.mp (List.append_eq_nil_iff.mp bytes).1).2
    exact absurd empty present
  | some entry =>
    obtain ⟨command, reply⟩ := entry
    obtain ⟨fits, t, items, called, rfl⟩ := held.answered call command reply served
    have whole := (Reply.encode_done (fits.widen (by decide) (by decide))).exact
    refine ⟨t, items, reply, called, rfl, Machine.scan_rest _ ?_ pending⟩
    rw [← List.append_assoc, bytes, answer, served]
    exact whole

theorem Separate.bystander (held : Separate s) {t v : T} {call other : Nat} {rest more : Bytes}
    (here : (s.threads t).current = some (call, rest)) (different : v ≠ t)
    (there : (s.threads v).current = some (other, more))
    (mine : s.holder = none ∨ s.holder = some call) (own : u.own other = s.own other)
    (answer : u.answer other = s.answer other) (holder : u.holder = none ∨ u.holder = some call) :
    u.Progresses other more := by
  have distinct : other ≠ call := by
    rintro rfl
    exact different (held.apart there here)
  -- Of the other call nothing was fed to the parser, before the step and after it.
  have foreign : s.holder ≠ some other := by
    rcases mine with free | holding
    · rw [free]; simp
    · rw [holding]; simpa using Ne.symm distinct
  have foreign' : u.holder ≠ some other := by
    rcases holder with free | holding
    · rw [free]; simp
    · rw [holding]; simpa using Ne.symm distinct
  obtain ⟨fed, r, pending, bytes, role⟩ := held.progress v other more there
  rw [if_neg foreign] at role
  refine ⟨fed, r, pending, ?_, ?_⟩
  · rw [own, answer]
    exact bytes
  · rw [if_neg foreign']
    exact role

variable [DecidableEq T]

theorem current_goto (s : SyncRun T) (t v : T) (phase : Phase) :
    ((s.goto t phase).threads v).current =
      if v = t then phase.current else (s.threads v).current := by
  simp only [goto, Function.update_apply]
  split <;> rfl

theorem Separate.write (held : Separate s) {t : T} (items : Items) (idle : s.threads t = .idle) :
    Separate (s.write t items) := by
  have bound := held.served_le
  have unserved : s.answer s.calls.length = [] := by
    simp only [answer, List.getElem?_eq_none bound]
  -- A new call has no reply yet, and cannot be in the middle of one.
  have holds : s.holder ≠ some s.calls.length := by
    intro same
    obtain ⟨v, rest, here⟩ := held.holder _ same
    obtain ⟨words, found⟩ := held.owner v _ rest here
    simp at found
  refine ⟨?_, ?_, ?_, held.tags, ?_, ?_, ?_, held.fresh⟩
  · intro call v member
    obtain ⟨w, words, reply, found, same⟩ := held.returned call v member
    exact ⟨w, words, reply, getElem?_grow found _, same⟩
  · simp only [SyncRun.write, goto]
    rw [List.drop_append_of_le_length bound, List.flatMap_append, ← held.unread]
    simp
  · intro k command reply found
    obtain ⟨fits, w, words, here, same⟩ := held.answered k command reply found
    exact ⟨fits, w, words, getElem?_grow here _, same⟩
  · intro v call rest here
    simp only [SyncRun.write, current_goto] at here
    split at here
    · rename_i same
      cases here
      exact ⟨items, by simp [SyncRun.write, same]⟩
    · obtain ⟨words, found⟩ := held.owner v call rest here
      exact ⟨words, getElem?_grow found _⟩
  · intro v call rest here
    simp only [SyncRun.write, current_goto] at here
    split at here
    · cases here
      refine ⟨[], resp.start, rfl, ?_, ?_⟩
      · exact (held.own_unserved bound).trans unserved.symm
      · exact (if_neg holds).symm ▸ rfl
    · exact held.progress v call rest here
  · intro call holding
    obtain ⟨v, rest, here⟩ := held.holder call holding
    refine ⟨v, rest, ?_⟩
    simp only [SyncRun.write, current_goto]
    rw [if_neg, here]
    rintro rfl
    rw [idle] at here
    cases here

theorem Separate.readSome (held : Separate s) {t : T} {call n : Nat}
    (reading : s.threads t = .reading call)
    (mine : ∀ byte ∈ s.toClient.take n, byte.1 = call) : Separate (s.readSome t call n) := by
  have here : (s.threads t).current = some (call, []) := by rw [reading]; rfl
  have taken (other : Nat) : ((s.toClient.take n).filter (·.1 = other)).map Prod.snd =
      if other = call then (s.toClient.take n).map Prod.snd else [] := by
    split
    · rename_i same
      rw [List.filter_eq_self.mpr]
      intro byte member
      simp [mine byte member, same]
    · rename_i different
      rw [List.filter_eq_nil_iff.mpr, List.map_nil]
      intro byte member
      simp [mine byte member, Ne.symm different]
  refine ⟨held.returned, held.unread, held.answered, ?_, ?_, ?_, ?_, held.fresh⟩
  · intro byte member
    exact held.tags byte (List.mem_of_mem_drop member)
  · intro v other rest there
    simp only [SyncRun.readSome, current_goto] at there
    split at there
    · rename_i same
      cases there
      exact same ▸ held.owner t call [] here
    · exact held.owner v other rest there
  · intro v other rest there
    simp only [SyncRun.readSome, current_goto] at there
    split at there
    · cases there
      obtain ⟨fed, r, pending, bytes, role⟩ := held.progress t call [] here
      refine ⟨fed, r, pending, ?_, role⟩
      rw [own_append s call n, taken call, if_pos rfl, List.append_nil] at bytes
      rw [List.drop_zero, List.append_assoc]
      exact bytes
    · rename_i different
      have distinct : other ≠ call := by
        rintro rfl
        exact different (held.apart there here)
      refine (held.progress v other rest there).of_same ?_ rfl rfl rfl
      rw [own_append s other n, taken other, if_neg distinct]
      rfl
  · intro other holding
    obtain ⟨v, rest, there⟩ := held.holder other holding
    by_cases same : v = t
    · subst same
      rw [here] at there
      cases there
      exact ⟨v, _, by simp only [SyncRun.readSome, current_goto, if_true]; rfl⟩
    · exact ⟨v, rest, by simp only [SyncRun.readSome, current_goto, if_neg same]; exact there⟩

theorem Separate.parsedMore (held : Separate s) {t : T} {call pos next : Nat} {inbuff fed : Bytes}
    {r q : Reader} {parser : RedisParser}
    (here : (s.threads t).current = some (call, inbuff.drop pos))
    (mine : s.holder = none ∨ s.holder = some call)
    (pending : resp.scan resp.start fed = .pending r)
    (bytes : fed ++ inbuff.drop pos ++ s.own call = s.answer call)
    (outcome : resp.scan r (inbuff.drop pos) = .pending q) (rep : Represents parser q)
    (none : inbuff.drop next = []) :
    Separate { s.goto t (.parsing call inbuff next) with
      redisParser := parser, holder := some call } := by
  refine ⟨held.returned, held.unread, held.answered, held.tags, ?_, ?_, ?_, ?_⟩
  · intro v other rest there
    simp only [current_goto] at there
    split at there
    · rename_i same
      cases there
      exact same ▸ held.owner t call _ here
    · exact held.owner v other rest there
  · intro v other rest there
    simp only [current_goto] at there
    split at there
    · cases there
      refine ⟨fed ++ inbuff.drop pos, q, ?_, ?_, ?_⟩
      · rw [Machine.scan_append, pending]
        simp only [outcome, Outcome.shift_pending]
      · rw [none, List.append_nil]
        exact bytes
      · exact (if_pos rfl).symm ▸ rep
    · rename_i different
      exact held.bystander here different there mine rfl rfl (Or.inr rfl)
  · intro other holding
    cases holding
    exact ⟨t, _, by simp only [current_goto, if_true]; rfl⟩
  · intro free
    cases free

theorem Separate.parsedValue (held : Separate s) {t w : T} {call : Nat} {rest : Bytes}
    {items : Items} {reply : Reply} {parser : RedisParser}
    (here : (s.threads t).current = some (call, rest))
    (mine : s.holder = none ∨ s.holder = some call) (called : s.calls[call]? = some (w, items))
    (served : s.served[call]? = some (items.value, reply)) (rep : Represents parser resp.start) :
    Separate { s.goto t .idle with
      redisParser := parser
      returned := s.returned ++ [(call, reply.value)]
      holder := none } := by
  refine ⟨?_, held.unread, held.answered, held.tags, ?_, ?_, ?_, fun _ => rep⟩
  · intro other v member
    rcases List.mem_append.mp member with old | new
    · exact held.returned other v old
    · obtain ⟨rfl, rfl⟩ := Prod.mk.inj (List.mem_singleton.mp new)
      exact ⟨w, items, reply, called, served, rfl⟩
  · intro v other rest there
    simp only [current_goto] at there
    split at there
    · cases there
    · exact held.owner v other rest there
  · intro v other rest there
    simp only [current_goto] at there
    split at there
    · cases there
    · rename_i different
      exact held.bystander here different there mine rfl rfl (Or.inl rfl)
  · intro other holding
    cases holding

theorem Separate.again (held : Separate s) {t : T} {call : Nat}
    (here : (s.threads t).current = some (call, [])) :
    Separate (s.goto t (.reading call)) := by
  have current (v : T) : ((s.goto t (.reading call)).threads v).current =
      (s.threads v).current := by
    rw [current_goto]
    split
    · rename_i same
      rw [same, here]
      rfl
    · rfl
  refine ⟨held.returned, held.unread, held.answered, held.tags, ?_, ?_, ?_, held.fresh⟩
  · intro v other rest there
    exact held.owner v other rest (current v ▸ there)
  · intro v other rest there
    exact held.progress v other rest (current v ▸ there)
  · intro other holding
    obtain ⟨v, rest, there⟩ := held.holder other holding
    exact ⟨v, rest, (current v).trans there⟩

theorem Separate.parse (held : Separate s) {t : T} {call : Nat} {inbuff : Bytes} {pos : Nat}
    (parsing : s.threads t = .parsing call inbuff pos)
    (mine : s.holder = none ∨ s.holder = some call) : Separate (s.parse t call inbuff pos) := by
  have here : (s.threads t).current = some (call, inbuff.drop pos) := by rw [parsing]; rfl
  by_cases more : pos < inbuff.length
  · obtain ⟨fed, r, rep, pending, bytes⟩ := held.parsed here mine
    have present : inbuff.drop pos ≠ [] := by
      rw [ne_eq, List.drop_eq_nil_iff]
      omega
    obtain ⟨w, items, reply, called, served, reads⟩ := held.due present pending bytes
    have got := receive_meets rep inbuff pos
    simp only [SyncRun.parse, if_pos more]
    rw [Machine.scan_append] at reads
    cases outcome : resp.scan r (inbuff.drop pos) with
    | rejected used =>
      rw [outcome] at reads
      cases reads
    | pending q =>
      rw [outcome] at got
      obtain ⟨parser, got, rep'⟩ := got
      have none : inbuff.drop (pos + (inbuff.length - pos)) = [] := by
        rw [List.drop_eq_nil_iff]
        omega
      simp only [got]
      exact held.parsedMore here mine pending bytes outcome rep' none
    | done v used =>
      rw [outcome] at got reads
      obtain ⟨parser, got, rep'⟩ := got
      cases reads
      simp only [got]
      exact held.parsedValue here mine called served rep'
  · have none : inbuff.drop pos = [] := List.drop_eq_nil_of_le (by omega)
    simp only [SyncRun.parse, if_neg more]
    exact held.again (none ▸ here)

theorem Separate.step {e : SyncEvent T} (held : Separate s) (apart : Apart s e)
    (taken : Taken s e u) : Separate u := by
  cases taken with
  | write items idle => exact held.write items idle
  | serve whole => exact held.serve whole apart
  | readSome reading bounds =>
    refine held.readSome reading fun byte member => ?_
    have mine := apart byte member
    rw [reading] at mine
    exact (Option.some.inj mine).symm
  | parse parsing =>
    have mine : s.holder = none ∨ s.holder = _ := apart
    rw [parsing] at mine
    exact held.parse parsing mine

end SyncRun

open SyncRun

theorem syncClient_separate {T : Type} [DecidableEq T] {s : SyncRun T}
    (reached : (syncClient T).Reaches Apart s) : Separate s := by
  refine reached.invariant ?_ fun s e u held apart step => held.step apart (taken_of_step step).2
  refine ⟨?_, rfl, ?_, ?_, ?_, ?_, ?_, fun _ => represents_initial⟩
  all_goals simp [syncClient, OwnReplies, Phase.current]

/-- Where the threads keep apart, every call returns the reply to its own command. -/
theorem syncClient_ownReplies {T : Type} [DecidableEq T] {s : SyncRun T}
    (reached : (syncClient T).Reaches Apart s) : OwnReplies s :=
  (syncClient_separate reached).returned

theorem sismember_fits : ((ascii "SISMEMBER").length : Int) ≤ longMax := by decide

theorem userToken_fits : ((ascii "userToken").length : Int) ≤ longMax := by decide

def membershipEvents : List (SyncEvent Bool) :=
  let ask (token : UInt8) : Items :=
    ⟨[⟨ascii "SISMEMBER", sismember_fits⟩, ⟨ascii "userToken", userToken_fits⟩,
        ⟨[token], one_le_longMax⟩],
      three_le_longMax⟩
  [.write false (ask 97), .write true (ask 98), .serve (.integer 1), .serve (.integer 0)]

def inOrder : List (SyncEvent Bool) :=
  membershipEvents ++ [.readSome false 3, .parse false, .parse false, .readSome false 1,
    .parse false, .readSome true 4, .parse true]

def crossed : List (SyncEvent Bool) := membershipEvents ++ [.readSome true 4, .parse true]

def inOrderEnd : SyncRun Bool :=
  ((syncClient Bool).run (syncClient Bool).initial inOrder).get (by decide +kernel)

def crossedEnd : SyncRun Bool :=
  ((syncClient Bool).run (syncClient Bool).initial crossed).get (by decide +kernel)

theorem syncClient_ownReplies_inOrder :
    inOrderEnd.returned = [(0, .int 1), (1, .int 0)] ∧ OwnReplies inOrderEnd :=
  ⟨by decide +kernel, syncClient_ownReplies
    (System.Reaches.run .initial (by decide +kernel) (Option.some_get _).symm)⟩

/-- The thread whose token is not a member is told that it is. -/
theorem syncClient_crossed :
    ¬∀ s, (syncClient Bool).Reaches Proper s → OwnReplies s := by
  intro always
  have reached : (syncClient Bool).Reaches Proper crossedEnd :=
    System.Reaches.run .initial (by decide +kernel) (Option.some_get _).symm
  have returned : (1, .int 1) ∈ crossedEnd.returned := by decide +kernel
  have served : crossedEnd.served.map (·.2.value) = [.int 1, .int 0] := by decide +kernel
  obtain ⟨t, items, reply, _, found, same⟩ := always crossedEnd reached 1 (.int 1) returned
  have second := congrArg (fun values => values[1]?) served
  simp only [List.getElem?_map, found, Option.map_some, ← same] at second
  exact absurd second (by decide)

end Pinocchio.Redis
