import Pinocchio.Redis.Subscriptions

/-! What the client does with a message.

It goes to every handle on its channel that was not given back. Single shots are kept in a
multimap too, but only one of them is looked up.
-/

set_option autoImplicit false

namespace Pinocchio.Redis
open Semantics RedisClientImpl

namespace AsyncRun
variable {H M : Type} {s t : AsyncRun H M}

/-- The message that arrives in the next turn. A client that has not subscribed gets none. -/
def arriving (s : AsyncRun H M) : Option (Bytes × Bytes) :=
  if s.impl.state = .subscribed then s.nextValue.bind messageOf else none

theorem turn_arriving {dummyHandler : H} {channel payload : Bytes}
    (arrives : s.arriving = some (channel, payload)) (taken : Taken dummyHandler s .turn t) :
    ∃ redisParser reading, t =
      { s with impl := { s.impl with redisParser }.dispatch channel payload, reading } := by
  obtain ⟨state, arrives⟩ := Option.ite_none_right_eq_some.mp arrives
  obtain ⟨v, next, message⟩ := Option.bind_eq_some_iff.mp arrives
  cases taken with
  | @turn buf pos parsing =>
  simp only [nextValue, parsing] at next
  split at next
  · rename_i more
    split at next
    · rename_i parser after got
      cases next
      unfold messageOf at message
      split at message
      · rename_i command queueName value array
        obtain ⟨word, same⟩ := Option.ite_none_right_eq_some.mp message
        cases same
        refine ⟨parser, .parsing buf after, ?_⟩
        simp only [AsyncRun.turn, if_pos more, got, doProcessMessage, if_pos state, array,
          if_pos word]
      · cases message
    · cases next
  · cases next

theorem turn_quiet {dummyHandler : H} (quiet : s.arriving = none)
    (taken : Taken dummyHandler s .turn t) :
    t.impl.singleShotMsgHandlers = s.impl.singleShotMsgHandlers := by
  cases taken with
  | @turn buf pos parsing =>
  unfold AsyncRun.turn
  split
  · rename_i more
    cases got : receive s.impl.redisParser buf pos with
    | error fault => rfl
    | ok result =>
      cases result with
      | value v parser after =>
        dsimp only
        rcases process_cases { s.impl with redisParser := parser } v with
          ⟨_ | handler, processed⟩ | ⟨message, processed⟩ |
            ⟨command, queueName, value, state, array, message, processed⟩
        · rw [processed]
        · rw [processed]
        · rw [processed]
          rfl
        -- What is left is the branch that delivers a message, and there is none.
        · have arrives : s.arriving = some (queueName.toString, value.toByteArray) := by
            simp only [arriving, nextValue, parsing, if_pos more, got, messageOf, array,
              if_pos message, Option.bind_some]
            exact if_pos state
          rw [quiet] at arrives
          cases arrives
      | more parser next => rfl
      | error parser next => rfl
  · rfl

/-! Single shots. -/

/-- When a message arrives, all single shots on its channel are posted it once, as are the handles,
and go. Those of other channels stay, and so do all when no message arrives. -/
def ShotsFire (s : AsyncRun H M) : AsyncEvent H M → AsyncRun H M → Prop
  | .singleShotSubscribe channel msgHandler _, t =>
    t.impl.singleShotMsgHandlers = s.impl.singleShotMsgHandlers ++ [(channel.val, msgHandler)]
  | .turn, t =>
    match s.arriving with
    | some (channel, payload) =>
      t.impl.strand = s.impl.strand ++
          ((s.impl.singleShotMsgHandlers.filter (·.1 = channel)).map Prod.snd ++
            (s.impl.msgHandlers.filter (·.1 = channel)).map (·.2.2)).map (.message · payload) ∧
        t.impl.singleShotMsgHandlers = s.impl.singleShotMsgHandlers.filter (·.1 ≠ channel)
    | none => t.impl.singleShotMsgHandlers = s.impl.singleShotMsgHandlers
  | _, t => t.impl.singleShotMsgHandlers = s.impl.singleShotMsgHandlers

theorem ShotsFire.gone {channel payload : Bytes} (fire : ShotsFire s .turn t)
    (arrives : s.arriving = some (channel, payload)) :
    t.impl.singleShotMsgHandlers = s.impl.singleShotMsgHandlers.filter (·.1 ≠ channel) := by
  simp only [ShotsFire, arrives] at fire
  exact fire.2

/-- No two single shots wait on a channel when a message arrives there. -/
def OneShot (s : AsyncRun H M) : AsyncEvent H M → AsyncRun H M → Prop
  | .turn, _ => ∀ channel payload, s.arriving = some (channel, payload) →
    (s.impl.singleShotMsgHandlers.filter (·.1 = channel)).length ≤ 1
  | _, _ => True

section Shots
variable {shots : List (Bytes × M)} {channel : Bytes}

theorem find_of_filter (one : (shots.filter (·.1 = channel)).length ≤ 1) :
    (shots.find? (·.1 = channel)).toList = shots.filter (·.1 = channel) := by
  rw [← List.head?_filter]
  generalize shots.filter (·.1 = channel) = found at one ⊢
  match found, one with
  | [], _ => rfl
  | [_], _ => rfl
  | _ :: _ :: _, two => simp at two

theorem eraseP_filter_length (shots : List (Bytes × M)) (channel : Bytes) :
    ((shots.eraseP (·.1 = channel)).filter (·.1 = channel)).length =
      (shots.filter (·.1 = channel)).length - 1 := by
  induction shots with
  | nil => rfl
  | cons shot rest ih =>
    by_cases here : shot.1 = channel
    · simp [here]
    · simp [here, ih]

theorem eraseP_eq_filter (one : (shots.filter (·.1 = channel)).length ≤ 1) :
    shots.eraseP (·.1 = channel) = shots.filter (·.1 ≠ channel) := by
  induction shots with
  | nil => rfl
  | cons shot rest ih =>
    by_cases here : shot.1 = channel
    · have none : rest.filter (·.1 = channel) = [] := by simpa [here] using one
      rw [List.filter_eq_nil_iff] at none
      have kept : rest.filter (·.1 ≠ channel) = rest :=
        List.filter_eq_self.mpr fun other member => by simpa using none other member
      simp only [here, decide_true, List.eraseP_cons_of_pos, ne_eq, not_true_eq_false, decide_false,
        Bool.false_eq_true, not_false_eq_true, List.filter_cons_of_neg]
      exact kept.symm
    · simp only [here, decide_false, Bool.false_eq_true, not_false_eq_true, List.filter_cons_of_neg]
        at one
      simp [here, ih one]

end Shots

theorem shotsFire_iff {dummyHandler : H} {e : AsyncEvent H M}
    (isOpen : s.impl.state = .connected ∨ s.impl.state = .subscribed)
    (taken : Taken dummyHandler s e t) : ShotsFire s e t ↔ OneShot s e t := by
  cases taken with
  | turn parsing =>
    have taken : Taken dummyHandler s .turn _ := .turn parsing
    unfold ShotsFire OneShot
    cases arrives : s.arriving with
    | none => exact iff_of_true (turn_quiet arrives taken) nofun
    | some message =>
      obtain ⟨channel, payload⟩ := message
      obtain ⟨redisParser, reading, same⟩ := turn_arriving arrives taken
      rw [same, dispatch_called]
      simp only [called]
      constructor
      · -- What the look-up leaves there did not go.
        rintro ⟨_, gone⟩ other text here
        cases here
        have left := eraseP_filter_length s.impl.singleShotMsgHandlers channel
        rw [gone, List.filter_filter] at left
        simp at left
        omega
      · intro one
        rw [find_of_filter (one channel payload rfl), eraseP_eq_filter (one channel payload rfl)]
        exact ⟨rfl, rfl⟩
  | singleShotSubscribe channel msgHandler handler =>
    rw [singleShotSubscribe_open isOpen]
    exact iff_of_true rfl trivial
  | subscribe channel msgHandler handler =>
    rw [subscribe_open isOpen]
    exact iff_of_true rfl trivial
  | unsubscribe handle =>
    rw [unsubscribe_open isOpen]
    exact iff_of_true rfl trivial
  | command items handler =>
    rcases command_posts items handler isOpen with call | call
    all_goals
      rw [call]
      exact iff_of_true rfl trivial
  | publish channel msg handler =>
    rcases publish_posts channel msg handler isOpen with call | call
    all_goals
      rw [call]
      exact iff_of_true rfl trivial
  | @strand task strand front =>
    cases task with
    | message handler buf => exact iff_of_true rfl trivial
    | command items handler =>
      obtain ⟨writes, same⟩ := doAsyncCommand_eq { s.impl with strand } (makeCommand items) handler
      simp only [AsyncRun.runTask, same]
      exact iff_of_true rfl trivial
  | @written write finished =>
    unfold complete
    cases call : asyncWrite { s.impl with writes := s.impl.writes.eraseIdx write } none with
    | error fault => exact iff_of_true rfl trivial
    | ok d =>
      obtain ⟨queue, writes, rfl⟩ := asyncWrite_eq call
      exact iff_of_true rfl trivial
  | transmit found bounds | serve whole | push message | receive waiting bounds
  | readFailed message waiting | handlerReturn calling | writeFailed message started =>
    exact iff_of_true rfl trivial

/-! Handles. -/

def subscribes (events : List (AsyncEvent H M)) : Nat :=
  events.countP fun e => match e with
    | .subscribe _ _ _ => true
    | _ => false

theorem granted_number (events : List (AsyncEvent H M)) (grants : List (Bytes × Nat × M) × Nat) :
    (events.foldl granted grants).2 = grants.2 + subscribes events := by
  induction events generalizing grants with
  | nil => rfl
  | cons e events ih =>
    rw [List.foldl_cons, ih]
    cases e with
    | subscribe channel msgHandler handler =>
      simp only [granted, subscribes, List.countP_cons, if_true]
      omega
    | _ => simp [granted, subscribes]

/-- Handles have different numbers, and all of them are smaller than the next. -/
def Numbered (grants : List (Bytes × Nat × M) × Nat) : Prop :=
  (grants.1.map (·.2.1)).Pairwise (· < ·) ∧ ∀ entry ∈ grants.1, entry.2.1 < grants.2

theorem Numbered.granted {grants : List (Bytes × Nat × M) × Nat} (held : Numbered grants)
    (e : AsyncEvent H M) : Numbered (granted grants e) := by
  obtain ⟨order, below⟩ := held
  cases e with
  | subscribe channel msgHandler handler =>
    simp only [AsyncRun.granted, Numbered, List.map_append, List.map_cons, List.map_nil]
    refine ⟨List.pairwise_append.mpr ⟨order, List.pairwise_singleton _ _, ?_⟩, ?_⟩
    · intro number member next last
      obtain ⟨entry, inside, rfl⟩ := List.mem_map.mp member
      rw [List.mem_singleton.mp last]
      exact below entry inside
    · intro entry member
      rcases List.mem_append.mp member with old | new
      · exact Nat.lt_succ_of_lt (below entry old)
      · rw [List.mem_singleton.mp new]
        exact Nat.lt_succ_self _
  | unsubscribe handle =>
    refine ⟨?_, fun entry member => below entry (List.mem_of_mem_filter member)⟩
    exact order.sublist (List.filter_sublist.map _)
  | _ => exact ⟨order, below⟩

theorem numbered_grants (events : List (AsyncEvent H M)) :
    Numbered (events.foldl AsyncRun.granted ([], 0)) := by
  have along (grants : List (Bytes × Nat × M) × Nat) (held : Numbered grants) :
      Numbered (events.foldl AsyncRun.granted grants) := by
    induction events generalizing grants with
    | nil => exact held
    | cons e events ih => exact ih _ (held.granted e)
  exact along _ ⟨List.Pairwise.nil, by simp⟩

/-- A client without a subscription is connected, and one with handlers has subscribed. -/
structure Open (s : AsyncRun H M) : Prop where
  isOpen : s.impl.state = .connected ∨ s.impl.state = .subscribed
  handlers : s.impl.msgHandlers ≠ [] → s.impl.state = .subscribed

theorem Open.step {dummyHandler : H} {e : AsyncEvent H M} (held : Open s)
    (taken : Taken dummyHandler s e t) : Open t := by
  obtain ⟨same, state⟩ := grants_step held.isOpen taken
  have handlers : t.impl.msgHandlers = (granted s.grants e).1 := congrArg Prod.fst same
  refine ⟨state ▸ opened_isOpen held.isOpen e, fun some => ?_⟩
  rw [handlers] at some
  rw [state]
  cases e with
  | subscribe channel msgHandler handler => rfl
  | singleShotSubscribe channel msgHandler handler => rfl
  | unsubscribe handle =>
    refine held.handlers fun none => some ?_
    simp [granted, grants, none]
  | _ => exact held.handlers some

end AsyncRun

open AsyncRun

/-- After any calls and events, the handlers are those of the handles that were given and not taken
back, with numbers of their own. A message is posted once to each of them on its channel, besides at
most one single shot, and it takes no handle away, nor does the removal of one that is gone. -/
theorem asyncClient_dispatches {H M : Type} {dummyHandler : H} {s : AsyncRun H M}
    {events : List (AsyncEvent H M)}
    (path : (asyncClient dummyHandler).run (asyncClient dummyHandler).initial events = some s) :
    let live := (events.foldl granted ([], 0)).1
    s.impl.msgHandlers = live ∧ (live.map (·.2.1)).Nodup ∧
    (∀ channel msgHandler handler handle impl,
      s.impl.subscribe channel msgHandler handler = .ok (handle, impl) →
        handle = ⟨subscribes events, channel⟩) ∧
    (live ≠ [] → s.impl.state = .subscribed) ∧
    (∀ channel payload t, s.arriving = some (channel, payload) →
      s.step dummyHandler .turn = some t → t.impl.msgHandlers = live ∧
        t.impl.strand = s.impl.strand ++
          ((s.impl.singleShotMsgHandlers.find? (·.1 = channel)).toList.map Prod.snd ++
            (live.filter (·.1 = channel)).map (·.2.2)).map (.message · payload)) ∧
    ∀ handle t, (∀ entry ∈ live, (entry.1, entry.2.1) ≠ (handle.channel.val, handle.id)) →
      s.step dummyHandler (.unsubscribe handle) = some t → t.impl.msgHandlers = live := by
  intro live
  have grants := asyncClient_grants path
  have handlers : s.impl.msgHandlers = live := congrArg Prod.fst grants
  have held : Open s := by
    refine System.run_invariant (P := Open) ?_ path ?_
    · exact ⟨Or.inl rfl, fun some => absurd rfl some⟩
    · exact fun s e t held step => held.step (taken_of_step step).2
  refine ⟨handlers, ?_, ?_, ?_, ?_, ?_⟩
  · exact (numbered_grants events).1.imp Nat.ne_of_lt
  · intro channel msgHandler handler handle impl call
    rw [subscribe_open held.isOpen] at call
    cases call
    have number : s.impl.subscribeSeq = (events.foldl granted ([], 0)).2 := congrArg Prod.snd grants
    rw [number, granted_number, Nat.zero_add]
  -- Adding a handler makes the state `Subscribed`, and it stays so.
  · exact fun some => held.handlers (handlers ▸ some)
  · intro channel payload t arrives step
    obtain ⟨redisParser, reading, rfl⟩ := turn_arriving arrives (taken_of_step step).2
    rw [dispatch_called]
    exact ⟨handlers, by simp only [called, handlers]⟩
  · intro handle t gone step
    obtain ⟨same, _⟩ := grants_step held.isOpen (taken_of_step step).2
    have after : t.impl.msgHandlers = (granted s.grants (.unsubscribe handle)).1 :=
      congrArg Prod.fst same
    rw [after]
    simp only [granted, grants]
    exact List.filter_eq_self.mpr fun entry member => by
      simpa only [decide_eq_true_eq] using gone entry member

/-- Along a run every message fires all single shots on its channel, and nothing else takes one
away, exactly when no two of them wait on the channel of a message that arrives. -/
theorem asyncClient_fires {H M : Type} (dummyHandler : H) (events : List (AsyncEvent H M)) :
    (asyncClient dummyHandler).Along ShotsFire (asyncClient dummyHandler).initial events ↔
      (asyncClient dummyHandler).Along OneShot (asyncClient dummyHandler).initial events := by
  refine System.along_iff (fun s => s.impl.state = .connected ∨ s.impl.state = .subscribed) ?_ ?_ ?_
    events
  · exact fun s e t isOpen step => shotsFire_iff isOpen (taken_of_step step).2
  · intro s e t isOpen step _
    obtain ⟨_, state⟩ := grants_step isOpen (taken_of_step step).2
    exact state ▸ opened_isOpen isOpen e
  · exact Or.inl rfl

def twoShots : List (AsyncEvent Nat Nat) :=
  [.singleShotSubscribe channelA 1 7, .singleShotSubscribe channelA 2 7,
    .push (.array [.bulk (ascii "message"), .bulk (ascii "a"), .bulk (ascii "hi")]), .receive 32]

def twoShotsEnd : AsyncRun Nat Nat :=
  ((asyncClient 0).run (asyncClient 0).initial twoShots).get (by decide +kernel)

def twoShotsFired : AsyncRun Nat Nat := (twoShotsEnd.step 0 .turn).get (by decide +kernel)

/-- The second is left behind. -/
theorem asyncClient_twoShots :
    ¬∀ events, (asyncClient (M := Nat) 0).Along ShotsFire (asyncClient 0).initial events := by
  intro always
  have left : twoShotsFired.impl.singleShotMsgHandlers ≠
      twoShotsEnd.impl.singleShotMsgHandlers.filter (·.1 ≠ ascii "a") := by decide +kernel
  have gone (before after : AsyncRun Nat Nat)
      (path : (asyncClient 0).run (asyncClient 0).initial twoShots = some before)
      (arrives : before.arriving = some (ascii "a", ascii "hi"))
      (step : (asyncClient 0).step before .turn = some after) :
      after.impl.singleShotMsgHandlers =
        before.impl.singleShotMsgHandlers.filter (·.1 ≠ ascii "a") :=
    ShotsFire.gone (System.along_at (always (twoShots ++ [.turn])) path step) arrives
  exact left (gone twoShotsEnd twoShotsFired (Option.some_get _).symm (by decide +kernel)
    (Option.some_get _).symm)

def removedTwice : List (AsyncEvent Nat Nat) :=
  [.subscribe channelA 1 7, .subscribe channelB 2 7, .subscribe channelA 3 7,
    .unsubscribe ⟨0, channelA⟩, .unsubscribe ⟨0, channelA⟩,
    .push (.array [.bulk (ascii "message"), .bulk (ascii "a"), .bulk (ascii "hi")]), .receive 32]

def removedTwiceEnd : AsyncRun Nat Nat :=
  ((asyncClient 0).run (asyncClient 0).initial removedTwice).get (by decide +kernel)

theorem asyncClient_dispatches_removedTwice :
    removedTwiceEnd.arriving = some (ascii "a", ascii "hi") ∧
      removedTwiceEnd.impl.msgHandlers = [(ascii "b", 1, 2), (ascii "a", 2, 3)] ∧
      removedTwiceEnd.impl.msgHandlers = (removedTwice.foldl granted ([], 0)).1 :=
  ⟨by decide +kernel, by decide +kernel,
    (asyncClient_dispatches (Option.some_get _).symm).1⟩

end Pinocchio.Redis
