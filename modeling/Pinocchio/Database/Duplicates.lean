import Pinocchio.Database.Deliveries

/-! When messages are delivered twice.

The trim that clears a list is posted after it was read, and drops a hundred
messages only. Until it was executed, and beyond these hundred, the next `GetMsg`
finds messages that the last one has found.
-/

set_option autoImplicit false

namespace Pinocchio.Database
open Semantics Redis

namespace DatabaseRun
variable {s t : DatabaseRun}

/-- Two answers to `GetMsg` for the same token have no message in common. -/
def Disjointly (first second : Request × Answer) : Prop :=
  ∀ key items others, first = (.getMsg key, .messages items) →
    second = (.getMsg key, .messages others) → ∀ message ∈ items, message ∉ others

/-- No message is in the results of two `GetMsg` calls for its token. -/
def AtMostOnce (s : DatabaseRun) : Prop := s.replied.Pairwise Disjointly

def reads (s : DatabaseRun) (e : DatabaseEvent) : Option Text :=
  match e, s.asked with
  | .execSync, .getMsg key :: _ => some key
  | _, _ => none

/-- A list is read only when it holds nothing but pushes since it was last read. -/
def ReadsFresh (s : DatabaseRun) (e : DatabaseEvent) (_ : DatabaseRun) : Prop :=
  ∀ key ∈ s.reads e, ∀ message ∈ s.redis.messages key,
    (s.history key).idxOf message < s.unread key

theorem readsFresh_of_other {e : DatabaseEvent} (none : s.reads e = none) : ReadsFresh s e t := by
  intro key member
  rw [none] at member
  cases member

theorem readsFresh_front {key : Text} {asked : List Request}
    (front : s.asked = .getMsg key :: asked) :
    ReadsFresh s .execSync t ↔
      ∀ message ∈ s.redis.messages key, (s.history key).idxOf message < s.unread key := by
  have reading : s.reads .execSync = some key := by simp only [reads, front]
  simp only [ReadsFresh, reading, Option.mem_some_iff, forall_eq']

theorem atMostOnce_other {request : Request} {answer : Answer} (once : AtMostOnce s)
    (none : ∀ key items, (request, answer) ≠ (.getMsg key, .messages items))
    (replied : t.replied = s.replied ++ [(request, answer)]) : AtMostOnce t := by
  unfold AtMostOnce
  rw [replied, List.pairwise_append]
  refine ⟨once, List.pairwise_singleton _ _, ?_⟩
  intro first _ second last key items others _ same
  rw [List.mem_singleton.mp last] at same
  exact absurd same (none key others)

theorem atMostOnce_getMsg {key : Text} {items : List Message} (once : AtMostOnce s)
    (replied : t.replied = s.replied ++ [(.getMsg key, .messages items)]) :
    AtMostOnce t ↔ ∀ message ∈ items, ¬s.Delivered key message := by
  unfold AtMostOnce
  rw [replied, List.pairwise_append]
  constructor
  · rintro ⟨_, _, apart⟩ message member ⟨old, answer, inside⟩
    exact apart _ answer _ (List.mem_singleton.mpr rfl) key old items rfl rfl message inside member
  · intro fresh
    refine ⟨once, List.pairwise_singleton _ _, ?_⟩
    intro first before second last other old others former latter message inside member
    rw [List.mem_singleton.mp last] at latter
    cases latter
    exact fresh message member ⟨old, former ▸ before, inside⟩

theorem atMostOnce_iff_readsFresh {e : DatabaseEvent} (held : Sound s) (once : AtMostOnce s)
    (taken : Taken s e t) : AtMostOnce t ↔ ReadsFresh s e t := by
  cases taken with
  | addMsg userToken msg => exact iff_of_true once (readsFresh_of_other rfl)
  | call request => exact iff_of_true once (readsFresh_of_other rfl)
  | handle first => exact iff_of_true once (readsFresh_of_other rfl)
  | ret here new => exact iff_of_true once (readsFresh_of_other rfl)
  | @execAsync command handler posted first =>
    have same : (execAsync { s with posted } command handler).replied = s.replied := by
      simp only [execAsync, note]
      split <;> rfl
    refine iff_of_true ?_ (readsFresh_of_other rfl)
    unfold AtMostOnce
    rw [same]
    exact once
  | @execSync request asked first =>
    by_cases reading : ∃ key, request = .getMsg key
    · obtain ⟨key, rfl⟩ := reading
      rw [readsFresh_front first]
      cases stored : s.redis.list key with
      | none =>
        rw [execSync_getMsg_wrongType { s with asked } stored]
        refine iff_of_true (atMostOnce_other once (by simp) rfl) ?_
        simp [Keyspace.messages, stored]
      | some items =>
        rw [execSync_getMsg { s with asked } stored, atMostOnce_getMsg once rfl,
          Keyspace.messages_of_list stored]
        refine forall₂_congr fun message member => ?_
        -- Of the messages on a list the delivered ones are those behind the unread ones.
        rw [held.read key message (Keyspace.messages_of_list stored ▸ member), Nat.not_le]
    · have other : ∀ key, request ≠ .getMsg key := fun key same => reading ⟨key, same⟩
      obtain ⟨answer, redis, result, _, _⟩ := execSync_tokens { s with asked } other
      have none : s.reads .execSync = none := by
        cases request with
        | isMember userToken => simp only [reads, first]
        | addMember userToken => simp only [reads, first]
        | getMsg userToken => exact absurd rfl (other userToken)
      rw [result]
      refine iff_of_true (atMostOnce_other once ?_ rfl) (readsFresh_of_other none)
      intro key items same
      exact other key (congrArg Prod.fst same)

end DatabaseRun

open DatabaseRun

/-- Along a run no message is delivered twice exactly when, whenever a list is read, it holds
nothing but messages pushed since it was last read. -/
theorem databaseManager_atMostOnce (events : List DatabaseEvent) :
    databaseManager.Along (fun _ _ t => AtMostOnce t) databaseManager.initial events ↔
      databaseManager.Along ReadsFresh databaseManager.initial events := by
  refine System.along_iff (fun s => Sound s ∧ AtMostOnce s) ?_ ?_ ?_ events
  · intro s e t held step
    exact atMostOnce_iff_readsFresh held.1 held.2 (taken_of_step step)
  · intro s e t held step once
    exact ⟨held.1.step (taken_of_step step), once⟩
  · exact ⟨databaseManager_sound, List.Pairwise.nil⟩

def readTwice : List DatabaseEvent :=
  let token := sampleToken
  [.addMsg token ⟨ascii "once", by decide⟩, .execAsync, .handle, .call (.getMsg token), .execSync,
    .ret 0, .call (.getMsg token)]

theorem databaseManager_readTwice :
    ¬∀ events,
      databaseManager.Along (fun _ _ t => AtMostOnce t) databaseManager.initial events := by
  intro always
  let token : Text := ⟨ascii "token", by decide⟩
  let message : Message := ⟨0, ⟨ascii "once", by decide⟩⟩
  let before : DatabaseRun :=
    (databaseManager.run databaseManager.initial readTwice).get (by decide +kernel)
  let after : DatabaseRun := (databaseManager.step before .execSync).get (by decide +kernel)
  have once := System.along_at (always (readTwice ++ [.execSync])) (t := before) (u := after)
    (Option.some_get _).symm (Option.some_get _).symm
  have answers : after.replied =
      [(.getMsg token, .messages [message]), (.getMsg token, .messages [message])] := by
    decide +kernel
  unfold AtMostOnce at once
  rw [answers, List.pairwise_pair] at once
  exact once token [message] [message] rfl rfl message (by simp) (by simp)

end Pinocchio.Database
