import Pinocchio.Database.Deliveries

/-! Whatever is outstanding gets done.

Each event but a new call leaves less to do, and as long as something is left to do
some such event can happen.
-/

set_option autoImplicit false

namespace Pinocchio.Database
open Semantics Redis

def DatabaseEvent.starts : DatabaseEvent → Bool
  | .addMsg _ _ | .call _ => true
  | _ => false

/-- How many events may come of a posted command. -/
def Command.cost : Command → Nat
  | .lpush _ _ => 4
  | _ => 2

/-- How many may come of its reply. -/
def Handler.cost : Handler → Nat
  | .pushed _ => 3
  | .trimmed => 1

/-! A reply gives less to do than its command. -/

theorem Posted.cost_lt {command : Command} {handler : Handler} (entry : Posted (command, handler)) :
    handler.cost < command.cost := by
  cases entry with
  | push key message => exact Nat.lt_succ_self 3
  | cap key => exact Nat.lt_succ_self 1
  | clear key => exact Nat.lt_succ_self 1

theorem Handler.run_cost (handler : Handler) (v : RedisValue) :
    ((handler.run v).map fun entry => entry.1.cost).sum < handler.cost := by
  cases handler with
  | trimmed => exact Nat.zero_lt_one
  | pushed userToken =>
    simp only [Handler.run]
    split
    · split
      · exact Nat.lt_succ_self 2
      · exact Nat.succ_pos 2
    · exact Nat.succ_pos 2

theorem Request.posts_cost (request : Request) (v : RedisValue) :
    ((request.posts v).map fun entry => entry.1.cost).sum < 3 := by
  cases request with
  | isMember userToken => exact Nat.succ_pos 2
  | addMember userToken => exact Nat.succ_pos 2
  | getMsg userToken =>
    simp only [Request.posts]
    split
    · exact Nat.lt_succ_self 2
    · exact Nat.succ_pos 2

namespace DatabaseRun
variable {s t : DatabaseRun}

def work (s : DatabaseRun) : Nat :=
  (s.posted.map fun entry => entry.1.cost).sum + (s.answered.map fun entry => entry.1.cost).sum +
    4 * s.asked.length + 3 * (s.replied.length - s.returned.length)

/-- A call returns once, with its answer. -/
structure Numbered (s : DatabaseRun) : Prop where
  once : (s.returned.map Prod.fst).Nodup
  answered : ∀ call ∈ s.returned.map Prod.fst, call < s.replied.length

theorem Numbered.returned_le (held : Numbered s) : s.returned.length ≤ s.replied.length := by
  have inside : s.returned.map Prod.fst ⊆ List.range s.replied.length := by
    intro call member
    exact List.mem_range.mpr (held.answered call member)
  have few := held.once.length_le_of_subset inside
  rwa [List.length_map, List.length_range] at few

theorem exists_ret (fewer : s.returned.length < s.replied.length) :
    ∃ call < s.replied.length, call ∉ s.returned.map Prod.fst := by
  by_contra all
  push Not at all
  have inside : List.range s.replied.length ⊆ s.returned.map Prod.fst := by
    intro call member
    exact all call (List.mem_range.mp member)
  have many := List.nodup_range.length_le_of_subset inside
  rw [List.length_map, List.length_range] at many
  exact Nat.not_le_of_lt fewer many

theorem execAsync_frame (s : DatabaseRun) (command : Command) (handler : Handler) :
    ∃ answer redis pushed unread, s.execAsync command handler =
      { s with redis, pushed, unread, answered := s.answered ++ [(handler, answer)] } := by
  simp only [execAsync, note]
  split <;> exact ⟨_, _, _, _, rfl⟩

theorem Numbered.step {e : DatabaseEvent} (held : Numbered s) (taken : Taken s e t) :
    Numbered t := by
  cases taken with
  | addMsg userToken msg => exact ⟨held.once, held.answered⟩
  | call request => exact ⟨held.once, held.answered⟩
  | handle front => exact ⟨held.once, held.answered⟩
  | @execAsync command handler posted front =>
    obtain ⟨answer, redis, pushed, unread, result⟩ :=
      execAsync_frame { s with posted } command handler
    rw [result]
    exact ⟨held.once, held.answered⟩
  | @execSync request asked front =>
    obtain ⟨answer, redis, unread, result, _⟩ := execSync_keeps { s with asked } request
    rw [result]
    refine ⟨held.once, fun call member => ?_⟩
    rw [List.length_append]
    exact Nat.lt_add_right _ (held.answered call member)
  | @ret call request answer here new =>
    have before : call < s.replied.length := (List.getElem?_eq_some_iff.mp here).1
    constructor
    · simp only [ret, List.map_append, List.map_cons, List.map_nil]
      rw [List.nodup_append]
      refine ⟨held.once, List.nodup_singleton _, ?_⟩
      rintro old member last single rfl
      exact new (List.mem_singleton.mp single ▸ member)
    · intro other member
      simp only [ret, List.map_append, List.map_cons, List.map_nil] at member
      rcases List.mem_append.mp member with old | last
      · exact held.answered other old
      · rw [List.mem_singleton.mp last]
        exact before

/-! The bound goes down. -/

theorem calls_of_going {e : DatabaseEvent} (going : e.starts = false) (taken : Taken s e t) :
    t.calls = s.calls := by
  cases taken with
  | addMsg userToken msg => cases going
  | call request => cases going
  | @execAsync command handler posted front =>
    obtain ⟨answer, redis, pushed, unread, result⟩ :=
      execAsync_frame { s with posted } command handler
    rw [result]
  | @execSync request asked front =>
    obtain ⟨answer, redis, unread, result, _⟩ := execSync_keeps { s with asked } request
    rw [result]
  | handle front => rfl
  | ret here new => rfl

theorem calls_of_run {events : List DatabaseEvent} (going : ∀ e ∈ events, e.starts = false)
    (path : databaseManager.run s events = some t) : t.calls = s.calls := by
  induction events generalizing s with
  | nil =>
    cases path
    rfl
  | cons e events ih =>
    obtain ⟨u, step, rest⟩ := (databaseManager.run_cons_some).mp path
    rw [ih (fun e member => going e (List.mem_cons_of_mem _ member)) rest]
    exact calls_of_going (going e List.mem_cons_self) (taken_of_step step)

theorem work_lt {e : DatabaseEvent} (sound : Sound s) (held : Numbered s)
    (going : e.starts = false) (taken : Taken s e t) : t.work < s.work := by
  cases taken with
  | addMsg userToken msg => cases going
  | call request => cases going
  | @execAsync command handler posted front =>
    have cost : handler.cost < command.cost :=
      Posted.cost_lt (sound.posted _ (by rw [front]; exact List.mem_cons_self))
    obtain ⟨answer, redis, pushed, unread, result⟩ :=
      execAsync_frame { s with posted } command handler
    rw [result]
    simp only [work, front, List.map_append, List.sum_append, List.map_cons, List.sum_cons,
      List.map_nil, List.sum_nil]
    omega
  | @execSync request asked front =>
    have few := held.returned_le
    obtain ⟨answer, redis, unread, result, _⟩ := execSync_keeps { s with asked } request
    rw [result]
    simp only [work, front, List.length_append, List.length_cons, List.length_nil]
    omega
  | @handle handler answer answered front =>
    have cost := Handler.run_cost handler answer.value
    simp only [work, DatabaseRun.handle, front, List.map_append, List.sum_append, List.map_cons,
      List.sum_cons]
    omega
  | @ret call request answer here new =>
    have cost := Request.posts_cost request answer.value
    have few := (held.step (.ret here new)).returned_le
    simp only [ret, List.length_append, List.length_singleton] at few
    simp only [work, ret, List.map_append, List.sum_append, List.length_append,
      List.length_singleton]
    omega

theorem exists_step (held : Numbered s) (busy : ¬s.Quiet) :
    ∃ e t, e.starts = false ∧ s.step e = some t := by
  cases posted : s.posted with
  | cons entry rest =>
    refine ⟨.execAsync, execAsync { s with posted := rest } entry.1 entry.2, rfl, ?_⟩
    simp only [step, posted]
  | nil =>
    cases answered : s.answered with
    | cons entry rest =>
      refine ⟨.handle, handle { s with answered := rest } entry.1 entry.2, rfl, ?_⟩
      simp only [step, answered]
    | nil =>
      cases asked : s.asked with
      | cons request rest =>
        refine ⟨.execSync, execSync { s with asked := rest } request, rfl, ?_⟩
        simp only [step, asked]
      | nil =>
        -- All queues are empty, so a call has its answer and has not returned.
        have fewer : s.returned.length < s.replied.length := by
          refine Nat.lt_of_le_of_ne held.returned_le fun same => ?_
          exact busy ⟨posted, answered, asked, same⟩
        obtain ⟨call, inside, new⟩ := exists_ret fewer
        refine ⟨.ret call, s.ret call s.replied[call].1 s.replied[call].2, rfl, ?_⟩
        simp only [step, List.getElem?_eq_getElem inside, if_neg new]

end DatabaseRun

open DatabaseRun

theorem databaseManager_numbered : Numbered databaseManager.initial :=
  ⟨List.nodup_nil, fun _ member => absurd member List.not_mem_nil⟩

/-- From every reachable state the calls made so far can come to their end, and without new
calls they do: no run is longer than the bound. -/
theorem databaseManager_finishes {s : DatabaseRun}
    (reached : databaseManager.Reaches (fun _ _ => True) s) :
    (∃ events t, (∀ e ∈ events, e.starts = false) ∧
        databaseManager.run s events = some t ∧ t.Quiet) ∧
      ∀ events t, (∀ e ∈ events, e.starts = false) → databaseManager.run s events = some t →
        events.length ≤ s.work := by
  have kept : Sound s ∧ Numbered s := by
    refine reached.invariant (P := fun s => Sound s ∧ Numbered s)
      ⟨databaseManager_sound, databaseManager_numbered⟩ ?_
    intro s e t held _ step
    exact ⟨held.1.step (taken_of_step step), held.2.step (taken_of_step step)⟩
  clear reached
  constructor
  · -- By induction on what is left to do.
    induction left : s.work using Nat.strong_induction_on generalizing s with
    | _ n ih =>
      by_cases quiet : s.Quiet
      · exact ⟨[], s, by simp, rfl, quiet⟩
      · obtain ⟨e, t, going, step⟩ := exists_step kept.2 quiet
        have taken := taken_of_step step
        have less := work_lt kept.1 kept.2 going taken
        obtain ⟨events, u, rest, path, done⟩ :=
          ih t.work (left ▸ less) ⟨kept.1.step taken, kept.2.step taken⟩ rfl
        refine ⟨e :: events, u, ?_, ?_, done⟩
        · simpa [going] using rest
        · exact (databaseManager.run_cons_some).mpr ⟨t, step, path⟩
  · intro events t going path
    induction events generalizing s with
    | nil => exact Nat.zero_le _
    | cons e events ih =>
      obtain ⟨u, step, rest⟩ := (databaseManager.run_cons_some).mp path
      have taken := taken_of_step step
      have less := work_lt kept.1 kept.2 (going e List.mem_cons_self) taken
      have short := ih ⟨kept.1.step taken, kept.2.step taken⟩
        (fun e member => going e (List.mem_cons_of_mem _ member)) rest
      rw [List.length_cons]
      omega

end Pinocchio.Database
