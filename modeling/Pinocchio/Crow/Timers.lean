import Pinocchio.Semantics.Transition
import Mathlib.Algebra.GroupWithZero.Nat
import Mathlib.Logic.Function.Basic
import Mathlib.Data.List.Basic

/-! The deadlines of the connections of a thread.

They share a queue of timers in the order of their times. A key is a number, and it may be kept when
its timer is gone. The numbers wrap here; they are `int`s in the source, which must not overflow, as they
would from the start 2^31 on.
-/

set_option autoImplicit false

namespace Pinocchio.Crow
open Semantics

/-! ## The queue -/

/-- The nanoseconds that a timer waits for. -/
def tick : Nat := 5000000000

structure TimerKey where
  queued : Bool := false
  number : UInt32 := 0

structure TimerQueue (F : Type) where
  hasIoService : Bool := false
  dq : List (Nat × Option F) := []
  step : UInt32 := 0

namespace TimerQueue
variable {F : Type}

def setIoService (q : TimerQueue F) : TimerQueue F := { q with hasIoService := true }

def cancel (q : TimerQueue F) (k : TimerKey) : TimerQueue F × TimerKey :=
  let none := { k with queued := false }
  if !k.queued then (q, none)
  else
    let index := (k.number - q.step).toNat
    if index < q.dq.length then
      ({ q with dq := q.dq.modify index fun x => (x.1, Option.none) }, none)
    else (q, none)

def add (q : TimerQueue F) (now : Nat) (f : F) : TimerQueue F × TimerKey :=
  let dq := q.dq ++ [(now, some f)]
  ({ q with dq }, ⟨true, q.step + UInt32.ofNat dq.length - 1⟩)

def processLoop (now : Nat) : UInt32 → List (Nat × Option F) → List F × UInt32 × List (Nat × Option F)
  | step, [] => ([], step, [])
  | step, x :: dq =>
    if now - x.1 < tick then ([], step, x :: dq)
    else
      let rest := processLoop now (step + 1) dq
      (x.2.toList ++ rest.1, rest.2)

/-- The handlers that are called, and what is left. -/
def process (q : TimerQueue F) (now : Nat) : List F × TimerQueue F :=
  if !q.hasIoService then ([], q)
  else
    let (called, step, dq) := processLoop now q.step q.dq
    (called, { q with step, dq })

theorem processLoop_eq (now : Nat) (step : UInt32) (dq : List (Nat × Option F))
    (sorted : dq.Pairwise fun x y => x.1 ≤ y.1) :
    ∃ k, processLoop now step dq =
        ((dq.take k).filterMap Prod.snd, step + UInt32.ofNat k, dq.drop k) ∧ k ≤ dq.length ∧
      (∀ x ∈ dq.take k, tick ≤ now - x.1) ∧ ∀ x ∈ dq.drop k, now - x.1 < tick := by
  induction dq generalizing step with
  | nil => exact ⟨0, by simp [processLoop], Nat.le_refl _, by simp, by simp⟩
  | cons x dq ih =>
    obtain ⟨first, sorted⟩ := List.pairwise_cons.mp sorted
    rw [processLoop]
    split
    · rename_i early
      refine ⟨0, by simp, Nat.zero_le _, by simp, fun y member => ?_⟩
      rcases List.mem_cons.mp member with rfl | member
      · exact early
      · exact Nat.lt_of_le_of_lt (Nat.sub_le_sub_left (first y member) now) early
    · rename_i due
      obtain ⟨k, looped, inside, dues, rest⟩ := ih (step + 1) sorted
      refine ⟨k + 1, ?_, Nat.succ_le_succ inside, fun y member => ?_, rest⟩
      · rw [looped, List.take_succ_cons, List.drop_succ_cons]
        refine Prod.ext ?_ (Prod.ext ?_ rfl)
        · cases owner : x.2 <;> simp [owner]
        · change step + 1 + UInt32.ofNat k = step + UInt32.ofNat (k + 1)
          rw [UInt32.ofNat_add, UInt32.add_assoc, UInt32.add_comm 1]
          rfl
      · rcases List.mem_cons.mp member with rfl | member
        · exact Nat.le_of_not_lt due
        · exact dues y member

theorem cancel_queue (q : TimerQueue F) (k : TimerKey) :
    (q.cancel k).1 = if k.queued then
      { q with dq := q.dq.modify (k.number - q.step).toNat fun x => (x.1, none) } else q := by
  unfold cancel
  cases k.queued with
  | false => rfl
  | true =>
    simp only [Bool.not_true, Bool.false_eq_true, if_false, if_true]
    split
    · rfl
    · rename_i outside
      rw [List.modify_eq_self (Nat.le_of_not_lt outside)]

theorem cancel_key (q : TimerQueue F) (k : TimerKey) :
    (q.cancel k).2 = { k with queued := false } := by
  unfold cancel
  simp only []
  split
  · rfl
  · split <;> rfl

theorem place_of_number {base i : Nat} (few : base + i < 2 ^ 32) :
    (UInt32.ofNat (base + i) - UInt32.ofNat base).toNat = i := by
  rw [UInt32.toNat_sub, UInt32.toNat_ofNat', UInt32.toNat_ofNat']
  omega

theorem place_of_gone {base pos n : Nat} (gone : pos < base) (few : base + n ≤ 2 ^ 32) :
    n ≤ (UInt32.ofNat pos - UInt32.ofNat base).toNat := by
  rw [UInt32.toNat_sub, UInt32.toNat_ofNat', UInt32.toNat_ofNat']
  omega

end TimerQueue

/-! ## The deadlines -/

variable {C : Type}

inductive DeadlineEvent (C : Type) where
  | start (c : C) (now : Nat)
  | cancel (c : C)
  | process (now : Nat)

/-- The timers of a thread, the keys of its connections, its clock, and which deadlines were called by
the last step. -/
structure Deadlines (C : Type) where
  queue : TimerQueue C := TimerQueue.setIoService {}
  keys : C → TimerKey := fun _ => {}
  clock : Nat := 0
  called : List C := []

namespace Deadlines

section
variable [DecidableEq C]

def cancelDeadlineTimer (s : Deadlines C) (c : C) : Deadlines C :=
  let (queue, key) := s.queue.cancel (s.keys c)
  { s with queue, keys := Function.update s.keys c key, called := [] }

def startDeadline (s : Deadlines C) (c : C) (now : Nat) : Deadlines C :=
  let s := s.cancelDeadlineTimer c
  let (queue, key) := s.queue.add now c
  { s with queue, keys := Function.update s.keys c key, clock := now }

def step (s : Deadlines C) : DeadlineEvent C → Option (Deadlines C)
  | .start c now => if now < s.clock then none else some (s.startDeadline c now)
  | .cancel c => some (s.cancelDeadlineTimer c)
  | .process now =>
    if now < s.clock then none
    else
      let (called, queue) := s.queue.process now
      some { s with queue, called, clock := now }

def system : System (Deadlines C) (DeadlineEvent C) := ⟨{}, step⟩

/-- Since when a connection waits, by what was done for it alone. -/
def watch (c : C) (since : Option Nat) : DeadlineEvent C → Option Nat
  | .start d now => if d = c then some now else since
  | .cancel d => if d = c then none else since
  | .process now => since.filter fun t => now - t < tick

end

def starts : DeadlineEvent C → Bool
  | .start _ _ => true
  | _ => false

/-- The numbers of the timers from `base` on are those of the queue, and each connection that waits
has one timer, to which its key points. -/
structure Holds (queue : TimerQueue C) (keys : C → TimerKey) (base : Nat) (since : C → Option Nat) :
    Prop where
  io : queue.hasIoService = true
  step : queue.step = UInt32.ofNat base
  few : base + queue.dq.length ≤ 2 ^ 32
  sorted : queue.dq.Pairwise fun x y => x.1 ≤ y.1
  owned : ∀ (i : Nat) t c, queue.dq[i]? = some (t, some c) →
    (keys c).queued = true ∧ (keys c).number = UInt32.ofNat (base + i) ∧ since c = some t
  waits : ∀ c t, since c = some t → ∃ i : Nat, queue.dq[i]? = some (t, some c)
  keyed : ∀ c, (keys c).queued = true → ∃ pos < base + queue.dq.length,
    (keys c).number = UInt32.ofNat pos ∧
      ∀ (i : Nat) t d, base + i = pos → queue.dq[i]? = some (t, some d) → d = c

section
variable {queue : TimerQueue C} {keys : C → TimerKey} {base : Nat} {since : C → Option Nat}

theorem Holds.place (holds : Holds queue keys base since) {i t : Nat} {c : C}
    (at' : queue.dq[i]? = some (t, some c)) : ((keys c).number - queue.step).toNat = i := by
  obtain ⟨inside, _⟩ := List.getElem?_eq_some_iff.mp at'
  have few := holds.few
  rw [(holds.owned i t c at').2.1, holds.step, TimerQueue.place_of_number (by omega)]

theorem Holds.owner (holds : Holds queue keys base since) {c d : C} (queued : (keys c).queued = true)
    {t : Nat} (at' : queue.dq[((keys c).number - queue.step).toNat]? = some (t, some d)) : d = c := by
  obtain ⟨pos, below, number, owner⟩ := holds.keyed c queued
  obtain ⟨inside, _⟩ := List.getElem?_eq_some_iff.mp at'
  have few := holds.few
  rw [number, holds.step] at at' inside
  by_cases gone : pos < base
  · exact absurd inside (Nat.not_lt.mpr (TimerQueue.place_of_gone gone few))
  · obtain ⟨i, rfl⟩ := Nat.exists_eq_add_of_le (Nat.le_of_not_lt gone)
    rw [TimerQueue.place_of_number (by omega)] at at'
    exact owner i t d rfl at'

theorem Holds.cancel_entry (holds : Holds queue keys base since) (c : C) {i t : Nat} {d : C} :
    (queue.cancel (keys c)).1.dq[i]? = some (t, some d) ↔
      queue.dq[i]? = some (t, some d) ∧ d ≠ c := by
  rw [TimerQueue.cancel_queue]
  cases queued : (keys c).queued with
  | false =>
    simp only [Bool.false_eq_true, if_false]
    refine ⟨fun at' => ⟨at', ?_⟩, fun at' => at'.1⟩
    rintro rfl
    cases queued.symm.trans (holds.owned i t d at').1
  | true =>
    simp only [if_true, List.getElem?_modify, Option.map_eq_map]
    by_cases same : ((keys c).number - queue.step).toNat = i
    · simp only [same, if_true]
      constructor
      · intro cleared
        obtain ⟨x, _, none⟩ := Option.map_eq_some_iff.mp cleared
        cases none
      · rintro ⟨at', other⟩
        rw [← same] at at'
        exact absurd (holds.owner queued at') other
    · simp only [same, if_false, Option.map_id']
      refine ⟨fun at' => ⟨at', ?_⟩, fun at' => at'.1⟩
      rintro rfl
      exact same (holds.place at')

theorem cancel_times (q : TimerQueue C) (k : TimerKey) :
    (q.cancel k).1.dq.map Prod.fst = q.dq.map Prod.fst := by
  rw [TimerQueue.cancel_queue]
  split
  · refine List.ext_getElem? fun i => ?_
    simp only [List.getElem?_map, List.getElem?_modify, Option.map_eq_map, Option.map_map]
    refine congrArg (fun f => q.dq[i]?.map f) (funext fun x => ?_)
    simp only [Function.comp_apply]
    split <;> rfl
  · rfl

def Early (now : Nat) (since : Option Nat) : Option Nat := since.filter fun t => now - t < tick

theorem early_eq {now t : Nat} {since : Option Nat} :
    Early now since = some t ↔ since = some t ∧ now - t < tick := by
  simp [Early, Option.filter_eq_some_iff]

theorem Holds.apart (holds : Holds queue keys base since) :
    queue.dq.Pairwise fun x y => x.1 ≤ y.1 ∧ ∀ c, x.2 = some c → y.2 ≠ some c := by
  rw [List.pairwise_iff_getElem]
  intro i j first second before
  refine ⟨List.pairwise_iff_getElem.mp holds.sorted i j first second before, ?_⟩
  intro c one two
  have at' : queue.dq[i]? = some (queue.dq[i].1, some c) := by
    rw [List.getElem?_eq_getElem first, ← one]
  have at'' : queue.dq[j]? = some (queue.dq[j].1, some c) := by
    rw [List.getElem?_eq_getElem second, ← two]
  have same := (holds.place at').symm.trans (holds.place at'')
  omega

theorem Holds.since_of_mem (holds : Holds queue keys base since) {x : Nat × Option C} {c : C}
    (member : x ∈ queue.dq) (owner : x.2 = some c) : since c = some x.1 := by
  obtain ⟨i, at'⟩ := List.mem_iff_getElem?.mp member
  have whole : x = (x.1, some c) := Prod.ext rfl owner
  rw [whole] at at'
  exact (holds.owned i x.1 c at').2.2

/-- What is called when the timers are processed. -/
structure Called (since : C → Option Nat) (now : Nat) (called : List C) : Prop where
  due : ∀ c, c ∈ called ↔ ∃ t, since c = some t ∧ tick ≤ now - t
  order : called.Pairwise fun c d => c ≠ d ∧ ∀ t u, since c = some t → since d = some u → t ≤ u

theorem Holds.process (holds : Holds queue keys base since) (now : Nat) :
    ∃ k ≤ queue.dq.length, Holds (queue.process now).2 keys (base + k) (fun c => Early now (since c)) ∧
      k + (queue.process now).2.dq.length = queue.dq.length ∧
      (queue.process now).2.dq ⊆ queue.dq ∧ Called since now (queue.process now).1 := by
  obtain ⟨k, looped, inside, dues, rest⟩ :=
    TimerQueue.processLoop_eq now queue.step queue.dq holds.sorted
  have processed : queue.process now = ((queue.dq.take k).filterMap Prod.snd,
      { queue with step := queue.step + UInt32.ofNat k, dq := queue.dq.drop k }) := by
    simp only [TimerQueue.process, holds.io, Bool.not_true, Bool.false_eq_true, if_false, looped]
  have length : k + (queue.dq.drop k).length = queue.dq.length := by
    rw [List.length_drop]
    omega
  -- A timer that is left has its place among the former ones.
  have left {i t : Nat} {c : C} : (queue.dq.drop k)[i]? = some (t, some c) ↔
      queue.dq[k + i]? = some (t, some c) := by
    rw [List.getElem?_drop]
  rw [processed]
  refine ⟨k, inside, ⟨holds.io, ?_, ?_, holds.sorted.drop, ?_, ?_, ?_⟩, length,
    List.drop_subset _ _, ?_, ?_⟩
  · change queue.step + UInt32.ofNat k = UInt32.ofNat (base + k)
    rw [holds.step, UInt32.ofNat_add]
  · have few := holds.few
    change base + k + (queue.dq.drop k).length ≤ 2 ^ 32
    omega
  · intro i t c at'
    obtain ⟨queued, number, waits⟩ := holds.owned (k + i) t c (left.mp at')
    refine ⟨queued, by rw [number, Nat.add_assoc], early_eq.mpr ⟨waits, ?_⟩⟩
    exact rest _ (List.mem_of_getElem? at')
  · intro c t early
    obtain ⟨waits, notYet⟩ := early_eq.mp early
    obtain ⟨i, at'⟩ := holds.waits c t waits
    by_cases before : i < k
    · have member : (t, some c) ∈ queue.dq.take k := by
        refine List.mem_of_getElem? (i := i) ?_
        rw [List.getElem?_take_of_lt before, at']
      exact absurd notYet (Nat.not_lt.mpr (dues _ member))
    · obtain ⟨j, rfl⟩ := Nat.exists_eq_add_of_le (Nat.le_of_not_lt before)
      exact ⟨j, left.mpr at'⟩
  · intro c queued
    obtain ⟨pos, below, number, owner⟩ := holds.keyed c queued
    refine ⟨pos, ?_, number, fun i t d here at' => ?_⟩
    · change pos < base + k + (queue.dq.drop k).length
      omega
    · exact owner (k + i) t d (by omega) (left.mp at')
  · intro c
    simp only [List.mem_filterMap]
    constructor
    · rintro ⟨x, member, owner⟩
      exact ⟨x.1, holds.since_of_mem (List.mem_of_mem_take member) owner, dues x member⟩
    · rintro ⟨t, waits, due⟩
      obtain ⟨i, at'⟩ := holds.waits c t waits
      refine ⟨(t, some c), ?_, rfl⟩
      have member := List.mem_of_getElem? at'
      rw [← List.take_append_drop k queue.dq, List.mem_append] at member
      exact member.resolve_right fun later => absurd (rest _ later) (Nat.not_lt.mpr due)
  · rw [List.pairwise_filterMap]
    refine (holds.apart.sublist (List.take_sublist _ _)).imp_of_mem ?_
    rintro x y first second ⟨before, other⟩ c one d two
    refine ⟨?_, fun t u waits waits' => ?_⟩
    · rintro rfl
      exact other c one two
    · rw [holds.since_of_mem (List.mem_of_mem_take first) one] at waits
      rw [holds.since_of_mem (List.mem_of_mem_take second) two] at waits'
      cases waits
      cases waits'
      exact before

variable [DecidableEq C]

theorem Holds.cancel (holds : Holds queue keys base since) (c : C) :
    Holds (queue.cancel (keys c)).1 (Function.update keys c (queue.cancel (keys c)).2) base
        (Function.update since c none) ∧
      (queue.cancel (keys c)).1.dq.length = queue.dq.length := by
  have times := cancel_times queue (keys c)
  have length : (queue.cancel (keys c)).1.dq.length = queue.dq.length := by
    simpa using congrArg List.length times
  have kept : (queue.cancel (keys c)).1.hasIoService = queue.hasIoService ∧
      (queue.cancel (keys c)).1.step = queue.step := by
    rw [TimerQueue.cancel_queue]
    split <;> exact ⟨rfl, rfl⟩
  refine ⟨⟨kept.1.trans holds.io, kept.2.trans holds.step, by rw [length]; exact holds.few, ?_, ?_,
    ?_, ?_⟩, length⟩
  · rw [← List.pairwise_map, times, List.pairwise_map]
    exact holds.sorted
  · intro i t d at'
    obtain ⟨at', other⟩ := (holds.cancel_entry c).mp at'
    rw [Function.update_of_ne other, Function.update_of_ne other]
    exact holds.owned i t d at'
  · intro d t waits
    by_cases same : d = c
    · rw [same, Function.update_self] at waits
      cases waits
    · rw [Function.update_of_ne same] at waits
      obtain ⟨i, at'⟩ := holds.waits d t waits
      exact ⟨i, (holds.cancel_entry c).mpr ⟨at', same⟩⟩
  · intro d queued
    by_cases same : d = c
    · rw [same, Function.update_self, TimerQueue.cancel_key] at queued
      cases queued
    · rw [Function.update_of_ne same] at queued ⊢
      obtain ⟨pos, below, number, owner⟩ := holds.keyed d queued
      rw [length]
      exact ⟨pos, below, number, fun i t e here at' =>
        owner i t e here ((holds.cancel_entry c).mp at').1⟩

theorem Holds.add (holds : Holds queue keys base since) {c : C} {now : Nat}
    (idle : since c = none) (few : base + queue.dq.length < 2 ^ 32)
    (past : ∀ x ∈ queue.dq, x.1 ≤ now) :
    Holds (queue.add now c).1 (Function.update keys c (queue.add now c).2) base
      (Function.update since c (some now)) := by
  have dq : (queue.add now c).1.dq = queue.dq ++ [(now, some c)] := rfl
  have number : (queue.add now c).2.number = UInt32.ofNat (base + queue.dq.length) := by
    change queue.step + UInt32.ofNat (queue.dq ++ [(now, some c)]).length - 1 = _
    rw [List.length_append, List.length_singleton, holds.step, UInt32.ofNat_add, ← UInt32.add_assoc,
      UInt32.ofNat_add]
    exact UInt32.add_sub_cancel _ _
  -- No other timer is that of this connection.
  have other {i t : Nat} {d : C} (at' : queue.dq[i]? = some (t, some d)) : d ≠ c := by
    rintro rfl
    cases idle.symm.trans (holds.owned i t d at').2.2
  have entry {i t : Nat} {d : C} : (queue.dq ++ [(now, some c)])[i]? = some (t, some d) ↔
      queue.dq[i]? = some (t, some d) ∨ i = queue.dq.length ∧ t = now ∧ d = c := by
    by_cases inside : i < queue.dq.length
    · rw [List.getElem?_append_left inside]
      exact ⟨Or.inl, fun at' => at'.resolve_right fun last => by omega⟩
    · rw [List.getElem?_append_right (Nat.le_of_not_lt inside),
        List.getElem?_eq_none (Nat.le_of_not_lt inside)]
      by_cases last : i = queue.dq.length
      · simp [last, eq_comm]
      · have outside : [(now, some c)].length ≤ i - queue.dq.length := by
          rw [List.length_singleton]
          omega
        rw [List.getElem?_eq_none outside]
        simp [last]
  refine ⟨holds.io, holds.step, ?_, ?_, ?_, ?_, ?_⟩
  · rw [dq, List.length_append, List.length_singleton]
    omega
  · rw [dq, List.pairwise_append]
    refine ⟨holds.sorted, List.pairwise_singleton _ _, fun x member y last => ?_⟩
    rw [List.mem_singleton.mp last]
    exact past x member
  · intro i t d at'
    rw [dq] at at'
    rcases entry.mp at' with at' | ⟨rfl, rfl, rfl⟩
    · rw [Function.update_of_ne (other at'), Function.update_of_ne (other at')]
      exact holds.owned i t d at'
    · rw [Function.update_self, Function.update_self]
      exact ⟨rfl, number, rfl⟩
  · intro d t waits
    rw [dq]
    by_cases same : d = c
    · rw [same, Function.update_self] at waits
      cases waits
      exact ⟨queue.dq.length, entry.mpr (Or.inr ⟨rfl, rfl, same⟩)⟩
    · rw [Function.update_of_ne same] at waits
      obtain ⟨i, at'⟩ := holds.waits d t waits
      exact ⟨i, entry.mpr (Or.inl at')⟩
  · intro d queued
    rw [dq, List.length_append, List.length_singleton]
    by_cases same : d = c
    · rw [same, Function.update_self]
      refine ⟨base + queue.dq.length, by omega, number, fun i t e here at' => ?_⟩
      rcases entry.mp at' with at' | ⟨_, _, rfl⟩
      · obtain ⟨inside, _⟩ := List.getElem?_eq_some_iff.mp at'
        omega
      · rfl
    · rw [Function.update_of_ne same] at queued ⊢
      obtain ⟨pos, below, number, owner⟩ := holds.keyed d queued
      refine ⟨pos, by omega, number, fun i t e here at' => ?_⟩
      rcases entry.mp at' with at' | ⟨rfl, _⟩
      · exact owner i t e here at'
      · omega

/-! ## Runs -/

variable {s t : Deadlines C} {e : DeadlineEvent C}

def Keeps (s : Deadlines C) (n : Nat) (since : C → Option Nat) : Prop :=
  ∃ base, Holds s.queue s.keys base since ∧ base + s.queue.dq.length = n ∧
    ∀ x ∈ s.queue.dq, x.1 ≤ s.clock

omit [DecidableEq C] in
theorem keeps_initial : Keeps ({} : Deadlines C) 0 fun _ => none := by
  refine ⟨0, ⟨rfl, rfl, Nat.zero_le _, List.Pairwise.nil, fun i t c no => ?_, fun c t no => ?_,
    fun c no => ?_⟩, rfl, fun x no => ?_⟩
  · cases no
  · cases no
  · cases no
  · cases no

theorem Keeps.cancelDeadlineTimer {n : Nat} (keeps : Keeps s n since) (c : C) :
    Keeps (s.cancelDeadlineTimer c) n (Function.update since c none) := by
  obtain ⟨base, holds, count, past⟩ := keeps
  obtain ⟨holds', length⟩ := holds.cancel c
  refine ⟨base, holds', by rw [← count, ← length]; rfl, fun x member => ?_⟩
  have times := cancel_times s.queue (s.keys c)
  have time : x.1 ∈ s.queue.dq.map Prod.fst := times ▸ List.mem_map_of_mem member
  obtain ⟨y, old, same⟩ := List.mem_map.mp time
  rw [← same]
  exact past y old

theorem watch_start (since : C → Option Nat) (c : C) (now : Nat) :
    (fun d => watch d (since d) (.start c now)) =
      Function.update (Function.update since c none) c (some now) := by
  funext d
  rw [Function.update_idem]
  by_cases same : d = c
  · rw [same, Function.update_self]
    simp [watch]
  · rw [Function.update_of_ne same]
    simp [watch, Ne.symm same]

theorem watch_cancel (since : C → Option Nat) (c : C) :
    (fun d => watch d (since d) (.cancel c)) = Function.update since c none := by
  funext d
  by_cases same : d = c
  · rw [same, Function.update_self]
    simp [watch]
  · rw [Function.update_of_ne same]
    simp [watch, Ne.symm same]

theorem step_keeps {n : Nat} (keeps : Keeps s n since) (few : n + [e].countP starts ≤ 2 ^ 32)
    (step : step s e = some t) :
    Keeps t (n + [e].countP starts) (fun c => watch c (since c) e) ∧
      ∀ now, e = .process now → Called since now t.called := by
  cases e with
  | start c now =>
    refine ⟨?_, fun now no => by cases no⟩
    simp only [Deadlines.step] at step
    split at step
    · cases step
    rename_i later
    cases step
    obtain ⟨base, holds, count, past⟩ := keeps.cancelDeadlineTimer c
    have one : [DeadlineEvent.start c now].countP starts = 1 := rfl
    have past' (x : Nat × Option C) (member : x ∈ (s.cancelDeadlineTimer c).queue.dq) : x.1 ≤ now :=
      Nat.le_trans (past x member) (Nat.le_of_not_lt later)
    rw [one] at few ⊢
    rw [watch_start]
    refine ⟨base, holds.add (Function.update_self ..) (by omega) past', ?_, fun x member => ?_⟩
    · change base + ((s.cancelDeadlineTimer c).queue.dq ++ [(now, some c)]).length = n + 1
      rw [List.length_append, List.length_singleton]
      omega
    · rcases List.mem_append.mp member with old | new
      · exact past' x old
      · rw [List.mem_singleton.mp new]
        exact Nat.le_refl _
  | cancel c =>
    refine ⟨?_, fun now no => by cases no⟩
    cases step
    rw [watch_cancel]
    exact keeps.cancelDeadlineTimer c
  | process now =>
    simp only [Deadlines.step] at step
    split at step
    · cases step
    rename_i later
    cases step
    obtain ⟨base, holds, count, past⟩ := keeps
    obtain ⟨k, inside, holds', length, old, called⟩ := holds.process now
    refine ⟨⟨base + k, holds', ?_, fun x member => ?_⟩, fun now' same => ?_⟩
    · change base + k + (s.queue.process now).2.dq.length = n
      omega
    · exact Nat.le_trans (past x (old member)) (Nat.le_of_not_lt later)
    · cases same
      exact called

theorem run_keeps (es : List (DeadlineEvent C)) {s t : Deadlines C} {since : C → Option Nat} {n : Nat}
    (keeps : Keeps s n since) (few : n + es.countP starts ≤ 2 ^ 32)
    (path : system.run s es = some t) :
    Keeps t (n + es.countP starts) fun c => es.foldl (watch c) (since c) := by
  induction es generalizing s since n with
  | nil => cases path; exact keeps
  | cons e es ih =>
    obtain ⟨u, step, rest⟩ := (system.run_cons_some).mp path
    have count : (e :: es).countP starts = [e].countP starts + es.countP starts := by
      rw [← List.countP_append, List.singleton_append]
    rw [count, ← Nat.add_assoc] at few ⊢
    exact ih (step_keeps keeps (by omega) step).1 few rest

/-- When the timers are processed, the connections are called that were started long enough before and
neither cancelled, started again nor called since, each once and in the order of their starts. What is
done for one connection changes nothing for another. -/
theorem deadlines_called {es : List (DeadlineEvent C)} (few : es.countP starts ≤ 2 ^ 32)
    (path : system.run {} es = some s) {now : Nat} (step : system.step s (.process now) = some t) :
    Called (fun c => es.foldl (watch c) none) now t.called := by
  have keeps := run_keeps es keeps_initial (by omega) path
  have none : [DeadlineEvent.process (C := C) now].countP starts = 0 := rfl
  exact (step_keeps (e := .process now) keeps (by omega) step).2 now rfl

theorem deadlines_called_twice : ∃ s t : Deadlines Nat,
    system.run {} [.start 0 0, .start 1 1, .start 2 2, .cancel 0] = some s ∧
      system.step s (.process 6000000000) = some t ∧
      Called (fun c => [.start 0 0, .start 1 1, .start 2 2, .cancel 0].foldl (watch c) none) 6000000000
        t.called :=
  ⟨_, _, rfl, rfl, deadlines_called (by decide) rfl rfl⟩

end

end Deadlines

end Pinocchio.Crow
