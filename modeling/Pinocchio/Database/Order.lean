import Pinocchio.Semantics.History
import Pinocchio.Database.Losses
import Pinocchio.Database.Progress

/-! The order of the messages in a list and in the answers to `GetMsg`, and what became
of every message that was pushed.

Both orders are those of the pushes. As long as no message is lost unread, a pushed
message is in its list, was read, or is behind a hundred newer ones.
-/

set_option autoImplicit false

namespace Pinocchio.Database
open Semantics Redis

namespace DatabaseRun
variable {s t : DatabaseRun} {e : DatabaseEvent}

/-- The push of the first message was executed after that of the second. -/
def Newer (s : DatabaseRun) (key : Text) (first second : Message) : Prop :=
  (s.history key).idxOf first < (s.history key).idxOf second

theorem Sound.pairwise_newer (held : Sound s) {key : Text} {items : List Message}
    (sub : items.Sublist (s.history key)) : items.Pairwise (s.Newer key) :=
  (pairwise_idxOf (held.history_nodup key)).sublist sub

theorem execSync_replied (s : DatabaseRun) (request : Request) :
    ∃ answer, (s.execSync request).replied = s.replied ++ [(request, answer)] ∧
      ∀ key, request = .getMsg key →
        s.redis.list key = none ∧ answer = .wrongType ∨
          ∃ items, s.redis.list key = some items ∧ answer = .messages items := by
  by_cases reads : ∃ key, request = .getMsg key
  · obtain ⟨key, rfl⟩ := reads
    cases stored : s.redis.list key with
    | none =>
      rw [s.execSync_getMsg_wrongType stored]
      refine ⟨.wrongType, rfl, ?_⟩
      rintro other same
      cases same
      exact Or.inl ⟨stored, rfl⟩
    | some items =>
      rw [s.execSync_getMsg stored]
      refine ⟨.messages items, rfl, ?_⟩
      rintro other same
      cases same
      exact Or.inr ⟨items, stored, rfl⟩
  · obtain ⟨answer, redis, unread, result, _⟩ := s.execSync_keeps request
    rw [result]
    exact ⟨answer, rfl, fun key same => absurd ⟨key, same⟩ reads⟩

theorem replied_step (taken : Taken s e t) :
    t.replied = s.replied ∨ ∃ request asked, s.asked = request :: asked ∧ e = .execSync ∧
      t = DatabaseRun.execSync { s with asked } request := by
  cases taken with
  | addMsg userToken msg => exact Or.inl rfl
  | call request => exact Or.inl rfl
  | @execAsync command handler posted front =>
    obtain ⟨answer, redis, pushed, unread, result⟩ :=
      execAsync_frame { s with posted } command handler
    rw [result]
    exact Or.inl rfl
  | @execSync request asked front => exact Or.inr ⟨request, asked, front, rfl, rfl⟩
  | handle front => exact Or.inl rfl
  | ret here new => exact Or.inl rfl

theorem replied_grows (taken : Taken s e t) : s.replied <+: t.replied := by
  rcases replied_step taken with same | ⟨request, asked, _, _, rfl⟩
  · exact same ▸ List.prefix_rfl
  · obtain ⟨answer, replied, _⟩ := execSync_replied { s with asked } request
    rw [replied]
    exact List.prefix_append _ _

theorem Sound.history_step (held : Sound s) (taken : Taken s e t) (key : Text) :
    t.history key = s.history key ∨
      ∃ message, t.history key = message :: s.history key ∧ message ∈ t.redis.messages key := by
  cases taken with
  | addMsg userToken msg => exact Or.inl rfl
  | call request => exact Or.inl rfl
  | handle front => exact Or.inl rfl
  | ret here new => exact Or.inl rfl
  | @execSync request asked front =>
    obtain ⟨answer, redis, unread, result, _⟩ := execSync_keeps { s with asked } request
    rw [result]
    exact Or.inl rfl
  | @execAsync command handler posted front =>
    have executed := held.executed front
    generalize DatabaseRun.execAsync { s with posted } command handler = t at executed ⊢
    cases executed with
    | failed => exact Or.inl rfl
    | cap => exact Or.inl rfl
    | clear => exact Or.inl rfl
    | @push pushed items stored message =>
      rw [history_cons (s := s) rfl]
      split
      · rename_i same
        refine Or.inr ⟨message, rfl, ?_⟩
        rw [same, Keyspace.messages_putList, if_pos rfl]
        exact List.mem_cons_self
      · exact Or.inl rfl

theorem Sound.history_sublist (held : Sound s) (taken : Taken s e t) (key : Text) :
    (s.history key).Sublist (t.history key) := by
  rcases held.history_step taken key with same | ⟨message, grown, _⟩
  · rw [same]
  · rw [grown]
    exact List.sublist_cons_self _ _

/-- Every answer to `GetMsg` is an error, or has messages of the token in their order. -/
def InOrder (s : DatabaseRun) : Prop :=
  ∀ key answer, (Request.getMsg key, answer) ∈ s.replied →
    answer = .wrongType ∨ ∃ items, answer = .messages items ∧ items.Sublist (s.history key)

theorem InOrder.step (ordered : InOrder s) (held : Sound s) (taken : Taken s e t) :
    InOrder t := by
  intro key answer member
  have old (before : (Request.getMsg key, answer) ∈ s.replied) :
      answer = .wrongType ∨ ∃ items, answer = .messages items ∧ items.Sublist (t.history key) := by
    rcases ordered key answer before with wrong | ⟨items, same, sub⟩
    · exact Or.inl wrong
    · exact Or.inr ⟨items, same, sub.trans (held.history_sublist taken key)⟩
  rcases replied_step taken with same | ⟨request, asked, front, rfl, rfl⟩
  · exact old (same ▸ member)
  · obtain ⟨given, replied, reads⟩ := execSync_replied { s with asked } request
    rw [replied] at member
    rcases List.mem_append.mp member with before | new
    · exact old before
    · obtain ⟨rfl, rfl⟩ := Prod.mk.inj (List.mem_singleton.mp new)
      rcases reads key rfl with ⟨_, wrong⟩ | ⟨items, stored, same⟩
      · exact Or.inl wrong
      · refine Or.inr ⟨items, same, List.Sublist.trans ?_ (held.history_sublist taken key)⟩
        have list := Keyspace.messages_of_list stored
        rw [← list]
        exact held.lists key

/-- Every message that was pushed is still listed, was read, or has a hundred newer ones. -/
def Accounted (s : DatabaseRun) : Prop :=
  ∀ key message, message ∈ s.history key → message ∈ s.redis.messages key ∨
    s.Delivered key message ∨ 100 ≤ (s.history key).idxOf message

theorem Delivered.later {key : Text} {message : Message} (delivered : s.Delivered key message)
    (taken : Taken s e t) : t.Delivered key message := by
  obtain ⟨items, answer, inside⟩ := delivered
  exact ⟨items, (replied_grows taken).subset answer, inside⟩

theorem Accounted.step (all : Accounted s) (held : Sound s) (safe : NoLoss s e t)
    (taken : Taken s e t) : Accounted t := by
  intro key message member
  have aged (old : message ∈ s.history key) :
      (s.history key).idxOf message ≤ (t.history key).idxOf message :=
    idxOf_sublist (held.history_sublist taken key) ((held.step taken).history_nodup key) old
  have kept (old : message ∈ s.history key) : message ∈ t.redis.messages key ∨
      t.Delivered key message ∨ 100 ≤ (t.history key).idxOf message := by
    rcases all key message old with listed | delivered | behind
    · by_cases still : message ∈ t.redis.messages key
      · exact Or.inl still
      · exact Or.inr (safe key message listed still)
    · exact Or.inr (Or.inl (delivered.later taken))
    · exact Or.inr (Or.inr (Nat.le_trans behind (aged old)))
  rcases held.history_step taken key with same | ⟨newest, grown, listed⟩
  · rw [same] at member
    exact kept member
  · rw [grown] at member
    rcases List.mem_cons.mp member with rfl | old
    · exact Or.inl listed
    · exact kept old

theorem Accounted.read (all : Accounted s) {key : Text} {message : Message} {asked : List Request}
    (pushed : (key, message) ∈ s.pushed) :
    let t := DatabaseRun.execSync { s with asked } (.getMsg key)
    100 ≤ (s.history key).idxOf message ∨ ∃ k items, k ≤ s.replied.length ∧
      t.replied[k]? = some (.getMsg key, .messages items) ∧ message ∈ items := by
  intro t
  obtain ⟨answer, replied, reads⟩ := execSync_replied { s with asked } (.getMsg key)
  rcases all key message (mem_history.mpr pushed) with listed | ⟨items, given, inside⟩ | behind
  · refine Or.inr ?_
    rcases reads key rfl with ⟨missing, _⟩ | ⟨items, stored, same⟩
    · rw [Keyspace.messages, missing] at listed
      cases listed
    · refine ⟨s.replied.length, items, Nat.le_refl _, ?_, ?_⟩
      · rw [replied, same, List.getElem?_concat_length]
      · rw [← Keyspace.messages_of_list stored]
        exact listed
  · obtain ⟨k, here⟩ := List.mem_iff_getElem?.mp given
    refine Or.inr ⟨k, items, ?_, ?_, inside⟩
    · exact Nat.le_of_lt (List.getElem?_eq_some_iff.mp here).1
    · rw [replied]
      exact getElem?_grow here _
  · exact Or.inl behind

structure Traced (s : DatabaseRun) : Prop where
  sound : Sound s
  front : FrontUnread s
  accounted : Accounted s

theorem Traced.step (held : Traced s) (safe : ClearsRead s e t) (taken : Taken s e t) :
    Traced t := by
  have noLoss := (noLoss_iff_clearsRead held.sound held.front taken).mpr safe
  exact ⟨held.sound.step taken, held.front.step held.sound safe taken,
    held.accounted.step held.sound noLoss taken⟩

end DatabaseRun

end Pinocchio.Database
