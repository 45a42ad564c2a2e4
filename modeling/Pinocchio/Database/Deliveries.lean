import Mathlib.Data.List.Nodup
import Pinocchio.Database.Manager

/-! What every run of the database manager keeps.

A list holds messages in the order of their pushes, and those that were pushed
after it was last read are exactly those that no `GetMsg` has got yet.
-/

set_option autoImplicit false

namespace Pinocchio.Database
open Semantics Redis

def pushOf : Command × Handler → Option (Text × Message)
  | (.lpush key message, _) => some (key, message)
  | _ => none

namespace DatabaseRun
variable {s t : DatabaseRun}

/-- The pushes of a run in their order, those to come behind those executed. -/
def pushes (s : DatabaseRun) : List (Text × Message) :=
  s.pushed.reverse ++ s.posted.filterMap pushOf

structure Sound (s : DatabaseRun) : Prop where
  posted : ∀ entry ∈ s.posted, Posted entry
  order : s.pushes.Pairwise fun first second => first.2.number < second.2.number
  numbers : ∀ push ∈ s.pushes, push.2.number < s.calls.length
  lists : ∀ key, (s.redis.messages key).Sublist (s.history key)
  delivered : ∀ key items, (Request.getMsg key, Answer.messages items) ∈ s.replied →
    ∀ message ∈ items, message ∈ s.history key
  read : ∀ key message, message ∈ s.redis.messages key →
    (s.Delivered key message ↔ s.unread key ≤ (s.history key).idxOf message)

theorem mem_history {key : Text} {message : Message} :
    message ∈ s.history key ↔ (key, message) ∈ s.pushed := by
  simp [history]

theorem Sound.history_nodup (held : Sound s) (key : Text) : (s.history key).Nodup := by
  have executed : s.pushed.Pairwise fun first second => second.2.number < first.2.number :=
    List.pairwise_reverse.mp (List.pairwise_append.mp held.order).1
  -- Messages have the numbers of their calls, and these grow.
  have numbered : (s.history key).Pairwise fun first second => second.number < first.number := by
    rw [history, List.pairwise_map]
    exact executed.filter _
  refine numbered.imp ?_
  rintro first second smaller rfl
  exact Nat.lt_irrefl _ smaller

theorem Sound.messages_nodup (held : Sound s) (key : Text) : (s.redis.messages key).Nodup :=
  (held.history_nodup key).sublist (held.lists key)

theorem idxOf_sublist {α : Type} [DecidableEq α] {items all : List α} (sub : items.Sublist all)
    (nodup : all.Nodup) {a : α} (member : a ∈ items) : items.idxOf a ≤ all.idxOf a := by
  induction sub with
  | slnil => simp at member
  | @cons items all b sub ih =>
    have other : b ≠ a := by
      rintro rfl
      exact (List.nodup_cons.mp nodup).1 (sub.subset member)
    rw [List.idxOf_cons_ne _ other]
    exact Nat.le_succ_of_le (ih (List.nodup_cons.mp nodup).2 member)
  | @cons_cons items all b sub ih =>
    by_cases same : b = a
    · subst same
      simp
    · rw [List.idxOf_cons_ne _ same, List.idxOf_cons_ne _ same]
      have rest : a ∈ items := by
        rcases List.mem_cons.mp member with here | rest
        · exact absurd here.symm same
        · exact rest
      exact Nat.succ_le_succ (ih (List.nodup_cons.mp nodup).2 rest)

/-! Every step keeps these facts. -/

theorem Sound.shrink (held : Sound s) (posted : ∀ entry ∈ t.posted, Posted entry)
    (pending : (t.posted.filterMap pushOf).Sublist (s.posted.filterMap pushOf))
    (messages : ∀ key, (t.redis.messages key).Sublist (s.redis.messages key))
    (pushed : t.pushed = s.pushed) (replied : t.replied = s.replied) (unread : t.unread = s.unread)
    (calls : s.calls.length ≤ t.calls.length) : Sound t := by
  have history (key : Text) : t.history key = s.history key := by
    simp only [DatabaseRun.history, pushed]
  have pushes : t.pushes.Sublist s.pushes := by
    unfold DatabaseRun.pushes
    rw [pushed]
    exact pending.append_left _
  refine ⟨posted, held.order.sublist pushes, ?_, ?_, ?_, ?_⟩
  · intro push member
    exact Nat.lt_of_lt_of_le (held.numbers push (pushes.subset member)) calls
  · intro key
    rw [history]
    exact (messages key).trans (held.lists key)
  · intro key items member
    rw [history]
    exact held.delivered key items (replied ▸ member)
  · intro key message member
    have before := held.read key message ((messages key).subset member)
    rw [history, unread, ← before]
    simp only [Delivered, replied]

theorem Sound.addMsg (held : Sound s) (userToken msg : Text) : Sound (s.addMsg userToken msg) := by
  have pushes : (s.addMsg userToken msg).pushes =
      s.pushes ++ [(userToken, ⟨s.calls.length, msg⟩)] := by
    simp [DatabaseRun.pushes, DatabaseRun.addMsg, pushOf]
  refine ⟨?_, ?_, ?_, held.lists, held.delivered, held.read⟩
  · intro entry member
    rcases List.mem_append.mp member with old | new
    · exact held.posted entry old
    · rw [List.mem_singleton.mp new]
      exact .push _ _
  · rw [pushes, List.pairwise_append]
    refine ⟨held.order, List.pairwise_singleton _ _, ?_⟩
    intro first member second last
    rw [List.mem_singleton.mp last]
    exact held.numbers first member
  · intro push member
    rw [pushes] at member
    simp only [DatabaseRun.addMsg, List.length_append, List.length_singleton]
    rcases List.mem_append.mp member with old | new
    · exact Nat.lt_succ_of_lt (held.numbers push old)
    · rw [List.mem_singleton.mp new]
      exact Nat.lt_succ_self _

theorem Sound.call (held : Sound s) (request : Request) : Sound (s.call request) :=
  held.shrink held.posted (List.Sublist.refl _) (fun _ => List.Sublist.refl _) rfl rfl rfl (by
    simp [DatabaseRun.call])

theorem Sound.fresh (held : Sound s) {key : Text} {message : Message} {handler : Handler}
    {posted : List (Command × Handler)}
    (front : s.posted = (.lpush key message, handler) :: posted) : message ∉ s.history key := by
  intro old
  have order := held.order
  rw [pushes, front, List.filterMap_cons_some (f := pushOf) (b := (key, message)) rfl,
    List.pairwise_append] at order
  have pushed : (key, message) ∈ s.pushed.reverse := List.mem_reverse.mpr (mem_history.mp old)
  have earlier := order.2.2 (key, message) pushed (key, message) List.mem_cons_self
  exact Nat.lt_irrefl _ earlier

theorem history_cons {key : Text} {message : Message}
    (pushed : t.pushed = (key, message) :: s.pushed) (other : Text) :
    t.history other = if other = key then message :: s.history other else s.history other := by
  rw [history, pushed, List.filter_cons]
  split
  · rename_i same
    have same : key = other := by simpa using same
    simp [history, same]
  · rename_i different
    have different : ¬key = other := by simpa using different
    simp [history, Ne.symm different]

theorem Sound.grow (held : Sound s) {key : Text} {message : Message} {items : List Message}
    (fresh : message ∉ s.history key) (stored : s.redis.list key = some items)
    (posted : ∀ entry ∈ t.posted, Posted entry) (pushes : t.pushes = s.pushes)
    (redis : t.redis = s.redis.putList key (message :: items))
    (pushed : t.pushed = (key, message) :: s.pushed)
    (unread : t.unread = Function.update s.unread key (s.unread key + 1))
    (replied : t.replied = s.replied) (calls : t.calls = s.calls) : Sound t := by
  have list := Keyspace.messages_of_list stored
  have history := history_cons pushed
  refine ⟨posted, ?_, ?_, ?_, ?_, ?_⟩
  · rw [pushes]
    exact held.order
  · rw [pushes, calls]
    exact held.numbers
  · intro other
    rw [history, redis, Keyspace.messages_putList]
    split
    · rename_i same
      rw [same, ← list]
      exact (held.lists key).cons_cons message
    · exact held.lists other
  · intro other delivered member present inside
    have before := held.delivered other delivered (replied ▸ member) present inside
    rw [history]
    split
    · exact List.mem_cons_of_mem _ before
    · exact before
  · intro other present member
    have same : t.Delivered other present ↔ s.Delivered other present := by
      simp only [Delivered, replied]
    rw [redis, Keyspace.messages_putList] at member
    rw [same, history, unread]
    split
    · rename_i here
      subst here
      rw [if_pos rfl] at member
      rw [Function.update_self]
      rcases List.mem_cons.mp member with rfl | old
      · -- The new message is unread, and no answer can hold it yet.
        rw [List.idxOf_cons_self]
        refine iff_of_false ?_ (by omega)
        rintro ⟨delivered, answer, inside⟩
        exact fresh (held.delivered other delivered answer present inside)
      · have different : message ≠ present := by
          rintro rfl
          exact fresh ((held.lists other).subset (list ▸ old))
        rw [List.idxOf_cons_ne _ different, Nat.succ_eq_add_one, Nat.add_le_add_iff_right]
        exact held.read other present (list ▸ old)
    · rename_i elsewhere
      rw [if_neg elsewhere] at member
      rw [Function.update_of_ne elsewhere]
      exact held.read other present member

theorem Sound.executed (held : Sound s) {command : Command} {handler : Handler}
    {posted : List (Command × Handler)} (front : s.posted = (command, handler) :: posted) :
    Executed { s with posted } (command, handler)
      (DatabaseRun.execAsync { s with posted } command handler) :=
  (executed_of_front s held.posted front).1

theorem Sound.left (held : Sound s) {first : Command × Handler} {posted : List (Command × Handler)}
    (front : s.posted = first :: posted) : ∀ entry ∈ posted, Posted entry :=
  (executed_of_front s held.posted front).2

theorem Sound.push (held : Sound s) {key : Text} {message : Message} {handler : Handler}
    {posted : List (Command × Handler)} {items : List Message}
    (front : s.posted = (.lpush key message, handler) :: posted)
    (stored : s.redis.list key = some items) :
    Sound
      { s with
        posted
        redis := s.redis.putList key (message :: items)
        answered := s.answered ++ [(handler, .integer (items.length + 1))]
        pushed := (key, message) :: s.pushed
        unread := Function.update s.unread key (s.unread key + 1) } := by
  refine held.grow (held.fresh front) stored (held.left front) ?_ rfl rfl rfl rfl rfl
  simp [DatabaseRun.pushes, front, pushOf]

theorem Sound.trim (held : Sound s) {key : Text} {command : Command} {handler : Handler}
    {posted : List (Command × Handler)} {items kept : List Message}
    (front : s.posted = (command, handler) :: posted) (stored : s.redis.list key = some items)
    (sub : kept.Sublist items) (answered : List (Handler × Answer)) :
    Sound { s with posted, redis := s.redis.putList key kept, answered } := by
  refine held.shrink (held.left front) ?_ ?_ rfl rfl rfl (Nat.le_refl _)
  · rw [front]
    exact (List.sublist_cons_self _ _).filterMap _
  · intro other
    rw [Keyspace.messages_putList]
    split
    · rename_i same
      rw [same, Keyspace.messages_of_list stored]
      exact sub
    · exact List.Sublist.refl _

theorem Sound.execAsync (held : Sound s) {command : Command} {handler : Handler}
    {posted : List (Command × Handler)} (front : s.posted = (command, handler) :: posted) :
    Sound (DatabaseRun.execAsync { s with posted } command handler) := by
  have executed := held.executed front
  generalize DatabaseRun.execAsync { s with posted } command handler = t at executed ⊢
  cases executed with
  | failed =>
    refine held.shrink (held.left front) ?_ (fun _ => List.Sublist.refl _) rfl rfl rfl
      (Nat.le_refl _)
    rw [front]
    exact (List.sublist_cons_self _ _).filterMap _
  | push stored message => exact held.push front stored
  | cap stored => exact held.trim front stored (List.take_sublist _ _) _
  | clear stored => exact held.trim front stored (List.drop_sublist _ _) _

theorem Sound.getMsg (held : Sound s) {key : Text} {items : List Message}
    (stored : s.redis.list key = some items) (posted : t.posted = s.posted)
    (redis : t.redis = s.redis) (pushed : t.pushed = s.pushed)
    (replied : t.replied = s.replied ++ [(.getMsg key, .messages items)])
    (unread : t.unread = Function.update s.unread key 0) (calls : t.calls = s.calls) : Sound t := by
  have list := Keyspace.messages_of_list stored
  have history (other : Text) : t.history other = s.history other := by
    simp only [DatabaseRun.history, pushed]
  have pushes : t.pushes = s.pushes := by simp only [DatabaseRun.pushes, pushed, posted]
  refine ⟨?_, ?_, ?_, ?_, ?_, ?_⟩
  · rw [posted]
    exact held.posted
  · rw [pushes]
    exact held.order
  · rw [pushes, calls]
    exact held.numbers
  · intro other
    rw [redis, history]
    exact held.lists other
  · intro other delivered member present inside
    rw [history]
    rw [replied] at member
    rcases List.mem_append.mp member with old | new
    · exact held.delivered other delivered old present inside
    · cases List.mem_singleton.mp new
      exact (held.lists key).subset (list ▸ inside)
  · intro other present member
    rw [redis] at member
    rw [history, unread]
    by_cases same : other = key
    · -- The answer holds the whole list, and nothing was pushed since.
      subst same
      rw [Function.update_self]
      refine iff_of_true ⟨items, ?_, list ▸ member⟩ (Nat.zero_le _)
      rw [replied]
      exact List.mem_append_right _ (List.mem_singleton.mpr rfl)
    · rw [Function.update_of_ne same, ← held.read other present member]
      simp [Delivered, replied, same]

theorem Sound.other (held : Sound s) {request : Request} {answer : Answer}
    (none : ∀ key items, (request, answer) ≠ (.getMsg key, .messages items))
    (posted : t.posted = s.posted) (messages : ∀ key, t.redis.messages key = s.redis.messages key)
    (pushed : t.pushed = s.pushed) (replied : t.replied = s.replied ++ [(request, answer)])
    (unread : t.unread = s.unread) (calls : t.calls = s.calls) : Sound t := by
  have history (other : Text) : t.history other = s.history other := by
    simp only [DatabaseRun.history, pushed]
  have pushes : t.pushes = s.pushes := by simp only [DatabaseRun.pushes, pushed, posted]
  refine ⟨?_, ?_, ?_, ?_, ?_, ?_⟩
  · rw [posted]
    exact held.posted
  · rw [pushes]
    exact held.order
  · rw [pushes, calls]
    exact held.numbers
  · intro other
    rw [messages, history]
    exact held.lists other
  · intro other delivered member present inside
    rw [history]
    rw [replied] at member
    rcases List.mem_append.mp member with old | new
    · exact held.delivered other delivered old present inside
    · exact absurd (List.mem_singleton.mp new).symm (none other delivered)
  · intro other present member
    rw [messages] at member
    rw [history, unread, ← held.read other present member]
    have different (items : List Message) :
        ¬(Request.getMsg other, Answer.messages items) = (request, answer) :=
      fun same => none other items same.symm
    simp only [Delivered, replied, List.mem_append, List.mem_singleton, different, or_false]

theorem Sound.execSync (held : Sound s) {request : Request} (asked : List Request) :
    Sound (DatabaseRun.execSync { s with asked } request) := by
  by_cases reads : ∃ key, request = .getMsg key
  · obtain ⟨key, rfl⟩ := reads
    cases stored : s.redis.list key with
    | none =>
      rw [execSync_getMsg_wrongType { s with asked } stored]
      exact held.other (by simp) rfl (fun _ => rfl) rfl rfl rfl rfl
    | some items =>
      rw [execSync_getMsg { s with asked } stored]
      exact held.getMsg stored rfl rfl rfl rfl rfl rfl
  · have other : ∀ key, request ≠ .getMsg key := fun key same => reads ⟨key, same⟩
    obtain ⟨answer, redis, result, messages, _⟩ := execSync_tokens { s with asked } other
    rw [result]
    refine held.other (fun key items same => ?_) rfl messages rfl rfl rfl rfl
    exact other key (congrArg Prod.fst same)

theorem Sound.post (held : Sound s) {more : List (Command × Handler)}
    (trims : ∀ entry ∈ more, ∃ key,
      entry = (capTrim key, .trimmed) ∨ entry = (clearTrim key, .trimmed))
    (posted : t.posted = s.posted ++ more) (redis : t.redis = s.redis)
    (pushed : t.pushed = s.pushed) (replied : t.replied = s.replied)
    (unread : t.unread = s.unread) (calls : t.calls = s.calls) : Sound t := by
  have none : more.filterMap pushOf = [] := by
    rw [List.filterMap_eq_nil_iff]
    intro entry member
    obtain ⟨key, rfl | rfl⟩ := trims entry member
    · rfl
    · rfl
  refine held.shrink ?_ ?_ ?_ pushed replied unread (by rw [calls])
  · intro entry member
    rw [posted] at member
    rcases List.mem_append.mp member with old | new
    · exact held.posted entry old
    · obtain ⟨key, rfl | rfl⟩ := trims entry new
      · exact .cap key
      · exact .clear key
  · rw [posted, List.filterMap_append, none, List.append_nil]
  · intro key
    rw [redis]

theorem Sound.step {e : DatabaseEvent} (held : Sound s) (taken : Taken s e t) : Sound t := by
  cases taken with
  | addMsg userToken msg => exact held.addMsg userToken msg
  | call request => exact held.call request
  | execAsync front => exact held.execAsync front
  | execSync front => exact held.execSync _
  | handle front =>
    refine held.post (fun entry member => ?_) rfl rfl rfl rfl rfl rfl
    obtain ⟨key, same⟩ := Handler.run_posted _ _ entry member
    exact ⟨key, Or.inl same⟩
  | ret here new =>
    refine held.post (fun entry member => ?_) rfl rfl rfl rfl rfl rfl
    obtain ⟨key, same, _⟩ := Request.posts_posted _ _ entry member
    exact ⟨key, Or.inr same⟩

end DatabaseRun

open DatabaseRun

theorem databaseManager_sound : Sound databaseManager.initial := by
  refine ⟨?_, List.Pairwise.nil, ?_, fun _ => List.Sublist.refl _, ?_, ?_⟩
  all_goals simp [databaseManager, pushes, Keyspace.messages, Keyspace.list]

end Pinocchio.Database
