import Pinocchio.Database.Deliveries

/-! When messages get lost between send and receive.

`GetMsg` reads the list on one connection and posts the trim that clears it on the
other. A message pushed in between is dropped unread, and this is the only way to
lose one before a hundred newer messages push it out.
-/

set_option autoImplicit false

namespace Pinocchio.Database
open Semantics Redis

namespace DatabaseRun
variable {s t : DatabaseRun}

/-- A message that leaves its list was in the array of some `GetMsg` for the token, or at
least a hundred newer messages were pushed on the list. -/
def NoLoss (s : DatabaseRun) (_ : DatabaseEvent) (t : DatabaseRun) : Prop :=
  ∀ key message, message ∈ s.redis.messages key → message ∉ t.redis.messages key →
    t.Delivered key message ∨ 100 ≤ (t.history key).idxOf message

/-- The token whose clearing trim is executed by an event. -/
def clears (s : DatabaseRun) (e : DatabaseEvent) : Option Text :=
  match e, s.posted with
  | .execAsync, (.ltrim key start stop, _) :: _ =>
    if Command.ltrim key start stop = clearTrim key then some key else none
  | _, _ => none

/-- A clearing trim is executed only when nothing was pushed since the list was last read. -/
def ClearsRead (s : DatabaseRun) (e : DatabaseEvent) (_ : DatabaseRun) : Prop :=
  ∀ key ∈ s.clears e, s.unread key = 0

/-- When something is unread, then so is the message in front, which is the newest push. -/
def FrontUnread (s : DatabaseRun) : Prop :=
  ∀ key, 0 < s.unread key →
    ∃ message rest, s.redis.messages key = message :: rest ∧ (s.history key).idxOf message = 0

theorem clearsRead_of_other {e : DatabaseEvent} (none : s.clears e = none) : ClearsRead s e t := by
  intro key member
  rw [none] at member
  cases member

theorem clears_cap {key : Text} {handler : Handler} {posted : List (Command × Handler)}
    (front : s.posted = (capTrim key, handler) :: posted) : s.clears .execAsync = none := by
  simp only [clears, front, capTrim]
  exact if_neg (capTrim_ne_clearTrim key key)

theorem clearsRead_front {key : Text} {handler : Handler} {posted : List (Command × Handler)}
    (front : s.posted = (clearTrim key, handler) :: posted) :
    ClearsRead s .execAsync t ↔ s.unread key = 0 := by
  have clearing : s.clears .execAsync = some key := by
    simp only [clears, front, clearTrim, if_true]
  simp only [ClearsRead, clearing, Option.mem_some_iff, forall_eq']

theorem noLoss_of_subset {e : DatabaseEvent}
    (kept : ∀ key, s.redis.messages key ⊆ t.redis.messages key) : NoLoss s e t :=
  fun key _ member gone => absurd (kept key member) gone

theorem FrontUnread.frame (held : FrontUnread s) (unread : t.unread = s.unread)
    (pushed : t.pushed = s.pushed) (messages : ∀ key, t.redis.messages key = s.redis.messages key) :
    FrontUnread t := by
  intro key positive
  rw [unread] at positive
  rw [messages, history, pushed]
  exact held key positive

theorem FrontUnread.unlisted (held : FrontUnread s) {key : Text}
    (stored : s.redis.list key = none) : s.unread key = 0 := by
  by_contra unread
  obtain ⟨message, rest, here, _⟩ := held key (Nat.pos_of_ne_zero unread)
  rw [Keyspace.messages, stored] at here
  cases here

theorem Sound.cap_noLoss (held : Sound s) {key : Text} {items : List Message}
    (stored : s.redis.list key = some items) (e : DatabaseEvent)
    (redis : t.redis = s.redis.putList key (items.take 100)) (pushed : t.pushed = s.pushed) :
    NoLoss s e t := by
  intro other message member gone
  rw [redis, Keyspace.messages_putList] at gone
  split at gone
  · rename_i same
    subst same
    have list := Keyspace.messages_of_list stored
    refine Or.inr ?_
    have place := idxOf_sublist (held.lists other) (held.history_nodup other) member
    rw [history, pushed]
    refine Nat.le_trans ?_ place
    -- What a cap drops lies behind a hundred newer messages of the list.
    by_contra early
    apply gone
    rw [list] at member early
    exact List.mem_take_iff_idxOf_lt member |>.mpr (by omega)
  · exact absurd member gone

/-- A clearing trim loses messages exactly when some are unread. -/
theorem Sound.clear_noLoss (held : Sound s) (front : FrontUnread s) {key : Text}
    {items : List Message} (stored : s.redis.list key = some items) (e : DatabaseEvent)
    (redis : t.redis = s.redis.putList key (items.drop 100)) (pushed : t.pushed = s.pushed)
    (replied : t.replied = s.replied) : NoLoss s e t ↔ s.unread key = 0 := by
  have list := Keyspace.messages_of_list stored
  have same (other : Text) (message : Message) :
      t.Delivered other message ↔ s.Delivered other message := by simp only [Delivered, replied]
  constructor
  · intro safe
    by_contra unread
    -- The message in front is unread, is dropped, and has no newer one.
    obtain ⟨message, rest, here, newest⟩ := front key (Nat.pos_of_ne_zero unread)
    have member : message ∈ s.redis.messages key := by rw [here]; exact List.mem_cons_self
    have gone : message ∉ t.redis.messages key := by
      have once := held.messages_nodup key
      rw [here] at once
      rw [redis, Keyspace.messages_putList, if_pos rfl, ← list, here, List.drop_succ_cons]
      exact fun later => (List.nodup_cons.mp once).1 (List.mem_of_mem_drop later)
    rcases safe key message member gone with delivered | old
    · have read := (held.read key message member).mp ((same key message).mp delivered)
      omega
    · rw [history, pushed] at old
      rw [history] at newest
      omega
  · -- All of the list was read, so what is dropped was delivered.
    intro read other message member gone
    rw [redis, Keyspace.messages_putList] at gone
    split at gone
    · rename_i here
      subst here
      exact Or.inl ((same other message).mpr ((held.read other message member).mpr (by omega)))
    · exact absurd member gone

theorem noLoss_iff_clearsRead {e : DatabaseEvent} (held : Sound s) (front : FrontUnread s)
    (taken : Taken s e t) : NoLoss s e t ↔ ClearsRead s e t := by
  cases taken with
  | addMsg userToken msg =>
    exact iff_of_true (noLoss_of_subset fun _ => List.Subset.refl _) (clearsRead_of_other rfl)
  | call request =>
    exact iff_of_true (noLoss_of_subset fun _ => List.Subset.refl _) (clearsRead_of_other rfl)
  | handle front =>
    exact iff_of_true (noLoss_of_subset fun _ => List.Subset.refl _) (clearsRead_of_other rfl)
  | ret here new =>
    exact iff_of_true (noLoss_of_subset fun _ => List.Subset.refl _) (clearsRead_of_other rfl)
  | @execSync request asked front =>
    obtain ⟨answer, redis, unread, result, messages, _⟩ := execSync_keeps { s with asked } request
    rw [result]
    refine iff_of_true (noLoss_of_subset fun key => ?_) (clearsRead_of_other rfl)
    rw [messages]
    exact List.Subset.refl _
  | @execAsync command handler posted first =>
    have executed := held.executed first
    generalize execAsync { s with posted } command handler = t at executed ⊢
    cases executed with
    | @failed _ _ key stored about =>
      refine iff_of_true (noLoss_of_subset fun _ => List.Subset.refl _) ?_
      rcases about with rfl | rfl | ⟨message, rfl⟩
      · exact clearsRead_of_other (clears_cap first)
      · exact (clearsRead_front first).mpr (front.unlisted stored)
      · exact clearsRead_of_other (by simp only [clears, first])
    | @push key items stored message =>
      have none : s.clears .execAsync = none := by simp only [clears, first]
      refine iff_of_true (noLoss_of_subset fun other => ?_) (clearsRead_of_other none)
      rw [Keyspace.messages_putList]
      split
      · rename_i same
        rw [same, Keyspace.messages_of_list stored]
        exact List.subset_cons_self _ _
      · exact List.Subset.refl _
    | @cap key items stored =>
      exact iff_of_true (held.cap_noLoss stored _ rfl rfl) (clearsRead_of_other (clears_cap first))
    | @clear key items stored =>
      refine Iff.trans ?_ (clearsRead_front first).symm
      exact held.clear_noLoss front stored _ rfl rfl rfl

theorem FrontUnread.step {e : DatabaseEvent} (front : FrontUnread s) (held : Sound s)
    (safe : ClearsRead s e t) (taken : Taken s e t) : FrontUnread t := by
  cases taken with
  | addMsg userToken msg => exact front.frame rfl rfl fun _ => rfl
  | call request => exact front.frame rfl rfl fun _ => rfl
  | handle first => exact front.frame rfl rfl fun _ => rfl
  | ret here new => exact front.frame rfl rfl fun _ => rfl
  | @execSync request asked first =>
    obtain ⟨answer, redis, unread, result, messages, _, fewer⟩ :=
      execSync_keeps { s with asked } request
    rw [result]
    intro key positive
    rw [messages]
    rcases fewer key with same | zero
    · exact front key (same ▸ positive)
    · exact absurd zero (Nat.pos_iff_ne_zero.mp positive)
  | @execAsync command handler posted first =>
    have executed := held.executed first
    generalize execAsync { s with posted } command handler = t at executed safe ⊢
    cases executed with
    | failed => exact front.frame rfl rfl fun _ => rfl
    | @push key items stored message =>
      intro other positive
      rw [history_cons (s := s) rfl, Keyspace.messages_putList]
      split
      · exact ⟨message, items, rfl, List.idxOf_cons_self⟩
      · rename_i different
        have before : 0 < s.unread other := by
          simpa only [Function.update_of_ne different] using positive
        exact front other before
    | @cap key items stored =>
      intro other positive
      obtain ⟨message, rest, here, newest⟩ := front other positive
      rw [Keyspace.messages_putList]
      split
      · rename_i same
        rw [same, Keyspace.messages_of_list stored] at here
        exact ⟨message, rest.take 99, by rw [here, List.take_succ_cons], newest⟩
      · exact ⟨message, rest, here, newest⟩
    | @clear key items stored =>
      have read : s.unread key = 0 := (clearsRead_front first).mp safe
      intro other positive
      rw [Keyspace.messages_putList]
      split
      · rename_i same
        rw [same, read] at positive
        exact absurd positive (Nat.lt_irrefl 0)
      · exact front other positive

end DatabaseRun

open DatabaseRun

/-- Along a run no message is lost exactly when, whenever a clearing trim is executed, nothing
was pushed on the list since it was last read. -/
theorem databaseManager_noLoss (events : List DatabaseEvent) :
    databaseManager.Along NoLoss databaseManager.initial events ↔
      databaseManager.Along ClearsRead databaseManager.initial events := by
  refine System.along_iff (fun s => Sound s ∧ FrontUnread s) ?_ ?_ ?_ events
  · intro s e t held step
    exact noLoss_iff_clearsRead held.1 held.2 (taken_of_step step)
  · intro s e t held step safe
    have taken := taken_of_step step
    have read := (noLoss_iff_clearsRead held.1 held.2 taken).mp safe
    exact ⟨held.1.step taken, held.2.step held.1 read taken⟩
  · exact ⟨databaseManager_sound, fun key positive => absurd positive (Nat.lt_irrefl 0)⟩

def lateMessage : List DatabaseEvent :=
  let token := sampleToken
  [.call (.getMsg token), .execSync, .addMsg token ⟨ascii "late", by decide⟩, .ret 0, .execAsync]

theorem databaseManager_lateMessage :
    ¬∀ events, databaseManager.Along NoLoss databaseManager.initial events := by
  intro always
  let token : Text := ⟨ascii "token", by decide⟩
  let before : DatabaseRun :=
    (databaseManager.run databaseManager.initial lateMessage).get (by decide +kernel)
  let after : DatabaseRun := (databaseManager.step before .execAsync).get (by decide +kernel)
  have safe := System.along_at (always (lateMessage ++ [.execAsync])) (t := before) (u := after)
    (Option.some_get _).symm (Option.some_get _).symm
  have listed : ⟨1, ⟨ascii "late", by decide⟩⟩ ∈ before.redis.messages token := by decide +kernel
  have gone : ⟨1, ⟨ascii "late", by decide⟩⟩ ∉ after.redis.messages token := by decide +kernel
  have answers : after.replied = [(.getMsg token, .messages [])] := by decide +kernel
  rcases safe token _ listed gone with ⟨items, answer, inside⟩ | old
  · rw [answers] at answer
    cases List.mem_singleton.mp answer
    cases inside
  · exact absurd old (by decide +kernel)

end Pinocchio.Database
