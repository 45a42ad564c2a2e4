import Pinocchio.Database.Deliveries

/-! The cap of a hundred messages.

Each push that leaves more than a hundred messages is answered by a length that makes
its handler post the capping trim. Trims lag behind the pushes, but one that is due
takes the list back to a hundred, and one that is late finds nothing to drop.
-/

set_option autoImplicit false

namespace Pinocchio.Database
open Semantics Redis

/-- The manager in front of a server that holds keys already. -/
def managerOn (redis : Keyspace) : System DatabaseRun DatabaseEvent := ⟨{ redis }, DatabaseRun.step⟩

def Call.sends (key : Text) : Call → Option Message
  | .addMsg userToken message => if userToken = key then some message else none
  | .sync _ => none

namespace DatabaseRun
variable {s t : DatabaseRun} {key : Text}

/-- The messages sent to a token, newest first. -/
def sent (s : DatabaseRun) (key : Text) : List Message :=
  (s.calls.filterMap (Call.sends key)).reverse

/-- Every command was answered, and every handler has run. -/
def Drained (s : DatabaseRun) : Prop := s.posted = [] ∧ s.answered = []

instance (s : DatabaseRun) : Decidable s.Drained :=
  inferInstanceAs (Decidable (s.posted = [] ∧ s.answered = []))

/-- No waiting call works on the key: only sends do. -/
def SendsOnly (key : Text) (_ : DatabaseRun) (e : DatabaseEvent) : Prop :=
  ∀ request ∈ e.called, request.key ≠ key

instance (key : Text) (s : DatabaseRun) (e : DatabaseEvent) : Decidable (SendsOnly key s e) :=
  inferInstanceAs (Decidable (∀ request ∈ e.called, request.key ≠ key))

def SendsAndReads (key : Text) (_ : DatabaseRun) (e : DatabaseEvent) : Prop :=
  ∀ request ∈ e.called, request.key = key → request = .getMsg key

/-- A capping trim is posted, or its handler is going to post it. -/
def CapDue (s : DatabaseRun) (key : Text) : Prop :=
  (capTrim key, .trimmed) ∈ s.posted ∨
    ∃ n, (.pushed key, .integer n) ∈ s.answered ∧ 99 < (Answer.integer n).value.toInt

structure Capped (key : Text) (s : DatabaseRun) : Prop where
  posted : ∀ entry ∈ s.posted, Posted entry
  asked : ∀ request ∈ s.asked, request.key = key → request = .getMsg key
  listed : s.redis.list key = some (s.redis.messages key)
  due : 100 < (s.redis.messages key).length → s.CapDue key

/-- The messages sent to a key: those on their way and those pushed, newest first. -/
def onTheWay (s : DatabaseRun) (key : Text) : List Message :=
  ((s.posted.filterMap pushOf).filter (·.1 = key)).map Prod.snd

structure Kept (key : Text) (s : DatabaseRun) : Prop where
  asked : ∀ request ∈ s.asked, request.key ≠ key
  replied : ∀ entry ∈ s.replied, entry.1.key ≠ key
  uncleared : (clearTrim key, .trimmed) ∉ s.posted
  sent : s.sent key = (s.onTheWay key).reverse ++ s.history key
  newest : ∃ n, 100 ≤ n ∧ s.redis.messages key = (s.history key).take n

/-! What is due stays due until it is done. -/

theorem CapDue.keep (due : s.CapDue key)
    (posted : (capTrim key, .trimmed) ∈ s.posted → (capTrim key, .trimmed) ∈ t.posted)
    (answered : ∀ n, (.pushed key, .integer n) ∈ s.answered →
      (.pushed key, .integer n) ∈ t.answered) : t.CapDue key := by
  rcases due with here | ⟨n, later, many⟩
  · exact Or.inl (posted here)
  · exact Or.inr ⟨n, answered n later, many⟩

theorem mem_of_front {α : Type} {entry first : α} {all rest : List α} (front : all = first :: rest)
    (other : entry ≠ first) (member : entry ∈ all) : entry ∈ rest := by
  rw [front] at member
  exact (List.mem_cons.mp member).resolve_left other

/-! The steps. -/

theorem Capped.frame (held : Capped key s) (posted : ∀ entry ∈ t.posted, Posted entry)
    (asked : ∀ request ∈ t.asked, request.key = key → request = .getMsg key)
    (list : t.redis.list key = s.redis.list key) (due : s.CapDue key → t.CapDue key) :
    Capped key t := by
  have messages : t.redis.messages key = s.redis.messages key := by
    rw [Keyspace.messages, Keyspace.messages, list]
  refine ⟨posted, asked, ?_, fun long => due (held.due ?_)⟩
  · rw [list, messages]
    exact held.listed
  · rw [← messages]
    exact long

theorem Capped.post (held : Capped key s) {more : List (Command × Handler)}
    (shapes : ∀ entry ∈ more, Posted entry) (posted : t.posted = s.posted ++ more)
    (answered : ∀ n, (.pushed key, .integer n) ∈ s.answered →
      (.pushed key, .integer n) ∈ t.answered)
    (asked : t.asked = s.asked) (redis : t.redis = s.redis) : Capped key t := by
  refine held.frame ?_ ?_ (by rw [redis]) ?_
  · intro entry member
    rw [posted] at member
    exact (List.mem_append.mp member).elim (held.posted entry) (shapes entry)
  · rw [asked]
    exact held.asked
  · intro due
    refine due.keep ?_ answered
    intro member
    rw [posted]
    exact List.mem_append_left _ member

theorem Capped.elsewhere (held : Capped key s) {other : Text} {items : List Message}
    (different : key ≠ other) (posted : ∀ entry ∈ t.posted, Posted entry)
    (asked : t.asked = s.asked) (redis : t.redis = s.redis.putList other items)
    (due : s.CapDue key → t.CapDue key) : Capped key t := by
  refine held.frame posted ?_ ?_ due
  · rw [asked]
    exact held.asked
  · rw [redis, Keyspace.list_putList, if_neg different]

theorem Capped.put (held : Capped key s) {items : List Message}
    (posted : ∀ entry ∈ t.posted, Posted entry) (asked : t.asked = s.asked)
    (redis : t.redis = s.redis.putList key items) (due : 100 < items.length → t.CapDue key) :
    Capped key t := by
  have messages : t.redis.messages key = items := by
    rw [redis, Keyspace.messages_putList, if_pos rfl]
  refine ⟨posted, ?_, ?_, ?_⟩
  · rw [asked]
    exact held.asked
  · rw [messages, redis, Keyspace.list_putList, if_pos rfl]
  · rw [messages]
    exact due

theorem Capped.execAsync (held : Capped key s) {command : Command} {handler : Handler}
    {posted : List (Command × Handler)} (front : s.posted = (command, handler) :: posted) :
    Capped key (DatabaseRun.execAsync { s with posted } command handler) := by
  obtain ⟨executed, shapes⟩ := executed_of_front s held.posted front
  generalize DatabaseRun.execAsync { s with posted } command handler = t at executed ⊢
  cases executed with
  | @failed _ _ other missing about =>
    -- The key holds a list, so the command was about another one.
    have different : key ≠ other := by
      rintro rfl
      exact absurd (held.listed.symm.trans missing) (by simp)
    refine held.frame shapes held.asked rfl fun due => due.keep (mem_of_front front ?_) ?_
    · intro same
      rcases about with cap | clear | ⟨message, push⟩
      · exact different (capTrim_injective ((congrArg Prod.fst same).trans cap))
      · exact capTrim_ne_clearTrim key other ((congrArg Prod.fst same).trans clear)
      · exact absurd ((congrArg Prod.fst same).trans push) (by simp [capTrim])
    · exact fun n member => List.mem_append_left _ member
  | @push other items stored message =>
    have keep (due : s.CapDue key) : CapDue
        { s with posted, answered := s.answered ++ [(.pushed other, .integer (items.length + 1))] }
        key :=
      due.keep (mem_of_front front (by simp [capTrim])) fun n => List.mem_append_left _
    by_cases same : key = other
    · subst same
      refine held.put shapes rfl rfl fun long => ?_
      rw [List.length_cons] at long
      rcases Nat.lt_or_ge 100 items.length with before | short
      · exact keep (held.due (by rw [Keyspace.messages_of_list stored]; exact before))
      · -- The list grows past the cap, and the reply says so.
        have hundred : items.length = 100 := by omega
        refine Or.inr ⟨items.length + 1, ?_, by rw [hundred]; decide⟩
        exact List.mem_append_right _ (List.mem_singleton.mpr rfl)
    · exact held.elsewhere same shapes rfl rfl keep
  | @cap other items stored =>
    by_cases same : key = other
    · subst same
      refine held.put shapes rfl rfl fun long => ?_
      rw [List.length_take] at long
      omega
    · refine held.elsewhere same shapes rfl rfl fun due => due.keep (mem_of_front front ?_) ?_
      · exact fun equal => same (capTrim_injective (congrArg Prod.fst equal))
      · exact fun n member => List.mem_append_left _ member
  | @clear other items stored =>
    have keep (due : s.CapDue key) : CapDue
        { s with posted, answered := s.answered ++ [(.trimmed, .ok)] } key := by
      refine due.keep (mem_of_front front ?_) fun n => List.mem_append_left _
      exact fun equal => capTrim_ne_clearTrim key other (congrArg Prod.fst equal)
    by_cases same : key = other
    · subst same
      refine held.put shapes rfl rfl fun long => keep (held.due ?_)
      -- A list that is long without its newest hundred was long before.
      rw [Keyspace.messages_of_list stored]
      rw [List.length_drop] at long
      omega
    · exact held.elsewhere same shapes rfl rfl keep

theorem Capped.handle (held : Capped key s) (free : (0 : UInt8) ∉ key.val) {handler : Handler}
    {answer : Answer} {answered : List (Handler × Answer)}
    (front : s.answered = (handler, answer) :: answered) :
    Capped key (DatabaseRun.handle { s with answered } handler answer) := by
  refine held.frame ?_ held.asked rfl ?_
  · intro entry member
    rcases List.mem_append.mp member with old | new
    · exact held.posted entry old
    · obtain ⟨other, rfl⟩ := Handler.run_posted handler _ entry new
      exact .cap other
  · rintro (here | ⟨n, later, many⟩)
    · exact Or.inl (List.mem_append_left _ here)
    · rw [front] at later
      rcases List.mem_cons.mp later with now | rest
      · -- The trim that was due is posted.
        cases now
        refine Or.inl (List.mem_append_right _ ?_)
        rw [Handler.run_pushed free, if_pos many]
        exact List.mem_singleton.mpr rfl
      · exact Or.inr ⟨n, rest, many⟩

theorem Capped.step {e : DatabaseEvent} (held : Capped key s) (free : (0 : UInt8) ∉ key.val)
    (permitted : SendsAndReads key s e) (taken : Taken s e t) : Capped key t := by
  cases taken with
  | addMsg userToken msg =>
    refine held.post ?_ (rfl : _ = s.posted ++ [_]) (fun _ => id) rfl rfl
    intro entry member
    rw [List.mem_singleton.mp member]
    exact .push _ _
  | call request =>
    refine held.frame held.posted ?_ rfl id
    intro other member
    rcases List.mem_append.mp member with old | new
    · exact held.asked other old
    · rw [List.mem_singleton.mp new]
      exact permitted request rfl
  | execAsync front => exact held.execAsync front
  | @execSync request asked front =>
    obtain ⟨answer, redis, unread, result, _, keys, _⟩ := execSync_keeps { s with asked } request
    rw [result]
    have about := held.asked request (by rw [front]; exact List.mem_cons_self)
    refine held.frame held.posted ?_ ?_ id
    · intro other member
      exact held.asked other (by rw [front]; exact List.mem_cons_of_mem _ member)
    · exact Keyspace.list_congr (keys key about)
  | handle front => exact held.handle free front
  | @ret call request answer here new =>
    refine held.post ?_ rfl (fun _ => id) rfl rfl
    intro entry member
    obtain ⟨other, rfl, _⟩ := Request.posts_posted request _ entry member
    exact .clear other

/-! Without reads the list is the newest part of what was sent. -/

theorem Kept.frame (held : Kept key s) (asked : ∀ request ∈ t.asked, request.key ≠ key)
    (replied : ∀ entry ∈ t.replied, entry.1.key ≠ key)
    (uncleared : (clearTrim key, .trimmed) ∉ t.posted) (sent : t.sent key = s.sent key)
    (onTheWay : t.onTheWay key = s.onTheWay key) (pushed : t.pushed = s.pushed)
    (messages : t.redis.messages key = s.redis.messages key) : Kept key t := by
  have history : t.history key = s.history key := by
    rw [DatabaseRun.history, pushed, DatabaseRun.history]
  refine ⟨asked, replied, uncleared, ?_, ?_⟩
  · rw [sent, onTheWay, history]
    exact held.sent
  · rw [messages, history]
    exact held.newest

theorem Kept.post (held : Kept key s) {more : List (Command × Handler)}
    (trims : ∀ entry ∈ more, ∃ other,
      entry = (capTrim other, .trimmed) ∨ entry = (clearTrim other, .trimmed) ∧ other ≠ key)
    (posted : t.posted = s.posted ++ more) (asked : t.asked = s.asked)
    (replied : t.replied = s.replied) (calls : t.calls = s.calls) (pushed : t.pushed = s.pushed)
    (redis : t.redis = s.redis) : Kept key t := by
  have none : more.filterMap pushOf = [] := by
    rw [List.filterMap_eq_nil_iff]
    intro entry member
    obtain ⟨other, rfl | ⟨rfl, _⟩⟩ := trims entry member
    · rfl
    · rfl
  refine held.frame ?_ ?_ ?_ ?_ ?_ pushed ?_
  · rw [asked]
    exact held.asked
  · rw [replied]
    exact held.replied
  · rw [posted, List.mem_append]
    rintro (old | new)
    · exact held.uncleared old
    · obtain ⟨other, same | ⟨same, different⟩⟩ := trims _ new
      · exact capTrim_ne_clearTrim other key (congrArg Prod.fst same).symm
      · exact different (clearTrim_injective (congrArg Prod.fst same)).symm
  · rw [DatabaseRun.sent, calls, DatabaseRun.sent]
  · rw [DatabaseRun.onTheWay, posted, List.filterMap_append, none, List.append_nil,
      DatabaseRun.onTheWay]
  · rw [redis]

theorem onTheWay_push {other : Text} {message : Message} {handler : Handler}
    {posted : List (Command × Handler)}
    (front : s.posted = (.lpush other message, handler) :: posted) :
    s.onTheWay key =
      if other = key then message :: onTheWay { s with posted } key
      else onTheWay { s with posted } key := by
  rw [DatabaseRun.onTheWay, front]
  split
  · rename_i same
    simp [DatabaseRun.onTheWay, pushOf, same]
  · rename_i different
    simp [DatabaseRun.onTheWay, pushOf, different]

theorem Kept.addMsg (held : Kept key s) (userToken msg : Text) :
    Kept key (s.addMsg userToken msg) := by
  refine ⟨held.asked, held.replied, ?_, ?_, held.newest⟩
  · intro member
    rcases List.mem_append.mp member with old | new
    · exact held.uncleared old
    · exact absurd (congrArg Prod.fst (List.mem_singleton.mp new)) (by simp [clearTrim])
  · have before := held.sent
    simp only [DatabaseRun.sent, DatabaseRun.onTheWay, DatabaseRun.history] at before ⊢
    by_cases same : userToken = key
    · subst same
      simp [DatabaseRun.addMsg, Call.sends, pushOf, before]
    · simp [DatabaseRun.addMsg, Call.sends, pushOf, before, same]

theorem Kept.call (held : Kept key s) {request : Request} (other : request.key ≠ key) :
    Kept key (s.call request) := by
  refine held.frame ?_ held.replied held.uncleared ?_ rfl rfl rfl
  · intro asked member
    rcases List.mem_append.mp member with old | new
    · exact held.asked asked old
    · rw [List.mem_singleton.mp new]
      exact other
  · simp [DatabaseRun.sent, DatabaseRun.call, Call.sends]

theorem Kept.execAsync (held : Kept key s) (capped : Capped key s) {command : Command}
    {handler : Handler} {posted : List (Command × Handler)}
    (front : s.posted = (command, handler) :: posted) :
    Kept key (DatabaseRun.execAsync { s with posted } command handler) := by
  have uncleared : (clearTrim key, .trimmed) ∉ posted := fun member =>
    held.uncleared (by rw [front]; exact List.mem_cons_of_mem _ member)
  have way : s.onTheWay key = ((((command, handler) :: posted).filterMap pushOf).filter
      (·.1 = key)).map Prod.snd := by
    rw [DatabaseRun.onTheWay, front]
  have executed := (executed_of_front s capped.posted front).1
  generalize DatabaseRun.execAsync { s with posted } command handler = t at executed ⊢
  cases executed with
  | @failed _ _ other missing about =>
    have different : other ≠ key := by
      rintro rfl
      exact absurd (capped.listed.symm.trans missing) (by simp)
    refine held.frame held.asked held.replied uncleared rfl ?_ rfl rfl
    rw [way]
    rcases about with rfl | rfl | ⟨message, rfl⟩
    · rfl
    · rfl
    · rw [← way, onTheWay_push front, if_neg different]
      rfl
  | @push other items stored message =>
    have sent := held.sent
    by_cases same : other = key
    · subst same
      obtain ⟨n, enough, newest⟩ := held.newest
      have list := Keyspace.messages_of_list stored
      -- One more of the newest messages is on the list.
      refine ⟨held.asked, held.replied, uncleared, ?_, n + 1, by omega, ?_⟩
      · rw [history_cons (s := s) rfl, if_pos rfl]
        rw [onTheWay_push front, if_pos rfl, List.reverse_cons, List.append_assoc] at sent
        exact sent
      · rw [history_cons (s := s) rfl, if_pos rfl, Keyspace.messages_putList, if_pos rfl,
          List.take_succ_cons, ← newest]
        exact congrArg _ list.symm
    · obtain ⟨n, enough, newest⟩ := held.newest
      refine ⟨held.asked, held.replied, uncleared, ?_, n, enough, ?_⟩
      · rw [history_cons (s := s) rfl, if_neg (Ne.symm same)]
        rw [onTheWay_push front, if_neg same] at sent
        exact sent
      · rw [history_cons (s := s) rfl, if_neg (Ne.symm same), Keyspace.messages_putList,
          if_neg (Ne.symm same)]
        exact newest
  | @cap other items stored =>
    by_cases same : other = key
    · subst same
      obtain ⟨n, enough, newest⟩ := held.newest
      have list := Keyspace.messages_of_list stored
      refine ⟨held.asked, held.replied, uncleared, held.sent.trans (by rw [way]; rfl), 100,
        Nat.le_refl _, ?_⟩
      rw [Keyspace.messages_putList, if_pos rfl]
      refine (congrArg (List.take 100) (list.symm.trans newest)).trans ?_
      rw [List.take_take, Nat.min_eq_left enough]
      rfl
    · refine held.frame held.asked held.replied uncleared rfl (by rw [way]; rfl) rfl ?_
      rw [Keyspace.messages_putList, if_neg (Ne.symm same)]
  | @clear other items stored =>
    have different : other ≠ key := by
      rintro rfl
      exact held.uncleared (by rw [front]; exact List.mem_cons_self)
    refine held.frame held.asked held.replied uncleared rfl (by rw [way]; rfl) rfl ?_
    rw [Keyspace.messages_putList, if_neg (Ne.symm different)]

theorem Kept.step {e : DatabaseEvent} (held : Kept key s) (capped : Capped key s)
    (permitted : SendsOnly key s e) (taken : Taken s e t) : Kept key t := by
  cases taken with
  | addMsg userToken msg => exact held.addMsg userToken msg
  | call request => exact held.call (permitted request rfl)
  | execAsync front => exact held.execAsync capped front
  | @execSync request asked front =>
    obtain ⟨answer, redis, unread, result, messages, _, _⟩ :=
      execSync_keeps { s with asked } request
    rw [result]
    have other := held.asked request (by rw [front]; exact List.mem_cons_self)
    refine held.frame ?_ ?_ held.uncleared rfl rfl rfl (messages key)
    · intro later member
      exact held.asked later (by rw [front]; exact List.mem_cons_of_mem _ member)
    · intro entry member
      rcases List.mem_append.mp member with old | new
      · exact held.replied entry old
      · rw [List.mem_singleton.mp new]
        exact other
  | handle front =>
    refine held.post (fun entry member => ?_) rfl rfl rfl rfl rfl rfl
    obtain ⟨other, same⟩ := Handler.run_posted _ _ entry member
    exact ⟨other, Or.inl same⟩
  | @ret call request answer here new =>
    refine held.post (fun entry member => ?_) rfl rfl rfl rfl rfl rfl
    obtain ⟨other, same, reading⟩ := Request.posts_posted _ _ entry member
    refine ⟨other, Or.inr ⟨same, ?_⟩⟩
    have apart := held.replied _ (List.mem_of_getElem? here)
    rw [reading] at apart
    exact apart

end DatabaseRun

open DatabaseRun

theorem managerOn_capped {redis : Keyspace} {key : Text} (absent : redis key = none)
    (free : (0 : UInt8) ∉ key.val) {s : DatabaseRun}
    (reached : (managerOn redis).Reaches (SendsAndReads key) s) : Capped key s := by
  have list : redis.list key = some [] := by rw [Keyspace.list, absent]
  apply reached.invariant
  case preserved =>
    intro s e t held permitted step
    exact held.step free permitted (taken_of_step step)
  refine ⟨by simp [managerOn], by simp [managerOn], ?_, ?_⟩
  · exact list.trans (by rw [managerOn, Keyspace.messages_of_list list])
  · intro long
    rw [managerOn, Keyspace.messages_of_list list] at long
    exact absurd long (by decide)

theorem managerOn_kept {redis : Keyspace} {key : Text} (absent : redis key = none)
    (free : (0 : UInt8) ∉ key.val) {s : DatabaseRun}
    (reached : (managerOn redis).Reaches (SendsOnly key) s) : Capped key s ∧ Kept key s := by
  have list : redis.list key = some [] := by rw [Keyspace.list, absent]
  have wider : ∀ s e, SendsOnly key s e → SendsAndReads key s e := by
    intro s e only request call about
    exact absurd about (only request call)
  refine reached.invariant (P := fun s => Capped key s ∧ Kept key s)
    ⟨managerOn_capped absent free .initial, ?_⟩ ?_
  · refine ⟨?_, ?_, ?_, ?_, 100, Nat.le_refl _, ?_⟩
    · simp [managerOn]
    · simp [managerOn]
    · simp [managerOn]
    · simp [managerOn, DatabaseRun.sent, onTheWay, history]
    · simp [managerOn, Keyspace.messages_of_list list, history]
  · intro s e t held permitted step
    have taken := taken_of_step step
    exact ⟨held.1.step free (wider s e permitted) taken, held.2.step held.1 permitted taken⟩

/-- Messages are sent to a token, and to any others, in whatever order with the commands. When
all is done its list is the newest hundred messages sent to it. Also when messages are read in
between it has at most a hundred elements then. -/
theorem managerOn_hundred (redis : Keyspace) (key : Text) (absent : redis key = none)
    (free : (0 : UInt8) ∉ key.val) :
    (∀ s, (managerOn redis).Reaches (SendsOnly key) s → s.Drained →
      s.redis.messages key = (s.sent key).take 100) ∧
    ∀ s, (managerOn redis).Reaches (SendsAndReads key) s → s.Drained →
      (s.redis.messages key).length ≤ 100 := by
  -- Nothing is due when nothing is outstanding.
  have short {s : DatabaseRun} (capped : Capped key s) (drained : s.Drained) :
      (s.redis.messages key).length ≤ 100 := by
    by_contra long
    rcases capped.due (by omega) with here | ⟨n, later, _⟩
    · rw [drained.1] at here
      cases here
    · rw [drained.2] at later
      cases later
  constructor
  · intro s reached drained
    obtain ⟨capped, kept⟩ := managerOn_kept absent free reached
    obtain ⟨n, enough, newest⟩ := kept.newest
    have all : s.sent key = s.history key := by
      rw [kept.sent, onTheWay, drained.1]
      rfl
    have cut := List.take_of_length_le (short capped drained)
    rw [all, ← cut, newest, List.take_take, Nat.min_eq_left enough]
  · intro s reached drained
    exact short (managerOn_capped absent free reached) drained

def hundredAndOne : List DatabaseEvent :=
  List.replicate 101 (.addMsg sampleToken ⟨ascii "hello", by decide⟩) ++
    List.replicate 101 .execAsync ++ List.replicate 101 .handle ++ List.replicate 2 .execAsync ++
    List.replicate 2 .handle

theorem managerOn_hundred_overfull :
    let token : Text := ⟨ascii "token", by decide⟩
    let m := managerOn fun _ => none
    let s := (m.run m.initial hundredAndOne).get (by decide +kernel)
    s.redis.messages token = (s.sent token).take 100 := by
  intro token m s
  refine (managerOn_hundred (fun _ => none) token rfl (by decide)).1 s ?_ ?_
  · exact System.Reaches.run .initial (by decide +kernel) (Option.some_get _).symm
  · decide +kernel

end Pinocchio.Database
