import Pinocchio.Semantics.Transition
import Pinocchio.Database.Keyspace

/-! `TDatabaseManager` between its callers and the server.

The asynchronous client carries `LPUSH` and `LTRIM`, the synchronous one the other
commands. Each connection is executed in its own order, and nothing orders one
against the other. Calls of the methods may come at any time.
-/

set_option autoImplicit false

namespace Pinocchio.Database
open Semantics Redis

def userTokens : Text := ⟨ascii "userToken", by decide⟩

def sampleToken : Text := ⟨ascii "token", by decide⟩
def shortToken : Text := ⟨ascii "t", by decide⟩

def capTrim (key : Text) : Command := .ltrim key ⟨ascii "0", by decide⟩ ⟨ascii "99", by decide⟩

/-- The trim that is to drop what `GetMsg` has read. -/
def clearTrim (key : Text) : Command := .ltrim key ⟨ascii "100", by decide⟩ ⟨ascii "-1", by decide⟩

theorem capTrim_ne_clearTrim (key other : Text) : capTrim key ≠ clearTrim other := by
  intro same
  injection same with _ start _
  exact absurd start (by decide)

theorem capTrim_injective {key other : Text} (same : capTrim key = capTrim other) :
    key = other := by
  injection same

theorem clearTrim_injective {key other : Text} (same : clearTrim key = clearTrim other) :
    key = other := by
  injection same

inductive Request where
  | isMember (userToken : Text)
  | addMember (userToken : Text)
  | getMsg (userToken : Text)
  deriving DecidableEq

def Request.command : Request → Command
  | .isMember userToken => .sismember userTokens userToken
  | .addMember userToken => .sadd userTokens userToken
  | .getMsg userToken => .lrange userToken ⟨ascii "0", by decide⟩ ⟨ascii "-1", by decide⟩

/-- The handlers of asynchronous commands: of `LPUSH`, with the token it captured, and of
`LTRIM`, which only writes to the log. -/
inductive Handler where
  | pushed (userToken : Text)
  | trimmed
  deriving DecidableEq

def Handler.run : Handler → RedisValue → List (Command × Handler)
  | .pushed userToken, v =>
    -- The captured token is passed on as a C string.
    if v.isOk then
      if v.toInt > 99 then [(capTrim (RedisBuffer.ofCString userToken), .trimmed)] else []
    else []
  | .trimmed, _ => []

def isMember (result : RedisValue) : Bool :=
  if result.isOk then if result.toInt = 1 then true else false else false

def addMember (result : RedisValue) : Bool := result.isOk

def getMsg (result : RedisValue) : Option (List RedisValue) :=
  if result.isOk then some result.toArray else none

theorem getMsg_messages (items : List Message) :
    getMsg (Answer.messages items).value =
      some (items.map fun message => .bytes message.text.val false) := by
  simp only [Answer.value, Answer.reply, Reply.value, Reply.values_eq_map, List.map_map]
  rfl

inductive Result where
  | flag (ok : Bool)
  | messages (arr : Option (List RedisValue))
  deriving DecidableEq

def Request.key : Request → Text
  | .getMsg userToken => userToken
  | .isMember _ | .addMember _ => userTokens

def Request.result : Request → RedisValue → Result
  | .isMember _, v => .flag (Database.isMember v)
  | .addMember _, v => .flag (Database.addMember v)
  | .getMsg _, v => .messages (Database.getMsg v)

def Request.posts : Request → RedisValue → List (Command × Handler)
  | .getMsg userToken, v => if v.isOk then [(clearTrim userToken, .trimmed)] else []
  | _, _ => []

/-- The commands that can be posted, with their handlers. -/
inductive Posted : Command × Handler → Prop where
  | push (key : Text) (message : Message) : Posted (.lpush key message, .pushed key)
  | cap (key : Text) : Posted (capTrim key, .trimmed)
  | clear (key : Text) : Posted (clearTrim key, .trimmed)

theorem Handler.run_pushed {key : Text} (free : (0 : UInt8) ∉ key.val) (n : Nat) :
    (Handler.pushed key).run (Answer.integer n).value =
      if 99 < (Answer.integer n).value.toInt then [(capTrim key, .trimmed)] else [] := by
  have same : RedisBuffer.ofCString key = key := Text.untilNul_of_free free
  have ok : (Answer.integer n).value.isOk = true := rfl
  simp only [Handler.run, ok, if_true, same, gt_iff_lt]

theorem Handler.run_posted (handler : Handler) (v : RedisValue) :
    ∀ entry ∈ handler.run v, ∃ key, entry = (capTrim key, .trimmed) := by
  intro entry member
  cases handler with
  | trimmed => simp [Handler.run] at member
  | pushed userToken =>
    simp only [Handler.run] at member
    split at member
    · split at member
      · exact ⟨_, List.mem_singleton.mp member⟩
      · simp at member
    · simp at member

theorem Request.posts_posted (request : Request) (v : RedisValue) :
    ∀ entry ∈ request.posts v, ∃ key,
      entry = (clearTrim key, .trimmed) ∧ request = .getMsg key := by
  intro entry member
  cases request with
  | getMsg userToken =>
    simp only [Request.posts] at member
    split at member
    · exact ⟨_, List.mem_singleton.mp member, rfl⟩
    · simp at member
  | isMember userToken => simp [Request.posts] at member
  | addMember userToken => simp [Request.posts] at member

inductive Call where
  | addMsg (userToken : Text) (message : Message)
  | sync (request : Request)
  deriving DecidableEq

/-- The server, the two connections, and the history: of the calls, of the messages pushed
(newest first), and of how many were pushed on a key since it was last read. -/
structure DatabaseRun where
  redis : Keyspace := fun _ => none
  posted : List (Command × Handler) := []
  answered : List (Handler × Answer) := []
  asked : List Request := []
  replied : List (Request × Answer) := []
  returned : List (Nat × Result) := []
  calls : List Call := []
  pushed : List (Text × Message) := []
  unread : Text → Nat := fun _ => 0

inductive DatabaseEvent where
  | addMsg (userToken msg : Text)
  | call (request : Request)
  | execAsync
  | execSync
  | handle
  | ret (call : Nat)
  deriving DecidableEq

def DatabaseEvent.called : DatabaseEvent → Option Request
  | .call request => some request
  | _ => none

namespace DatabaseRun
variable (s : DatabaseRun)

/-- A message is numbered by its call. -/
def addMsg (userToken msg : Text) : DatabaseRun :=
  let message : Message := ⟨s.calls.length, msg⟩
  { s with
    posted := s.posted ++ [(.lpush userToken message, .pushed userToken)]
    calls := s.calls ++ [.addMsg userToken message] }

def call (request : Request) : DatabaseRun :=
  { s with asked := s.asked ++ [request], calls := s.calls ++ [.sync request] }

def note : Command → Answer → DatabaseRun
  | .lpush key message, .integer _ =>
    { s with
      pushed := (key, message) :: s.pushed
      unread := Function.update s.unread key (s.unread key + 1) }
  | .lrange key _ _, .messages _ => { s with unread := Function.update s.unread key 0 }
  | _, _ => s

def execAsync (command : Command) (handler : Handler) : DatabaseRun :=
  let (answer, redis) := s.redis.exec command
  { s.note command answer with redis, answered := s.answered ++ [(handler, answer)] }

def execSync (request : Request) : DatabaseRun :=
  let (answer, redis) := s.redis.exec request.command
  { s.note request.command answer with redis, replied := s.replied ++ [(request, answer)] }

def handle (handler : Handler) (answer : Answer) : DatabaseRun :=
  { s with posted := s.posted ++ handler.run answer.value }

def ret (call : Nat) (request : Request) (answer : Answer) : DatabaseRun :=
  { s with
    posted := s.posted ++ request.posts answer.value
    returned := s.returned ++ [(call, request.result answer.value)] }

def step (s : DatabaseRun) : DatabaseEvent → Option DatabaseRun
  | .addMsg userToken msg => some (s.addMsg userToken msg)
  | .call request => some (s.call request)
  | .execAsync =>
    match s.posted with
    | [] => none
    | (command, handler) :: posted => some (execAsync { s with posted } command handler)
  | .execSync =>
    match s.asked with
    | [] => none
    | request :: asked => some (execSync { s with asked } request)
  | .handle =>
    match s.answered with
    | [] => none
    | (handler, answer) :: answered => some (handle { s with answered } handler answer)
  | .ret call =>
    match s.replied[call]? with
    | none => none
    | some (request, answer) =>
      if call ∈ s.returned.map Prod.fst then none else some (s.ret call request answer)

/-! What a step can be, one case for each event. -/

inductive Taken (s : DatabaseRun) : DatabaseEvent → DatabaseRun → Prop where
  | addMsg (userToken msg : Text) : Taken s (.addMsg userToken msg) (s.addMsg userToken msg)
  | call (request : Request) : Taken s (.call request) (s.call request)
  | execAsync {command : Command} {handler : Handler} {posted : List (Command × Handler)}
    (front : s.posted = (command, handler) :: posted) :
    Taken s .execAsync (DatabaseRun.execAsync { s with posted } command handler)
  | execSync {request : Request} {asked : List Request} (front : s.asked = request :: asked) :
    Taken s .execSync (DatabaseRun.execSync { s with asked } request)
  | handle {handler : Handler} {answer : Answer} {answered : List (Handler × Answer)}
    (front : s.answered = (handler, answer) :: answered) :
    Taken s .handle (DatabaseRun.handle { s with answered } handler answer)
  | ret {call : Nat} {request : Request} {answer : Answer}
    (here : s.replied[call]? = some (request, answer)) (new : call ∉ s.returned.map Prod.fst) :
    Taken s (.ret call) (s.ret call request answer)

theorem taken_of_step {s t : DatabaseRun} {e : DatabaseEvent} (step : s.step e = some t) :
    Taken s e t := by
  cases e with
  | addMsg userToken msg => cases step; exact .addMsg userToken msg
  | call request => cases step; exact .call request
  | execAsync =>
    unfold DatabaseRun.step at step
    dsimp only at step
    split at step
    · cases step
    · rename_i front
      cases step
      exact .execAsync front
  | execSync =>
    unfold DatabaseRun.step at step
    dsimp only at step
    split at step
    · cases step
    · rename_i front
      cases step
      exact .execSync front
  | handle =>
    unfold DatabaseRun.step at step
    dsimp only at step
    split at step
    · cases step
    · rename_i front
      cases step
      exact .handle front
  | ret call =>
    unfold DatabaseRun.step at step
    dsimp only at step
    split at step
    · cases step
    · rename_i here
      split at step
      · cases step
      · rename_i new
        cases step
        exact .ret here new

/-! What the execution of each command of the program does. -/

theorem execAsync_wrongType {command : Command} {key : Text} {handler : Handler}
    (held : s.redis.list key = none)
    (about : command = capTrim key ∨ command = clearTrim key ∨
      ∃ message, command = .lpush key message) :
    s.execAsync command handler = { s with answered := s.answered ++ [(handler, .wrongType)] } := by
  rcases about with rfl | rfl | ⟨message, rfl⟩
  all_goals simp only [execAsync, capTrim, clearTrim, Keyspace.exec, held, note]

theorem execAsync_push {key : Text} {items : List Message} (held : s.redis.list key = some items)
    (message : Message) (handler : Handler) :
    s.execAsync (.lpush key message) handler =
      { s with
        redis := s.redis.putList key (message :: items)
        answered := s.answered ++ [(handler, .integer (items.length + 1))]
        pushed := (key, message) :: s.pushed
        unread := Function.update s.unread key (s.unread key + 1) } := by
  simp only [execAsync, Keyspace.exec, held, note]

theorem execAsync_cap {key : Text} {items : List Message} (held : s.redis.list key = some items)
    (handler : Handler) :
    s.execAsync (capTrim key) handler =
      { s with
        redis := s.redis.putList key (items.take 100)
        answered := s.answered ++ [(handler, .ok)] } := by
  have start : strtol (ascii "0") = 0 := by decide
  have stop : strtol (ascii "99") = (99 : Nat) := by decide
  simp only [execAsync, capTrim, Keyspace.exec, held, note, start, stop, range_take]

theorem execAsync_clear {key : Text} {items : List Message} (held : s.redis.list key = some items)
    (handler : Handler) :
    s.execAsync (clearTrim key) handler =
      { s with
        redis := s.redis.putList key (items.drop 100)
        answered := s.answered ++ [(handler, .ok)] } := by
  have start : strtol (ascii "100") = (100 : Nat) := by decide
  have stop : strtol (ascii "-1") = -1 := by decide
  simp only [execAsync, clearTrim, Keyspace.exec, held, note, start, stop, range_drop]

/-- What the execution of a posted command can be. -/
inductive Executed (s : DatabaseRun) : Command × Handler → DatabaseRun → Prop where
  | failed {command : Command} {handler : Handler} {key : Text} (held : s.redis.list key = none)
    (about : command = capTrim key ∨ command = clearTrim key ∨
      ∃ message, command = .lpush key message) :
    Executed s (command, handler) { s with answered := s.answered ++ [(handler, .wrongType)] }
  | push {key : Text} {items : List Message} (held : s.redis.list key = some items)
    (message : Message) :
    Executed s (.lpush key message, .pushed key)
      { s with
        redis := s.redis.putList key (message :: items)
        answered := s.answered ++ [(.pushed key, .integer (items.length + 1))]
        pushed := (key, message) :: s.pushed
        unread := Function.update s.unread key (s.unread key + 1) }
  | cap {key : Text} {items : List Message} (held : s.redis.list key = some items) :
    Executed s (capTrim key, .trimmed)
      { s with
        redis := s.redis.putList key (items.take 100)
        answered := s.answered ++ [(.trimmed, .ok)] }
  | clear {key : Text} {items : List Message} (held : s.redis.list key = some items) :
    Executed s (clearTrim key, .trimmed)
      { s with
        redis := s.redis.putList key (items.drop 100)
        answered := s.answered ++ [(.trimmed, .ok)] }

theorem executed_of_posted {command : Command} {handler : Handler}
    (entry : Posted (command, handler)) :
    Executed s (command, handler) (s.execAsync command handler) := by
  cases entry with
  | push key message =>
    cases held : s.redis.list key with
    | none =>
      rw [execAsync_wrongType s held (Or.inr (Or.inr ⟨message, rfl⟩))]
      exact .failed held (Or.inr (Or.inr ⟨message, rfl⟩))
    | some items =>
      rw [execAsync_push s held message (.pushed key)]
      exact .push held message
  | cap key =>
    cases held : s.redis.list key with
    | none =>
      rw [execAsync_wrongType s held (Or.inl rfl)]
      exact .failed held (Or.inl rfl)
    | some items =>
      rw [execAsync_cap s held]
      exact .cap held
  | clear key =>
    cases held : s.redis.list key with
    | none =>
      rw [execAsync_wrongType s held (Or.inr (Or.inl rfl))]
      exact .failed held (Or.inr (Or.inl rfl))
    | some items =>
      rw [execAsync_clear s held]
      exact .clear held

theorem executed_of_front {command : Command} {handler : Handler}
    {posted : List (Command × Handler)} (shapes : ∀ entry ∈ s.posted, Posted entry)
    (front : s.posted = (command, handler) :: posted) :
    Executed { s with posted } (command, handler)
        (DatabaseRun.execAsync { s with posted } command handler) ∧
      ∀ entry ∈ posted, Posted entry := by
  rw [front] at shapes
  refine ⟨executed_of_posted _ (shapes _ List.mem_cons_self), fun entry member => ?_⟩
  exact shapes entry (List.mem_cons_of_mem _ member)

theorem execSync_getMsg_wrongType {key : Text} (held : s.redis.list key = none) :
    s.execSync (.getMsg key) = { s with replied := s.replied ++ [(.getMsg key, .wrongType)] } := by
  simp only [execSync, Request.command, Keyspace.exec, held, note]

theorem execSync_getMsg {key : Text} {items : List Message} (held : s.redis.list key = some items) :
    s.execSync (.getMsg key) =
      { s with
        replied := s.replied ++ [(.getMsg key, .messages items)]
        unread := Function.update s.unread key 0 } := by
  have start : strtol (ascii "0") = (0 : Nat) := by decide
  have stop : strtol (ascii "-1") = -1 := by decide
  simp only [execSync, Request.command, Keyspace.exec, held, note, start, stop, range_drop,
    List.drop_zero]

theorem execSync_isMember {members : List Text} (held : s.redis.set userTokens = some members)
    (userToken : Text) :
    s.execSync (.isMember userToken) =
      { s with
        replied := s.replied ++
          [(.isMember userToken, .integer (if userToken ∈ members then 1 else 0))] } := by
  simp only [execSync, Request.command, Keyspace.exec, held, note]

theorem execSync_addMember {members : List Text} (held : s.redis.set userTokens = some members)
    (userToken : Text) :
    ∃ n redis, s.execSync (.addMember userToken) =
        { s with redis, replied := s.replied ++ [(.addMember userToken, .integer n)] } ∧
      redis.set userTokens = some (enroll userToken members) ∧
      (∀ key, redis.messages key = s.redis.messages key) ∧
      ∀ key, key ≠ userTokens → redis key = s.redis key := by
  by_cases registered : userToken ∈ members
  · refine ⟨0, s.redis, ?_, ?_, fun _ => rfl, fun _ _ => rfl⟩
    · simp only [execSync, Request.command, Keyspace.exec, held, if_pos registered, note]
    · rw [held, enroll, if_pos registered]
  · refine ⟨1, s.redis.putSet userTokens (members ++ [userToken]), ?_, ?_,
      fun key => Keyspace.messages_putSet held _ key, fun key other => ?_⟩
    · simp only [execSync, Request.command, Keyspace.exec, held, if_neg registered, note]
    · rw [Keyspace.set_putSet, if_pos rfl, enroll, if_neg registered]
    · exact Function.update_of_ne other _ _

theorem execSync_tokens_wrongType {request : Request} (other : ∀ key, request ≠ .getMsg key)
    (held : s.redis.set userTokens = none) :
    s.execSync request = { s with replied := s.replied ++ [(request, .wrongType)] } := by
  cases request with
  | getMsg userToken => exact absurd rfl (other userToken)
  | isMember userToken => simp only [execSync, Request.command, Keyspace.exec, held, note]
  | addMember userToken => simp only [execSync, Request.command, Keyspace.exec, held, note]

theorem execSync_tokens {request : Request} (other : ∀ key, request ≠ .getMsg key) :
    ∃ answer redis, s.execSync request =
        { s with redis, replied := s.replied ++ [(request, answer)] } ∧
      (∀ key, redis.messages key = s.redis.messages key) ∧
      ∀ key, key ≠ userTokens → redis key = s.redis key := by
  cases held : s.redis.set userTokens with
  | none =>
    have result := s.execSync_tokens_wrongType other held
    exact ⟨.wrongType, s.redis, result, fun _ => rfl, fun _ _ => rfl⟩
  | some members =>
    cases request with
    | getMsg userToken => exact absurd rfl (other userToken)
    | isMember userToken =>
      exact ⟨_, s.redis, s.execSync_isMember held userToken, fun _ => rfl, fun _ _ => rfl⟩
    | addMember userToken =>
      obtain ⟨n, redis, result, _, messages, keys⟩ := s.execSync_addMember held userToken
      exact ⟨.integer n, redis, result, messages, keys⟩

theorem execSync_keeps (request : Request) :
    ∃ answer redis unread, s.execSync request =
        { s with redis, unread, replied := s.replied ++ [(request, answer)] } ∧
      (∀ key, redis.messages key = s.redis.messages key) ∧
      (∀ key, (request.key = key → request = .getMsg key) → redis key = s.redis key) ∧
      ∀ key, unread key = s.unread key ∨ unread key = 0 := by
  by_cases reads : ∃ key, request = .getMsg key
  · obtain ⟨key, rfl⟩ := reads
    cases held : s.redis.list key with
    | none =>
      exact ⟨.wrongType, s.redis, s.unread, s.execSync_getMsg_wrongType held, fun _ => rfl,
        fun _ _ => rfl, fun _ => Or.inl rfl⟩
    | some items =>
      refine ⟨.messages items, s.redis, _, s.execSync_getMsg held, fun _ => rfl, fun _ _ => rfl,
        fun other => ?_⟩
      by_cases same : other = key
      · rw [same]
        exact Or.inr (Function.update_self _ _ _)
      · exact Or.inl (Function.update_of_ne same _ _)
  · have other : ∀ key, request ≠ .getMsg key := fun key same => reads ⟨key, same⟩
    obtain ⟨answer, redis, result, messages, keys⟩ := s.execSync_tokens other
    refine ⟨answer, redis, s.unread, result, messages, fun key about => ?_, fun _ => Or.inl rfl⟩
    apply keys
    rintro rfl
    cases request with
    | getMsg userToken => exact other userToken rfl
    | isMember userToken => exact other _ (about rfl)
    | addMember userToken => exact other _ (about rfl)

def history (key : Text) : List Message := (s.pushed.filter (·.1 = key)).map Prod.snd

/-- A message was in the array of an answered `GetMsg` for the token. -/
def Delivered (key : Text) (message : Message) : Prop :=
  ∃ items, (Request.getMsg key, Answer.messages items) ∈ s.replied ∧ message ∈ items

/-- No command is outstanding, and every call has returned. -/
def Quiet : Prop :=
  s.posted = [] ∧ s.answered = [] ∧ s.asked = [] ∧ s.returned.length = s.replied.length

instance (s : DatabaseRun) : Decidable s.Quiet :=
  inferInstanceAs (Decidable (s.posted = [] ∧ s.answered = [] ∧ s.asked = [] ∧
    s.returned.length = s.replied.length))

end DatabaseRun

def databaseManager : System DatabaseRun DatabaseEvent := ⟨{}, DatabaseRun.step⟩

end Pinocchio.Database
