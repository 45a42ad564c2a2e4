import Pinocchio.Database.Progress

/-! The service that the database manager gives, one call after the other.

Seen from outside there is a set of registered tokens, and for each token the messages
sent to it since they were last read. A read gets the newest hundred of them and
leaves none.
-/

set_option autoImplicit false

namespace Pinocchio.Database
open Semantics Redis

structure Service where
  members : List Text := []
  inbox : Text → List Message := fun _ => []
  results : List Result := []

namespace Service

/-- What a read gets, newest first. -/
def kept (service : Service) (key : Text) : List Message := (service.inbox key).take 100

def texts (items : List Message) : List RedisValue :=
  items.map fun message => .bytes message.text.val false

def result (service : Service) : Request → Result
  | .isMember userToken => .flag (userToken ∈ service.members)
  | .addMember _ => .flag true
  | .getMsg userToken => .messages (some (texts (service.kept userToken)))

def serve (service : Service) : Call → Service
  | .addMsg userToken message =>
    { service with
      inbox := Function.update service.inbox userToken (message :: service.inbox userToken) }
  | .sync request =>
    { members :=
        match request with
        | .addMember userToken => enroll userToken service.members
        | _ => service.members
      inbox :=
        match request with
        | .getMsg userToken => Function.update service.inbox userToken []
        | _ => service.inbox
      results := service.results ++ [service.result request] }

end Service

def service (calls : List Call) : Service := calls.foldl Service.serve {}

theorem service_snoc (calls : List Call) (call : Call) :
    service (calls ++ [call]) = (service calls).serve call := by
  rw [service, List.foldl_append]
  rfl

theorem serve_results (service : Service) (request : Request) :
    (service.serve (.sync request)).results = service.results ++ [service.result request] := rfl

theorem kept_serve_addMsg (service : Service) (key : Text) (message : Message) :
    (service.serve (.addMsg key message)).kept =
      Function.update service.kept key ((message :: service.inbox key).take 100) := by
  funext other
  simp only [Service.kept, Service.serve]
  by_cases same : other = key
  · rw [same, Function.update_self, Function.update_self]
  · rw [Function.update_of_ne same, Function.update_of_ne same, Service.kept]

theorem kept_serve_getMsg (service : Service) (key : Text) :
    (service.serve (.sync (.getMsg key))).kept = Function.update service.kept key [] := by
  funext other
  simp only [Service.kept, Service.serve]
  by_cases same : other = key
  · rw [same, Function.update_self, Function.update_self, List.take_nil]
  · rw [Function.update_of_ne same, Function.update_of_ne same, Service.kept]

/-- The server holds the registered tokens, and these lists. -/
structure Holds (redis : Keyspace) (members : List Text) (lists : Text → List Message) : Prop where
  members : redis.set userTokens = some members
  lists : ∀ key, key ≠ userTokens → redis.list key = some (lists key)

theorem Holds.put {redis : Keyspace} {members : List Text} {lists : Text → List Message}
    {key : Text} {old : List Message} (held : Holds redis members (Function.update lists key old))
    (own : key ≠ userTokens) (new : List Message) :
    Holds (redis.putList key new) members (Function.update lists key new) := by
  refine ⟨?_, fun other apart => ?_⟩
  · rw [Keyspace.set_putList_other _ (Ne.symm own)]
    exact held.members
  · rw [Keyspace.list_putList]
    by_cases same : other = key
    · rw [if_pos same, same, Function.update_self]
    · rw [if_neg same, Function.update_of_ne same, held.lists other apart,
        Function.update_of_ne same]

theorem Holds.same {redis : Keyspace} {members : List Text} {lists : Text → List Message}
    {key : Text} {items : List Message}
    (held : Holds redis members (Function.update lists key items))
    (same : items = lists key) : Holds redis members lists := by
  rw [same, Function.update_eq_self] at held
  exact held

namespace DatabaseRun
variable {s t : DatabaseRun} {e : DatabaseEvent}

/-- A call is made only when nothing is outstanding. Messages are sent to tokens without NUL,
and neither sent to nor read from the key of the registered tokens. -/
def Settled (s : DatabaseRun) : DatabaseEvent → Prop
  | .addMsg userToken _ => s.Quiet ∧ userToken ≠ userTokens ∧ (0 : UInt8) ∉ userToken.val
  | .call request => s.Quiet ∧ request ≠ .getMsg userTokens
  | _ => True

instance (s : DatabaseRun) : (e : DatabaseEvent) → Decidable (Settled s e)
  | .addMsg userToken _ =>
    inferInstanceAs (Decidable (s.Quiet ∧ userToken ≠ userTokens ∧ (0 : UInt8) ∉ userToken.val))
  | .call request => inferInstanceAs (Decidable (s.Quiet ∧ request ≠ .getMsg userTokens))
  | .execAsync | .execSync | .handle | .ret _ => isTrue trivial

/-- All that is outstanding: commands, replies, questions, and answers. -/
structure Alone (s : DatabaseRun) (posted : List (Command × Handler))
    (answered : List (Handler × Answer)) (asked : List Request)
    (waiting : List (Request × Answer)) : Prop where
  posted : s.posted = posted
  answered : s.answered = answered
  asked : s.asked = asked
  waiting : s.replied.drop s.returned.length = waiting
  fewer : s.returned.length ≤ s.replied.length
  numbers : s.returned.map Prod.fst = List.range s.returned.length

theorem Alone.frame {posted more : List (Command × Handler)}
    {answered replies : List (Handler × Answer)} {asked questions : List Request}
    {waiting : List (Request × Answer)} (alone : Alone s posted answered asked waiting)
    (first : t.posted = more) (second : t.answered = replies) (third : t.asked = questions)
    (replied : t.replied = s.replied) (returned : t.returned = s.returned) :
    Alone t more replies questions waiting := by
  refine ⟨first, second, third, ?_, ?_, ?_⟩
  · rw [replied, returned]
    exact alone.waiting
  · rw [replied, returned]
    exact alone.fewer
  · rw [returned]
    exact alone.numbers

theorem Alone.quiet (alone : Alone s [] [] [] []) : s.Quiet := by
  refine ⟨alone.posted, alone.answered, alone.asked, ?_⟩
  exact Nat.le_antisymm alone.fewer (List.drop_eq_nil_iff.mp alone.waiting)

theorem Alone.of_quiet {posted : List (Command × Handler)} {answered : List (Handler × Answer)}
    {asked : List Request} {waiting : List (Request × Answer)}
    (alone : Alone s posted answered asked waiting) (quiet : s.Quiet) :
    posted = [] ∧ answered = [] ∧ asked = [] ∧ waiting = [] := by
  refine ⟨alone.posted.symm.trans quiet.1, alone.answered.symm.trans quiet.2.1,
    alone.asked.symm.trans quiet.2.2.1, ?_⟩
  rw [← alone.waiting, quiet.2.2.2, List.drop_length]

inductive Next (s : DatabaseRun) : List (Command × Handler) → List (Handler × Answer) →
    List Request → List (Request × Answer) → DatabaseRun → Prop where
  | addMsg {userToken : Text} (own : userToken ≠ userTokens) (free : (0 : UInt8) ∉ userToken.val)
    (msg : Text) : Next s [] [] [] [] (s.addMsg userToken msg)
  | call {request : Request} (own : request ≠ .getMsg userTokens) :
    Next s [] [] [] [] (s.call request)
  | execAsync {command : Command} {handler : Handler} {posted : List (Command × Handler)}
    {answered : List (Handler × Answer)} {asked : List Request}
    {waiting : List (Request × Answer)} :
    Next s ((command, handler) :: posted) answered asked waiting
      (execAsync { s with posted } command handler)
  | execSync {request : Request} {posted : List (Command × Handler)}
    {answered : List (Handler × Answer)} {asked : List Request}
    {waiting : List (Request × Answer)} :
    Next s posted answered (request :: asked) waiting (execSync { s with asked } request)
  | handle {handler : Handler} {answer : Answer} {posted : List (Command × Handler)}
    {answered : List (Handler × Answer)} {asked : List Request}
    {waiting : List (Request × Answer)} :
    Next s posted ((handler, answer) :: answered) asked waiting
      (handle { s with answered } handler answer)
  | ret {request : Request} {answer : Answer} {posted : List (Command × Handler)}
    {answered : List (Handler × Answer)} {asked : List Request} :
    Next s posted answered asked [(request, answer)] (s.ret s.returned.length request answer)

theorem Alone.next {posted : List (Command × Handler)} {answered : List (Handler × Answer)}
    {asked : List Request} {waiting : List (Request × Answer)}
    (alone : Alone s posted answered asked waiting) (single : waiting.length ≤ 1)
    (permitted : Settled s e) (taken : Taken s e t) : Next s posted answered asked waiting t := by
  cases taken with
  | addMsg userToken msg =>
    obtain ⟨rfl, rfl, rfl, rfl⟩ := alone.of_quiet permitted.1
    exact .addMsg permitted.2.1 permitted.2.2 msg
  | call request =>
    obtain ⟨rfl, rfl, rfl, rfl⟩ := alone.of_quiet permitted.1
    exact .call permitted.2
  | execAsync front =>
    obtain rfl := alone.posted.symm.trans front
    exact .execAsync
  | execSync front =>
    obtain rfl := alone.asked.symm.trans front
    exact .execSync
  | handle front =>
    obtain rfl := alone.answered.symm.trans front
    exact .handle
  | @ret call request answer here new =>
    -- The calls that have returned are the first ones, and one more has an answer.
    rw [alone.numbers, List.mem_range, Nat.not_lt] at new
    have place : waiting[call - s.returned.length]? = some (request, answer) := by
      rw [← alone.waiting, List.getElem?_drop, Nat.add_sub_cancel' new]
      exact here
    have inside := (List.getElem?_eq_some_iff.mp place).1
    have last : call = s.returned.length := by omega
    subst last
    cases waiting with
    | nil => simp at place
    | cons entry rest =>
      cases rest with
      | cons _ _ => simp at single
      | nil =>
        simp only [Nat.sub_self, List.getElem?_cons_zero, Option.some.injEq] at place
        rw [place]
        exact .ret

inductive Stage (s : DatabaseRun) : Prop where
  | idle (alone : Alone s [] [] [] [])
    (holds : Holds s.redis (service s.calls).members (service s.calls).kept)
    (results : s.returned.map Prod.snd = (service s.calls).results)
  | pushing {key : Text} {message : Message} {rest : List Message} (own : key ≠ userTokens)
    (free : (0 : UInt8) ∉ key.val)
    (alone : Alone s [(.lpush key message, .pushed key)] [] [] [])
    (inbox : (service s.calls).inbox key = message :: rest)
    (holds : Holds s.redis (service s.calls).members
      (Function.update (service s.calls).kept key (rest.take 100)))
    (results : s.returned.map Prod.snd = (service s.calls).results)
  | pushed {key : Text} {items : List Message} (own : key ≠ userTokens)
    (free : (0 : UInt8) ∉ key.val) (few : items.length ≤ 101)
    (alone : Alone s [] [(.pushed key, .integer items.length)] [] [])
    (same : items.take 100 = (service s.calls).kept key)
    (holds : Holds s.redis (service s.calls).members
      (Function.update (service s.calls).kept key items))
    (results : s.returned.map Prod.snd = (service s.calls).results)
  | capping {key : Text} {items : List Message} (own : key ≠ userTokens)
    (alone : Alone s [(capTrim key, .trimmed)] [] [] [])
    (same : items.take 100 = (service s.calls).kept key)
    (holds : Holds s.redis (service s.calls).members
      (Function.update (service s.calls).kept key items))
    (results : s.returned.map Prod.snd = (service s.calls).results)
  | clearing {key : Text} {items : List Message} (own : key ≠ userTokens)
    (alone : Alone s [(clearTrim key, .trimmed)] [] [] [])
    (same : items.drop 100 = (service s.calls).kept key)
    (holds : Holds s.redis (service s.calls).members
      (Function.update (service s.calls).kept key items))
    (results : s.returned.map Prod.snd = (service s.calls).results)
  | trimmed (alone : Alone s [] [(.trimmed, .ok)] [] [])
    (holds : Holds s.redis (service s.calls).members (service s.calls).kept)
    (results : s.returned.map Prod.snd = (service s.calls).results)
  | asking {request : Request} {before : Service} (own : request ≠ .getMsg userTokens)
    (alone : Alone s [] [] [request] []) (after : service s.calls = before.serve (.sync request))
    (holds : Holds s.redis before.members before.kept)
    (results : s.returned.map Prod.snd = before.results)
  | told {request : Request} {answer : Answer} (alone : Alone s [] [] [] [(request, answer)])
    (none : request.posts answer.value = [])
    (holds : Holds s.redis (service s.calls).members (service s.calls).kept)
    (results : s.returned.map Prod.snd ++ [request.result answer.value] = (service s.calls).results)
  | read {key : Text} {items : List Message} (own : key ≠ userTokens)
    (alone : Alone s [] [] [] [(.getMsg key, .messages items)])
    (same : items.drop 100 = (service s.calls).kept key)
    (holds : Holds s.redis (service s.calls).members
      (Function.update (service s.calls).kept key items))
    (results : s.returned.map Prod.snd ++
        [(Request.getMsg key).result (Answer.messages items).value] =
      (service s.calls).results)

/-! From stage to stage. -/

theorem Stage.addMsg {userToken : Text} (alone : Alone s [] [] [] [])
    (holds : Holds s.redis (service s.calls).members (service s.calls).kept)
    (results : s.returned.map Prod.snd = (service s.calls).results)
    (own : userToken ≠ userTokens) (free : (0 : UInt8) ∉ userToken.val) (msg : Text) :
    Stage (s.addMsg userToken msg) := by
  let message : Message := ⟨s.calls.length, msg⟩
  have after : service (s.addMsg userToken msg).calls =
      (service s.calls).serve (.addMsg userToken message) := service_snoc s.calls _
  refine @Stage.pushing _ userToken message ((service s.calls).inbox userToken) own free ?_ ?_ ?_ ?_
  · refine alone.frame ?_ alone.answered alone.asked rfl rfl
    rw [DatabaseRun.addMsg, alone.posted]
    rfl
  · rw [after]
    exact Function.update_self _ _ _
  · rw [after, kept_serve_addMsg, Function.update_idem, ← Service.kept, Function.update_eq_self]
    exact holds
  · rw [after]
    exact results

theorem Stage.call {request : Request} (alone : Alone s [] [] [] [])
    (holds : Holds s.redis (service s.calls).members (service s.calls).kept)
    (results : s.returned.map Prod.snd = (service s.calls).results)
    (own : request ≠ .getMsg userTokens) : Stage (s.call request) := by
  refine .asking own ?_ (service_snoc s.calls (.sync request)) holds results
  refine alone.frame alone.posted alone.answered ?_ rfl rfl
  rw [DatabaseRun.call, alone.asked]
  rfl

theorem Stage.push {key : Text} {message : Message} {rest : List Message} (own : key ≠ userTokens)
    (free : (0 : UInt8) ∉ key.val) (alone : Alone s [(.lpush key message, .pushed key)] [] [] [])
    (inbox : (service s.calls).inbox key = message :: rest)
    (holds : Holds s.redis (service s.calls).members
      (Function.update (service s.calls).kept key (rest.take 100)))
    (results : s.returned.map Prod.snd = (service s.calls).results) :
    Stage (execAsync { s with posted := [] } (.lpush key message) (.pushed key)) := by
  have stored : s.redis.list key = some (rest.take 100) := by
    rw [holds.lists key own, Function.update_self]
  rw [execAsync_push { s with posted := [] } stored]
  refine @Stage.pushed _ key (message :: rest.take 100) own free ?_ ?_ ?_ (holds.put own _) results
  · rw [List.length_cons, List.length_take]
    omega
  · refine alone.frame rfl ?_ alone.asked rfl rfl
    simp only [alone.answered, List.nil_append, List.length_cons, List.length_take]
  · -- What the cap takes off was not among the newest hundred.
    refine Eq.trans ?_ (congrArg (List.take 100) inbox).symm
    rw [List.take_succ_cons, List.take_succ_cons, List.take_take]
    rfl

theorem toInt_integer_gt {n : Nat} (few : n ≤ 101) :
    99 < (Answer.integer n).value.toInt ↔ 99 < n := by
  have low : intMin ≤ n := by unfold intMin; omega
  have high : (n : Int) ≤ intMax := by unfold intMax; omega
  have read := Reply.toInt_value_integer low high
  have bound : (99 : Int32).toInt = 99 := by decide
  rw [Int32.lt_iff_toInt_lt, Answer.value, Answer.reply, read, bound]
  omega

theorem Stage.handlePushed {key : Text} {items : List Message} (own : key ≠ userTokens)
    (free : (0 : UInt8) ∉ key.val) (few : items.length ≤ 101)
    (alone : Alone s [] [(.pushed key, .integer items.length)] [] [])
    (same : items.take 100 = (service s.calls).kept key)
    (holds : Holds s.redis (service s.calls).members
      (Function.update (service s.calls).kept key items))
    (results : s.returned.map Prod.snd = (service s.calls).results) :
    Stage (handle { s with answered := [] } (.pushed key) (.integer items.length)) := by
  have run := Handler.run_pushed free items.length
  simp only [toInt_integer_gt few] at run
  by_cases many : 99 < items.length
  · rw [if_pos many] at run
    refine .capping own ?_ same holds results
    refine alone.frame ?_ rfl alone.asked rfl rfl
    rw [DatabaseRun.handle, run, alone.posted]
    rfl
  · rw [if_neg many] at run
    rw [List.take_of_length_le (by omega)] at same
    refine .idle ?_ (holds.same same) results
    refine alone.frame ?_ rfl alone.asked rfl rfl
    rw [DatabaseRun.handle, run, alone.posted]
    rfl

theorem Stage.trim {key : Text} {command : Command} {items kept : List Message}
    (own : key ≠ userTokens) (alone : Alone s [(command, .trimmed)] [] [] [])
    (same : kept = (service s.calls).kept key)
    (holds : Holds s.redis (service s.calls).members
      (Function.update (service s.calls).kept key items))
    (results : s.returned.map Prod.snd = (service s.calls).results)
    (executed : execAsync { s with posted := [] } command .trimmed =
      { s with
        posted := []
        redis := s.redis.putList key kept
        answered := s.answered ++ [(.trimmed, .ok)] }) :
    Stage (execAsync { s with posted := [] } command .trimmed) := by
  rw [executed]
  refine .trimmed ?_ ((holds.put own kept).same same) results
  refine alone.frame rfl ?_ alone.asked rfl rfl
  simp only [alone.answered, List.nil_append]

theorem Stage.handleTrimmed (alone : Alone s [] [(.trimmed, .ok)] [] [])
    (holds : Holds s.redis (service s.calls).members (service s.calls).kept)
    (results : s.returned.map Prod.snd = (service s.calls).results) :
    Stage (handle { s with answered := [] } .trimmed .ok) := by
  refine .idle ?_ holds results
  refine alone.frame ?_ rfl alone.asked rfl rfl
  rw [DatabaseRun.handle, alone.posted]
  rfl

theorem Alone.answer {request : Request} {answer : Answer} (alone : Alone s [] [] [request] [])
    (posted : t.posted = s.posted) (answered : t.answered = s.answered) (asked : t.asked = [])
    (replied : t.replied = s.replied ++ [(request, answer)]) (returned : t.returned = s.returned) :
    Alone t [] [] [] [(request, answer)] := by
  have all : s.replied.length ≤ s.returned.length := List.drop_eq_nil_iff.mp alone.waiting
  refine ⟨posted.trans alone.posted, answered.trans alone.answered, asked, ?_, ?_, ?_⟩
  · rw [replied, returned, List.drop_append, alone.waiting, Nat.sub_eq_zero_of_le alone.fewer]
    rfl
  · rw [replied, returned, List.length_append]
    exact Nat.le_add_right_of_le alone.fewer
  · rw [returned]
    exact alone.numbers

theorem Stage.ask {request : Request} {before : Service} (own : request ≠ .getMsg userTokens)
    (alone : Alone s [] [] [request] []) (after : service s.calls = before.serve (.sync request))
    (holds : Holds s.redis before.members before.kept)
    (results : s.returned.map Prod.snd = before.results) :
    Stage (execSync { s with asked := [] } request) := by
  cases request with
  | isMember userToken =>
    rw [execSync_isMember { s with asked := [] } holds.members userToken]
    refine .told (alone.answer rfl rfl rfl rfl rfl) rfl ?_ ?_
    · rw [after]
      exact holds
    · rw [after, serve_results, ← results]
      by_cases member : userToken ∈ before.members
      · simp only [Service.result, member]
        rfl
      · simp only [Service.result, member]
        rfl
  | addMember userToken =>
    obtain ⟨n, redis, result, members, _, keys⟩ :=
      execSync_addMember { s with asked := [] } holds.members userToken
    rw [result]
    refine .told (alone.answer rfl rfl rfl rfl rfl) rfl ?_ ?_
    · rw [after]
      refine ⟨members, fun key other => ?_⟩
      rw [Keyspace.list_congr (keys key other)]
      exact holds.lists key other
    · rw [after, serve_results, ← results]
      rfl
  | getMsg key =>
    have other : key ≠ userTokens := fun same => own (congrArg Request.getMsg same)
    rw [execSync_getMsg { s with asked := [] } (holds.lists key other)]
    -- The list is read as it is, and the service has nothing left for the token.
    refine .read other (alone.answer rfl rfl rfl rfl rfl) ?_ ?_ ?_
    · rw [after, kept_serve_getMsg, Function.update_self, List.drop_eq_nil_iff, Service.kept]
      exact List.length_take_le _ _
    · rw [after, kept_serve_getMsg, Function.update_idem, Function.update_eq_self]
      exact holds
    · rw [after, serve_results, ← results, Request.result, getMsg_messages]
      rfl

theorem Alone.ret {request : Request} {answer : Answer} {posted : List (Command × Handler)}
    (alone : Alone s [] [] [] [(request, answer)]) (posts : request.posts answer.value = posted) :
    Alone (s.ret s.returned.length request answer) posted [] [] [] := by
  have one : s.replied.length = s.returned.length + 1 := by
    have length := congrArg List.length alone.waiting
    rw [List.length_drop, List.length_singleton] at length
    omega
  refine ⟨?_, alone.answered, alone.asked, ?_, ?_, ?_⟩
  · rw [DatabaseRun.ret, alone.posted, posts]
    rfl
  · rw [List.drop_eq_nil_iff, DatabaseRun.ret, List.length_append]
    exact Nat.le_of_eq one
  · rw [DatabaseRun.ret, List.length_append]
    exact Nat.le_of_eq one.symm
  · simp only [DatabaseRun.ret, List.map_append, alone.numbers, List.length_append,
      List.length_singleton, List.range_succ, List.map_cons, List.map_nil]

theorem Stage.step (stage : Stage s) (permitted : Settled s e) (taken : Taken s e t) : Stage t := by
  cases stage with
  | idle alone holds results =>
    cases alone.next (Nat.zero_le 1) permitted taken with
    | addMsg own free msg => exact Stage.addMsg alone holds results own free msg
    | call own => exact Stage.call alone holds results own
  | pushing own free alone inbox holds results =>
    cases alone.next (Nat.zero_le 1) permitted taken with
    | execAsync => exact Stage.push own free alone inbox holds results
  | pushed own free few alone same holds results =>
    cases alone.next (Nat.zero_le 1) permitted taken with
    | handle => exact Stage.handlePushed own free few alone same holds results
  | capping own alone same holds results =>
    cases alone.next (Nat.zero_le 1) permitted taken with
    | execAsync =>
      have stored := (holds.lists _ own).trans (congrArg some (Function.update_self _ _ _))
      exact Stage.trim own alone same holds results
        (execAsync_cap { s with posted := [] } stored _)
  | clearing own alone same holds results =>
    cases alone.next (Nat.zero_le 1) permitted taken with
    | execAsync =>
      have stored := (holds.lists _ own).trans (congrArg some (Function.update_self _ _ _))
      exact Stage.trim own alone same holds results
        (execAsync_clear { s with posted := [] } stored _)
  | trimmed alone holds results =>
    cases alone.next (Nat.zero_le 1) permitted taken with
    | handle => exact Stage.handleTrimmed alone holds results
  | asking own alone after holds results =>
    cases alone.next (Nat.zero_le 1) permitted taken with
    | execSync => exact Stage.ask own alone after holds results
  | told alone none holds results =>
    cases alone.next (Nat.le_refl 1) permitted taken with
    | ret =>
      refine .idle (alone.ret none) holds ?_
      rw [DatabaseRun.ret, List.map_append]
      exact results
  | read own alone same holds results =>
    cases alone.next (Nat.le_refl 1) permitted taken with
    | ret =>
      refine .clearing own (alone.ret rfl) same holds ?_
      rw [DatabaseRun.ret, List.map_append]
      exact results

theorem Stage.of_quiet (stage : Stage s) (quiet : s.Quiet) :
    Holds s.redis (service s.calls).members (service s.calls).kept ∧
      s.returned.map Prod.snd = (service s.calls).results := by
  cases stage with
  | idle alone holds results => exact ⟨holds, results⟩
  | pushing own free alone => cases (alone.of_quiet quiet).1
  | pushed own free few alone => cases (alone.of_quiet quiet).2.1
  | capping own alone => cases (alone.of_quiet quiet).1
  | clearing own alone => cases (alone.of_quiet quiet).1
  | trimmed alone => cases (alone.of_quiet quiet).2.1
  | asking own alone => cases (alone.of_quiet quiet).2.2.1
  | told alone => cases (alone.of_quiet quiet).2.2.2
  | read own alone => cases (alone.of_quiet quiet).2.2.2

end DatabaseRun

open DatabaseRun

theorem databaseManager_stage {s : DatabaseRun} (reached : databaseManager.Reaches Settled s) :
    Stage s := by
  apply reached.invariant
  case preserved =>
    intro s e t stage permitted step
    exact stage.step permitted (taken_of_step step)
  refine .idle ⟨rfl, rfl, rfl, rfl, Nat.le_refl 0, rfl⟩ ⟨rfl, fun key own => ?_⟩ rfl
  rfl

/-- Calls are made one after the other. Then, when nothing is outstanding, all results were
those of the service, and the lists are what it keeps. A read gets the newest hundred
messages sent since the one before, leaves the list empty and all others as they are.
And every call comes to its end. -/
theorem databaseManager_service {s : DatabaseRun} (reached : databaseManager.Reaches Settled s) :
    (s.Quiet → s.returned.map Prod.snd = (service s.calls).results ∧
      ∀ key, key ≠ userTokens → s.redis.messages key = (service s.calls).kept key) ∧
    (∀ key events t, s.Quiet → key ≠ userTokens → (∀ e ∈ events, e.starts = false) →
      databaseManager.run s (.call (.getMsg key) :: events) = some t → t.Quiet →
      t.returned.map Prod.snd = s.returned.map Prod.snd ++
          [.messages (some (Service.texts (((service s.calls).inbox key).take 100)))] ∧
        t.redis.messages key = [] ∧
        ∀ other, other ≠ key → t.redis.messages other = s.redis.messages other) ∧
    ∃ events t, (∀ e ∈ events, e.starts = false) ∧ databaseManager.run s events = some t ∧
      t.Quiet := by
  have lists {s : DatabaseRun}
      (holds : Holds s.redis (service s.calls).members (service s.calls).kept) (key : Text)
      (own : key ≠ userTokens) : s.redis.messages key = (service s.calls).kept key :=
    Keyspace.messages_of_list (holds.lists key own)
  refine ⟨fun quiet => ?_, fun key events t quiet own going path done => ?_, ?_⟩
  · obtain ⟨holds, results⟩ := (databaseManager_stage reached).of_quiet quiet
    exact ⟨results, lists holds⟩
  · obtain ⟨holds, results⟩ := (databaseManager_stage reached).of_quiet quiet
    have asks : Request.getMsg key ≠ .getMsg userTokens := by simpa using own
    obtain ⟨u, step, rest⟩ := (databaseManager.run_cons_some).mp path
    have later : databaseManager.Reaches Settled t := by
      have permitted : Settled s (.call (.getMsg key)) := ⟨quiet, asks⟩
      -- The state at the end is reached too, so its lists are those of the service.
      refine (reached.next permitted step).run (System.along_of_forall ?_ u) rest
      intro e member s _
      have goes := going e member
      cases e with
      | addMsg => cases goes
      | call => cases goes
      | _ => trivial
    have calls : t.calls = s.calls ++ [.sync (.getMsg key)] := by
      rw [calls_of_run going rest]
      cases step
      rfl
    obtain ⟨after, answers⟩ := (databaseManager_stage later).of_quiet done
    have kept := lists after
    rw [calls, service_snoc] at answers
    simp only [calls, service_snoc, kept_serve_getMsg] at kept
    refine ⟨?_, ?_, fun other different => ?_⟩
    · rw [answers, serve_results, results]
      rfl
    · rw [kept key own, Function.update_self]
    · by_cases registered : other = userTokens
      · rw [registered, Keyspace.messages_of_set holds.members,
          Keyspace.messages_of_set after.members]
      · rw [kept other registered, Function.update_of_ne different, lists holds other registered]
  · exact (databaseManager_finishes (reached.weaken fun _ _ _ => trivial)).1

def sendsAndRead : List DatabaseEvent :=
  let token := sampleToken
  [.addMsg token ⟨ascii "first", by decide⟩, .execAsync, .handle,
    .addMsg token ⟨ascii "second", by decide⟩, .execAsync, .handle,
    .call (.getMsg token), .execSync, .ret 0, .execAsync, .handle]

theorem databaseManager_service_twoSends :
    let s := (databaseManager.run databaseManager.initial sendsAndRead).get (by decide +kernel)
    s.returned.map Prod.snd = (service s.calls).results := by
  intro s
  have reached : databaseManager.Reaches Settled s :=
    System.Reaches.run .initial (by decide +kernel) (Option.some_get _).symm
  exact ((databaseManager_service reached).1 (by decide +kernel)).1

end Pinocchio.Database
