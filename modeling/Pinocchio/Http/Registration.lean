import Pinocchio.Http.Routes

/-! What message traffic does to the registered tokens.

They are in a set under a key that is a token like any other to the routes for
messages. A message that is pushed there before the first registration makes a list
of it, and no registration succeeds from then on. Nothing else can break the set.
-/

set_option autoImplicit false

namespace Pinocchio.Http
open Semantics Redis Database DatabaseRun

namespace PinocchioRun
variable {s t : PinocchioRun} {e : PinocchioEvent}

/-- The key of the tokens is absent or holds a set, and every registration of a token of the
right length was answered by 200. -/
def TokensIntact (_ : PinocchioRun) (_ : PinocchioEvent) (t : PinocchioRun) : Prop :=
  t.db.redis.set userTokens ≠ none ∧
    ∀ token response, (.regist token, response) ∈ t.responses →
      40 ≤ token.val.length → token.val.length ≤ 128 → response.code = 200

def pushesOn (s : PinocchioRun) : PinocchioEvent → Option Text
  | .db .execAsync =>
    match s.db.posted with
    | (.lpush key _, _) :: _ => some key
    | _ => none
  | _ => none

/-- No message is pushed on the key of the tokens while it is absent. -/
def SparesTokens (s : PinocchioRun) (e : PinocchioEvent) (_ : PinocchioRun) : Prop :=
  s.pushesOn e = some userTokens → s.db.redis userTokens ≠ none

structure Registered (s : PinocchioRun) : Prop where
  posted : ∀ entry ∈ s.db.posted, Posted entry
  set : s.db.redis.set userTokens ≠ none
  replied : ∀ token answer, (.addMember token, answer) ∈ s.db.replied → answer.value.isOk = true
  responses : ∀ token response, (.regist token, response) ∈ s.responses →
    40 ≤ token.val.length → token.val.length ≤ 128 → response.code = 200

theorem Registered.intact (held : Registered t) : TokensIntact s e t := ⟨held.set, held.responses⟩

theorem set_trim {redis : Keyspace} {key : Text} {items kept : List Message}
    (set : redis.set userTokens ≠ none) (stored : redis.list key = some items)
    (sub : kept.Sublist items) : (redis.putList key kept).set userTokens ≠ none := by
  by_cases same : userTokens = key
  · subst same
    obtain ⟨members, asSet⟩ := Option.ne_none_iff_exists'.mp set
    rw [(Keyspace.absent_of_both stored asSet).2] at sub
    rw [Keyspace.set_putList_self, if_pos (List.sublist_nil.mp sub)]
    exact Option.some_ne_none []
  · rw [Keyspace.set_putList_other _ same]
    exact set

theorem executed_set {db after : DatabaseRun} {command : Command} {handler : Handler}
    (executed : Executed db (command, handler) after) (set : db.redis.set userTokens ≠ none) :
    after.redis.set userTokens ≠ none ↔
      ∀ message, command = .lpush userTokens message → db.redis userTokens ≠ none := by
  cases executed with
  | @failed _ _ key missing about =>
    refine iff_of_true set ?_
    rintro message rfl absent
    rcases about with cap | clear | ⟨other, push⟩
    · simp [capTrim] at cap
    · simp [clearTrim] at clear
    · obtain ⟨rfl, _⟩ := Command.lpush.inj push
      simp [Keyspace.list, absent] at missing
  | @push key items stored message =>
    by_cases same : userTokens = key
    · -- A push succeeds on the key only while it is absent, and makes a list of it.
      subst same
      obtain ⟨members, asSet⟩ := Option.ne_none_iff_exists'.mp set
      refine iff_of_false ?_ fun present => ?_
      · rw [Keyspace.set_putList_self, if_neg (List.cons_ne_nil _ _)]
        exact fun some => some rfl
      · exact present message rfl (Keyspace.absent_of_both stored asSet).1
    · rw [Keyspace.set_putList_other _ same]
      refine iff_of_true set ?_
      intro other push
      exact absurd (Command.lpush.inj push).1.symm same
  | cap stored =>
    exact iff_of_true (set_trim set stored (List.take_sublist _ _)) (by simp [capTrim])
  | clear stored =>
    exact iff_of_true (set_trim set stored (List.drop_sublist _ _)) (by simp [clearTrim])

theorem execSync_set (db : DatabaseRun) (request : Request) (set : db.redis.set userTokens ≠ none) :
    ∃ answer redis unread, db.execSync request =
        { db with redis, unread, replied := db.replied ++ [(request, answer)] } ∧
      redis.set userTokens ≠ none ∧
      ∀ token, request = .addMember token → answer.value.isOk = true := by
  obtain ⟨members, held⟩ := Option.ne_none_iff_exists'.mp set
  cases request with
  | isMember userToken =>
    exact ⟨_, db.redis, db.unread, db.execSync_isMember held userToken, set, by simp⟩
  | addMember userToken =>
    obtain ⟨n, redis, result, after, _⟩ := db.execSync_addMember held userToken
    refine ⟨.integer n, redis, db.unread, result, ?_, fun _ _ => rfl⟩
    rw [after]
    exact Option.some_ne_none _
  | getMsg userToken =>
    cases stored : db.redis.list userToken with
    | none =>
      exact ⟨_, db.redis, db.unread, db.execSync_getMsg_wrongType stored, set, by simp⟩
    | some items => exact ⟨_, db.redis, _, db.execSync_getMsg stored, set, by simp⟩

theorem Registered.handle (held : Registered s) (request : HttpRequest) :
    Registered (s.handle request) := by
  have responses {request : HttpRequest} {response : Response}
      (fine : ∀ token, request = .regist token → 40 ≤ token.val.length → token.val.length ≤ 128 →
        response.code = 200) :
      ∀ token answer, (.regist token, answer) ∈ s.responses ++ [(request, response)] →
        40 ≤ token.val.length → token.val.length ≤ 128 → answer.code = 200 := by
    intro token answer member
    rcases List.mem_append.mp member with old | new
    · exact held.responses token answer old
    · cases List.mem_singleton.mp new
      exact fine token rfl
  cases request with
  | regist token =>
    simp only [PinocchioRun.handle]
    split
    · rename_i wrong
      refine ⟨held.posted, held.set, held.replied, responses ?_⟩
      rintro other same long short
      cases same
      omega
    · exact ⟨held.posted, held.set, held.replied, held.responses⟩
  | send x =>
    simp only [PinocchioRun.handle]
    split
    · exact ⟨held.posted, held.set, held.replied, responses (by simp)⟩
    · refine ⟨?_, held.set, held.replied, responses (by simp)⟩
      intro entry member
      rcases List.mem_append.mp member with old | new
      · exact held.posted entry old
      · rw [List.mem_singleton.mp new]
        exact .push _ _
  | recv token =>
    simp only [PinocchioRun.handle]
    split
    · exact ⟨held.posted, held.set, held.replied, responses (by simp)⟩
    · exact ⟨held.posted, held.set, held.replied, held.responses⟩

theorem Registered.answers (held : Registered s) (e : DatabaseEvent) :
    ∀ token response, (.regist token, response) ∈ s.responses ++ s.answers e →
      40 ≤ token.val.length → token.val.length ≤ 128 → response.code = 200 := by
  intro token response member
  rcases List.mem_append.mp member with old | new
  · exact held.responses token response old
  · intro _ _
    unfold PinocchioRun.answers at new
    split at new
    · split at new
      · rename_i call _ request answer here
        cases request with
        | isMember userToken => simp [finished] at new
        | getMsg userToken => simp [finished] at new
        | addMember userToken =>
          have ok := held.replied userToken answer (List.mem_of_getElem? here)
          simp only [finished, addMember, ok, if_true, Option.toList_some,
            List.mem_singleton] at new
          cases new
          rfl
      · cases new
    · cases new

theorem Registered.db {event : DatabaseEvent} {db : DatabaseRun} (held : Registered s)
    (goes : event.starts = false) (taken : Taken s.db event db) :
    (db.redis.set userTokens ≠ none ↔ SparesTokens s (.db event) t) ∧
      (db.redis.set userTokens ≠ none →
        Registered { db, responses := s.responses ++ s.answers event }) := by
  have other (set : db.redis.set userTokens ≠ none)
      (quiet : s.pushesOn (.db event) ≠ some userTokens) :
      db.redis.set userTokens ≠ none ↔ SparesTokens s (.db event) t :=
    iff_of_true set fun pushing => absurd pushing quiet
  cases taken with
  | addMsg userToken msg => cases goes
  | call request => cases goes
  | @execAsync command handler posted front =>
    obtain ⟨executed, shapes⟩ := executed_of_front s.db held.posted front
    have set := executed_set executed held.set
    obtain ⟨answer, redis, pushed, unread, result⟩ :=
      execAsync_frame { s.db with posted } command handler
    refine ⟨set.trans ?_, fun kept => ⟨?_, kept, ?_, held.answers .execAsync⟩⟩
    · have pushing : s.pushesOn (.db .execAsync) = some userTokens ↔
          ∃ message, command = .lpush userTokens message := by
        simp only [pushesOn, front]
        cases command <;> simp
      rw [SparesTokens, pushing, forall_exists_index]
    · rw [result]
      exact shapes
    · rw [result]
      exact held.replied
  | @execSync request asked front =>
    obtain ⟨answer, redis, unread, result, set, ok⟩ :=
      execSync_set { s.db with asked } request held.set
    have after :
        (DatabaseRun.execSync { s.db with asked } request).redis.set userTokens ≠ none := by
      rw [result]
      exact set
    refine ⟨other after (by simp [pushesOn]), fun _ => ?_⟩
    rw [result]
    refine ⟨held.posted, set, ?_, held.answers .execSync⟩
    intro token given member
    rcases List.mem_append.mp member with old | new
    · exact held.replied token given old
    · cases List.mem_singleton.mp new
      exact ok token rfl
  | @handle handler answer answered front =>
    refine ⟨other held.set (by simp [pushesOn]), fun _ => ?_⟩
    refine ⟨?_, held.set, held.replied, held.answers .handle⟩
    intro entry member
    rcases List.mem_append.mp member with old | new
    · exact held.posted entry old
    · obtain ⟨key, rfl⟩ := Handler.run_posted handler _ entry new
      exact .cap key
  | @ret call request answer here new =>
    refine ⟨other held.set (by simp [pushesOn]), fun _ => ?_⟩
    refine ⟨?_, held.set, held.replied, held.answers (.ret call)⟩
    intro entry member
    rcases List.mem_append.mp member with old | new
    · exact held.posted entry old
    · obtain ⟨key, rfl, _⟩ := Request.posts_posted request _ entry new
      exact .clear key

end PinocchioRun

open PinocchioRun

/-- Along a run the registered tokens stay a set, and registrations succeed, exactly when no
message is pushed on their key while it is absent. -/
theorem pinocchio_tokensIntact (events : List PinocchioEvent) :
    pinocchio.Along TokensIntact pinocchio.initial events ↔
      pinocchio.Along SparesTokens pinocchio.initial events := by
  refine System.along_iff Registered ?_ ?_ ?_ events
  · intro s e t held step
    cases handled_of_step step with
    | request request =>
      refine iff_of_true (held.handle request).intact ?_
      intro pushing
      simp [pushesOn] at pushing
    | @db event db goes taken =>
      refine Iff.trans ?_ (held.db goes taken).1
      exact ⟨And.left, fun set => ((held.db (t := s) goes taken).2 set).intact⟩
  · intro s e t held step intact
    cases handled_of_step step with
    | request request => exact held.handle request
    | @db event db goes taken => exact (held.db (t := s) goes taken).2 intact.1
  · refine ⟨?_, Option.some_ne_none [], ?_, ?_⟩
    all_goals simp [pinocchio]

def messageToTokens : List PinocchioEvent :=
  let token := zerosToken
  [.request (.send (some ⟨some userTokens, some ⟨ascii "\x7b\x7d", by decide⟩⟩)), .db .execAsync,
    .request (.regist token), .db .execSync]

theorem pinocchio_messageToTokens :
    ¬∀ events, pinocchio.Along TokensIntact pinocchio.initial events := by
  intro always
  let token : Text := ⟨List.replicate 40 48, by decide⟩
  let before : PinocchioRun :=
    (pinocchio.run pinocchio.initial messageToTokens).get (by decide +kernel)
  let after : PinocchioRun := (pinocchio.step before (.db (.ret 0))).get (by decide +kernel)
  have intact := System.along_at (always (messageToTokens ++ [.db (.ret 0)]))
    (t := before) (u := after) (Option.some_get _).symm (Option.some_get _).symm
  have failed : (.regist token, { code := 404 }) ∈ after.responses := by decide +kernel
  exact absurd (intact.2 token _ failed (by decide) (by decide)) (by decide)

end Pinocchio.Http
