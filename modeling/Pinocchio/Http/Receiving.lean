import Pinocchio.Database.Order
import Pinocchio.Database.Service
import Pinocchio.Http.Routes

/-! What `/gcm/recv` answers.

`LPUSH` puts the newest message first, and the handler turns the list around. No trim
and no push changes the order of what it meets, so the body has the oldest first.
-/

set_option autoImplicit false

namespace Pinocchio.Http
open Semantics Redis Database DatabaseRun

/-- The body that lists these messages in this order. -/
def listing (items : List Message) : Bytes :=
  ascii "[" ++ items.flatMap (fun message => ascii "\x7bdata:" ++ message.text.val ++ ascii "\x7d,") ++
    ascii "\x7bdata:\"\"\x7d]"

theorem messageBody_texts (items : List Message) :
    messageBody (Service.texts items) = listing items.reverse := by
  have reversed : (Service.texts items).reverse = Service.texts items.reverse := by
    rw [Service.texts, Service.texts, List.map_reverse]
  rw [messageBody, turned, reversed, Service.texts, List.flatMap_map]
  rfl

theorem finished_messages (key : Text) (items : List Message) :
    finished (.getMsg key) (Answer.messages items).value =
      some (.recv key, { body := messageBody (Service.texts items) }) := by
  simp only [finished, getMsg_messages]
  rfl

theorem finished_wrongType (key : Text) :
    finished (.getMsg key) Answer.wrongType.value = some (.recv key, { code := 408 }) := rfl

namespace PinocchioRun
variable {s t : PinocchioRun} {e : PinocchioEvent}

theorem Handled.manager (handled : Handled s e t) :
    t.db = s.db ∨ ∃ event, Taken s.db event t.db ∧ (event.starts = false → e = .db event) := by
  cases handled with
  | db goes taken => exact Or.inr ⟨_, taken, fun _ => rfl⟩
  | request request =>
    cases request with
    | regist token =>
      simp only [handle]
      split
      · exact Or.inl rfl
      · exact Or.inr ⟨_, .call _, fun goes => by cases goes⟩
    | send x =>
      simp only [handle]
      split
      · exact Or.inl rfl
      · exact Or.inr ⟨_, .addMsg _ _, fun goes => by cases goes⟩
    | recv token =>
      simp only [handle]
      split
      · exact Or.inl rfl
      · exact Or.inr ⟨_, .call _, fun goes => by cases goes⟩

theorem handle_responses (s : PinocchioRun) (request : HttpRequest) :
    ∃ more, (s.handle request).responses = s.responses ++ more ∧
      ∀ key response, (.recv key, response) ∈ more → response = { code := 400 } := by
  cases request with
  | regist token =>
    simp only [handle]
    split
    · exact ⟨[(.regist token, _)], rfl, by simp⟩
    · exact ⟨[], (List.append_nil _).symm, by simp⟩
  | send x =>
    simp only [handle]
    split
    · exact ⟨[(.send x, _)], rfl, by simp⟩
    · exact ⟨[(.send x, _)], rfl, by simp⟩
  | recv token =>
    simp only [handle]
    split
    · refine ⟨[(.recv token, _)], rfl, ?_⟩
      intro key response member
      cases List.mem_singleton.mp member
      rfl
    · exact ⟨[], (List.append_nil _).symm, by simp⟩

theorem answers_recv {event : DatabaseEvent} {key : Text} {response : Response}
    (member : (.recv key, response) ∈ s.answers event) :
    ∃ answer, (Request.getMsg key, answer) ∈ s.db.replied ∧
      finished (.getMsg key) answer.value = some (.recv key, response) := by
  unfold answers at member
  split at member
  · split at member
    · rename_i request answer here
      have ended := Option.mem_toList.mp member
      cases request with
      | isMember userToken => cases ended
      | addMember userToken => simp [finished] at ended
      | getMsg userToken =>
        have same : userToken = key := by
          have pair := Option.some.inj ended
          exact HttpRequest.recv.inj (congrArg Prod.fst pair)
        subst same
        exact ⟨answer, List.mem_of_getElem? here, ended⟩
    · cases member
  · cases member

structure Reported (s : PinocchioRun) : Prop where
  sound : Sound s.db
  answers : InOrder s.db
  responses : ∀ key response, (.recv key, response) ∈ s.responses → response.code = 200 →
    ∃ items, (Request.getMsg key, Answer.messages items) ∈ s.db.replied ∧
      response.body = messageBody (Service.texts items)

theorem Reported.manager (held : Reported s) (handled : Handled s e t) :
    Sound t.db ∧ InOrder t.db := by
  rcases handled.manager with same | ⟨event, taken, _⟩
  · rw [same]
    exact ⟨held.sound, held.answers⟩
  · exact ⟨held.sound.step taken, held.answers.step held.sound taken⟩

theorem Handled.replied (handled : Handled s e t) : s.db.replied <+: t.db.replied := by
  rcases handled.manager with same | ⟨event, taken, _⟩
  · exact same ▸ List.prefix_rfl
  · exact replied_grows taken

theorem Reported.step (held : Reported s) (handled : Handled s e t) : Reported t := by
  obtain ⟨sound, answers⟩ := held.manager handled
  refine ⟨sound, answers, fun key response member ok => ?_⟩
  have old (before : (.recv key, response) ∈ s.responses) :
      ∃ items, (Request.getMsg key, Answer.messages items) ∈ t.db.replied ∧
        response.body = messageBody (Service.texts items) := by
    obtain ⟨items, answer, body⟩ := held.responses key response before ok
    exact ⟨items, handled.replied.subset answer, body⟩
  cases handled with
  | request request =>
    obtain ⟨more, responses, rejected⟩ := s.handle_responses request
    rw [responses] at member
    rcases List.mem_append.mp member with before | new
    · exact old before
    · rw [rejected key response new] at ok
      cases ok
  | db goes taken =>
    rcases List.mem_append.mp member with before | new
    · exact old before
    · obtain ⟨answer, given, ended⟩ := answers_recv new
      rcases held.answers key answer given with rfl | ⟨items, rfl, _⟩
      · rw [finished_wrongType] at ended
        cases ended
        cases ok
      · rw [finished_messages] at ended
        cases ended
        exact ⟨items, (Handled.db goes taken).replied.subset given, rfl⟩

end PinocchioRun

open PinocchioRun

theorem pinocchio_reported {s : PinocchioRun} (reached : pinocchio.Reaches (fun _ _ => True) s) :
    Reported s := by
  apply reached.invariant
  case preserved =>
    intro s e t held _ step
    exact held.step (handled_of_step step)
  refine ⟨databaseManager_sound, ?_, ?_⟩
  · intro key answer member
    cases member
  · intro key response member
    cases member

/-- At any time the list of a token has the newest push first and no message twice. A read that
succeeds lists the messages of the answer to its `GetMsg`, all of them its token's, the oldest push
first and none twice, and the empty one behind them. -/
theorem pinocchio_inOrder :
    (∀ s, databaseManager.Reaches (fun _ _ => True) s → ∀ key,
      s.redis.messages key ⊆ s.history key ∧ (s.redis.messages key).Pairwise (s.Newer key)) ∧
    ∀ s, pinocchio.Reaches (fun _ _ => True) s →
      ∀ key response, (.recv key, response) ∈ s.responses → response.code = 200 →
        ∃ items, (Request.getMsg key, Answer.messages items) ∈ s.db.replied ∧
          response.body = listing items.reverse ∧ items.reverse ⊆ s.db.history key ∧
          items.reverse.Pairwise fun first second => s.db.Newer key second first := by
  refine ⟨fun s reached key => ?_, fun s reached key response member ok => ?_⟩
  · have held : Sound s :=
      reached.invariant databaseManager_sound fun _ _ _ held _ step => held.step (taken_of_step step)
    exact ⟨(held.lists key).subset, held.pairwise_newer (held.lists key)⟩
  · have held := pinocchio_reported reached
    obtain ⟨items, answer, body⟩ := held.responses key response member ok
    rcases held.answers key _ answer with wrong | ⟨listed, same, sub⟩
    · cases wrong
    · cases same
      refine ⟨items, answer, ?_, ?_, ?_⟩
      · rw [body, messageBody_texts]
      · exact List.reverse_subset.mpr sub.subset
      · exact List.pairwise_reverse.mpr (held.sound.pairwise_newer sub)

def twoSends : List PinocchioEvent :=
  let token := sampleToken
  [.request (.send (some ⟨some token, some sampleText⟩)), .db .execAsync,
    .request (.send (some ⟨some token, some ⟨ascii "2", by decide⟩⟩)), .db .execAsync,
    .request (.recv token), .db .execSync, .db (.ret 0)]

theorem pinocchio_inOrder_twoSends :
    let s := (pinocchio.run pinocchio.initial twoSends).get (by decide +kernel)
    let key : Text := ⟨ascii "token", by decide⟩
    ∃ items, (Request.getMsg key, Answer.messages items) ∈ s.db.replied ∧
      ascii "[\x7bdata:1\x7d,\x7bdata:2\x7d,\x7bdata:\"\"\x7d]" = listing items.reverse ∧
      items.reverse ⊆ s.db.history key ∧
      items.reverse.Pairwise fun first second => s.db.Newer key second first := by
  intro s key
  have reached : pinocchio.Reaches (fun _ _ => True) s :=
    System.reaches_of_run (Option.some_get _).symm
  exact pinocchio_inOrder.2 s reached key
    { body := ascii "[\x7bdata:1\x7d,\x7bdata:2\x7d,\x7bdata:\"\"\x7d]" } (by decide +kernel) rfl

end Pinocchio.Http
