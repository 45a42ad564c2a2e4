import Pinocchio.Database.Deliveries
import Pinocchio.Http.Receiving

/-! What the status of a send says about its message.

`/gcm/send` answers before its `LPUSH` is executed, and `AddMsg` returns true whatever comes of
it. The command may meet a key that holds no list, or a connection that is broken by then.
-/

set_option autoImplicit false

namespace Pinocchio.Database.DatabaseRun
open Semantics Redis
variable {s t : DatabaseRun}

def pending (s : DatabaseRun) : List (Text × Message) := s.posted.filterMap pushOf

theorem Sound.pending_not_pushed (held : Sound s) {push : Text × Message}
    (pending : push ∈ s.pending) : push ∉ s.pushed := by
  intro pushed
  have order := (List.pairwise_append.mp held.order).2.2
  exact Nat.lt_irrefl _ (order push (List.mem_reverse.mpr pushed) push pending)

theorem pending_addMsg (userToken msg : Text) :
    (s.addMsg userToken msg).pending = s.pending ++ [(userToken, ⟨s.calls.length, msg⟩)] := by
  simp only [pending, addMsg, List.filterMap_append]
  rfl

theorem pending_of_going {e : DatabaseEvent} (taken : Taken s e t) (goes : e.starts = false)
    (other : e ≠ .execAsync) : t.pending = s.pending ∧ t.pushed = s.pushed := by
  have trims {more : List (Command × Handler)}
      (shapes : ∀ entry ∈ more, ∃ key,
        entry = (capTrim key, Handler.trimmed) ∨ entry = (clearTrim key, Handler.trimmed)) :
      (s.posted ++ more).filterMap pushOf = s.posted.filterMap pushOf := by
    have none : more.filterMap pushOf = [] := by
      rw [List.filterMap_eq_nil_iff]
      intro entry member
      obtain ⟨key, rfl | rfl⟩ := shapes entry member
      · rfl
      · rfl
    rw [List.filterMap_append, none, List.append_nil]
  cases taken with
  | addMsg userToken msg => cases goes
  | call request => cases goes
  | execAsync front => exact absurd rfl other
  | @execSync request asked front =>
    obtain ⟨answer, redis, unread, result, _⟩ := execSync_keeps { s with asked } request
    rw [result]
    exact ⟨rfl, rfl⟩
  | @handle handler answer answered front =>
    refine ⟨trims fun entry member => ?_, rfl⟩
    obtain ⟨key, same⟩ := Handler.run_posted handler _ entry member
    exact ⟨key, Or.inl same⟩
  | @ret call request answer here new =>
    refine ⟨trims fun entry member => ?_, rfl⟩
    obtain ⟨key, same, _⟩ := Request.posts_posted request _ entry member
    exact ⟨key, Or.inr same⟩

theorem pending_of_executed {command : Command} {handler : Handler}
    {posted : List (Command × Handler)} (shapes : ∀ entry ∈ s.posted, Posted entry)
    (front : s.posted = (command, handler) :: posted)
    (result : t = DatabaseRun.execAsync { s with posted } command handler) :
    (t.pending = s.pending ∧ t.pushed = s.pushed ∧ pushOf (command, handler) = none) ∨
      ∃ key message, command = .lpush key message ∧ s.pending = (key, message) :: t.pending ∧
        t.pushed = if s.redis.list key = none then s.pushed else (key, message) :: s.pushed := by
  have executed := (executed_of_front s shapes front).1
  rw [← result] at executed
  have kept (none : pushOf (command, handler) = none) (same : t.posted = posted) :
      t.pending = s.pending := by
    rw [pending, pending, same, front, List.filterMap_cons_none none]
  clear result
  cases executed with
  | @failed _ _ key missing about =>
    rcases about with rfl | rfl | ⟨message, rfl⟩
    · exact Or.inl ⟨kept rfl rfl, rfl, rfl⟩
    · exact Or.inl ⟨kept rfl rfl, rfl, rfl⟩
    · exact Or.inr ⟨key, message, rfl, by simp [pending, front, pushOf], (if_pos missing).symm⟩
  | @push key items stored message =>
    refine Or.inr ⟨key, message, rfl, by simp [pending, front, pushOf], ?_⟩
    have present : s.redis.list key ≠ none := by
      intro missing
      rw [missing] at stored
      cases stored
    rw [if_neg present]
  | cap stored => exact Or.inl ⟨kept rfl rfl, rfl, rfl⟩
  | clear stored => exact Or.inl ⟨kept rfl rfl, rfl, rfl⟩

end Pinocchio.Database.DatabaseRun

namespace Pinocchio.Http
open Semantics Redis Database DatabaseRun

/-- `AddMsg` posts the command, and does not wait for the reply. -/
def addMsg (db : DatabaseRun) (userToken msg : Text) : Bool × DatabaseRun :=
  (true, db.addMsg userToken msg)

/-- A post that came to `AddMsg`: the token, the message, and the response. -/
structure Sent where
  userToken : Text
  message : Message
  response : Response
  deriving DecidableEq

/-- The service, whether the connection of the asynchronous client is broken, and the posts. -/
structure SendingRun where
  service : PinocchioRun := {}
  broken : Bool := false
  sent : List Sent := []

inductive SendingEvent where
  | send (x : Option Posting)
  | service (e : PinocchioEvent)
  | disconnect

namespace SendingRun
variable (s : SendingRun)

/-- The handler of `/gcm/send` behind its checks of the key and the body. -/
def send (x : Option Posting) : SendingRun :=
  match posting x with
  | .error response => { s with service := s.service.respond (.send x) response }
  | .ok (token, msg) =>
    let message : Message := ⟨s.service.db.calls.length, msg⟩
    let (added, db) := addMsg s.service.db token msg
    let response : Response := if !added then { code := 408 } else {}
    { s with
      service := PinocchioRun.respond { s.service with db } (.send x) response
      sent := s.sent ++ [⟨token, message, response⟩] }

/-- On a broken connection nothing that was posted reaches the server. -/
def step (s : SendingRun) : SendingEvent → Option SendingRun
  | .send x => some (s.send x)
  | .service (.request (.send _)) => none
  | .service e =>
    if s.broken ∧ e = .db .execAsync then none
    else (s.service.step e).map fun service => { s with service }
  | .disconnect => some { s with broken := true }

theorem send_service (x : Option Posting) : (s.send x).service = s.service.handle (.send x) := by
  cases accepted : posting x with
  | error response => simp only [send, PinocchioRun.handle, accepted]
  | ok pair => simp only [send, PinocchioRun.handle, accepted, addMsg, Bool.not_true,
      Bool.false_eq_true, if_false]

/-- The push of a post has been executed, or never will be. -/
def Decided (post : Sent) : Prop :=
  s.broken = true ∨ (post.userToken, post.message) ∉ s.service.db.pending

/-- Where it is known what came of the push of a post, the status says it. -/
def Truthful (_ : SendingRun) (_ : SendingEvent) (t : SendingRun) : Prop :=
  ∀ post ∈ t.sent, t.Decided post →
    (post.response.code = 200 ↔ (post.userToken, post.message) ∈ t.service.db.pushed) ∧
    (post.response.code = 408 ↔ (post.userToken, post.message) ∉ t.service.db.pushed)

/-- A push meets a list or an absent key, the connection breaks when no push is on its way, and
nothing is posted on a broken one. -/
def Succeeds (s : SendingRun) : SendingEvent → SendingRun → Prop
  | .send x, _ => s.broken = true → ∃ response, posting x = .error response
  | .service (.db .execAsync), _ => ∀ key message handler posted,
      s.service.db.posted = (.lpush key message, handler) :: posted →
        s.service.db.redis.list key ≠ none
  | .service _, _ => True
  | .disconnect, _ => s.service.db.pending = []

/-- Every post was told that it succeeded, and its push has been executed or is on its way. -/
structure Promised (s : SendingRun) : Prop where
  sound : Sound s.service.db
  sent : ∀ post ∈ s.sent, post.response = {} ∧
    ((post.userToken, post.message) ∈ s.service.db.pushed ∨
      s.broken = false ∧ (post.userToken, post.message) ∈ s.service.db.pending)
  pending : ∀ key message, (key, message) ∈ s.service.db.pending → ⟨key, message, {}⟩ ∈ s.sent

variable {s} {t : SendingRun} {e : SendingEvent}

theorem Promised.truthful (held : Promised t) : Truthful s e t := by
  intro post member decided
  obtain ⟨told, pushed | ⟨whole, pending⟩⟩ := held.sent post member
  · rw [told]
    exact ⟨iff_of_true rfl pushed, iff_of_false (by decide) (not_not_intro pushed)⟩
  · rcases decided with broken | executed
    · rw [whole] at broken
      cases broken
    · exact absurd pending executed

theorem not_truthful (key : Text) (message : Message) (member : ⟨key, message, {}⟩ ∈ t.sent)
    (decided : t.Decided ⟨key, message, {}⟩) (failed : (key, message) ∉ t.service.db.pushed) :
    ¬Truthful s e t := by
  intro truthful
  exact failed ((truthful _ member decided).1.mp rfl)

theorem Promised.frame (held : Promised s) {service : PinocchioRun} (sound : Sound service.db)
    (pending : service.db.pending = s.service.db.pending)
    (pushed : service.db.pushed = s.service.db.pushed) : Promised { s with service } := by
  refine ⟨sound, ?_, ?_⟩
  · simp only [pending, pushed]
    exact held.sent
  · simp only [pending]
    exact held.pending

theorem Promised.service (held : Promised s) {event : PinocchioEvent} {service : PinocchioRun}
    (silent : ∀ x, event ≠ .request (.send x)) (handled : PinocchioRun.Handled s.service event service)
    (ok : Succeeds s (.service event) t) (whole : event = .db .execAsync → s.broken = false) :
    Promised { s with service } := by
  have sound : Sound service.db := by
    rcases handled.manager with same | ⟨_, taken, _⟩
    · rw [same]
      exact held.sound
    · exact held.sound.step taken
  cases handled with
  | request request =>
    cases request with
    | send x => exact absurd rfl (silent x)
    | regist token | recv token =>
      refine held.frame sound ?_ ?_
      · simp only [PinocchioRun.handle]
        split <;> rfl
      · simp only [PinocchioRun.handle]
        split <;> rfl
  | @db e db goes taken =>
    by_cases other : e = .execAsync
    · subst other
      cases taken with
      | @execAsync command handler posted front =>
      rcases pending_of_executed held.sound.posted front rfl with
        ⟨pending, pushed, _⟩ | ⟨key, message, rfl, pending, pushed⟩
      · exact held.frame sound pending pushed
      -- The key holds a list or nothing, so the push is carried out.
      · rw [if_neg (ok key message handler posted front)] at pushed
        refine ⟨sound, fun post member => ?_, fun other text member => ?_⟩
        · obtain ⟨told, done⟩ := held.sent post member
          refine ⟨told, ?_⟩
          simp only [pushed]
          rw [pending] at done
          rcases done with old | ⟨_, waits⟩
          · exact Or.inl (List.mem_cons_of_mem _ old)
          · rcases List.mem_cons.mp waits with here | waits
            · exact Or.inl (List.mem_cons.mpr (Or.inl here))
            · exact Or.inr ⟨whole rfl, waits⟩
        · exact held.pending other text (pending ▸ List.mem_cons_of_mem _ member)
    · obtain ⟨pending, pushed⟩ := pending_of_going taken goes other
      exact held.frame sound pending pushed

theorem Promised.send (held : Promised s) {x : Option Posting}
    (ok : Succeeds s (.send x) t) : Promised (s.send x) := by
  have sound : Sound (s.send x).service.db := by
    rw [send_service]
    rcases (PinocchioRun.Handled.request (s := s.service) (.send x)).manager with
      same | ⟨_, taken, _⟩
    · rw [same]
      exact held.sound
    · exact held.sound.step taken
  cases accepted : posting x with
  | error response =>
    simp only [SendingRun.send, accepted] at sound ⊢
    exact held.frame sound rfl rfl
  | ok pair =>
    -- A post that is accepted needs a connection that is whole.
    have whole : s.broken = false := by
      by_contra broken
      obtain ⟨response, rejected⟩ := ok (by simpa using broken)
      rw [accepted] at rejected
      cases rejected
    simp only [SendingRun.send, accepted, addMsg, Bool.not_true, Bool.false_eq_true,
      if_false] at sound ⊢
    have pending := pending_addMsg (s := s.service.db) pair.1 pair.2
    refine ⟨sound, fun post member => ?_, fun key message member => ?_⟩
    · simp only [PinocchioRun.respond, pending]
      rcases List.mem_append.mp member with old | new
      · obtain ⟨told, done⟩ := held.sent post old
        exact ⟨told, done.imp id fun waits => ⟨waits.1, List.mem_append_left _ waits.2⟩⟩
      · cases List.mem_singleton.mp new
        exact ⟨rfl, Or.inr ⟨whole, List.mem_append_right _ (List.mem_singleton.mpr rfl)⟩⟩
    · simp only [PinocchioRun.respond, pending] at member
      rcases List.mem_append.mp member with old | new
      · exact List.mem_append_left _ (held.pending key message old)
      · cases List.mem_singleton.mp new
        exact List.mem_append_right _ (List.mem_singleton.mpr rfl)

theorem step_cases (step : s.step e = some t) :
    (∃ x, e = .send x ∧ t = s.send x) ∨ (e = .disconnect ∧ t = { s with broken := true }) ∨
      ∃ event service, e = .service event ∧ (∀ x, event ≠ .request (.send x)) ∧
        (event = .db .execAsync → s.broken = false) ∧
        PinocchioRun.Handled s.service event service ∧ t = { s with service } := by
  cases e with
  | send x => cases step; exact Or.inl ⟨x, rfl, rfl⟩
  | disconnect => cases step; exact Or.inr (Or.inl ⟨rfl, rfl⟩)
  | service event =>
    right; right
    unfold SendingRun.step at step
    split at step
    · rename_i same; cases same
    · cases step
    · rename_i other silent same
      cases same
      split at step
      · cases step
      · rename_i goes
        obtain ⟨service, taken, rfl⟩ := Option.map_eq_some_iff.mp step
        refine ⟨event, service, rfl, ?_, ?_, PinocchioRun.handled_of_step taken, rfl⟩
        · rintro x rfl
          exact silent x rfl
        · intro same
          by_contra broken
          exact goes ⟨by simpa using broken, same⟩
    · rename_i same; cases same

theorem Promised.step (held : Promised s) (step : s.step e = some t) (ok : Succeeds s e t) :
    Promised t := by
  rcases step_cases step with ⟨x, rfl, rfl⟩ | ⟨rfl, rfl⟩ |
    ⟨event, service, rfl, silent, whole, handled, rfl⟩
  · exact held.send ok
  · have none : s.service.db.pending = [] := ok
    refine ⟨held.sound, fun post member => ?_, held.pending⟩
    obtain ⟨told, pushed | ⟨_, waits⟩⟩ := held.sent post member
    · exact ⟨told, Or.inl pushed⟩
    · rw [none] at waits
      cases waits
  · exact held.service silent handled ok whole

/-- Wherever a push fails, its post was told otherwise. -/
theorem Promised.fails (held : Promised s) (step : s.step e = some t) (fails : ¬Succeeds s e t) :
    ¬Truthful s e t := by
  rcases step_cases step with ⟨x, rfl, rfl⟩ | ⟨rfl, rfl⟩ |
    ⟨event, service, rfl, silent, whole, handled, rfl⟩
  · -- The message is posted on a broken connection.
    simp only [Succeeds, Classical.not_imp, not_exists] at fails
    obtain ⟨broken, accepted⟩ := fails
    cases posted : posting x with
    | error response => exact absurd posted (accepted response)
    | ok pair =>
      refine not_truthful pair.1 ⟨s.service.db.calls.length, pair.2⟩ ?_ ?_ ?_
      all_goals simp only [SendingRun.send, posted, addMsg, Bool.not_true, Bool.false_eq_true,
        if_false]
      · exact List.mem_append_right _ (List.mem_singleton.mpr rfl)
      · exact Or.inl broken
      · intro pushed
        have number := held.sound.numbers (pair.1, ⟨s.service.db.calls.length, pair.2⟩)
          (List.mem_append_left _ (List.mem_reverse.mpr pushed))
        exact Nat.lt_irrefl _ number
  · -- The connection breaks under a push.
    obtain ⟨⟨key, message⟩, waits⟩ := List.exists_mem_of_ne_nil _ fails
    exact not_truthful key message (held.pending key message waits) (Or.inl rfl)
      (held.sound.pending_not_pushed waits)
  · -- The push meets a key of another type.
    cases handled with
    | request request => exact absurd trivial fails
    | @db e db goes taken =>
      cases taken with
      | @execAsync command handler posted front =>
        simp only [Succeeds, not_forall, not_not] at fails
        obtain ⟨key, message, other, rest, same, missing⟩ := fails
        rw [front] at same
        obtain ⟨⟨rfl, rfl⟩, rfl⟩ : (command = .lpush key message ∧ handler = other) ∧
            posted = rest := by simpa using same
        rcases pending_of_executed held.sound.posted front rfl with
          ⟨_, _, none⟩ | ⟨key', message', push, pending, pushed⟩
        · cases none
        · cases push
          rw [if_pos missing] at pushed
          have waits : (key, message) ∈ s.service.db.pending := by
            rw [pending]
            exact List.mem_cons_self
          refine not_truthful key message (held.pending key message waits) (Or.inr ?_) ?_
          · -- No other push has the number of this one.
            have order := (List.pairwise_append.mp held.sound.order).2.1
            change s.service.db.pending.Pairwise _ at order
            rw [pending] at order
            intro again
            exact Nat.lt_irrefl _ ((List.pairwise_cons.mp order).1 _ again)
          · simp only [pushed]
            exact held.sound.pending_not_pushed waits
      | addMsg userToken msg => exact absurd trivial fails
      | call request => exact absurd trivial fails
      | execSync front => exact absurd trivial fails
      | handle front => exact absurd trivial fails
      | ret here new => exact absurd trivial fails

end SendingRun

def sending : System SendingRun SendingEvent := ⟨{}, SendingRun.step⟩

open SendingRun

/-- Along a run the status of every post tells what became of its push exactly when no push fails. -/
theorem sending_truthful (events : List SendingEvent) :
    sending.Along Truthful sending.initial events ↔
      sending.Along Succeeds sending.initial events := by
  refine System.along_iff Promised ?_ ?_ ?_ events
  · intro s e t held step
    constructor
    · intro truthful
      by_contra fails
      exact held.fails step fails truthful
    · exact fun ok => (held.step step ok).truthful
  · intro s e t held step truthful
    refine held.step step ?_
    by_contra fails
    exact held.fails step fails truthful
  · refine ⟨databaseManager_sound, ?_, ?_⟩
    all_goals simp [sending, DatabaseRun.pending]

def sendToTokens : List SendingEvent :=
  let token := zerosToken
  [.service (.request (.regist token)), .service (.db .execSync),
    .send (some ⟨some userTokens, some sampleText⟩)]

/-- The post is answered by 200, and its message is refused. -/
theorem sending_toTokens : ¬∀ events, sending.Along Truthful sending.initial events := by
  intro always
  let before : SendingRun := (sending.run sending.initial sendToTokens).get (by decide +kernel)
  let after : SendingRun :=
    (sending.step before (.service (.db .execAsync))).get (by decide +kernel)
  have truthful := System.along_at (always (sendToTokens ++ [.service (.db .execAsync)]))
    (t := before) (u := after) (Option.some_get _).symm (Option.some_get _).symm
  let post : Sent := ⟨userTokens, ⟨1, ⟨ascii "1", by decide⟩⟩, {}⟩
  have member : post ∈ after.sent := by decide +kernel
  have decided : after.Decided post := Or.inr (by decide +kernel)
  exact absurd ((truthful post member decided).1.mp rfl) (by decide +kernel)

end Pinocchio.Http
