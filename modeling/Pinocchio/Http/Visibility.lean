import Pinocchio.Http.Receiving

/-! When a message that was sent is seen by a receive.

`/gcm/send` answers before its `LPUSH` is written, and `/gcm/recv` reads on another
connection, so a receive that is started later may read the list first. The order that
counts is the one in which the server executes the two commands.
-/

set_option autoImplicit false

namespace Pinocchio.Http
open Semantics Redis Database DatabaseRun

namespace PinocchioRun
variable {s t : PinocchioRun} {e : PinocchioEvent}

def waitingBefore (calls : List Call) (place : Nat) : Nat :=
  (calls.take place).countP fun call => match call with
    | .sync _ => true
    | .addMsg _ _ => false

/-- How many messages were sent to a token after a call. -/
def sentAfter (calls : List Call) (place : Nat) (key : Text) : Nat :=
  (calls.drop (place + 1)).countP fun call => match call with
    | .addMsg userToken _ => userToken = key
    | .sync _ => false

/-- A receive that was started after a send to the same token, and was answered, got the message
unless an earlier one did or a hundred newer ones were sent. -/
def SendVisible (s : PinocchioRun) : Prop :=
  ∀ sent started key message answer, sent < started →
    s.db.calls[sent]? = some (.addMsg key message) →
    s.db.calls[started]? = some (.sync (.getMsg key)) →
    s.db.replied[waitingBefore s.db.calls started]? = some (.getMsg key, answer) →
    100 ≤ sentAfter s.db.calls sent key ∨
      ∃ k items, k ≤ waitingBefore s.db.calls started ∧
        s.db.replied[k]? = some (.getMsg key, .messages items) ∧ message ∈ items

/-- A clearing trim is executed only when nothing was pushed since the list was last read. -/
def ClearsOnlyRead (s : PinocchioRun) : PinocchioEvent → PinocchioRun → Prop
  | .db event, t => ClearsRead s.db event t.db
  | .request _, _ => True

instance decidableClearsOnlyRead : ∀ s e t, Decidable (ClearsOnlyRead s e t)
  | s, .db event, _ => inferInstanceAs (Decidable (∀ key ∈ s.db.clears event, s.db.unread key = 0))
  | _, .request _, _ => inferInstanceAs (Decidable True)

theorem Handled.traced (handled : Handled s e t) (held : Traced s.db)
    (reads : ClearsOnlyRead s e t) : Traced t.db := by
  rcases handled.manager with same | ⟨event, taken, own⟩
  · rw [same]
    exact held
  · have safe : ClearsRead s.db event t.db := by
      cases starts : event.starts with
      | false =>
        rw [own starts] at reads
        exact reads
      | true =>
        -- Calls execute nothing.
        apply clearsRead_of_other
        cases event <;> first | rfl | cases starts
    exact held.step safe taken

/-- The calls that returned have given their responses. -/
def Responded (s : PinocchioRun) : Prop :=
  ∀ call ∈ s.db.returned.map Prod.fst, ∃ request answer,
    s.db.replied[call]? = some (request, answer) ∧
      ∀ response ∈ finished request answer.value, response ∈ s.responses

theorem Handled.responses (handled : Handled s e t) : s.responses <+: t.responses := by
  cases handled with
  | request request =>
    obtain ⟨more, responses, _⟩ := s.handle_responses request
    rw [responses]
    exact List.prefix_append _ _
  | db goes taken => exact List.prefix_append _ _

theorem Handled.returned (handled : Handled s e t) {call : Nat}
    (ended : call ∈ t.db.returned.map Prod.fst) :
    call ∈ s.db.returned.map Prod.fst ∨ ∃ request answer,
      s.db.replied[call]? = some (request, answer) ∧
        ∀ response ∈ finished request answer.value, response ∈ t.responses := by
  cases handled with
  | request request =>
    refine Or.inl ?_
    have same : (s.handle request).db.returned = s.db.returned := by
      cases request with
      | regist token => simp only [handle]; split <;> rfl
      | send x => simp only [handle]; split <;> rfl
      | recv token => simp only [handle]; split <;> rfl
    rw [same] at ended
    exact ended
  | db goes taken =>
    cases taken with
    | addMsg userToken msg => cases goes
    | call request => cases goes
    | handle front => exact Or.inl ended
    | @execAsync command handler posted front =>
      obtain ⟨answer, redis, pushed, unread, result⟩ :=
        execAsync_frame { s.db with posted } command handler
      rw [result] at ended
      exact Or.inl ended
    | @execSync request asked front =>
      obtain ⟨answer, redis, unread, result, _⟩ := execSync_keeps { s.db with asked } request
      rw [result] at ended
      exact Or.inl ended
    | @ret number request answer here new =>
      simp only [DatabaseRun.ret, List.map_append, List.map_cons, List.map_nil,
        List.mem_append, List.mem_singleton] at ended
      rcases ended with old | rfl
      · exact Or.inl old
      · refine Or.inr ⟨request, answer, here, fun response member => ?_⟩
        apply List.mem_append_right
        simp only [answers, here]
        exact Option.mem_toList.mpr member

theorem Responded.step (held : Responded s) (handled : Handled s e t) : Responded t := by
  intro call ended
  obtain ⟨more, replied⟩ := handled.replied
  rcases handled.returned ended with before | ⟨request, answer, here, given⟩
  · obtain ⟨request, answer, here, given⟩ := held call before
    refine ⟨request, answer, ?_, fun response member => ?_⟩
    · rw [← replied]
      exact getElem?_grow here more
    · exact handled.responses.subset (given response member)
  · refine ⟨request, answer, ?_, given⟩
    rw [← replied]
    exact getElem?_grow here more

end PinocchioRun

open PinocchioRun

theorem pinocchio_responded {s : PinocchioRun} (reached : pinocchio.Reaches (fun _ _ => True) s) :
    Responded s := by
  apply reached.invariant
  case preserved =>
    intro s e t held _ step
    exact held.step (handled_of_step step)
  intro call ended
  cases ended

/-- A message that is pushed before the server executes a read is in the answer to that read or
to an earlier one, and in the response that is made of it, or it has a hundred newer ones. So it
is as long as clearing trims are executed only where nothing was pushed since the last read. -/
theorem pinocchio_sendVisible {before : List PinocchioEvent} {s t : PinocchioRun} {key : Text}
    {message : Message} {asked : List Request}
    (path : pinocchio.run pinocchio.initial before = some s)
    (reads : pinocchio.Along ClearsOnlyRead pinocchio.initial before)
    (pushed : (key, message) ∈ s.db.pushed) (front : s.db.asked = .getMsg key :: asked)
    (step : pinocchio.step s (.db .execSync) = some t) :
    100 ≤ (s.db.history key).idxOf message ∨
      ∃ k items, k ≤ s.db.replied.length ∧
        t.db.replied[k]? = some (.getMsg key, .messages items) ∧ message ∈ items ∧
        ∀ after u, pinocchio.run t after = some u → k ∈ u.db.returned.map Prod.fst →
          (.recv key, { body := listing items.reverse }) ∈ u.responses := by
  have traced : Traced s.db := by
    refine System.along_invariant (P := fun s => Traced s.db) ?_ reads path
      fun s e t held reads step => (handled_of_step step).traced held reads
    refine ⟨databaseManager_sound, fun key positive => absurd positive (Nat.lt_irrefl 0), ?_⟩
    intro key message member
    cases member
  have reached : pinocchio.Reaches (fun _ _ => True) t :=
    (System.reaches_of_run path).next trivial step
  have executed : t.db = DatabaseRun.execSync { s.db with asked } (.getMsg key) := by
    simp only [pinocchio, PinocchioRun.step, DatabaseEvent.starts, DatabaseRun.step, front] at step
    cases step
    rfl
  rcases @Accounted.read s.db traced.accounted key message asked pushed with behind | ⟨k, items, early, here, inside⟩
  · exact Or.inl behind
  · rw [← executed] at here
    refine Or.inr ⟨k, items, early, here, inside, fun after u rest ended => ?_⟩
    have along : pinocchio.Along (fun _ _ _ => True) t after :=
      System.along_of_forall (fun _ _ _ _ => trivial) t
    have responded := pinocchio_responded (reached.run along rest)
    obtain ⟨more, replied⟩ : t.db.replied <+: u.db.replied :=
      System.run_invariant (P := fun u => t.db.replied <+: u.db.replied) List.prefix_rfl rest
        fun s e v kept step => kept.trans (handled_of_step step).replied
    obtain ⟨request, answer, same, given⟩ := responded k ended
    rw [← replied, getElem?_grow here more] at same
    cases same
    rw [← messageBody_texts]
    exact given _ (finished_messages key items)

/-- The read of `twoSends` is executed after both pushes. -/
theorem pinocchio_sendVisible_first :
    let s := (pinocchio.run pinocchio.initial (twoSends.take 5)).get (by decide +kernel)
    let t := (pinocchio.step s (.db .execSync)).get (by decide +kernel)
    let token : Text := ⟨ascii "token", by decide⟩
    let first : Message := ⟨0, ⟨ascii "1", by decide⟩⟩
    100 ≤ (s.db.history token).idxOf first ∨
      ∃ k items, k ≤ s.db.replied.length ∧
        t.db.replied[k]? = some (.getMsg token, .messages items) ∧ first ∈ items ∧
        ∀ after u, pinocchio.run t after = some u → k ∈ u.db.returned.map Prod.fst →
          (.recv token, { body := listing items.reverse }) ∈ u.responses := by
  intro s t token first
  have front : s.db.asked = [.getMsg token] := by decide +kernel
  exact pinocchio_sendVisible (Option.some_get _).symm (by decide +kernel) (by decide +kernel) front
    (Option.some_get _).symm

def readBeforePush : List PinocchioEvent :=
  let token := sampleToken
  [.request (.send (some ⟨some token, some sampleText⟩)), .request (.recv token),
    .db .execSync, .db (.ret 0)]

theorem pinocchio_readBeforePush :
    ¬∀ s, pinocchio.Reaches (fun _ _ => True) s → SendVisible s := by
  intro always
  let token : Text := ⟨ascii "token", by decide⟩
  let s : PinocchioRun :=
    (pinocchio.run pinocchio.initial readBeforePush).get (by decide +kernel)
  have visible := always s (System.reaches_of_run (Option.some_get _).symm)
  have answers : s.db.replied = [(.getMsg token, .messages [])] := by decide +kernel
  rcases visible 0 1 token ⟨0, ⟨ascii "1", by decide⟩⟩ (.messages []) (by decide)
    (by decide +kernel) (by decide +kernel) (by decide +kernel) with many | ⟨k, items, _, here, inside⟩
  · exact absurd many (by decide +kernel)
  · have given := List.mem_of_getElem? here
    rw [answers] at given
    cases List.mem_singleton.mp given
    cases inside

end Pinocchio.Http
