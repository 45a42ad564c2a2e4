import Pinocchio.Database.Manager
import Pinocchio.Redis.SyncReturns

/-! What the manager takes for success.

A method looks at `isOk` of the value that `command` returned. The value after a failure is a null,
which is no error, so the method goes on as if Redis had answered.
-/

set_option autoImplicit false

namespace Pinocchio.Database
open Semantics Redis

/-- A call of the client, by a method of the manager or by other code. -/
inductive SyncUse where
  | command (items : Items)
  | request (request : Request)

namespace SyncUse

def items : SyncUse → Items
  | .command items => items
  | .request asked => asked.command.items

def posts : SyncUse → RedisValue → List (Command × Handler)
  | .command _, _ => []
  | .request asked, v => asked.posts v

/-- `AddMember` or `GetMsg` returns true when it got this value. -/
def Succeeds : SyncUse → RedisValue → Prop
  | .request (.addMember _), v => addMember v = true
  | .request (.getMsg _), v => ∃ arr, getMsg v = some arr
  | .request (.isMember _), _ | .command _, _ => False

end SyncUse

structure SyncAttempt where
  use : SyncUse
  exchange : Exchange

/-- The synchronous client of a manager, the commands that the methods posted to the other one, and
the values that were returned. -/
structure SyncHistory where
  client : SyncClient
  fault : Option Fault := none
  posted : List (Command × Handler) := []
  returned : List RedisValue := []

namespace SyncHistory

/-- Go on after a call, unless one of its assertions failed. -/
def after (s : SyncHistory) (use : SyncUse) : Except Fault (RedisValue × SyncClient) → SyncHistory
  | .ok (v, client) =>
    { s with client, posted := s.posted ++ use.posts v, returned := s.returned ++ [v] }
  | .error fault => { s with fault := some fault }

def step (assertions : Bool) (s : SyncHistory) (e : SyncAttempt) : Option SyncHistory :=
  if s.fault ≠ none then none
  else (s.client.command assertions e.use.items e.exchange).map (s.after e.use)

end SyncHistory

/-- The reply to `LRANGE` on a list: its elements. -/
def IsContent : Wire → Prop
  | .array num items => exactNumeral num ≠ some (-1) ∧
      ∀ w ∈ items, ∃ size payload, w = .bulk size (some payload)
  | _ => False

/-- A failure is not taken for success, and only the content of a list leads to the trim. -/
structure Honest (s : SyncHistory) (e : SyncAttempt) (t : SyncHistory) : Prop where
  failure : ∀ v, t.returned = s.returned ++ [v] → t.client.reports ≠ s.client.reports →
    v.isOk = false
  success : ∀ v, t.returned = s.returned ++ [v] → e.use.Succeeds v →
    ∃ reply sizes, e.exchange = .answered reply sizes ∧ reply.wire.value.isOk = true
  cleared : t.posted ≠ s.posted →
    ∃ reply sizes, e.exchange = .answered reply sizes ∧ IsContent reply.wire

/-- The call does not fail, and `LRANGE` is answered by an error or by the content of a list. -/
def Answered (assertions : Bool) (_ : SyncHistory) (e : SyncAttempt) (_ : SyncHistory) : Prop :=
  match e.exchange with
  | .unsent => assertions = true
  | .writeFailed _ _ => False
  | .answered reply _ => reply.wire.Printable ∧
      ∀ userToken, e.use = .request (.getMsg userToken) → reply.wire.value.isOk = true →
        IsContent reply.wire

def syncCalls (assertions : Bool) (state : ClientState) : System SyncHistory SyncAttempt :=
  ⟨{ client := { state } }, SyncHistory.step assertions⟩

theorem SyncUse.ok_of_succeeds {use : SyncUse} {v : RedisValue} (succeeds : use.Succeeds v) :
    v.isOk = true := by
  cases use with
  | command => exact succeeds.elim
  | request request =>
    cases request with
    | isMember => exact succeeds.elim
    | addMember => exact succeeds
    | getMsg userToken =>
      obtain ⟨arr, taken⟩ := succeeds
      exact (Option.ite_none_right_eq_some.mp taken).1

theorem SyncUse.posts_iff {use : SyncUse} {v : RedisValue} :
    use.posts v ≠ [] ↔ v.isOk = true ∧ ∃ userToken, use = .request (.getMsg userToken) := by
  cases use with
  | command => simp [SyncUse.posts]
  | request request => cases request <;> simp [SyncUse.posts, Request.posts]

section Steps
variable {assertions : Bool} {s t : SyncHistory} {e : SyncAttempt}

theorem called_of_step (held : s.client.Clear) (step : s.step assertions e = some t) :
    ∃ result, SyncClient.Called assertions s.client e.exchange result ∧ t = s.after e.use result := by
  obtain ⟨_, step⟩ := Option.ite_none_left_eq_some.mp step
  obtain ⟨result, call, same⟩ := Option.map_eq_some_iff.mp step
  exact ⟨result, SyncClient.command_called held call, same.symm⟩

theorem not_honest {client : SyncClient} (reports : client.reports ≠ s.client.reports) :
    ¬Honest s e (s.after e.use (.ok (.null, client))) := fun honest =>
  absurd (honest.failure .null rfl reports) (by decide)

theorem honest_iff (held : s.client.Clear) (step : s.step assertions e = some t) :
    Honest s e t ↔ Answered assertions s e t := by
  obtain ⟨use, exchange⟩ := e
  obtain ⟨result, called, rfl⟩ := called_of_step held step
  unfold Answered
  cases called with
  | aborted on =>
    -- Nothing is returned.
    have none (v : RedisValue) : s.returned ≠ s.returned ++ [v] := by simp
    exact iff_of_true ⟨fun v is => absurd is (none v), fun v is => absurd is (none v),
      fun grown => absurd rfl grown⟩ on
  | invalid off reports => exact iff_of_false (not_honest reports) (by simp [off])
  | unwritten n message reports => exact iff_of_false (not_honest reports) id
  | rejected sizes unprintable reports =>
    exact iff_of_false (not_honest reports) fun answered => unprintable answered.1
  | @returned d reply sizes printable reports clear =>
    have grown : s.posted ++ use.posts reply.wire.value ≠ s.posted ↔
        use.posts reply.wire.value ≠ [] := by simp
    constructor
    · intro honest
      refine ⟨printable, fun userToken is ok => ?_⟩
      have posts := grown.mpr (SyncUse.posts_iff.mpr ⟨ok, userToken, is⟩)
      obtain ⟨other, _, same, content⟩ := honest.cleared posts
      cases same
      exact content
    · rintro ⟨_, content⟩
      refine ⟨fun v _ differ => absurd reports differ, fun v is succeeds => ?_, fun posts => ?_⟩
      · obtain rfl : reply.wire.value = v := by simpa [SyncHistory.after] using is
        exact ⟨reply, sizes, rfl, SyncUse.ok_of_succeeds succeeds⟩
      · obtain ⟨ok, userToken, is⟩ := SyncUse.posts_iff.mp (grown.mp posts)
        exact ⟨reply, sizes, rfl, content userToken is ok⟩

theorem clear_step (held : s.client.Clear) (step : s.step assertions e = some t)
    (answered : Answered assertions s e t) : t.client.Clear := by
  obtain ⟨use, exchange⟩ := e
  obtain ⟨result, called, rfl⟩ := called_of_step held step
  cases called with
  | aborted => exact held
  | invalid off => exact absurd answered (by simp [Answered, off])
  | unwritten => exact answered.elim
  | rejected sizes unprintable => exact absurd answered.1 unprintable
  | returned sizes printable reports clear => exact clear

end Steps

/-- Along a run no failure is taken for success, and only the content of a list leads to the trim
that clears it, exactly when no call fails and `LRANGE` is answered as it should be. -/
theorem syncCalls_honest (assertions : Bool) (state : ClientState) (attempts : List SyncAttempt) :
    (syncCalls assertions state).Along Honest (syncCalls assertions state).initial attempts ↔
      (syncCalls assertions state).Along (Answered assertions) (syncCalls assertions state).initial
        attempts := by
  refine System.along_iff (fun s => s.client.Clear) ?_ ?_ ?_ attempts
  · exact fun s e t held step => honest_iff held step
  · exact fun s e t held step honest => clear_step held step ((honest_iff held step).mp honest)
  · exact ⟨rfl, represents_initial⟩

def lostRead : SyncAttempt :=
  ⟨.request (.getMsg shortToken), .writeFailed 0 (ascii "Broken pipe")⟩

def lostReadEnd : SyncHistory :=
  ((syncCalls true .connected).step (syncCalls true .connected).initial lostRead).get
    (by decide +kernel)

/-- `GetMsg` returns true with no messages, and posts the trim. -/
theorem syncCalls_lostRead :
    ¬∀ attempts, (syncCalls true .connected).Along Honest (syncCalls true .connected).initial
      attempts := by
  intro always
  have step : (syncCalls true .connected).step (syncCalls true .connected).initial lostRead =
      some lostReadEnd := (Option.some_get _).symm
  have honest := ((System.along_cons step).mp (always [lostRead])).1
  have posted : lostReadEnd.posted ≠ [] := by decide +kernel
  obtain ⟨reply, sizes, same, _⟩ := honest.cleared posted
  cases same

end Pinocchio.Database
