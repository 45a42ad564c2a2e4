import Pinocchio.Database.Manager

/-! The keys of the commands that are issued for a token.

The cap passes the token on as a C string, and is the only command that does. Where the
token has a NUL, it names the key in front of the NUL.
-/

set_option autoImplicit false

namespace Pinocchio.Database
open Semantics Redis

/-- The bytes are one command, and the token is its key. -/
def Names (bytes : Bytes) (token : Text) : Prop :=
  ∃ word args, resp.scan resp.start bytes =
    .done (.array (word :: .bytes token.val false :: args)) bytes.length

theorem names_makeCommand (items : Items) (token : Text) :
    Names (makeCommand items) token ↔ items.val[1]? = some token := by
  have read := (makeCommand_yields items).exact
  constructor
  · rintro ⟨word, args, named⟩
    rw [read, Items.value] at named
    injection named with same
    injection same with words
    match items.val, words with
    | [], words => cases words
    | [_], words => simp at words
    | first :: key :: rest, words =>
      have equal := (List.cons.inj (List.cons.inj words).2).1
      rw [List.getElem?_cons_succ, List.getElem?_cons_zero]
      exact congrArg some (Subtype.ext (RedisValue.bytes.inj equal).1)
  · intro key
    unfold Names
    rw [read, Items.value]
    match items.val, key with
    | first :: second :: rest, key =>
      rw [List.getElem?_cons_succ, List.getElem?_cons_zero] at key
      cases key
      exact ⟨_, _, rfl⟩

namespace DatabaseRun
variable {s t : DatabaseRun} {e : DatabaseEvent}

/-- The token of the call on behalf of which an event issues commands. -/
def onBehalf (s : DatabaseRun) : DatabaseEvent → Option Text
  | .addMsg userToken _ => some userToken
  | .call (.getMsg userToken) => some userToken
  | .handle =>
    match s.answered with
    | (.pushed userToken, _) :: _ => some userToken
    | _ => none
  | .ret call =>
    match s.replied[call]? with
    | some (.getMsg userToken, _) => some userToken
    | _ => none
  | _ => none

/-- The commands that a step adds to those waiting on the two connections. -/
def issued (s t : DatabaseRun) : List Command :=
  (t.posted.drop s.posted.length).map Prod.fst ++
    (t.asked.drop s.asked.length).map Request.command

/-- The commands issued on behalf of a call name the key of its token. -/
def KeysNamed (s : DatabaseRun) (e : DatabaseEvent) (t : DatabaseRun) : Prop :=
  ∀ token ∈ s.onBehalf e, ∀ command ∈ s.issued t, Names (makeCommand command.items) token

/-- When the handler of a push is to cap the list, the token it captured has no NUL. -/
def CapsNulFree (s : DatabaseRun) (e : DatabaseEvent) (_ : DatabaseRun) : Prop :=
  e = .handle → ∀ token answer answered, s.answered = (.pushed token, answer) :: answered →
    answer.value.isOk = true → answer.value.toInt > 99 → (0 : UInt8) ∉ token.val

theorem issued_post {more : List (Command × Handler)} (posted : t.posted = s.posted ++ more)
    (asked : t.asked = s.asked) : s.issued t = more.map Prod.fst := by
  simp only [issued, posted, asked, List.drop_left, List.drop_length, List.map_nil,
    List.append_nil]

theorem names_capTrim (key token : Text) :
    Names (makeCommand (capTrim key).items) token ↔ key = token := by
  rw [names_makeCommand]
  simp [capTrim, Command.items]

theorem untilNul_eq_iff (token : Text) : token.untilNul = token ↔ (0 : UInt8) ∉ token.val :=
  Subtype.ext_iff.trans takeWhile_ne_eq_self

theorem keysNamed_handle {token : Text} {answer : Answer} {answered : List (Handler × Answer)}
    (front : s.answered = (.pushed token, answer) :: answered) :
    KeysNamed s .handle (DatabaseRun.handle { s with answered } (.pushed token) answer) ↔
      (answer.value.isOk = true → answer.value.toInt > 99 → (0 : UInt8) ∉ token.val) := by
  have behalf : s.onBehalf .handle = some token := by simp only [onBehalf, front]
  have commands := issued_post (s := s)
    (t := DatabaseRun.handle { s with answered } (.pushed token) answer) rfl rfl
  unfold KeysNamed
  rw [behalf, commands]
  simp only [Option.mem_some_iff, forall_eq']
  by_cases caps : answer.value.isOk = true ∧ answer.value.toInt > 99
  · simp only [Handler.run, caps.1, caps.2, if_true, List.map_cons, List.map_nil,
      List.mem_singleton, forall_eq, names_capTrim, forall_const]
    exact untilNul_eq_iff token
  · refine iff_of_true ?_ fun ok many => absurd ⟨ok, many⟩ caps
    have none : (Handler.pushed token).run answer.value = [] := by
      simp only [Handler.run]
      split
      · rename_i ok
        exact if_neg fun many => caps ⟨ok, many⟩
      · rfl
    simp [none]

theorem keysNamed_iff (taken : Taken s e t) : KeysNamed s e t ↔ CapsNulFree s e t := by
  have other (named : KeysNamed s e t) (quiet : e ≠ .handle) :
      KeysNamed s e t ↔ CapsNulFree s e t := iff_of_true named fun same => absurd same quiet
  cases taken with
  | addMsg userToken msg =>
    refine other ?_ (by simp)
    intro token own command member
    cases own
    rw [issued_post (s := s) (t := s.addMsg userToken msg) rfl rfl] at member
    cases List.mem_singleton.mp member
    exact (names_makeCommand _ _).mpr rfl
  | call request =>
    refine other ?_ (by simp)
    intro token own command member
    have commands : s.issued (s.call request) = [request.command] := by
      simp [issued, DatabaseRun.call]
    rw [commands] at member
    cases List.mem_singleton.mp member
    cases request with
    | isMember userToken => cases own
    | addMember userToken => cases own
    | getMsg userToken =>
      cases own
      exact (names_makeCommand _ _).mpr rfl
  | execAsync front =>
    refine other ?_ (by simp)
    intro token own
    cases own
  | execSync front =>
    refine other ?_ (by simp)
    intro token own
    cases own
  | @handle handler answer answered front =>
    cases handler with
    | trimmed =>
      refine iff_of_true (fun token own => ?_) fun _ token answer rest same => ?_
      · simp [onBehalf, front] at own
      · rw [front] at same
        cases same
    | pushed userToken =>
      rw [keysNamed_handle front]
      constructor
      · intro free _ token given rest same
        rw [front] at same
        cases same
        exact free
      · intro free
        exact free rfl userToken answer answered front
  | @ret number request answer here new =>
    refine other ?_ (by simp)
    intro token own command member
    rw [issued_post (s := s) (t := s.ret number request answer) rfl rfl] at member
    obtain ⟨entry, posted, rfl⟩ := List.mem_map.mp member
    obtain ⟨key, rfl, rfl⟩ := request.posts_posted _ entry posted
    have same : key = token := by simpa [onBehalf, here] using own
    exact (names_makeCommand _ _).mpr (congrArg some same)

end DatabaseRun

open DatabaseRun

/-- Along a run all commands issued for a token name its key exactly when, whenever a push is
answered by more than 99, its token has no NUL. -/
theorem databaseManager_keysNamed (events : List DatabaseEvent) :
    databaseManager.Along KeysNamed databaseManager.initial events ↔
      databaseManager.Along CapsNulFree databaseManager.initial events := by
  refine System.along_iff (fun _ => True) ?_ (fun _ _ _ _ _ _ => trivial) trivial events
  intro s e t _ step
  exact keysNamed_iff (taken_of_step step)

def nulToken : Text := ⟨[97, 0, 98], by decide⟩

def hundredSends : List DatabaseEvent :=
  List.replicate 100 (.addMsg nulToken ⟨ascii "m", by decide⟩) ++ List.replicate 100 .execAsync ++
    List.replicate 99 .handle

theorem databaseManager_otherKey :
    ¬∀ events, databaseManager.Along KeysNamed databaseManager.initial events := by
  intro always
  obtain ⟨before, path, front⟩ : ∃ before,
      databaseManager.run databaseManager.initial hundredSends = some before ∧
        before.answered = [(.pushed nulToken, .integer 100)] :=
    ⟨(databaseManager.run databaseManager.initial hundredSends).get (by decide +kernel),
      (Option.some_get _).symm, by decide +kernel⟩
  have step : databaseManager.step before .handle =
      some (DatabaseRun.handle { before with answered := [] } (.pushed nulToken) (.integer 100)) := by
    simp only [databaseManager, DatabaseRun.step, front]
  have named := System.along_at (always (hundredSends ++ [.handle])) path step
  exact absurd ((keysNamed_handle front).mp named rfl (by decide)) (by decide)

end Pinocchio.Database
