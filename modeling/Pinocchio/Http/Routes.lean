import Pinocchio.Database.Progress

/-! The routes of `TPinocchio` in front of the database manager.

A handler answers by itself, or it calls a method of the manager. `/gcm/send` does
not wait for the server; the other two routes answer when their method returns.
-/

set_option autoImplicit false

namespace Pinocchio.Http
open Semantics Redis Database

structure Response where
  code : Nat := 200
  body : Bytes := []
  deriving DecidableEq

/-- The string `x["to"].s()` and the dump of `x["data"]`, where an access that throws gives
nothing. -/
structure Posting where
  token : Option Text
  msg : Option Text
  deriving DecidableEq

def sampleText : Text := ⟨ascii "1", by decide⟩

def zerosToken : Text := ⟨List.replicate 40 48, by decide⟩

/-- A request. The key in the header of a post has been checked, and its body was read. -/
inductive HttpRequest where
  | regist (token : Text)
  | send (x : Option Posting)
  | recv (token : Text)
  deriving DecidableEq

def quote : UInt8 := 34

/-- A leading quotation mark is erased, and then the last character, if there is one. -/
def unquote (token : Text) : Option Text :=
  -- The front of an empty string is the NUL at its end.
  if token.val.head? = some quote then
    let rest := token.val.drop 1
    if rest = [] then none
    else some ⟨rest.dropLast, by
      have bound := token.property
      rw [List.length_dropLast, List.length_drop]
      omega⟩
  else some token

/-- The message list as it is sent to a client, oldest first. -/
def messageBody (arr : List RedisValue) : Bytes :=
  let arr := if arr.length > 1 then arr.reverse else arr
  ascii "[" ++ arr.flatMap (fun v => ascii "\x7bdata:" ++ v.toString ++ ascii "\x7d,") ++
    ascii "\x7bdata:\"\"\x7d]"

theorem turned {α : Type} (items : List α) :
    (if items.length > 1 then items.reverse else items) = items.reverse := by
  split
  · rfl
  · rename_i short
    match items, short with
    | [], _ => rfl
    | [item], _ => rfl
    | first :: second :: rest, short => simp at short

def posting : Option Posting → Except Response (Text × Text)
  | none => .error { code := 406 }
  | some x =>
    match x.token.bind unquote, x.msg with
    | some token, some msg => .ok (token, msg)
    -- An exception that leaves the handler.
    | _, _ => .error { code := 500 }

/-- The request whose handler has called a method, and its response when the method returns. -/
def finished : Request → RedisValue → Option (HttpRequest × Response)
  | .isMember _, _ => none
  | .addMember token, v => some (.regist token, if addMember v then {} else { code := 404 })
  | .getMsg token, v =>
    some (.recv token,
      match getMsg v with
      | some arr => { body := messageBody arr }
      | none => { code := 408 })

/-- The manager, and the responses given so far. -/
structure PinocchioRun where
  db : DatabaseRun := {}
  responses : List (HttpRequest × Response) := []

inductive PinocchioEvent where
  | request (request : HttpRequest)
  | db (e : DatabaseEvent)
  deriving DecidableEq

namespace PinocchioRun
variable (s : PinocchioRun)

def respond (request : HttpRequest) (response : Response) : PinocchioRun :=
  { s with responses := s.responses ++ [(request, response)] }

def handle : HttpRequest → PinocchioRun
  | .regist token =>
    if token.val.length < 40 ∨ token.val.length > 128 then s.respond (.regist token) { code := 400 }
    else { s with db := s.db.call (.addMember token) }
  | .send x =>
    match posting x with
    | .error response => s.respond (.send x) response
    -- `AddMsg` returns true without waiting.
    | .ok (token, msg) => respond { s with db := s.db.addMsg token msg } (.send x) {}
  | .recv token =>
    if token.val.length > 128 then s.respond (.recv token) { code := 400 }
    else { s with db := s.db.call (.getMsg token) }

def answers : DatabaseEvent → List (HttpRequest × Response)
  | .ret call =>
    match s.db.replied[call]? with
    | some (request, answer) => (finished request answer.value).toList
    | none => []
  | _ => []

def step : PinocchioEvent → Option PinocchioRun
  | .request request => some (s.handle request)
  | .db e =>
    -- Calls are made by the handlers only.
    if e.starts then none
    else (s.db.step e).map fun db => { db, responses := s.responses ++ s.answers e }

/-! What a step can be. -/

inductive Handled (s : PinocchioRun) : PinocchioEvent → PinocchioRun → Prop where
  | request (request : HttpRequest) : Handled s (.request request) (s.handle request)
  | db {e : DatabaseEvent} {db : DatabaseRun} (goes : e.starts = false)
    (taken : DatabaseRun.Taken s.db e db) :
    Handled s (.db e) { db, responses := s.responses ++ s.answers e }

theorem handled_of_step {s t : PinocchioRun} {e : PinocchioEvent} (step : s.step e = some t) :
    Handled s e t := by
  cases e with
  | request request =>
    cases step
    exact .request request
  | db e =>
    unfold PinocchioRun.step at step
    dsimp only at step
    split at step
    · cases step
    · rename_i goes
      obtain ⟨db, taken, rfl⟩ := Option.map_eq_some_iff.mp step
      exact .db (by simpa using goes) (DatabaseRun.taken_of_step taken)

end PinocchioRun

def pinocchio : System PinocchioRun PinocchioEvent := ⟨{}, PinocchioRun.step⟩

end Pinocchio.Http
