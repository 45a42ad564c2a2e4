import Pinocchio.Semantics.Stream
import Pinocchio.Redis.Parser

/-! The reply grammar as a machine that reads one byte at a time.

The machine says what the incremental parser is for. It knows nothing of chunks:
its state is the reply being read and the arrays around it, innermost first. Counts
are those of the elements or bytes after the next one, so no state awaits nothing.
-/

set_option autoImplicit false

namespace Pinocchio.Redis
open Semantics

inductive TextKind where
  | simple
  | error

inductive NumberKind where
  | integer
  | bulk
  | array

inductive Lexer where
  | start
  | text (kind : TextKind) (buf : Bytes)
  | textEnd (kind : TextKind) (buf : Bytes)
  | number (kind : NumberKind) (buf : Bytes)
  | numberEnd (kind : NumberKind) (buf : Bytes)
  | payload (later : Nat) (buf : Bytes)
  | payloadCR (buf : Bytes)
  | payloadLF (buf : Bytes)

/-- An open array: the items read, and how many follow the one being read. -/
structure Frame where
  later : Nat
  items : List RedisValue

structure Reader where
  lexer : Lexer
  frames : List Frame

namespace Reader

/-- A complete value goes to the innermost open array, which it may complete in turn. -/
def close : List Frame → RedisValue → Progress Reader RedisValue
  | [], v => .done v
  | ⟨0, items⟩ :: frames, v => close frames (.array (items ++ [v]))
  | ⟨later + 1, items⟩ :: frames, v => .more ⟨.start, ⟨later, items ++ [v]⟩ :: frames⟩

/-- The effect of a complete numeral with the value `n`. -/
def announce (kind : NumberKind) (n : Int) (frames : List Frame) : Progress Reader RedisValue :=
  match kind with
  | .integer => close frames (.ofLong n)
  | .bulk =>
    if n = -1 then close frames .null
    else if n = 0 then .more ⟨.payloadCR [], frames⟩
    else if n < 0 then .reject
    else .more ⟨.payload (n.toNat - 1) [], frames⟩
  | .array =>
    if n = -1 ∨ n = 0 then close frames (.array [])
    else if n < 0 then .reject
    else .more ⟨.start, ⟨n.toNat - 1, []⟩ :: frames⟩

def isText (c : UInt8) : Bool := 32 ≤ c && c ≤ 126

def feed (r : Reader) (c : UInt8) : Progress Reader RedisValue :=
  let go (lexer : Lexer) : Progress Reader RedisValue := .more ⟨lexer, r.frames⟩
  match r.lexer with
  | .start =>
    if c = stringReply then go (.text .simple [])
    else if c = errorReply then go (.text .error [])
    else if c = integerReply then go (.number .integer [])
    else if c = bulkReply then go (.number .bulk [])
    else if c = arrayReply then go (.number .array [])
    else .reject
  | .text kind buf =>
    if c = cr then go (.textEnd kind buf)
    else if isText c then go (.text kind (buf ++ [c]))
    else .reject
  | .textEnd kind buf =>
    if c = lf then close r.frames (.bytes buf (match kind with | .simple => false | .error => true))
    else .reject
  | .number kind buf =>
    if c = cr then if buf = [] then .reject else go (.numberEnd kind buf)
    else if isDigit c || c = minus then go (.number kind (buf ++ [c]))
    else .reject
  | .numberEnd kind buf => if c = lf then announce kind (strtol buf) r.frames else .reject
  | .payload 0 buf => go (.payloadCR (buf ++ [c]))
  | .payload (later + 1) buf => go (.payload later (buf ++ [c]))
  | .payloadCR buf => if c = cr then go (.payloadLF buf) else .reject
  | .payloadLF buf => if c = lf then close r.frames (.bytes buf false) else .reject

end Reader

open Reader

def resp : Machine Reader UInt8 RedisValue := ⟨⟨.start, []⟩, Reader.feed⟩

/-- The room that is asked for where a length or a count is complete. -/
def Permits (reserve : Reserve) (r : Reader) (c : UInt8) : Prop :=
  match r.lexer with
  | .numberEnd .bulk buf => c = lf → 0 < strtol buf → reserve.bytes (strtol buf) = true
  | .numberEnd .array buf => c = lf → 0 < strtol buf → reserve.values (strtol buf) = true
  | _ => True

/-- All the room that is asked for up to the end of a reply is there. -/
def Granted (reserve : Reserve) : Reader → Bytes → Prop := resp.Throughout (Permits reserve)

theorem permits_all (r : Reader) (c : UInt8) : Permits {} r c := by
  unfold Permits
  split <;> simp

theorem granted_all (r : Reader) (xs : Bytes) : Granted {} r xs :=
  resp.throughout_of_forall permits_all r xs

/-! Reading does not look at the arrays around: they only receive what completes. -/

/-- The same effect with more arrays around. -/
def inside (outer : List Frame) : Progress Reader RedisValue → Progress Reader RedisValue
  | .more r => .more ⟨r.lexer, r.frames ++ outer⟩
  | .done v => close outer v
  | .reject => .reject

theorem close_append (inner outer : List Frame) (v : RedisValue) :
    close (inner ++ outer) v = inside outer (close inner v) := by
  induction inner generalizing v with
  | nil => rfl
  | cons frame inner ih =>
    obtain ⟨later, items⟩ := frame
    cases later with
    | zero => exact ih _
    | succ later => rfl

theorem announce_append (kind : NumberKind) (n : Int) (inner outer : List Frame) :
    announce kind n (inner ++ outer) = inside outer (announce kind n inner) := by
  cases kind with
  | integer => exact close_append inner outer _
  | bulk =>
    simp only [announce, close_append]
    split
    · rfl
    · split
      · rfl
      · split <;> rfl
  | array =>
    simp only [announce, close_append]
    split
    · rfl
    · split <;> rfl

theorem feed_append (lexer : Lexer) (inner outer : List Frame) (c : UInt8) :
    feed ⟨lexer, inner ++ outer⟩ c = inside outer (feed ⟨lexer, inner⟩ c) := by
  cases lexer with
  | start => simp only [feed]; repeat' split
             all_goals rfl
  | text kind buf => simp only [feed]; repeat' split
                     all_goals rfl
  | textEnd kind buf => simp only [feed, close_append]; split <;> rfl
  | number kind buf => simp only [feed]; repeat' split
                       all_goals rfl
  | numberEnd kind buf => simp only [feed, announce_append]; split <;> rfl
  | payload later buf => cases later <;> rfl
  | payloadCR buf => simp only [feed]; split <;> rfl
  | payloadLF buf => simp only [feed, close_append]; split <;> rfl

theorem scan_append_frames (lexer : Lexer) (inner outer : List Frame) (xs : Bytes) :
    resp.scan ⟨lexer, inner ++ outer⟩ xs =
      match resp.scan ⟨lexer, inner⟩ xs with
      | .pending r => .pending ⟨r.lexer, r.frames ++ outer⟩
      | .done v used => resp.resume (close outer v) used (xs.drop used)
      | .rejected used => .rejected used := by
  induction xs generalizing lexer inner with
  | nil => rfl
  | cons c rest ih =>
    have head : resp.feed ⟨lexer, inner ++ outer⟩ c = inside outer (resp.feed ⟨lexer, inner⟩ c) :=
      feed_append lexer inner outer c
    simp only [Machine.scan_cons, head]
    cases resp.feed ⟨lexer, inner⟩ c with
    | more r =>
      simp only [inside, Machine.resume_more, ih]
      cases resp.scan ⟨r.lexer, r.frames⟩ rest with
      | pending t => rfl
      | done v used => simp only [Outcome.shift_done, Machine.resume_shift, List.drop_succ_cons]
      | rejected used => rfl
    | done v => rfl
    | reject => rfl

theorem granted_append_frames (reserve : Reserve) (lexer : Lexer) (inner outer : List Frame)
    (xs : Bytes) :
    Granted reserve ⟨lexer, inner ++ outer⟩ xs ↔ Granted reserve ⟨lexer, inner⟩ xs ∧
      ∀ v used, resp.scan ⟨lexer, inner⟩ xs = .done v used →
        resp.Onward (Permits reserve) (close outer v) (xs.drop used) := by
  unfold Granted
  induction xs generalizing lexer inner with
  | nil => simp [Machine.Throughout]
  | cons c rest ih =>
    have head : resp.feed ⟨lexer, inner ++ outer⟩ c = inside outer (resp.feed ⟨lexer, inner⟩ c) :=
      feed_append lexer inner outer c
    have asks : Permits reserve ⟨lexer, inner ++ outer⟩ c ↔ Permits reserve ⟨lexer, inner⟩ c := Iff.rfl
    rw [Machine.throughout_cons, Machine.throughout_cons, asks, head, and_assoc, Machine.scan_cons]
    refine and_congr_right fun _ => ?_
    cases resp.feed ⟨lexer, inner⟩ c with
    | more r =>
      simp only [inside, Machine.onward_more, ih, Machine.resume_more]
      refine and_congr_right fun _ => ?_
      cases resp.scan ⟨r.lexer, r.frames⟩ rest <;> simp
    | done v => simp [inside, Machine.Onward]
    | reject => simp [inside, Machine.Onward]

theorem scan_payload (later : Nat) (buf : Bytes) (frames : List Frame) (xs : Bytes) :
    resp.scan ⟨.payload later buf, frames⟩ xs =
      if later < xs.length then
        (resp.scan ⟨.payloadCR (buf ++ xs.take (later + 1)), frames⟩ (xs.drop (later + 1))).shift
          (later + 1)
      else .pending ⟨.payload (later - xs.length) (buf ++ xs), frames⟩ := by
  induction xs generalizing later buf with
  | nil => simp
  | cons c rest ih =>
    cases later with
    | zero => simp [Machine.scan_cons, resp, feed, Machine.resume]
    | succ later =>
      simp only [Machine.scan_cons, Machine.resume, resp, feed] at ih ⊢
      simp only [ih, List.length_cons, Nat.add_lt_add_iff_right, List.take_succ_cons,
        List.drop_succ_cons, List.append_assoc, List.singleton_append]
      split
      · simp
      · simp

theorem granted_payload (reserve : Reserve) (later : Nat) (buf : Bytes) (frames : List Frame)
    (xs : Bytes) :
    Granted reserve ⟨.payload later buf, frames⟩ xs ↔ (later < xs.length →
      Granted reserve ⟨.payloadCR (buf ++ xs.take (later + 1)), frames⟩ (xs.drop (later + 1))) := by
  unfold Granted
  induction xs generalizing later buf with
  | nil => simp [Machine.Throughout]
  | cons c rest ih =>
    have asks : Permits reserve ⟨.payload later buf, frames⟩ c := trivial
    rw [Machine.throughout_cons, and_iff_right asks]
    cases later with
    | zero => simp [resp, feed, Machine.Onward]
    | succ later =>
      have step : resp.feed ⟨.payload (later + 1) buf, frames⟩ c =
          .more ⟨.payload later (buf ++ [c]), frames⟩ := rfl
      rw [step, Machine.onward_more, ih]
      simp

end Pinocchio.Redis
