import Mathlib.Logic.Function.Basic
import Pinocchio.Redis.Command

/-! The key space of the server, as far as the program uses it.

A key holds a list or a set, and a command on a key of the other type is answered
by an error. An element of a list carries the number of the send that it comes
from; no command looks at it.
-/

set_option autoImplicit false

namespace Pinocchio.Database
open Semantics Redis

structure Message where
  number : Nat
  text : Text
  deriving DecidableEq

inductive Object where
  | list (items : List Message)
  | set (members : List Text)
  deriving DecidableEq

abbrev Keyspace := Text → Option Object

/-- The commands of the program, with the words that it passes for indices. -/
inductive Command where
  | lpush (key : Text) (message : Message)
  | ltrim (key start stop : Text)
  | lrange (key start stop : Text)
  | sadd (key member : Text)
  | sismember (key member : Text)
  deriving DecidableEq

def Command.items : Command → Items
  | .lpush key message =>
    ⟨[⟨ascii "LPUSH", by decide⟩, key, message.text], three_le_longMax⟩
  | .ltrim key start stop =>
    ⟨[⟨ascii "LTRIM", by decide⟩, key, start, stop], (by decide : (4 : Int) ≤ longMax)⟩
  | .lrange key start stop =>
    ⟨[⟨ascii "LRANGE", by decide⟩, key, start, stop], (by decide : (4 : Int) ≤ longMax)⟩
  | .sadd key member =>
    ⟨[⟨ascii "SADD", by decide⟩, key, member], three_le_longMax⟩
  | .sismember key member =>
    ⟨[⟨ascii "SISMEMBER", by decide⟩, key, member], three_le_longMax⟩

inductive Answer where
  | integer (n : Nat)
  | ok
  | messages (items : List Message)
  | wrongType
  deriving DecidableEq

def Answer.reply : Answer → Reply
  | .integer n => .integer n
  | .ok => .simple (ascii "OK")
  | .messages items => .array (items.map fun message => .bulk message.text.val)
  | .wrongType => .error (ascii "WRONGTYPE Operation against a key holding the wrong kind of value")

def Answer.value (answer : Answer) : RedisValue := answer.reply.value

/-- The elements from `start` to `stop`, where a negative index counts from the end. -/
def range {α : Type} (start stop : Int) (items : List α) : List α :=
  let size : Int := items.length
  -- Both ends belong to the range, and are cut to the list.
  let start := if start < 0 then start + size else start
  let stop := if stop < 0 then stop + size else stop
  let start := max start 0
  if start > stop ∨ start ≥ size then []
  else (items.drop start.toNat).take (min stop (size - 1) - start + 1).toNat

def enroll (member : Text) (members : List Text) : List Text :=
  if member ∈ members then members else members ++ [member]

namespace Keyspace
variable (redis : Keyspace)

def list (key : Text) : Option (List Message) :=
  match redis key with
  | none => some []
  | some (.list items) => some items
  | some (.set _) => none

def set (key : Text) : Option (List Text) :=
  match redis key with
  | none => some []
  | some (.set members) => some members
  | some (.list _) => none

/-- A list that became empty is removed with its key. -/
def putList (key : Text) (items : List Message) : Keyspace :=
  Function.update redis key (if items = [] then none else some (.list items))

def putSet (key : Text) (members : List Text) : Keyspace :=
  Function.update redis key (some (.set members))

def messages (key : Text) : List Message := (redis.list key).getD []

def exec : Command → Answer × Keyspace
  | .lpush key message =>
    match redis.list key with
    | none => (.wrongType, redis)
    | some items => (.integer (items.length + 1), redis.putList key (message :: items))
  | .ltrim key start stop =>
    match redis.list key with
    | none => (.wrongType, redis)
    | some items => (.ok, redis.putList key (range (strtol start.val) (strtol stop.val) items))
  | .lrange key start stop =>
    match redis.list key with
    | none => (.wrongType, redis)
    | some items => (.messages (range (strtol start.val) (strtol stop.val) items), redis)
  | .sadd key member =>
    match redis.set key with
    | none => (.wrongType, redis)
    | some members =>
      if member ∈ members then (.integer 0, redis)
      else (.integer 1, redis.putSet key (members ++ [member]))
  | .sismember key member =>
    match redis.set key with
    | none => (.wrongType, redis)
    | some members => (.integer (if member ∈ members then 1 else 0), redis)

end Keyspace

/-! What the accessors see after a change. -/

namespace Keyspace
variable (redis : Keyspace) (key other : Text)

@[simp] theorem list_putList (items : List Message) :
    (redis.putList key items).list other =
      if other = key then some items else redis.list other := by
  by_cases same : other = key
  · subst same
    cases items <;> simp [list, putList]
  · simp [list, putList, same]

@[simp] theorem list_putSet (members : List Text) :
    (redis.putSet key members).list other = if other = key then none else redis.list other := by
  by_cases same : other = key
  · simp [list, putSet, same]
  · simp [list, putSet, same]

@[simp] theorem set_putSet (members : List Text) :
    (redis.putSet key members).set other =
      if other = key then some members else redis.set other := by
  by_cases same : other = key
  · simp [set, putSet, same]
  · simp [set, putSet, same]

theorem set_putList_self (items : List Message) :
    (redis.putList key items).set key = if items = [] then some [] else none := by
  cases items <;> simp [set, putList]

theorem set_putList_other {key other : Text} (different : other ≠ key) (items : List Message) :
    (redis.putList key items).set other = redis.set other := by
  simp [set, putList, different]

theorem list_congr {redis other : Keyspace} {key : Text} (same : redis key = other key) :
    redis.list key = other.list key := by
  rw [list, list, same]

theorem messages_of_list {redis : Keyspace} {key : Text} {items : List Message}
    (held : redis.list key = some items) : redis.messages key = items := by
  rw [messages, held, Option.getD_some]

theorem messages_of_set {redis : Keyspace} {key : Text} {members : List Text}
    (held : redis.set key = some members) : redis.messages key = [] := by
  cases stored : redis key with
  | none => rw [messages, list, stored, Option.getD_some]
  | some object =>
    cases object with
    | list items => simp [set, stored] at held
    | set members => simp [messages, list, stored]

theorem absent_of_both {redis : Keyspace} {key : Text} {items : List Message}
    {members : List Text} (asList : redis.list key = some items)
    (asSet : redis.set key = some members) : redis key = none ∧ items = [] := by
  cases stored : redis key with
  | none =>
    simp only [list, stored] at asList
    exact ⟨rfl, (Option.some.inj asList).symm⟩
  | some object =>
    cases object with
    | list items => simp [set, stored] at asSet
    | set members => simp [list, stored] at asList

theorem messages_putList (items : List Message) :
    (redis.putList key items).messages other =
      if other = key then items else redis.messages other := by
  rw [messages, list_putList]
  split <;> rfl

theorem messages_putSet {redis : Keyspace} {key : Text} {old : List Text}
    (held : redis.set key = some old) (members : List Text) (other : Text) :
    (redis.putSet key members).messages other = redis.messages other := by
  by_cases same : other = key
  · rw [same, messages_of_set held]
    exact messages_of_set (by rw [set_putSet, if_pos rfl])
  · rw [messages, list_putSet, if_neg same, messages]

end Keyspace

section Range
variable {α : Type} (items : List α)

theorem range_drop (n : Nat) : range n (-1) items = items.drop n := by
  have start : ¬(n : Int) < 0 := by omega
  have stop : (-1 : Int) < 0 := by decide
  simp only [range, if_neg start, if_pos stop]
  split
  · rename_i outside
    rw [List.drop_eq_nil_of_le (by omega)]
  · rename_i inside
    rw [List.take_of_length_le]
    · congr 1
      omega
    · rw [List.length_drop]
      omega

theorem range_take (n : Nat) : range 0 n items = items.take (n + 1) := by
  have stop : ¬(n : Int) < 0 := by omega
  simp only [range, Int.lt_irrefl, if_false, if_neg stop]
  split
  · rename_i outside
    have none : items = [] := List.length_eq_zero_iff.mp (by omega)
    rw [none, List.take_nil]
  · rename_i inside
    rcases Nat.lt_or_ge n items.length with short | long
    · congr 1
      omega
    · rw [List.take_of_length_le, List.take_of_length_le (by omega)]
      · rfl
      · rw [List.length_drop]
        omega

end Range

end Pinocchio.Database
