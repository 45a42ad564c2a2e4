import Pinocchio.Redis.Reading
import Pinocchio.Redis.Reply

/-! Integer replies as values.

The digits are converted to a `long`, and the value keeps an `int` of it. Neither the arrays around
an integer nor the chunks of the stream have a part in this.
-/

set_option autoImplicit false

namespace Pinocchio.Redis
open Semantics Reader

def Reply.at : Reply → List Nat → Option Reply
  | r, [] => some r
  | .array items, k :: path => items[k]?.bind (·.at path)
  | _, _ :: _ => none

def RedisValue.at : RedisValue → List Nat → Option RedisValue
  | v, [] => some v
  | .array items, k :: path => items[k]?.bind (·.at path)
  | _, _ :: _ => none

theorem Reply.value_at {r leaf : Reply} {path : List Nat} (found : r.at path = some leaf) :
    r.value.at path = some leaf.value := by
  induction path generalizing r with
  | nil =>
    simp only [Reply.at, Option.some.injEq] at found
    rw [RedisValue.at, found]
  | cons k path ih =>
    cases r with
    | array items =>
      simp only [Reply.at] at found
      obtain ⟨item, here, later⟩ := Option.bind_eq_some_iff.mp found
      rw [Reply.value, RedisValue.at, Reply.values_eq_map, List.getElem?_map, here]
      exact ih later
    | _ => simp [Reply.at] at found

theorem RedisValue.toInt_ofLong_iff (n : Int) :
    (RedisValue.ofLong n).toInt.toInt = n ↔ intMin ≤ n ∧ n ≤ intMax := by
  constructor
  · intro same
    have low := (RedisValue.ofLong n).toInt.minValue_le_toInt
    have high := (RedisValue.ofLong n).toInt.toInt_le
    rw [same] at low high
    exact ⟨low, high⟩
  · rintro ⟨low, high⟩
    exact Reply.toInt_value_integer low high

/-- The stream is read as one value, which has this integer at the place that the indices lead to. -/
def ReadsInteger (chunks : List Bytes) (path : List Nat) (n : Int) : Prop :=
  ∃ v leaf, readStream {} chunks = .ok ⟨[v], none⟩ ∧ v.at path = some leaf ∧
    leaf.isInt = true ∧ leaf.toInt.toInt = n

/-- An integer reply, anywhere in a reply that comes in any chunks, is read as itself exactly when it
is in the range of an `int`. -/
theorem readStream_integer {r : Reply} (formed : r.WellFormed longMin longMax) {path : List Nat}
    {n : Int} (found : r.at path = some (.integer n)) {chunks : List Bytes}
    (bytes : chunks.flatten = r.encode) :
    ReadsInteger chunks path n ↔ intMin ≤ n ∧ n ≤ intMax := by
  have reads : readStream {} chunks = .ok ⟨[r.value], none⟩ := by
    rw [readStream_agrees represents_initial, bytes,
      resp.consume_exact (Reply.encode_done formed).exact]
    rfl
  have leaf : r.value.at path = some (.ofLong n) := Reply.value_at found
  rw [← RedisValue.toInt_ofLong_iff]
  constructor
  · rintro ⟨v, other, got, here, _, same⟩
    rw [reads] at got
    cases got
    rw [leaf] at here
    cases here
    exact same
  · exact fun same => ⟨r.value, .ofLong n, reads, leaf, rfl, same⟩

def nestedInteger : Reply := .array [.nil, .array [.integer (-2147483648)]]

theorem readStream_integer_nested :
    ReadsInteger [ascii "*2\r\n$-1\r\n*1\r", ascii "\n:-21474", ascii "83648\r\n"] [1, 0]
      (-2147483648) :=
  (readStream_integer (r := nestedInteger) (by decide +kernel) rfl (by decide +kernel)).mpr
    (by decide)

/-- The smallest integer that is too large comes back as a negative one. -/
theorem readStream_wraps :
    ¬∀ n, longMin ≤ n → n ≤ longMax → ReadsInteger [(Reply.integer n).encode] [] n := by
  intro always
  obtain ⟨v, leaf, got, here, _, same⟩ := always (2 ^ 31) (by decide) (by decide)
  have reads : readStream {} [(Reply.integer (2 ^ 31)).encode] =
      .ok ⟨[.ofLong (2 ^ 31)], none⟩ := by decide +kernel
  rw [reads] at got
  cases got
  cases here
  exact absurd same (by decide +kernel)

end Pinocchio.Redis
