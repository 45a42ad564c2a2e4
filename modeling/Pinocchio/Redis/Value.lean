import Pinocchio.Semantics.Bytes

/-! The reply values of the Redis client.

The source keeps a variant and an error flag side by side; its constructors set
the flag on byte arrays only, so here the flag belongs to the byte arrays.
-/

set_option autoImplicit false

namespace Pinocchio.Redis
open Semantics

inductive RedisValue where
  | null
  | int (value : Int32)
  | bytes (buf : Bytes) (error : Bool)
  | array (items : List RedisValue)
  deriving Repr, Inhabited

namespace RedisValue

/-- The converting constructor from a `long`, which keeps the low 32 bits. -/
def ofLong (n : Int) : RedisValue := .int (Int32.ofInt n)

mutual
def decEq : (left right : RedisValue) → Decidable (left = right)
  | .null, .null => isTrue rfl
  | .int a, .int b =>
      if same : a = b then isTrue (same ▸ rfl) else isFalse fun h => same (RedisValue.int.inj h)
  | .bytes a e, .bytes b f =>
      if same : a = b ∧ e = f then isTrue (by rw [same.1, same.2])
      else isFalse fun h => same (RedisValue.bytes.inj h)
  | .array as, .array bs =>
      match decEqItems as bs with
      | isTrue same => isTrue (same ▸ rfl)
      | isFalse other => isFalse fun h => other (RedisValue.array.inj h)
  | .null, .int _ | .null, .bytes _ _ | .null, .array _ => isFalse (by simp)
  | .int _, .null | .int _, .bytes _ _ | .int _, .array _ => isFalse (by simp)
  | .bytes _ _, .null | .bytes _ _, .int _ | .bytes _ _, .array _ => isFalse (by simp)
  | .array _, .null | .array _, .int _ | .array _, .bytes _ _ => isFalse (by simp)
def decEqItems : (left right : List RedisValue) → Decidable (left = right)
  | [], [] => isTrue rfl
  | [], _ :: _ | _ :: _, [] => isFalse (by simp)
  | a :: as, b :: bs =>
      match decEq a b, decEqItems as bs with
      | isTrue head, isTrue tail => isTrue (by rw [head, tail])
      | isFalse other, _ => isFalse fun h => other (List.cons.inj h).1
      | _, isFalse other => isFalse fun h => other (List.cons.inj h).2
end

instance : DecidableEq RedisValue := decEq

/-! A conversion gives the default of its type when the value has another type. -/

def toArray : RedisValue → List RedisValue
  | .array items => items
  | _ => []

@[simp] theorem toArray_array (items : List RedisValue) : toArray (.array items) = items := rfl

def toByteArray : RedisValue → Bytes
  | .bytes buf _ => buf
  | _ => []

def toString (v : RedisValue) : Bytes := v.toByteArray

def toInt : RedisValue → Int32
  | .int value => value
  | _ => 0

def isError : RedisValue → Bool
  | .bytes _ error => error
  | _ => false

def isOk (v : RedisValue) : Bool := !v.isError

def isInt : RedisValue → Bool
  | .int _ => true
  | _ => false

/-- The two bytes at the end are the separator after the last item. -/
def closeList (body : Bytes) : Bytes :=
  if body = [] then ascii "[]" else (ascii "[" ++ body).dropLast.dropLast ++ ascii "]"

mutual
def inspect : RedisValue → Bytes
  | .bytes buf true => ascii "error: " ++ buf
  | .null => ascii "(null)"
  | .int value => decimalInt value.toInt
  | .bytes buf false => buf
  | .array items => closeList (inspectItems items)
def inspectItems : List RedisValue → Bytes
  | [] => []
  | v :: rest => inspect v ++ ascii ", " ++ inspectItems rest
end

example : inspect (.array [.int 3, .null, .array [], .bytes (ascii "x") true]) =
    ascii "[3, (null), [], error: x]" := by decide

end RedisValue

end Pinocchio.Redis
