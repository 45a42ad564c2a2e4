import Pinocchio.Semantics.Bytes

/-! The values of `crow::json` that are written, and their texts.

A number is of any type, with a text for it. An object has its members in the order in which the
hash map is walked.
-/

set_option autoImplicit false

namespace Pinocchio.Json
open Semantics

def dquote : UInt8 := 34
def backslash : UInt8 := 92
def comma : UInt8 := 44
def colon : UInt8 := 58
def openList : UInt8 := 91
def closeList : UInt8 := 93
def openObject : UInt8 := 123
def closeObject : UInt8 := 125

def toHex (c : UInt8) : UInt8 :=
  let c := c &&& 0xf
  if c < 10 then 48 + c else 97 + c - 10

/-- What is appended for one character. A `char` above 127 is negative, and goes as it is. -/
def escapeChar (c : UInt8) : Bytes :=
  if c = dquote then ascii "\\\""
  else if c = backslash then ascii "\\\\"
  else if c = 10 then ascii "\\n"
  else if c = 8 then ascii "\\b"
  else if c = 12 then ascii "\\f"
  else if c = 13 then ascii "\\r"
  else if c = 9 then ascii "\\t"
  else if c < 0x20 then ascii "\\u00" ++ [toHex (c / 16), toHex (c % 16)]
  else [c]

def escape (str : Bytes) : Bytes := str.flatMap escapeChar

inductive WValue (D : Type) where
  | null
  | false
  | true
  | number (d : D)
  | string (s : Bytes)
  | list (l : List (WValue D))
  | object (o : List (Bytes × WValue D))

def dumpString (str : Bytes) : Bytes := dquote :: (escape str ++ [dquote])

section
variable {D : Type} (number : D → Bytes)

mutual
def dumpInternal : WValue D → Bytes
  | .null => ascii "null"
  | .false => ascii "false"
  | .true => ascii "true"
  | .number d => number d
  | .string s => dumpString s
  | .list l => openList :: (dumpItems Bool.true l ++ [closeList])
  | .object o => openObject :: (dumpMembers Bool.true o ++ [closeObject])
/-- The loops tell the first turn from the others. -/
def dumpItems (first : Bool) : List (WValue D) → Bytes
  | [] => []
  | x :: l => (if !first then [comma] else []) ++ dumpInternal x ++ dumpItems Bool.false l
def dumpMembers (first : Bool) : List (Bytes × WValue D) → Bytes
  | [] => []
  | (key, x) :: o => (if !first then [comma] else []) ++ dumpString key ++ [colon] ++
      dumpInternal x ++ dumpMembers Bool.false o
end

def dump (v : WValue D) : Bytes := dumpInternal number v

end

example : dump (D := Nat) decimal (.object [([34, 10, 31], .list [.number 7, .null])]) =
    ascii "\x7b\"\\\"\\n\\u001f\":[7,null]\x7d" := by decide +kernel

end Pinocchio.Json
