import Mathlib.Algebra.Field.Rat
import Pinocchio.Json.Dump

/-! JSON texts and the values that they denote.

A document is a text with all that its writer may choose: blanks, escapes, and the form of a number.
Strings denote UTF-16 code units, since an escape may stand for half of a surrogate pair.
-/

set_option autoImplicit false

namespace Pinocchio.Json
open Semantics

def isBlank (c : UInt8) : Bool := c = 32 || c = 9 || c = 13 || c = 10

abbrev Blank := {bytes : Bytes // ∀ c ∈ bytes, isBlank c = true}

/-- The characters that are written as a backslash and one letter. -/
inductive Short where
  | quotation | backslash | slash | backspace | formFeed | newline | return | tab

def Short.letter : Short → UInt8
  | .quotation => 34
  | .backslash => 92
  | .slash => 47
  | .backspace => 98
  | .formFeed => 102
  | .newline => 110
  | .return => 114
  | .tab => 116

def Short.code : Short → UInt8
  | .quotation => 34
  | .backslash => 92
  | .slash => 47
  | .backspace => 8
  | .formFeed => 12
  | .newline => 10
  | .return => 13
  | .tab => 9

structure HexDigit where
  value : Fin 16
  upper : Bool

def HexDigit.byte (d : HexDigit) : UInt8 :=
  UInt8.ofNat (if d.value.val < 10 then 48 + d.value.val
    else if d.upper then 55 + d.value.val else 87 + d.value.val)

/-- A character, or half of one, as it is written in a string. -/
inductive Piece where
  | raw (c : Char) (allowed : 32 ≤ c.toNat ∧ c ≠ '"' ∧ c ≠ '\\')
  | short (s : Short)
  | unicode (a b c d : HexDigit)

def utf16 (c : Char) : List Nat :=
  if c.toNat < 0x10000 then [c.toNat]
  else [0xd800 + (c.toNat - 0x10000) / 0x400, 0xdc00 + (c.toNat - 0x10000) % 0x400]

namespace Piece

def bytes : Piece → Bytes
  | raw c _ => String.utf8EncodeChar c
  | short s => [Json.backslash, s.letter]
  | unicode a b c d => [Json.backslash, 117, a.byte, b.byte, c.byte, d.byte]

def unit (a b c d : HexDigit) : Nat :=
  0x1000 * a.value.val + 0x100 * b.value.val + 0x10 * c.value.val + d.value.val

def units : Piece → List Nat
  | raw c _ => utf16 c
  | short s => [s.code.toNat]
  | unicode a b c d => [unit a b c d]

/-- No half of a surrogate pair is escaped. -/
def Direct : Piece → Prop
  | unicode a b c d => unit a b c d < 0xd800 ∨ 0xdfff < unit a b c d
  | _ => True

end Piece

abbrev Str := List Piece

namespace Str

def text (s : Str) : Bytes := s.flatMap Piece.bytes

def bytes (s : Str) : Bytes := dquote :: (s.text ++ [dquote])

def units (s : Str) : List Nat := s.flatMap Piece.units

def Direct (s : Str) : Prop := ∀ p ∈ s, p.Direct

end Str

structure Exponent where
  upper : Bool
  /-- A sign, which is a minus when it is true. -/
  sign : Option Bool
  digits : Bytes
  nonempty : digits ≠ []
  all : ∀ c ∈ digits, isDigit c = true

namespace Exponent

def bytes (e : Exponent) : Bytes :=
  (if e.upper then 69 else 101) ::
    ((match e.sign with | none => [] | some true => [minus] | some false => [43]) ++ e.digits)

def value (e : Exponent) : Int :=
  if e.sign = some true then -(digitsValue e.digits : Int) else digitsValue e.digits

end Exponent

/-- A number, whose fraction is left out when it has no digits. -/
structure Numeral where
  negative : Bool
  whole : Nat
  fraction : Bytes
  all : ∀ c ∈ fraction, isDigit c = true
  exponent : Option Exponent

namespace Numeral

def bytes (n : Numeral) : Bytes :=
  (if n.negative then [minus] else []) ++ decimal n.whole ++
    (if n.fraction = [] then [] else 46 :: n.fraction) ++
    n.exponent.elim [] Exponent.bytes

def magnitude (n : Numeral) : ℚ :=
  (n.whole + digitsValue n.fraction / 10 ^ n.fraction.length) *
    n.exponent.elim 1 (10 ^ ·.value)

def value (n : Numeral) : ℚ := if n.negative then -n.magnitude else n.magnitude

/-- An exponent does not come right after a single zero. -/
def Plain (n : Numeral) : Prop := n.whole = 0 → n.fraction = [] → n.exponent.isNone = true

instance (n : Numeral) : Decidable n.Plain :=
  inferInstanceAs (Decidable (_ → _ → _))

end Numeral

mutual
inductive Document where
  | null
  | false
  | true
  | number (n : Numeral)
  | string (s : Str)
  | emptyList (pad : Blank)
  | list (l : Elements)
  | emptyObject (pad : Blank)
  | object (o : Members)
inductive Elements where
  | one (before : Blank) (x : Document) (after : Blank)
  | cons (before : Blank) (x : Document) (after : Blank) (rest : Elements)
inductive Members where
  | one (before : Blank) (key : Str) (between behind : Blank) (x : Document) (after : Blank)
  | cons (before : Blank) (key : Str) (between behind : Blank) (x : Document) (after : Blank)
      (rest : Members)
end

mutual
def Document.bytes : Document → Bytes
  | .null => ascii "null"
  | .false => ascii "false"
  | .true => ascii "true"
  | .number n => n.bytes
  | .string s => s.bytes
  | .emptyList pad => openList :: (pad.val ++ [closeList])
  | .list l => openList :: (l.bytes ++ [closeList])
  | .emptyObject pad => openObject :: (pad.val ++ [closeObject])
  | .object o => openObject :: (o.bytes ++ [closeObject])
def Elements.bytes : Elements → Bytes
  | .one before x after => before.val ++ (x.bytes ++ after.val)
  | .cons before x after rest => before.val ++ (x.bytes ++ (after.val ++ comma :: rest.bytes))
def Members.bytes : Members → Bytes
  | .one before key between behind x after =>
    before.val ++ (key.bytes ++ (between.val ++ colon :: (behind.val ++ (x.bytes ++ after.val))))
  | .cons before key between behind x after rest =>
    before.val ++ (key.bytes ++ (between.val ++ colon :: (behind.val ++ (x.bytes ++
      (after.val ++ comma :: rest.bytes)))))
end

mutual
def Document.numerals : Document → List Numeral
  | .number n => [n]
  | .list l => l.numerals
  | .object o => o.numerals
  | _ => []
def Elements.numerals : Elements → List Numeral
  | .one _ x _ => x.numerals
  | .cons _ x _ rest => x.numerals ++ rest.numerals
def Members.numerals : Members → List Numeral
  | .one _ _ _ _ x _ => x.numerals
  | .cons _ _ _ _ x _ rest => x.numerals ++ rest.numerals
end

mutual
def Document.strings : Document → List Str
  | .string s => [s]
  | .list l => l.strings
  | .object o => o.strings
  | _ => []
def Elements.strings : Elements → List Str
  | .one _ x _ => x.strings
  | .cons _ x _ rest => x.strings ++ rest.strings
def Members.strings : Members → List Str
  | .one _ key _ _ x _ => key :: x.strings
  | .cons _ key _ _ x _ rest => key :: (x.strings ++ rest.strings)
end

def Document.Plain (d : Document) : Prop := ∀ n ∈ d.numerals, n.Plain

def Document.Direct (d : Document) : Prop := ∀ s ∈ d.strings, s.Direct

def Members.entries : Members → List (Str × Document)
  | .one _ key _ _ x _ => [(key, x)]
  | .cons _ key _ _ x _ rest => (key, x) :: rest.entries

/-- What a document denotes. -/
inductive Value where
  | null
  | bool (b : Bool)
  | number (q : ℚ)
  | string (units : List Nat)
  | list (l : List Value)
  | object (o : List (List Nat × Value))

mutual
def Document.value : Document → Value
  | .null => .null
  | .false => .bool Bool.false
  | .true => .bool Bool.true
  | .number n => .number n.value
  | .string s => .string s.units
  | .emptyList _ => .list []
  | .list l => .list l.values
  | .emptyObject _ => .object []
  | .object o => .object o.values
def Elements.values : Elements → List Value
  | .one _ x _ => [x.value]
  | .cons _ x _ rest => x.value :: rest.values
def Members.values : Members → List (List Nat × Value)
  | .one _ key _ _ x _ => [(key.units, x.value)]
  | .cons _ key _ _ x _ rest => (key.units, x.value) :: rest.values
end

/-- Equality up to the order of object members. -/
inductive Same : Value → Value → Prop where
  | refl (v : Value) : Same v v
  | list {l m : List Value} : List.Forall₂ Same l m → Same (.list l) (.list m)
  | object {o p q : List (List Nat × Value)} : o.Perm p → p.map Prod.fst = q.map Prod.fst →
      List.Forall₂ Same (p.map Prod.snd) (q.map Prod.snd) → Same (.object o) (.object q)

def IsText (units : List Nat) : Prop := ∃ text : List Char, units = text.flatMap utf16

mutual
/-- What holds of a value and of every value in it. -/
def Value.All (p : Value → Prop) : Value → Prop
  | .list l => p (.list l) ∧ allItems p l
  | .object o => p (.object o) ∧ allMembers p o
  | v => p v
def allItems (p : Value → Prop) : List Value → Prop
  | [] => True
  | v :: l => v.All p ∧ allItems p l
def allMembers (p : Value → Prop) : List (List Nat × Value) → Prop
  | [] => True
  | (_, v) :: o => v.All p ∧ allMembers p o
end

/-- A text, an integer that every double can tell from the next one, or an object with distinct
keys. -/
def Value.Exact : Value → Prop
  | .number q => ∃ n : Int, q = n ∧ n.natAbs < 2 ^ 53
  | .string units => IsText units
  | .object o => (o.map Prod.fst).Nodup
  | _ => True

/-- Built, to any depth, from null, booleans, texts, such integers, lists and objects with distinct
keys. -/
def Value.Built (v : Value) : Prop := v.All Value.Exact

end Pinocchio.Json
