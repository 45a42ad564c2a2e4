import Pinocchio.Json.Dump

/-! `crow::json::load`.

The parser walks through a copy of the text with a NUL behind it. A NUL in the text ends it as well,
so what is left of the text is a list whose end is a NUL. Every turn of the nested loops takes from
`fuel`, and twice the length of the text is enough of it.
-/

set_option autoImplicit false

namespace Pinocchio.Json
open Semantics

/-- A value as it is read. The text of a string is unescaped only when it is asked for. -/
inductive RValue where
  | null
  | false
  | true
  | number (text : Bytes)
  | string (hasEscaping : Bool) (text : Bytes)
  | list (l : List RValue)
  | object (o : List (Bytes × RValue))

inductive Failure where
  | invalid
  | outOfFuel
  deriving DecidableEq

/-! ## Strings -/

def fromHex (c : UInt8) : Nat :=
  if 97 ≤ c then c.toNat - 97 + 10
  else if 65 ≤ c then c.toNat - 65 + 10
  else c.toNat - 48

/-- The bytes for one `\u`, whatever it stands for. -/
def encodeUnit (code : Nat) : Bytes :=
  if 0x800 ≤ code then
    [UInt8.ofNat (0xe0 ||| code >>> 12), UInt8.ofNat (0x80 ||| (code >>> 6 &&& 0x3f)),
      UInt8.ofNat (0x80 ||| (code &&& 0x3f))]
  else if 0x80 ≤ code then
    [UInt8.ofNat (0xc0 ||| code >>> 6), UInt8.ofNat (0x80 ||| (code &&& 0x3f))]
  else [UInt8.ofNat code]

/-- What is appended for the letter after a backslash. -/
def unescapeLetter (c : UInt8) : Bytes :=
  if c = dquote ∨ c = backslash ∨ c = 47 then [c]
  else if c = 98 then [8]
  else if c = 102 then [12]
  else if c = 110 then [10]
  else if c = 114 then [13]
  else if c = 116 then [9]
  else []

/-- The loop of `unescape`. Its text went through `decodeString`, so no escape in it is cut off. -/
def unescapeLoop : Bytes → Bytes
  | [] => []
  | c :: text =>
    if c = backslash then
      match text with
      | [] => []
      | e :: text =>
        if e = 117 then
          match text with
          | h1 :: h2 :: h3 :: h4 :: text =>
            encodeUnit (fromHex h1 <<< 12 + fromHex h2 <<< 8 + fromHex h3 <<< 4 + fromHex h4) ++
              unescapeLoop text
          | _ => []
        else unescapeLetter e ++ unescapeLoop text
    else c :: unescapeLoop text

def unescape (hasEscaping : Bool) (text : Bytes) : Bytes :=
  if hasEscaping then unescapeLoop text else text

def isSpaceCharacter (c : UInt8) : Bool := c = 32 || c = 9 || c = 13 || c = 10

def wsSkip : Bytes → Bytes := List.dropWhile isSpaceCharacter

def consume (c : UInt8) : Bytes → Except Failure Bytes
  | [] => .error .invalid
  | d :: data => if d = c then .ok data else .error .invalid

def isHexDigit (c : UInt8) : Bool :=
  (48 ≤ c && c ≤ 57) || (97 ≤ c && c ≤ 102) || (65 ≤ c && c ≤ 70)

def isLetter (c : UInt8) : Bool :=
  c = dquote || c = backslash || c = 47 || c = 98 || c = 102 || c = 110 || c = 114 || c = 116

def decodeStringLoop (hasEscaping : Bool) (text : Bytes) : Bytes → Except Failure ((Bool × Bytes) × Bytes)
  | [] => .error .invalid
  | c :: data =>
    if c ≠ dquote ∧ c ≠ backslash ∧ c ≠ 0 then decodeStringLoop hasEscaping (text ++ [c]) data
    else if c = dquote then .ok ((hasEscaping, text), data)
    else if c = backslash then
      match data with
      | [] => .error .invalid
      | e :: data =>
        if e = 117 then
          match data with
          | h1 :: h2 :: h3 :: h4 :: data =>
            if isHexDigit h1 && isHexDigit h2 && isHexDigit h3 && isHexDigit h4 then
              decodeStringLoop true (text ++ [c, e, h1, h2, h3, h4]) data
            else .error .invalid
          | _ => .error .invalid
        else if isLetter e then decodeStringLoop true (text ++ [c, e]) data
        else .error .invalid
    else .error .invalid

def decodeString (data : Bytes) : Except Failure ((Bool × Bytes) × Bytes) := do
  let data ← consume dquote data
  decodeStringLoop false [] data

/-! ## Numbers -/

inductive NumberParsingState where
  | minus
  | afterMinus
  | zeroFirst
  | digits
  | digitsAfterPoints
  | e
  | digitsAfterE
  | invalid
  deriving DecidableEq

namespace NumberParsingState

def onZero : NumberParsingState → NumberParsingState
  | minus | afterMinus => zeroFirst
  | digits => digits
  | digitsAfterPoints => digitsAfterPoints
  | e | digitsAfterE => digitsAfterE
  | zeroFirst | invalid => invalid

def onDigit : NumberParsingState → NumberParsingState
  | minus | afterMinus | digits => digits
  | digitsAfterPoints => digitsAfterPoints
  | e | digitsAfterE => digitsAfterE
  | zeroFirst | invalid => invalid

def onPoint : NumberParsingState → NumberParsingState
  | zeroFirst | digits => digitsAfterPoints
  | _ => invalid

def onMinus : NumberParsingState → NumberParsingState
  | minus => afterMinus
  | e => digitsAfterE
  | _ => invalid

def onPlus : NumberParsingState → NumberParsingState
  | e => digitsAfterE
  | _ => invalid

/-- A zero in front is not among the states that go on with an exponent. -/
def onE : NumberParsingState → NumberParsingState
  | digits | digitsAfterPoints => e
  | _ => invalid

def accepts : NumberParsingState → Bool
  | zeroFirst | digits | digitsAfterPoints | digitsAfterE => true
  | _ => false

end NumberParsingState

open NumberParsingState in
/-- The loop of `decode_number`. After a digit that is not zero, its inner loop skips the digits
that follow without a change of state. -/
def decodeNumberLoop (state : NumberParsingState) (skips : Bool) (text : Bytes) :
    Bytes → Except Failure (Bytes × Bytes)
  | [] => if state.accepts then .ok (text, []) else .error .invalid
  | c :: data =>
    -- Digits that are skipped do not reach the switch, not even in the state `Invalid`.
    if skips && isDigit c then decodeNumberLoop state true (text ++ [c]) data
    else if state = .invalid then .error .invalid
    else if c = 48 then decodeNumberLoop state.onZero false (text ++ [c]) data
    else if isDigit c then decodeNumberLoop state.onDigit true (text ++ [c]) data
    else if c = 46 then decodeNumberLoop state.onPoint false (text ++ [c]) data
    else if c = Semantics.minus then decodeNumberLoop state.onMinus false (text ++ [c]) data
    else if c = 43 then decodeNumberLoop state.onPlus false (text ++ [c]) data
    else if c = 101 ∨ c = 69 then decodeNumberLoop state.onE false (text ++ [c]) data
    else if state.accepts then .ok (text, c :: data)
    else .error .invalid

def decodeNumber (data : Bytes) : Except Failure (Bytes × Bytes) := decodeNumberLoop .minus false [] data

/-! ## Values -/

def word (rest : Bytes) (v : RValue) (data : Bytes) : Except Failure (RValue × Bytes) :=
  if data.take rest.length = rest then .ok (v, data.drop rest.length) else .error .invalid

mutual
def decodeValue : Nat → Bytes → Except Failure (RValue × Bytes)
  | 0, _ => .error .outOfFuel
  | fuel + 1, data =>
    let c := data.headD 0
    if c = openList then decodeList fuel data
    else if c = openObject then decodeObject fuel data
    else if c = dquote then do
      let (string, data) ← decodeString data
      return (.string string.1 string.2, data)
    else if c = 116 then word (ascii "rue") .true data.tail
    else if c = 102 then word (ascii "alse") .false data.tail
    else if c = 110 then word (ascii "ull") .null data.tail
    else do
      let (text, data) ← decodeNumber data
      return (.number text, data)
def decodeList : Nat → Bytes → Except Failure (RValue × Bytes)
  | 0, _ => .error .outOfFuel
  | fuel + 1, data => do
    let data ← consume openList data
    let data := wsSkip data
    if data.headD 0 = closeList then return (.list [], data.tail)
    else decodeListLoop fuel [] data
def decodeListLoop : Nat → List RValue → Bytes → Except Failure (RValue × Bytes)
  | 0, _, _ => .error .outOfFuel
  | fuel + 1, ret, data => do
    let (v, data) ← decodeValue fuel data
    let data := wsSkip data
    let ret := ret ++ [v]
    if data.headD 0 = closeList then return (.list ret, data.tail)
    else
      let data ← consume comma data
      decodeListLoop fuel ret (wsSkip data)
def decodeObject : Nat → Bytes → Except Failure (RValue × Bytes)
  | 0, _ => .error .outOfFuel
  | fuel + 1, data => do
    let data ← consume openObject data
    let data := wsSkip data
    if data.headD 0 = closeObject then return (.object [], data.tail)
    else decodeObjectLoop fuel [] data
def decodeObjectLoop : Nat → List (Bytes × RValue) → Bytes → Except Failure (RValue × Bytes)
  | 0, _, _ => .error .outOfFuel
  | fuel + 1, ret, data => do
    let (string, data) ← decodeString data
    let data ← consume colon (wsSkip data)
    let key := unescape string.1 string.2
    let (v, data) ← decodeValue fuel (wsSkip data)
    let data := wsSkip data
    let ret := ret ++ [(key, v)]
    if data.headD 0 = closeObject then return (.object ret, data.tail)
    else
      let data ← consume comma data
      decodeObjectLoop fuel ret (wsSkip data)
end

def parse (fuel : Nat) (data : Bytes) : Except Failure RValue := do
  let (ret, data) ← decodeValue fuel (wsSkip data)
  if (wsSkip data).headD 0 ≠ 0 then .error .invalid else return ret

def load (data : Bytes) : Except Failure RValue := parse (2 * data.length) data

/-! ## Members and copies -/

/-- A character is a signed number. -/
def signed (key : Bytes) : List Int := key.map fun c => c.toInt8.toInt

/-- The members are sorted by key, and the first one whose key is not lower is looked at. -/
def RValue.at (str : Bytes) : RValue → Option RValue
  | .object o =>
    let sorted := o.mergeSort fun l r => ¬signed r.1 < signed l.1
    match sorted.find? fun l => ¬signed l.1 < signed str with
    | some it => if it.1 = str then some it.2 else none
    | none => none
  | _ => none

/-- The first value for a key stays. -/
def emplace {D : Type} (o : List (Bytes × WValue D)) (key : Bytes) (x : WValue D) :
    List (Bytes × WValue D) :=
  if o.any (·.1 = key) then o else o ++ [(key, x)]

section
variable {D : Type} (lexicalCast : Bytes → Option D)
  (arrange : List (Bytes × WValue D) → List (Bytes × WValue D))

mutual
/-- A value to be written, made of one that was read. The hash map of an object is walked in an order
of its own. -/
def wvalue : RValue → Option (WValue D)
  | .null => some .null
  | .false => some .false
  | .true => some .true
  | .number text => (lexicalCast text).map .number
  | .string hasEscaping text => some (.string (unescape hasEscaping text))
  | .list l => (wvalueItems l).map .list
  | .object o => (wvalueMembers [] o).map fun o => .object (arrange o)
def wvalueItems : List RValue → Option (List (WValue D))
  | [] => some []
  | r :: l => do
    let x ← wvalue r
    let rest ← wvalueItems l
    return x :: rest
def wvalueMembers (o : List (Bytes × WValue D)) :
    List (Bytes × RValue) → Option (List (Bytes × WValue D))
  | [] => some o
  | (key, r) :: l => do
    let x ← wvalue r
    wvalueMembers (emplace o key x) l
end

end

end Pinocchio.Json
