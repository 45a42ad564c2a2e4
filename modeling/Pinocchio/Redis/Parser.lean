import Pinocchio.Redis.Value

/-! The incremental reply parser, as the source computes it.

A call returns the number of consumed bytes and a result. Assertions, reads of an
empty stack, copies of an invalid range and a `reserve` that throws are faults. The
recursion runs on fuel; `RedisParser.parse` gives every call enough of it.
-/

set_option autoImplicit false

namespace Pinocchio.Redis
open Semantics

def cr : UInt8 := 13
def lf : UInt8 := 10

def stringReply : UInt8 := 43
def errorReply : UInt8 := 45
def integerReply : UInt8 := 58
def bulkReply : UInt8 := 36
def arrayReply : UInt8 := 42

inductive ParseResult where
  | completed
  | incompleted
  | error
  deriving DecidableEq, Repr

inductive Fault where
  | assertion
  | undefined
  | reserve
  | outOfFuel
  deriving DecidableEq, Repr

/-- The sizes for which the `reserve` of a `std::vector` of bytes or of values returns; for the others it
throws. Where nothing is said of it, it returns. -/
structure Reserve where
  bytes : Int → Bool := fun _ => true
  values : Int → Bool := fun _ => true

/-- What `max_size()` allows: a vector has no more than `PTRDIFF_MAX` bytes, and a value has 40. -/
def Reserve.maxSize : Reserve where
  bytes size := size ≤ longMax
  values size := size ≤ longMax / 40

inductive ParserState where
  | start
  | string | stringLF
  | errorString | errorLF
  | integer | integerLF
  | bulkSize | bulkSizeLF | bulk | bulkCR | bulkLF
  | arraySize | arraySizeLF
  deriving DecidableEq, Repr

/-- The stacks are lists with the top first. -/
structure RedisParser where
  state : ParserState := .start
  bulkSize : Int := 0
  buf : Bytes := []
  arrayStack : List Int := []
  valueStack : List RedisValue := []
  deriving DecidableEq, Repr

structure Parsed where
  parser : RedisParser
  count : Nat
  result : ParseResult
  deriving DecidableEq, Repr

/-- A byte as the `int` that a (signed) `char` promotes to. -/
def promote (c : UInt8) : Int := c.toInt8.toInt

def isChar (c : Int) : Bool := 0 ≤ c && c ≤ 127

def isControl (c : Int) : Bool := (0 ≤ c && c ≤ 31) || c = 127

/-- The bytes in `[ptr + first, ptr + last)`, if that is a range of the chunk. -/
def copyRange (ptr : Bytes) (first last : Nat) : Except Fault Bytes :=
  if first ≤ last ∧ last ≤ ptr.length then .ok ((ptr.take last).drop first)
  else .error .undefined

namespace RedisParser

def pushFrame (p : RedisParser) (arraySize : Int) (arrayValue : List RedisValue) : RedisParser :=
  { p with
    arrayStack := arraySize :: p.arrayStack
    valueStack := .array arrayValue :: p.valueStack }

def pushValue (p : RedisParser) (v : RedisValue) : RedisParser :=
  { p with valueStack := v :: p.valueStack }

def popValue (p : RedisParser) (fault : Fault) : Except Fault (RedisValue × RedisParser) :=
  match p.valueStack with
  | [] => .error fault
  | v :: values => .ok (v, { p with valueStack := values })

/-- How one pass through the loop of `parseChunk` ends. `next` carries the index
before the increment, `array` the parser with which `parseArray` takes the rest. -/
inductive Iteration where
  | next (p : RedisParser) (i : Nat)
  | exit (p : RedisParser) (count : Nat) (result : ParseResult)
  | array (p : RedisParser)
  | fault (reason : Fault)
  deriving DecidableEq, Repr

section Switch
variable (p : RedisParser) (ptr : Bytes) (i : Nat) (c : UInt8)

def fail : Iteration := .exit { p with state := .start } (i + 1) .error

def complete (v : RedisValue) : Iteration :=
  .exit ({ p with state := .start }.pushValue v) (i + 1) .completed

def onStart : Iteration :=
  let p := { p with buf := [] }
  if c = stringReply then .next { p with state := .string } i
  else if c = errorReply then .next { p with state := .errorString } i
  else if c = integerReply then .next { p with state := .integer } i
  else if c = bulkReply then .next { p with state := .bulkSize, bulkSize := 0 } i
  else if c = arrayReply then .next { p with state := .arraySize } i
  else fail p i

/-- The cases `String` and `ErrorString`, which differ in the state after the CR. -/
def onText (ended : ParserState) : Iteration :=
  if c = cr then .next { p with state := ended } i
  else if isChar (promote c) && !isControl (promote c) then .next { p with buf := p.buf ++ [c] } i
  else fail p i

/-- The cases `StringLF`, `ErrorLF` and `BulkLF`, which differ in the value pushed. -/
def onTextLF (value : RedisValue) : Iteration :=
  if c = lf then complete p i value else fail p i

/-- The cases `BulkSize`, `ArraySize` and `Integer`, which differ in the state after the CR. -/
def onNumber (ended : ParserState) : Iteration :=
  if c = cr then
    if p.buf = [] then fail p i else .next { p with state := ended } i
  else if isDigit c || c = minus then .next { p with buf := p.buf ++ [c] } i
  else fail p i

def onBulkSizeLF (reserve : Reserve := {}) : Iteration :=
  if c = lf then
    let bulkSize := strtol p.buf
    let p := { p with bulkSize := bulkSize, buf := [] }
    if bulkSize = -1 then complete p i .null
    else if bulkSize = 0 then .next { p with state := .bulkCR } i
    else if bulkSize < 0 then fail p i
    else if !reserve.bytes bulkSize then .fault .reserve
    else
      -- What the chunk has of the payload is copied at once.
      let available : Int := ptr.length - i - 1
      let canRead := min bulkSize available
      match (if canRead > 0 then copyRange ptr (i + 1) (i + canRead.toNat + 1) else .ok []) with
      | .error reason => .fault reason
      | .ok buf =>
        let p := { p with buf := buf }
        let i := i + canRead.toNat
        if bulkSize > available then
          .exit { p with bulkSize := bulkSize - canRead, state := .bulk } (i + 1) .incompleted
        else .next { p with state := .bulkCR } i
  else fail p i

/-- The end pointer `ptr + canRead` of the copy is the source's. -/
def onBulk : Iteration :=
  if p.bulkSize > 0 then
    let available : Int := ptr.length - i
    let canRead := min available p.bulkSize
    match copyRange ptr i canRead.toNat with
    | .error reason => .fault reason
    | .ok read =>
      let p := { p with buf := p.buf ++ read, bulkSize := p.bulkSize - canRead }
      let i := i + canRead.toNat - 1
      if p.bulkSize > 0 then .exit p (i + 1) .incompleted
      else
        let p := { p with state := .bulkCR }
        if ptr.length = i + 1 then .exit p (i + 1) .incompleted else .next p i
  else .fault .assertion

def onBulkCR : Iteration :=
  if c = cr then .next { p with state := .bulkLF } i else fail p i

def onArraySizeLF (reserve : Reserve := {}) : Iteration :=
  if c = lf then
    let arraySize := strtol p.buf
    let p := { p with buf := [] }
    if arraySize = -1 ∨ arraySize = 0 then complete p i (.array [])
    else if arraySize < 0 then fail p i
    else if !reserve.values arraySize then .fault .reserve
    else
      let p := { p.pushFrame arraySize [] with state := .start }
      if i + 1 ≠ ptr.length then .array p else .exit p (i + 1) .incompleted
  else fail p i

def onIntegerLF : Iteration :=
  if c = lf then complete { p with buf := [] } i (.ofLong (strtol p.buf)) else fail p i

/-- One pass through the loop of `parseChunk`: the switch on the state. -/
def onChar (reserve : Reserve := {}) : Iteration :=
  match p.state with
  | .start => onStart p i c
  | .string => onText p i c .stringLF
  | .errorString => onText p i c .errorLF
  | .bulkSize => onNumber p i c .bulkSizeLF
  | .stringLF => onTextLF p i c (.bytes p.buf false)
  | .errorLF => onTextLF p i c (.bytes p.buf true)
  | .bulkSizeLF => onBulkSizeLF p ptr i c reserve
  | .bulk => onBulk p ptr i
  | .bulkCR => onBulkCR p i c
  | .bulkLF => onTextLF p i c (.bytes p.buf false)
  | .arraySize => onNumber p i c .arraySizeLF
  | .arraySizeLF => onArraySizeLF p ptr i c reserve
  | .integer => onNumber p i c .integerLF
  | .integerLF => onIntegerLF p i c

end Switch

mutual
def parseWith : Nat → RedisParser → Bytes → (reserve : Reserve := {}) → Except Fault Parsed
  | 0, _, _, _ => .error .outOfFuel
  | fuel + 1, p, ptr, reserve =>
    if p.arrayStack ≠ [] then parseArray fuel p ptr reserve else parseChunk fuel p ptr 0 reserve

def parseArray : Nat → RedisParser → Bytes → (reserve : Reserve := {}) → Except Fault Parsed
  | 0, _, _, _ => .error .outOfFuel
  | fuel + 1, p, ptr, reserve =>
    match p.arrayStack, p.valueStack with
    | arraySize :: arrays, value :: values =>
      let p := { p with arrayStack := arrays, valueStack := values }
      -- An array inside this one goes first; its result is the next element.
      if arrays ≠ [] then do
        let inner ← parseArray fuel p ptr reserve
        if inner.result ≠ .completed then
          return { inner with parser := inner.parser.pushFrame arraySize value.toArray }
        let (v, p) ← inner.parser.popValue .undefined
        parseItems fuel p ptr inner.count (arraySize - 1) (value.toArray ++ [v]) reserve
      else parseItems fuel p ptr 0 arraySize value.toArray reserve
    | _, _ => .error .assertion

/-- The part of `parseArray` after the recursive call: the chunk may be used up. -/
def parseItems : Nat → RedisParser → Bytes → Nat → Int → List RedisValue →
    (reserve : Reserve := {}) → Except Fault Parsed
  | 0, _, _, _, _, _, _ => .error .outOfFuel
  | fuel + 1, p, ptr, i, arraySize, arrayValue, reserve =>
    if i = ptr.length then
      if arraySize = 0 then .ok ⟨p.pushValue (.array arrayValue), i, .completed⟩
      else .ok ⟨p.pushFrame arraySize arrayValue, i, .incompleted⟩
    else parseLoop fuel p ptr i arraySize 0 arrayValue reserve

/-- The loop of `parseArray` from its index `x` on. -/
def parseLoop : Nat → RedisParser → Bytes → Nat → Int → Int → List RedisValue →
    (reserve : Reserve := {}) → Except Fault Parsed
  | 0, _, _, _, _, _, _, _ => .error .outOfFuel
  | fuel + 1, p, ptr, i, arraySize, x, arrayValue, reserve =>
    if x < arraySize then do
      let inner ← parseWith fuel p (ptr.drop i) reserve
      let i := i + inner.count
      match inner.result with
      | .error => return ⟨inner.parser, i, .error⟩
      | .incompleted => return ⟨inner.parser.pushFrame (arraySize - x) arrayValue, i, .incompleted⟩
      | .completed =>
        let (v, p) ← inner.parser.popValue .assertion
        parseLoop fuel p ptr i arraySize (x + 1) (arrayValue ++ [v]) reserve
    else if x = arraySize then .ok ⟨p.pushValue (.array arrayValue), i, .completed⟩
    else .error .assertion

/-- The loop of `parseChunk` from its index `i` on. -/
def parseChunk : Nat → RedisParser → Bytes → Nat → (reserve : Reserve := {}) → Except Fault Parsed
  | 0, _, _, _, _ => .error .outOfFuel
  | fuel + 1, p, ptr, i, reserve =>
    match ptr[i]? with
    | none => .ok ⟨p, i, .incompleted⟩
    | some c =>
      match onChar p ptr i c reserve with
      | .next p i => parseChunk fuel p ptr (i + 1) reserve
      | .exit p count result => .ok ⟨p, count, result⟩
      | .array p => do
        let inner ← parseArray fuel p (ptr.drop (i + 1)) reserve
        return { inner with count := inner.count + (i + 1) }
      | .fault reason => .error reason
end

/-- Enough fuel for a chunk: five calls deep for each byte and one for each open array. -/
def fuelFor (p : RedisParser) (ptr : Bytes) : Nat := 5 * ptr.length + p.arrayStack.length + 5

def parse (p : RedisParser) (ptr : Bytes) (reserve : Reserve := {}) : Except Fault Parsed :=
  parseWith (fuelFor p ptr) p ptr reserve

def result (p : RedisParser) : Except Fault (RedisValue × RedisParser) := p.popValue .assertion

end RedisParser

end Pinocchio.Redis
