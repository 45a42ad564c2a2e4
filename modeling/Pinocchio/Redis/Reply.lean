import Pinocchio.Redis.ParserRefinement

/-! The replies of the protocol and their encoding.

A reply is what the server means to say; the parser has to give back the value it
denotes. The encoding is the protocol's, written without regard to the parser.
-/

set_option autoImplicit false

namespace Pinocchio.Redis
open Semantics Reader

inductive Reply where
  | simple (text : Bytes)
  | error (text : Bytes)
  | integer (n : Int)
  | bulk (payload : Bytes)
  | nil
  | array (items : List Reply)
  deriving Repr, Inhabited

def crlf : Bytes := [cr, lf]

def intMax : Int := 2 ^ 31 - 1
def intMin : Int := -2 ^ 31

namespace Reply

mutual
def encode : Reply → Bytes
  | .simple text => stringReply :: (text ++ crlf)
  | .error text => errorReply :: (text ++ crlf)
  | .integer n => integerReply :: (decimalInt n ++ crlf)
  | .bulk payload => bulkReply :: (decimal payload.length ++ crlf ++ (payload ++ crlf))
  | .nil => bulkReply :: (decimalInt (-1) ++ crlf)
  | .array items => arrayReply :: (decimal items.length ++ crlf ++ encodeItems items)
def encodeItems : List Reply → Bytes
  | [] => []
  | r :: rest => encode r ++ encodeItems rest
end

mutual
/-- The value a reply denotes; an integer is kept to the width of an `int`. -/
def value : Reply → RedisValue
  | .simple text => .bytes text false
  | .error text => .bytes text true
  | .integer n => .ofLong n
  | .bulk payload => .bytes payload false
  | .nil => .null
  | .array items => .array (values items)
def values : List Reply → List RedisValue
  | [] => []
  | r :: rest => value r :: values rest
end

mutual
/-- Texts are printable, integers lie between the bounds, and sizes are those of objects. -/
def WellFormed (low high : Int) : Reply → Prop
  | .simple text | .error text => ∀ c ∈ text, isText c = true
  | .integer n => low ≤ n ∧ n ≤ high
  | .bulk payload => (payload.length : Int) ≤ longMax
  | .nil => True
  | .array items => (items.length : Int) ≤ longMax ∧ AllWellFormed low high items
def AllWellFormed (low high : Int) : List Reply → Prop
  | [] => True
  | r :: rest => WellFormed low high r ∧ AllWellFormed low high rest
end

mutual
def decWellFormed (low high : Int) : (r : Reply) → Decidable (r.WellFormed low high)
  | .simple text | .error text => inferInstanceAs (Decidable (∀ c ∈ text, isText c = true))
  | .integer n => inferInstanceAs (Decidable (low ≤ n ∧ n ≤ high))
  | .bulk payload => inferInstanceAs (Decidable ((payload.length : Int) ≤ longMax))
  | .nil => isTrue trivial
  | .array items =>
    have := decAllWellFormed low high items
    inferInstanceAs (Decidable ((items.length : Int) ≤ longMax ∧ AllWellFormed low high items))
def decAllWellFormed (low high : Int) : (items : List Reply) →
    Decidable (AllWellFormed low high items)
  | [] => isTrue trivial
  | r :: rest =>
    have := decWellFormed low high r
    have := decAllWellFormed low high rest
    inferInstanceAs (Decidable (r.WellFormed low high ∧ AllWellFormed low high rest))
end

instance (low high : Int) (r : Reply) : Decidable (r.WellFormed low high) :=
  decWellFormed low high r

theorem values_eq_map (items : List Reply) : values items = items.map value := by
  induction items with
  | nil => rfl
  | cons r rest ih => rw [values, ih, List.map_cons]

mutual
theorem WellFormed.widen {low high low' high' : Int} (below : low' ≤ low) (above : high ≤ high') :
    ∀ {r : Reply}, r.WellFormed low high → r.WellFormed low' high'
  | .simple _, held | .error _, held | .bulk _, held | .nil, held => held
  | .integer _, held => ⟨Int.le_trans below held.1, Int.le_trans held.2 above⟩
  | .array _, held => ⟨held.1, AllWellFormed.widen below above held.2⟩
theorem AllWellFormed.widen {low high low' high' : Int} (below : low' ≤ low)
    (above : high ≤ high') :
    ∀ {items : List Reply}, AllWellFormed low high items → AllWellFormed low' high' items
  | [], _ => trivial
  | _ :: _, held => ⟨held.1.widen below above, held.2.widen below above⟩
end

theorem toInt_value_integer {n : Int} (low : intMin ≤ n) (high : n ≤ intMax) :
    (value (.integer n)).toInt.toInt = n :=
  Int32.toInt_ofInt_of_le low (by unfold intMax at high; omega)

/-! Reading an encoding from the start closes the value it denotes. -/

theorem text_yields (kind : TextKind) (buf text : Bytes) (frames : List Frame)
    (printable : ∀ c ∈ text, isText c = true) :
    resp.Yields ⟨.text kind buf, frames⟩ text (.more ⟨.text kind (buf ++ text), frames⟩) := by
  induction text generalizing buf with
  | nil => simpa using Machine.Yields.nil (m := resp) ⟨.text kind buf, frames⟩
  | cons c text ih =>
    have shown : isText c = true := printable c (by simp)
    have other : c ≠ cr := by rintro rfl; exact absurd shown (by decide)
    have tail := ih (buf ++ [c]) fun d member => printable d (by simp [member])
    rw [List.append_assoc, List.singleton_append] at tail
    refine Machine.Yields.cons ?_ tail
    simp only [resp, feed, if_neg other, if_pos shown]

theorem textLine_yields (kind : TextKind) (text : Bytes) (frames : List Frame)
    (printable : ∀ c ∈ text, isText c = true) :
    resp.Yields ⟨.text kind [], frames⟩ (text ++ crlf)
      (close frames (.bytes text (match kind with | .simple => false | .error => true))) := by
  refine (text_yields kind [] text frames printable).append ?_
  exact Machine.Yields.cons (t := ⟨.textEnd kind text, frames⟩) rfl (Machine.Yields.one rfl)

def isNumeral (c : UInt8) : Bool := isDigit c || c = minus

theorem numeral_yields (kind : NumberKind) (buf digits : Bytes) (frames : List Frame)
    (numeral : ∀ c ∈ digits, isNumeral c = true) :
    resp.Yields ⟨.number kind buf, frames⟩ digits
      (.more ⟨.number kind (buf ++ digits), frames⟩) := by
  induction digits generalizing buf with
  | nil => simpa using Machine.Yields.nil (m := resp) ⟨.number kind buf, frames⟩
  | cons c digits ih =>
    have shown : isNumeral c = true := numeral c (by simp)
    have other : c ≠ cr := by rintro rfl; exact absurd shown (by decide)
    have tail := ih (buf ++ [c]) fun d member => numeral d (by simp [member])
    rw [List.append_assoc, List.singleton_append] at tail
    refine Machine.Yields.cons ?_ tail
    simp only [isNumeral] at shown
    simp only [resp, feed, if_neg other, if_pos shown]

theorem isNumeral_of_mem_decimal {n : Nat} {c : UInt8} (member : c ∈ decimal n) :
    isNumeral c = true := by
  simp only [isNumeral, isDigit_of_mem_decimal member, Bool.true_or]

theorem isNumeral_of_mem_decimalInt {n : Int} {c : UInt8} (member : c ∈ decimalInt n) :
    isNumeral c = true := by
  cases n with
  | ofNat n => exact isNumeral_of_mem_decimal member
  | negSucc n =>
    simp only [decimalInt, List.mem_cons] at member
    rcases member with rfl | member
    · decide
    · exact isNumeral_of_mem_decimal member

theorem decimalInt_ne_nil (n : Int) : decimalInt n ≠ [] := by
  cases n with
  | ofNat n => exact decimal_ne_nil n
  | negSucc n => simp [decimalInt]

theorem numberLine_yields (kind : NumberKind) {n : Int} (low : longMin ≤ n) (high : n ≤ longMax)
    (frames : List Frame) :
    resp.Yields ⟨.number kind [], frames⟩ (decimalInt n ++ crlf) (announce kind n frames) := by
  have all : ∀ c ∈ decimalInt n, isNumeral c = true := fun c => isNumeral_of_mem_decimalInt
  refine (numeral_yields kind [] (decimalInt n) frames all).append ?_
  refine Machine.Yields.cons (t := ⟨.numberEnd kind (decimalInt n), frames⟩) ?_
    (Machine.Yields.one ?_)
  · simp only [resp, feed, List.nil_append, if_true, if_neg (decimalInt_ne_nil n)]
  · simp only [resp, feed, if_true, strtol_decimalInt low high]

theorem payload_yields (later : Nat) (buf payload : Bytes) (frames : List Frame)
    (announced : payload.length = later + 1) :
    resp.Yields ⟨.payload later buf, frames⟩ payload
      (.more ⟨.payloadCR (buf ++ payload), frames⟩) := by
  intro rest
  rw [scan_payload, if_pos (by rw [List.length_append]; omega), ← announced, List.take_left,
    List.drop_left]
  rfl

theorem bulk_yields (payload : Bytes) (frames : List Frame)
    (fits : (payload.length : Int) ≤ longMax) :
    resp.Yields ⟨.start, frames⟩ (encode (.bulk payload))
      (close frames (.bytes payload false)) := by
  have low : longMin ≤ (payload.length : Int) := by unfold longMin; omega
  have size := numberLine_yields .bulk low fits frames
  have ended : resp.Yields ⟨.payloadCR payload, frames⟩ crlf
      (close frames (.bytes payload false)) :=
    Machine.Yields.cons (t := ⟨.payloadLF payload, frames⟩) rfl (Machine.Yields.one rfl)
  rw [encode]
  refine Machine.Yields.cons (t := ⟨.number .bulk [], frames⟩) rfl ?_
  cases payload with
  | nil => exact size.append ended
  | cons c payload =>
    refine size.append ?_
    exact (payload_yields payload.length [] (c :: payload) frames rfl).append ended

mutual
theorem encode_yields : ∀ (r : Reply) (_ : r.WellFormed longMin longMax) (frames : List Frame),
    resp.Yields ⟨.start, frames⟩ r.encode (close frames r.value)
  | .simple text, held, frames => by
    rw [encode]
    exact Machine.Yields.cons (t := ⟨.text .simple [], frames⟩) rfl
      (textLine_yields .simple text frames held)
  | .error text, held, frames => by
    rw [encode]
    exact Machine.Yields.cons (t := ⟨.text .error [], frames⟩) rfl
      (textLine_yields .error text frames held)
  | .integer n, held, frames => by
    rw [encode]
    exact Machine.Yields.cons (t := ⟨.number .integer [], frames⟩) rfl
      (numberLine_yields .integer held.1 held.2 frames)
  | .bulk payload, held, frames => bulk_yields payload frames held
  | .nil, _, frames => by
    rw [encode]
    exact Machine.Yields.cons (t := ⟨.number .bulk [], frames⟩) rfl
      (numberLine_yields .bulk (n := -1) (by decide) (by decide) frames)
  | .array items, held, frames => by
    have low : longMin ≤ (items.length : Int) := by unfold longMin; omega
    have size := numberLine_yields .array low held.1 frames
    rw [encode, value]
    refine Machine.Yields.cons (t := ⟨.number .array [], frames⟩) rfl ?_
    cases items with
    | nil =>
      rw [encodeItems, List.append_nil]
      exact size
    | cons r rest =>
      exact size.append (encodeItems_yields (r :: rest) held.2 rest.length [] frames rfl)
theorem encodeItems_yields : ∀ (items : List Reply)
    (_ : AllWellFormed longMin longMax items) (later : Nat) (before : List RedisValue)
    (frames : List Frame), items.length = later + 1 →
    resp.Yields ⟨.start, ⟨later, before⟩ :: frames⟩ (encodeItems items)
      (close frames (.array (before ++ values items)))
  | [], _, _, _, _, count => by simp at count
  | r :: rest, held, later, before, frames, count => by
    have first := encode_yields r held.1 (⟨later, before⟩ :: frames)
    rw [encodeItems, values]
    cases later with
    | zero =>
      obtain rfl : rest = [] := List.length_eq_zero_iff.mp (by simpa using count)
      rw [encodeItems, List.append_nil, values]
      exact first
    | succ later =>
      have tail := encodeItems_yields rest held.2 later (before ++ [r.value]) frames
        (by simpa using count)
      rw [List.append_assoc, List.singleton_append] at tail
      exact Machine.Yields.append first tail
end

theorem encode_done {r : Reply} (held : r.WellFormed longMin longMax) :
    resp.Yields resp.start r.encode (.done r.value) :=
  encode_yields r held []

end Reply

open RedisParser

theorem Represents.restarted {p : RedisParser} (rep : Represents p resp.start) :
    p.state = .start ∧ p.arrayStack = [] ∧ p.valueStack = [] :=
  ⟨rep.lexer, rep.arrays, rep.values⟩

/-- Decoding undoes the encoding: the parser takes exactly the bytes of a reply, whatever
follows, gives the value it denotes and is back at its start; on less it waits. -/
theorem parse_encode (r : Reply) (fits : r.WellFormed intMin intMax) :
    (∀ rest, ∃ p q, parse {} (r.encode ++ rest) = .ok ⟨p, r.encode.length, .completed⟩ ∧
      p.result = .ok (r.value, q) ∧ q.state = .start ∧ q.arrayStack = [] ∧ q.valueStack = []) ∧
    ∀ first, first <+: r.encode → first ≠ r.encode →
      ∃ out, parse {} first = .ok out ∧ out.result = .incompleted := by
  have whole := Reply.encode_done (fits.widen (by decide) (by decide))
  constructor
  · intro rest
    obtain ⟨⟨p, count, result⟩, call, meets⟩ := parse_meets represents_initial (r.encode ++ rest)
    rw [whole.done rest] at meets
    obtain ⟨result, count, ready⟩ := meets
    obtain ⟨q, taken, rep⟩ := ready.pop .assertion
    rw [Nat.zero_add] at count
    cases result
    cases count
    exact ⟨p, q, call, taken, rep.restarted⟩
  · intro first part proper
    obtain ⟨t, waiting⟩ := whole.pending part proper
    obtain ⟨out, call, meets⟩ := parse_meets represents_initial first
    rw [waiting] at meets
    exact ⟨out, call, meets.1⟩

def sampleReply : Reply :=
  .array [.simple (ascii "OK"), .array [], .integer (-7), .bulk [0, 13, 10], .nil,
    .error (ascii "no")]

theorem parse_encode_sample :
    sampleReply.WellFormed intMin intMax ∧
    (∀ rest, ∃ p q, parse {} (sampleReply.encode ++ rest) =
        .ok ⟨p, sampleReply.encode.length, .completed⟩ ∧
      p.result = .ok (sampleReply.value, q) ∧
      q.state = .start ∧ q.arrayStack = [] ∧ q.valueStack = []) ∧
    ∀ first, first <+: sampleReply.encode → first ≠ sampleReply.encode →
      ∃ out, parse {} first = .ok out ∧ out.result = .incompleted :=
  ⟨by decide +kernel, parse_encode sampleReply (by decide +kernel)⟩

end Pinocchio.Redis
