import Pinocchio.Redis.Reply

/-! Replies as they are written.

A tree has all that stands on the wire, its numerals too. Which bytes are a numeral, and what
number they stand for, is a parameter: the protocol has one reading of numerals, and the
parser has another that takes more of them.
-/

set_option autoImplicit false

namespace Pinocchio.Redis
open Semantics Reader
open Reply (isNumeral)

/-- The readings of a numeral: of the protocol, with at most one sign in front of digits. -/
def exactNumeral : Bytes → Option Int
  | [] => none
  | c :: rest =>
    if c = minus then
      if rest ≠ [] ∧ ∀ d ∈ rest, isDigit d = true then some (-(digitsValue rest)) else none
    else if ∀ d ∈ c :: rest, isDigit d = true then some (digitsValue (c :: rest))
    else none

/-- And of the parser: digits and signs in any order, as far as the conversion takes them. -/
def lenientNumeral (num : Bytes) : Option Int :=
  if num ≠ [] ∧ ∀ c ∈ num, isNumeral c = true then some (strtol num) else none

def TextKind.byte : TextKind → UInt8
  | .simple => stringReply
  | .error => errorReply

def TextKind.isError : TextKind → Bool
  | .simple => false
  | .error => true

/-- An absent payload, and an absent array, are announced by minus one. -/
inductive Wire where
  | text (kind : TextKind) (buf : Bytes)
  | integer (num : Bytes)
  | bulk (num : Bytes) (payload : Option Bytes)
  | array (num : Bytes) (items : List Wire)

namespace Wire

/-- The bytes that follow an announced length. -/
def payloadBytes : Option Bytes → Bytes
  | none => []
  | some payload => payload ++ crlf

mutual
def bytes : Wire → Bytes
  | .text kind buf => kind.byte :: (buf ++ crlf)
  | .integer num => integerReply :: (num ++ crlf)
  | .bulk num payload => bulkReply :: (num ++ crlf ++ payloadBytes payload)
  | .array num items => arrayReply :: (num ++ crlf ++ bytesItems items)
def bytesItems : List Wire → Bytes
  | [] => []
  | w :: rest => bytes w ++ bytesItems rest
end

def Announces (n : Int) : Option Bytes → Prop
  | none => n = -1
  | some payload => n = payload.length

/-- What is in memory has a length that a `long` holds. -/
structure Fits (bytes : Bytes) : Prop where
  length : (bytes.length : Int) ≤ longMax

def Counts (n : Int) (items : List Wire) : Prop := n = items.length ∨ n = -1 ∧ items = []

mutual
/-- Texts keep to their lines, and lengths and counts are those that were announced. -/
def Formed (reads : Bytes → Option Int) : Wire → Prop
  | .text _ buf => cr ∉ buf ∧ lf ∉ buf
  | .integer num => ∃ n, reads num = some n
  | .bulk num payload => ∃ n, reads num = some n ∧ Announces n payload
  | .array num items => (∃ n, reads num = some n ∧ Counts n items) ∧ AllFormed reads items
def AllFormed (reads : Bytes → Option Int) : List Wire → Prop
  | [] => True
  | w :: rest => Formed reads w ∧ AllFormed reads rest
end

mutual
def value : Wire → RedisValue
  | .text kind buf => .bytes buf kind.isError
  | .integer num => .ofLong (strtol num)
  | .bulk _ none => .null
  | .bulk _ (some payload) => .bytes payload false
  | .array _ items => .array (values items)
def values : List Wire → List RedisValue
  | [] => []
  | w :: rest => value w :: values rest
end

mutual
/-- The value of the reply, where `absent` stands for the absent array. -/
def Denotes (absent : RedisValue) : Wire → RedisValue → Prop
  | .text kind buf, v => v = .bytes buf kind.isError
  | .integer num, v => ∃ i : Int32, exactNumeral num = some i.toInt ∧ v = .int i
  | .bulk _ none, v => v = .null
  | .bulk _ (some payload), v => v = .bytes payload false
  | .array num items, v =>
    if exactNumeral num = some (-1) then v = absent
    else ∃ vs, v = .array vs ∧ DenoteAll absent items vs
def DenoteAll (absent : RedisValue) : List Wire → List RedisValue → Prop
  | [], vs => vs = []
  | w :: rest, vs => ∃ v others, vs = v :: others ∧ Denotes absent w v ∧ DenoteAll absent rest others
end

mutual
/-- Every numeral is one of the protocol, every integer fits into an `int`, and no array is absent
unless that stands for the empty one. -/
def Proper (absent : RedisValue) : Wire → Prop
  | .text _ _ => True
  | .integer num => ∃ n, exactNumeral num = some n ∧ intMin ≤ n ∧ n ≤ intMax
  | .bulk num _ => ∃ n, exactNumeral num = some n
  | .array num items =>
    (∃ n, exactNumeral num = some n ∧ (n = -1 → absent = .array [])) ∧ AllProper absent items
def AllProper (absent : RedisValue) : List Wire → Prop
  | [] => True
  | w :: rest => Proper absent w ∧ AllProper absent rest
end

theorem bytesItems_append (first rest : List Wire) :
    bytesItems (first ++ rest) = bytesItems first ++ bytesItems rest := by
  induction first with
  | nil => rfl
  | cons w first ih => simp only [List.cons_append, bytesItems, ih, List.append_assoc]

theorem values_append (first rest : List Wire) :
    values (first ++ rest) = values first ++ values rest := by
  induction first with
  | nil => rfl
  | cons w first ih => simp only [List.cons_append, values, ih]

theorem allFormed_append {reads : Bytes → Option Int} {first rest : List Wire} :
    AllFormed reads (first ++ rest) ↔ AllFormed reads first ∧ AllFormed reads rest := by
  induction first with
  | nil => simp [AllFormed]
  | cons w first ih => simp only [List.cons_append, AllFormed, ih, and_assoc]

theorem Counts.empty {n : Int} {items : List Wire} (counts : Counts n items) (minus : n = -1) :
    items = [] := by
  rcases counts with many | ⟨_, none⟩
  · omega
  · exact none

theorem Counts.bounds {n : Int} {items : List Wire} (counts : Counts n items) :
    -1 ≤ n ∧ n ≤ items.length := by
  rcases counts with many | ⟨minus, _⟩ <;> omega

theorem length_le_bytesItems (items : List Wire) : items.length ≤ (bytesItems items).length := by
  induction items with
  | nil => exact Nat.le_refl 0
  | cons w rest ih =>
    have some : 1 ≤ (bytes w).length := by cases w <;> simp [bytes]
    rw [bytesItems, List.length_append, List.length_cons]
    omega

end Wire

/-! The parser's reading of numerals extends that of the protocol. -/

theorem takeWhile_digits {digits : Bytes} (all : ∀ d ∈ digits, isDigit d = true) :
    digits.takeWhile isDigit = digits := List.takeWhile_eq_self_iff.mpr all

theorem lenient_of_exact {num : Bytes} {n : Int} (exact : exactNumeral num = some n) :
    lenientNumeral num = some (clampLong n) := by
  unfold exactNumeral at exact
  split at exact
  · cases exact
  rename_i c rest
  split at exact
  · rename_i sign
    subst sign
    split at exact
    · rename_i digits
      cases exact
      have all : ∀ d ∈ minus :: rest, isNumeral d = true := by
        rw [List.forall_mem_cons]
        exact ⟨by decide, fun d member => by simp [isNumeral, digits.2 d member]⟩
      have space : isSpace minus = false := by decide
      rw [lenientNumeral, if_pos ⟨List.cons_ne_nil _ _, all⟩, strtol, List.dropWhile_cons, space]
      simp only [Bool.false_eq_true, if_false, if_true, takeWhile_digits digits.2]
    · cases exact
  · rename_i unsigned
    split at exact
    · rename_i digits
      cases exact
      obtain ⟨notSpace, _, notPlus⟩ := isDigit_not_sign (digits c List.mem_cons_self)
      have all : ∀ d ∈ c :: rest, isNumeral d = true :=
        fun d member => by simp [isNumeral, digits d member]
      rw [lenientNumeral, if_pos ⟨List.cons_ne_nil _ _, all⟩, strtol, List.dropWhile_cons, notSpace]
      simp only [Bool.false_eq_true, if_false, unsigned, notPlus, takeWhile_digits digits]
    · cases exact

theorem clampLong_eq {n m : Int} (same : clampLong n = m) (low : longMin < m) (high : m < longMax) :
    n = m := by
  unfold clampLong at same
  omega

theorem cr_not_mem_numeral {num : Bytes} {n : Int} (reads : lenientNumeral num = some n) :
    cr ∉ num := by
  unfold lenientNumeral at reads
  split at reads
  · rename_i numeral
    intro member
    exact absurd (numeral.2 cr member) (by decide)
  · cases reads

namespace Wire

/-! What is written can be read in one way only. -/

theorem line_unique {a b x y : Bytes} (freeA : cr ∉ a) (freeB : cr ∉ b)
    (same : a ++ crlf ++ x = b ++ crlf ++ y) : a = b ∧ x = y := by
  induction a generalizing b with
  | nil =>
    cases b with
    | nil => exact ⟨rfl, by simpa using same⟩
    | cons c b =>
      have head : cr = c := by simpa [crlf] using congrArg List.head? same
      exact absurd (head ▸ List.mem_cons_self) freeB
  | cons c a ih =>
    cases b with
    | nil =>
      have head : c = cr := by simpa [crlf] using congrArg List.head? same
      exact absurd (head ▸ List.mem_cons_self) freeA
    | cons d b =>
      obtain ⟨head, tail⟩ := List.cons.inj same
      obtain ⟨rest, after⟩ := ih (fun member => freeA (List.mem_cons_of_mem _ member))
        (fun member => freeB (List.mem_cons_of_mem _ member)) tail
      exact ⟨by rw [head, rest], after⟩

theorem payload_unique {n : Int} {first second : Option Bytes} {x y : Bytes}
    (one : Announces n first) (two : Announces n second)
    (same : payloadBytes first ++ x = payloadBytes second ++ y) : first = second ∧ x = y := by
  cases first with
  | none =>
    cases second with
    | none => exact ⟨rfl, same⟩
    | some q => simp only [Announces] at one two; omega
  | some p =>
    cases second with
    | none => simp only [Announces] at one two; omega
    | some q =>
      simp only [Announces] at one two
      rw [payloadBytes, payloadBytes, List.append_assoc, List.append_assoc] at same
      obtain ⟨rfl, after⟩ := List.append_inj same (by omega)
      exact ⟨rfl, List.append_cancel_left after⟩

mutual
theorem bytes_unique : ∀ (w u : Wire) {x y : Bytes}, w.Formed lenientNumeral →
    u.Formed lenientNumeral → w.bytes ++ x = u.bytes ++ y → w = u ∧ x = y
  | .text kind buf, .text other line, x, y, one, two, same => by
    simp only [bytes, List.cons_append] at same
    obtain ⟨head, tail⟩ := List.cons.inj same
    obtain ⟨rfl, rfl⟩ := line_unique one.1 two.1 tail
    cases kind <;> cases other <;> first | exact ⟨rfl, rfl⟩ | exact absurd head (by decide)
  | .integer num, .integer other, x, y, ⟨_, one⟩, ⟨_, two⟩, same => by
    simp only [bytes, List.cons_append] at same
    obtain ⟨rfl, rfl⟩ := line_unique (cr_not_mem_numeral one) (cr_not_mem_numeral two)
      (List.cons.inj same).2
    exact ⟨rfl, rfl⟩
  | .bulk num payload, .bulk other again, x, y, ⟨_, one, announced⟩, ⟨_, two, repeated⟩, same => by
    simp only [bytes, List.cons_append, List.append_assoc _ _ x, List.append_assoc _ _ y] at same
    obtain ⟨rfl, after⟩ := line_unique (cr_not_mem_numeral one) (cr_not_mem_numeral two)
      (List.cons.inj same).2
    cases one.symm.trans two
    obtain ⟨rfl, rfl⟩ := payload_unique announced repeated after
    exact ⟨rfl, rfl⟩
  | .array num items, .array other rest, x, y, ⟨⟨_, one, counted⟩, formed⟩,
      ⟨⟨_, two, again⟩, others⟩, same => by
    simp only [bytes, List.cons_append, List.append_assoc _ _ x, List.append_assoc _ _ y] at same
    obtain ⟨rfl, after⟩ := line_unique (cr_not_mem_numeral one) (cr_not_mem_numeral two)
      (List.cons.inj same).2
    cases one.symm.trans two
    have length : items.length = rest.length := by
      rcases counted with long | ⟨minus, none⟩ <;> rcases again with other | ⟨_, absent⟩
      · omega
      · omega
      · omega
      · rw [none, absent]
    obtain ⟨rfl, rfl⟩ := bytesItems_unique items rest formed others length after
    exact ⟨rfl, rfl⟩
  | .text kind _, .integer _, _, _, _, _, same | .text kind _, .bulk _ _, _, _, _, _, same
  | .text kind _, .array _ _, _, _, _, _, same => by
    cases kind <;> exact absurd (List.cons.inj same).1 (by decide)
  | .integer _, .text kind _, _, _, _, _, same | .bulk _ _, .text kind _, _, _, _, _, same
  | .array _ _, .text kind _, _, _, _, _, same => by
    cases kind <;> exact absurd (List.cons.inj same).1 (by decide)
  | .integer _, .bulk _ _, _, _, _, _, same | .integer _, .array _ _, _, _, _, _, same
  | .bulk _ _, .integer _, _, _, _, _, same | .bulk _ _, .array _ _, _, _, _, _, same
  | .array _ _, .integer _, _, _, _, _, same | .array _ _, .bulk _ _, _, _, _, _, same =>
    absurd (List.cons.inj same).1 (by decide)
theorem bytesItems_unique : ∀ (items others : List Wire) {x y : Bytes},
    AllFormed lenientNumeral items → AllFormed lenientNumeral others →
    items.length = others.length → bytesItems items ++ x = bytesItems others ++ y →
    items = others ∧ x = y
  | [], [], _, _, _, _, _, same => ⟨rfl, same⟩
  | w :: items, u :: others, x, y, one, two, length, same => by
    rw [bytesItems, bytesItems, List.append_assoc, List.append_assoc] at same
    obtain ⟨rfl, after⟩ := bytes_unique w u one.1 two.1 same
    obtain ⟨rfl, rfl⟩ := bytesItems_unique items others one.2 two.2 (Nat.succ.inj length) after
    exact ⟨rfl, rfl⟩
  | [], _ :: _, _, _, _, _, length, _ => by cases length
  | _ :: _, [], _, _, _, _, length, _ => by cases length
end

/-! Where the two readings agree. -/

theorem exact_of_lenient {num : Bytes} {n m : Int} (exact : exactNumeral num = some n)
    (reads : lenientNumeral num = some m) (low : -1 ≤ m) (high : m < longMax) : n = m := by
  have same := Option.some.inj ((lenient_of_exact exact).symm.trans reads)
  exact clampLong_eq same (by unfold longMin; omega) high

theorem lenient_of_length {num : Bytes} {n : Int} (exact : exactNumeral num = some n)
    (low : -1 ≤ n) (high : n ≤ longMax) : lenientNumeral num = some n := by
  rw [lenient_of_exact exact, clampLong_of_range (by unfold longMin; omega) high]

theorem integer_denotes {num : Bytes} {absent : RedisValue} :
    (Wire.integer num).Formed exactNumeral ∧
        (Wire.integer num).Denotes absent (Wire.integer num).value ↔
      ∃ n, exactNumeral num = some n ∧ intMin ≤ n ∧ n ≤ intMax := by
  have number {n : Int} (exact : exactNumeral num = some n) : strtol num = clampLong n := by
    have reads := lenient_of_exact exact
    unfold lenientNumeral at reads
    split at reads
    · exact Option.some.inj reads
    · cases reads
  constructor
  · rintro ⟨_, i, exact, _⟩
    exact ⟨i.toInt, exact, i.le_toInt, Int.le_of_lt_add_one i.toInt_lt⟩
  · rintro ⟨n, exact, low, high⟩
    have same : (Int32.ofInt n).toInt = n :=
      Int32.toInt_ofInt_of_le low (by unfold intMax at high; omega)
    refine ⟨⟨n, exact⟩, Int32.ofInt n, by rw [same, exact], ?_⟩
    rw [value, RedisValue.ofLong, number exact, clampLong_of_range]
    · unfold intMin at low
      unfold longMin
      omega
    · unfold intMax at high
      unfold longMax
      omega

theorem bulk_denotes {num : Bytes} {payload : Option Bytes} {absent : RedisValue}
    (formed : (Wire.bulk num payload).Formed lenientNumeral)
    (fits : ((Wire.bulk num payload).bytes.length : Int) ≤ longMax) :
    (Wire.bulk num payload).Formed exactNumeral ∧
        (Wire.bulk num payload).Denotes absent (Wire.bulk num payload).value ↔
      ∃ n, exactNumeral num = some n := by
  obtain ⟨m, reads, announced⟩ := formed
  constructor
  · rintro ⟨⟨n, exact, _⟩, _⟩
    exact ⟨n, exact⟩
  · rintro ⟨n, exact⟩
    cases payload with
    | none =>
      obtain rfl := exact_of_lenient exact reads (by simp only [Announces] at announced; omega)
        (by simp only [Announces] at announced; unfold longMax; omega)
      exact ⟨⟨n, exact, announced⟩, rfl⟩
    | some payload =>
      simp only [Announces] at announced
      simp only [bytes, payloadBytes, List.length_cons, List.length_append] at fits
      obtain rfl := exact_of_lenient exact reads (by omega) (by omega)
      exact ⟨⟨n, exact, announced⟩, rfl⟩

mutual
theorem proper_iff (absent : RedisValue) : ∀ w : Wire, w.Formed lenientNumeral →
    Fits w.bytes →
    (w.Formed exactNumeral ∧ w.Denotes absent w.value ↔ w.Proper absent)
  | .text _ _, formed, _ => iff_of_true ⟨formed, rfl⟩ trivial
  | .integer _, _, _ => integer_denotes
  | .bulk _ _, formed, fits => bulk_denotes formed fits.length
  | .array num items, ⟨⟨m, reads, counted⟩, formed⟩, ⟨fits⟩ => by
    have items_le := length_le_bytesItems items
    simp only [bytes, List.length_cons, List.length_append] at fits
    have inner := allProper_iff absent items formed ⟨by omega⟩
    have bounds := counted.bounds
    constructor
    · rintro ⟨⟨⟨n, exact, count⟩, all⟩, denotes⟩
      unfold Denotes at denotes
      by_cases minus : n = -1
      · obtain rfl := count.empty minus
        rw [if_pos (by rw [exact, minus])] at denotes
        exact ⟨⟨n, exact, fun _ => denotes.symm⟩, trivial⟩
      · rw [if_neg (by simpa [exact] using minus)] at denotes
        obtain ⟨vs, same, each⟩ := denotes
        injection same with same
        subst same
        exact ⟨⟨n, exact, fun other => absurd other minus⟩, inner.mp ⟨all, each⟩⟩
    · rintro ⟨⟨n, exact, empty⟩, proper⟩
      obtain ⟨all, each⟩ := inner.mpr proper
      obtain rfl := exact_of_lenient exact reads bounds.1 (by omega)
      refine ⟨⟨⟨n, exact, counted⟩, all⟩, ?_⟩
      unfold Denotes
      by_cases minus : n = -1
      · obtain rfl := counted.empty minus
        rw [if_pos (by rw [exact, minus])]
        exact (empty minus).symm
      · rw [if_neg (by simpa [exact] using minus)]
        exact ⟨values items, rfl, each⟩
theorem allProper_iff (absent : RedisValue) : ∀ items : List Wire, AllFormed lenientNumeral items →
    Fits (bytesItems items) →
    (AllFormed exactNumeral items ∧ DenoteAll absent items (values items) ↔
      AllProper absent items)
  | [], _, _ => iff_of_true ⟨trivial, rfl⟩ trivial
  | w :: rest, formed, ⟨fits⟩ => by
    rw [bytesItems, List.length_append] at fits
    have first := proper_iff absent w formed.1 ⟨by omega⟩
    have others := allProper_iff absent rest formed.2 ⟨by omega⟩
    constructor
    · rintro ⟨all, v, vs, same, denotes, each⟩
      obtain ⟨rfl, rfl⟩ := List.cons.inj same
      exact ⟨first.mp ⟨all.1, denotes⟩, others.mp ⟨all.2, each⟩⟩
    · rintro ⟨proper, all⟩
      obtain ⟨formed, denotes⟩ := first.mpr proper
      obtain ⟨rest, each⟩ := others.mpr all
      exact ⟨⟨formed, rest⟩, _, _, rfl, denotes, each⟩
end

mutual
theorem formed_lenient : ∀ w : Wire, w.Formed exactNumeral → Fits w.bytes →
    w.Formed lenientNumeral
  | .text _ _, formed, _ => formed
  | .integer _, ⟨_, exact⟩, _ => ⟨_, lenient_of_exact exact⟩
  | .bulk num none, ⟨n, exact, announced⟩, _ =>
    ⟨n, lenient_of_length exact (by simp only [Announces] at announced; omega)
      (by simp only [Announces] at announced; unfold longMax; omega), announced⟩
  | .bulk num (some payload), ⟨n, exact, announced⟩, ⟨fits⟩ => by
    simp only [Announces] at announced
    simp only [bytes, payloadBytes, List.length_cons, List.length_append] at fits
    exact ⟨n, lenient_of_length exact (by omega) (by omega), announced⟩
  | .array num items, ⟨⟨n, exact, counted⟩, all⟩, ⟨fits⟩ => by
    have items_le := length_le_bytesItems items
    simp only [bytes, List.length_cons, List.length_append] at fits
    have bounds := counted.bounds
    exact ⟨⟨n, lenient_of_length exact bounds.1 (by omega), counted⟩,
      allFormed_lenient items all ⟨by omega⟩⟩
theorem allFormed_lenient : ∀ items : List Wire, AllFormed exactNumeral items →
    Fits (bytesItems items) → AllFormed lenientNumeral items
  | [], _, _ => trivial
  | w :: rest, formed, ⟨fits⟩ => by
    rw [bytesItems, List.length_append] at fits
    exact ⟨formed_lenient w formed.1 ⟨by omega⟩, allFormed_lenient rest formed.2 ⟨by omega⟩⟩
end

end Wire

/-- The bytes are a reply of the protocol, and this is its value. -/
def IsReply (absent : RedisValue) (bytes : Bytes) (v : RedisValue) : Prop :=
  ∃ w : Wire, w.bytes = bytes ∧ w.Formed exactNumeral ∧ w.Denotes absent v

theorem isReply_iff (absent : RedisValue) {w : Wire} (formed : w.Formed lenientNumeral)
    (fits : Wire.Fits w.bytes) :
    IsReply absent w.bytes w.value ↔ w.Proper absent := by
  constructor
  · rintro ⟨u, same, exact, denotes⟩
    have taken := u.formed_lenient exact (same ▸ fits)
    obtain ⟨rfl, _⟩ := Wire.bytes_unique u w taken formed (x := []) (y := []) (by rw [same])
    exact (u.proper_iff absent formed fits).mp ⟨exact, denotes⟩
  · intro proper
    obtain ⟨exact, denotes⟩ := (w.proper_iff absent formed fits).mpr proper
    exact ⟨w, rfl, exact, denotes⟩

end Pinocchio.Redis
