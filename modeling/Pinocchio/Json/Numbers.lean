import Mathlib.Algebra.Order.Floor.Semiring
import Mathlib.Data.Int.Log
import Mathlib.Data.List.DropRight
import Mathlib.Data.Rat.Floor
import Mathlib.Tactic.FieldSimp
import Mathlib.Tactic.Positivity
import Mathlib.Tactic.Linarith
import Pinocchio.Json.Text

/-! Numbers between their texts and doubles.

`%g` keeps six significant digits, so the text that it gives denotes the number that it was given
exactly when that number has no more of them.
-/

set_option autoImplicit false

namespace Pinocchio.Json
open Semantics

/-- A finite double. Zero has a sign as well. -/
structure Double where
  negative : Bool
  magnitude : ℚ
  nonneg : 0 ≤ magnitude

def Double.value (d : Double) : ℚ := if d.negative then -d.magnitude else d.magnitude

/-! ## `%g` -/

/-- The nearest natural number, and of two that are as near the even one. -/
def roundEven (q : ℚ) : Nat :=
  let below := ⌊q⌋₊
  if q - below < 1 / 2 ∨ q - below = 1 / 2 ∧ below % 2 = 0 then below else below + 1

/-- The six digits of a positive number, as one number, and the exponent of the first of them. -/
def scientific (q : ℚ) : Nat × Int :=
  let exponent := Int.log 10 q
  let digits := roundEven (q / 10 ^ (exponent - 5))
  -- Rounding up nines gives a seventh digit, and the exponent of a power of ten.
  if digits = 10 ^ 6 then (10 ^ 5, exponent + 1) else (digits, exponent)

def lastDigits : Nat → Nat → Bytes
  | 0, _ => []
  | places + 1, n => lastDigits places (n / 10) ++ [UInt8.ofNat (48 + n % 10)]

def fractionDigits (places n : Nat) : Bytes := (lastDigits places n).rdropWhile (· = 48)

/-- A number with so many digits behind the point, which goes when there are none. -/
def pointed (places n : Nat) : Bytes :=
  decimal (n / 10 ^ places) ++
    if fractionDigits places n = [] then [] else 46 :: fractionDigits places n

def exponentDigits (n : Nat) : Bytes := if n < 10 then 48 :: decimal n else decimal n

/-- `sprintf` with `%g`. -/
def formatG (d : Double) : Bytes :=
  (if d.negative then [minus] else []) ++
    if d.magnitude = 0 then ascii "0"
    else
      let (digits, exponent) := scientific d.magnitude
      -- The style with an exponent is for numbers that are very small or have more than six digits.
      if -4 ≤ exponent ∧ exponent < 6 then pointed (5 - exponent).toNat digits
      else pointed 5 digits ++ 101 :: (if exponent < 0 then minus else 43) ::
        exponentDigits exponent.natAbs

example : formatG ⟨true, 1234567, by norm_num⟩ = ascii "-1.23457e+06" := by decide +kernel

theorem roundEven_natCast (n : Nat) : roundEven n = n := by
  simp [roundEven]

theorem roundEven_le (q : ℚ) : ⌊q⌋₊ ≤ roundEven q ∧ roundEven q ≤ ⌊q⌋₊ + 1 := by
  unfold roundEven
  dsimp only
  split <;> omega

theorem scaled_bounds {q : ℚ} (positive : 0 < q) :
    (10 : ℚ) ^ 5 ≤ q / 10 ^ (Int.log 10 q - 5) ∧ q / 10 ^ (Int.log 10 q - 5) < 10 ^ 6 := by
  have low := Int.zpow_log_le_self (b := 10) (by decide) positive
  have high := Int.lt_zpow_succ_log_self (b := 10) (by decide) q
  have scale : (0 : ℚ) < 10 ^ (Int.log 10 q - 5) := zpow_pos (by norm_num) _
  push_cast at low high
  rw [le_div_iff₀ scale, div_lt_iff₀ scale]
  -- The first digit is at `Int.log`, so five digits come after it.
  have five : (10 : ℚ) ^ 5 * 10 ^ (Int.log 10 q - 5) = 10 ^ Int.log 10 q := by
    rw [← zpow_natCast, ← zpow_add₀ (by norm_num)]
    congr 1
    omega
  have six : (10 : ℚ) ^ 6 * 10 ^ (Int.log 10 q - 5) = 10 ^ (Int.log 10 q + 1) := by
    rw [← zpow_natCast, ← zpow_add₀ (by norm_num)]
    congr 1
    omega
  exact ⟨five ▸ low, six ▸ high⟩

theorem scientific_bounds {q : ℚ} (positive : 0 < q) :
    10 ^ 5 ≤ (scientific q).1 ∧ (scientific q).1 < 10 ^ 6 := by
  obtain ⟨low, high⟩ := scaled_bounds positive
  have rounded := roundEven_le (q / 10 ^ (Int.log 10 q - 5))
  have least : 10 ^ 5 ≤ ⌊q / 10 ^ (Int.log 10 q - 5)⌋₊ := Nat.le_floor (by exact_mod_cast low)
  have most : ⌊q / 10 ^ (Int.log 10 q - 5)⌋₊ < 10 ^ 6 :=
    (Nat.floor_lt (by linarith)).mpr (by exact_mod_cast high)
  unfold scientific
  dsimp only
  split <;> omega

theorem isDigit_ofNat (n : Nat) : isDigit (UInt8.ofNat (48 + n % 10)) = true := by
  have small : n % 10 < 10 := Nat.mod_lt n (by decide)
  simp only [isDigit, Bool.and_eq_true, decide_eq_true_eq, UInt8.le_iff_toNat_le,
    UInt8.toNat_ofNat']
  simp only [UInt8.reduceToNat]
  omega

theorem isDigit_of_mem_lastDigits {places n : Nat} {c : UInt8} (member : c ∈ lastDigits places n) :
    isDigit c = true := by
  induction places generalizing n with
  | zero => exact nomatch member
  | succ places ih =>
    rcases List.mem_append.mp member with member | member
    · exact ih member
    · rw [List.mem_singleton.mp member]
      exact isDigit_ofNat n

theorem length_lastDigits (places n : Nat) : (lastDigits places n).length = places := by
  induction places generalizing n with
  | zero => rfl
  | succ places ih => simp [lastDigits, ih]

theorem digitsValue_concat (digits : Bytes) (c : UInt8) :
    digitsValue (digits ++ [c]) = 10 * digitsValue digits + (c.toNat - 48) := by
  simp [digitsValue, List.foldl_append]

theorem digitsValue_lastDigits (places n : Nat) :
    digitsValue (lastDigits places n) = n % 10 ^ places := by
  induction places generalizing n with
  | zero => simp [lastDigits, digitsValue, Nat.mod_one]
  | succ places ih =>
    -- The last digit is what is left over; the others are those of the quotient.
    have digit : (UInt8.ofNat (48 + n % 10)).toNat - 48 = n % 10 := by
      simp only [UInt8.toNat_ofNat']
      omega
    rw [lastDigits, digitsValue_concat, ih, digit, pow_succ', Nat.mod_mul]
    omega

theorem fraction_rdropWhile (digits : Bytes) :
    (digitsValue (digits.rdropWhile (· = 48)) : ℚ) / 10 ^ (digits.rdropWhile (· = 48)).length =
      digitsValue digits / 10 ^ digits.length := by
  induction digits using List.reverseRecOn with
  | nil => rfl
  | append_singleton digits c ih =>
    rw [List.rdropWhile_concat]
    split
    · rename_i zero
      obtain rfl : c = 48 := of_decide_eq_true zero
      rw [ih, digitsValue_concat, List.length_append, List.length_singleton, pow_succ]
      push_cast
      field_simp
      simp
    · rfl

theorem isDigit_of_mem_fractionDigits {places n : Nat} {c : UInt8}
    (member : c ∈ fractionDigits places n) : isDigit c = true :=
  isDigit_of_mem_lastDigits ((List.rdropWhile_prefix _ _).mem member)

theorem fraction_fractionDigits (places n : Nat) :
    (digitsValue (fractionDigits places n) : ℚ) / 10 ^ (fractionDigits places n).length =
      (n % 10 ^ places : Nat) / 10 ^ places := by
  rw [fractionDigits, fraction_rdropWhile, digitsValue_lastDigits, length_lastDigits]

def pointedNumeral (negative : Bool) (places n : Nat) (exponent : Option Exponent) : Numeral :=
  ⟨negative, n / 10 ^ places, fractionDigits places n,
    fun _ member => isDigit_of_mem_fractionDigits member, exponent⟩

theorem pointedNumeral_bytes (negative : Bool) (places n : Nat) (exponent : Option Exponent) :
    (pointedNumeral negative places n exponent).bytes =
      (if negative then [minus] else []) ++ (pointed places n ++
        exponent.elim [] Exponent.bytes) := by
  simp only [Numeral.bytes, pointedNumeral, pointed, List.append_assoc]
  rfl

theorem pointedNumeral_magnitude (negative : Bool) (places n : Nat) (exponent : Option Exponent) :
    (pointedNumeral negative places n exponent).magnitude =
      n / 10 ^ places * exponent.elim 1 (10 ^ ·.value) := by
  have parts : (n : ℚ) = (10 ^ places * (n / 10 ^ places) + n % 10 ^ places : Nat) := by
    rw [Nat.div_add_mod]
  simp only [Numeral.magnitude, pointedNumeral, fraction_fractionDigits]
  congr 1
  conv_rhs => rw [parts]
  push_cast
  field_simp

theorem digitsValue_exponentDigits (n : Nat) : digitsValue (exponentDigits n) = n := by
  unfold exponentDigits
  split
  · exact digitsValue_decimal n
  · exact digitsValue_decimal n

theorem isDigit_of_mem_exponentDigits {n : Nat} {c : UInt8} (member : c ∈ exponentDigits n) :
    isDigit c = true := by
  unfold exponentDigits at member
  split at member
  · rcases List.mem_cons.mp member with rfl | member
    · decide
    · exact isDigit_of_mem_decimal member
  · exact isDigit_of_mem_decimal member

/-- An exponent as `%g` writes it, with a sign and two digits or more. -/
def signedExponent (x : Int) : Exponent :=
  ⟨false, some (decide (x < 0)), exponentDigits x.natAbs, by
    unfold exponentDigits
    split <;> simp [decimal_ne_nil], fun _ member => isDigit_of_mem_exponentDigits member⟩

theorem signedExponent_bytes (x : Int) :
    (signedExponent x).bytes = 101 :: (if x < 0 then minus else 43) :: exponentDigits x.natAbs := by
  by_cases negative : x < 0 <;> simp [signedExponent, Exponent.bytes, negative]

theorem signedExponent_value (x : Int) : (signedExponent x).value = x := by
  by_cases negative : x < 0
  · simp only [signedExponent, Exponent.value, negative, decide_true, if_true,
      digitsValue_exponentDigits]
    omega
  · simp only [signedExponent, Exponent.value, negative, decide_false, Option.some.injEq,
      Bool.false_eq_true, if_false, digitsValue_exponentDigits]
    omega

/-- What is left of a magnitude in its text. -/
def significant (q : ℚ) : ℚ :=
  if q = 0 then 0 else (scientific q).1 * 10 ^ ((scientific q).2 - 5)

theorem formatG_numeral (d : Double) : ∃ n : Numeral, formatG d = n.bytes ∧ n.Plain ∧
    n.negative = d.negative ∧ n.magnitude = significant d.magnitude := by
  by_cases zero : d.magnitude = 0
  · refine ⟨pointedNumeral d.negative 0 0 none, ?_, fun _ _ => rfl, rfl, ?_⟩
    · rw [pointedNumeral_bytes, formatG, if_pos zero]
      rfl
    · simp [pointedNumeral_magnitude, significant, zero]
  · have positive : 0 < d.magnitude := lt_of_le_of_ne d.nonneg (Ne.symm zero)
    obtain ⟨low, high⟩ := scientific_bounds positive
    simp only [formatG, significant, if_neg zero]
    generalize scientific d.magnitude = written at *
    obtain ⟨digits, x⟩ := written
    by_cases fixed : -4 ≤ x ∧ x < 6
    · refine ⟨pointedNumeral d.negative (5 - x).toNat digits none, ?_, fun _ _ => rfl, rfl, ?_⟩
      · rw [pointedNumeral_bytes, if_pos fixed]
        simp
      · have places : x - 5 = -((5 - x).toNat : Int) := by omega
        rw [pointedNumeral_magnitude, places, zpow_neg, zpow_natCast]
        simp [div_eq_mul_inv]
    · refine ⟨pointedNumeral d.negative 5 digits (some (signedExponent x)), ?_, fun none => ?_, rfl, ?_⟩
      · rw [pointedNumeral_bytes, if_neg fixed]
        simp [signedExponent_bytes]
      · have whole : digits / 10 ^ 5 = 0 := none
        omega
      · rw [pointedNumeral_magnitude]
        simp only [Option.elim_some, signedExponent_value]
        rw [zpow_sub₀ (by norm_num)]
        norm_num
        ring

/-- A number with six significant digits at most. -/
def IsShort (q : ℚ) : Prop := ∃ (m : Nat) (k : Int), m < 10 ^ 6 ∧ |q| = m * 10 ^ k

def Value.ShortNumber : Value → Prop
  | .number q => IsShort q
  | _ => True

/-- No number in a value has more digits. -/
def Value.IsShort (v : Value) : Prop := v.All Value.ShortNumber

theorem significant_isShort {q : ℚ} (nonneg : 0 ≤ q) : IsShort (significant q) := by
  unfold significant
  split
  · exact ⟨0, 0, by decide, by simp⟩
  · rename_i some
    refine ⟨_, _, (scientific_bounds (lt_of_le_of_ne nonneg (Ne.symm some))).2, abs_of_nonneg ?_⟩
    exact mul_nonneg (Nat.cast_nonneg _) (zpow_nonneg (by norm_num) _)

theorem significant_of_isShort {q : ℚ} (nonneg : 0 ≤ q) (short : IsShort q) :
    significant q = q := by
  by_cases zero : q = 0
  · simp [significant, zero]
  have positive : 0 < q := lt_of_le_of_ne nonneg (Ne.symm zero)
  obtain ⟨m, k, small, same⟩ := short
  rw [abs_of_nonneg nonneg] at same
  subst same
  have power : (0 : ℚ) < 10 ^ k := zpow_pos (by norm_num) k
  have upper : (m : ℚ) * 10 ^ k < 10 ^ (k + 6) := by
    rw [zpow_add₀ (by norm_num), mul_comm]
    exact mul_lt_mul_of_pos_left (by exact_mod_cast small) power
  -- Six digits reach down to the factor `m`, so what is scaled is a natural number already.
  have exponent : Int.log 10 ((m : ℚ) * 10 ^ k) < k + 6 :=
    (Int.lt_zpow_iff_log_lt (by decide) positive).mp (by exact_mod_cast upper)
  obtain ⟨n, whole⟩ : ∃ n : Nat, (m : ℚ) * 10 ^ k / 10 ^ (Int.log 10 ((m : ℚ) * 10 ^ k) - 5) = n := by
    refine ⟨m * 10 ^ (k - (Int.log 10 ((m : ℚ) * 10 ^ k) - 5)).toNat, ?_⟩
    push_cast
    rw [mul_div_assoc, ← zpow_sub₀ (by norm_num), ← zpow_natCast]
    congr 2
    omega
  have high := (scaled_bounds positive).2
  rw [whole] at high
  have written : scientific ((m : ℚ) * 10 ^ k) = (n, Int.log 10 ((m : ℚ) * 10 ^ k)) := by
    unfold scientific
    dsimp only
    rw [whole, roundEven_natCast, if_neg (by exact_mod_cast high.ne)]
  rw [significant, if_neg zero, written, ← whole]
  exact div_mul_cancel₀ _ (zpow_pos (by norm_num) _).ne'

namespace Numeral

theorem magnitude_nonneg (n : Numeral) : 0 ≤ n.magnitude := by
  unfold magnitude
  refine mul_nonneg (add_nonneg (Nat.cast_nonneg _) (by positivity)) ?_
  cases n.exponent with
  | none => exact zero_le_one
  | some e => exact zpow_nonneg (by norm_num) _

theorem abs_value (n : Numeral) : |n.value| = n.magnitude := by
  unfold value
  split
  · rw [abs_neg, abs_of_nonneg n.magnitude_nonneg]
  · exact abs_of_nonneg n.magnitude_nonneg

def double (n : Numeral) : Double := ⟨n.negative, n.magnitude, n.magnitude_nonneg⟩

end Numeral

theorem formatG_double (n : Numeral) : ∃ m : Numeral, formatG n.double = m.bytes ∧ m.Plain ∧
    IsShort m.value ∧ (IsShort n.value → m.value = n.value) := by
  obtain ⟨m, written, plain, sign, magnitude⟩ := formatG_numeral n.double
  have short : IsShort m.magnitude := magnitude ▸ significant_isShort n.magnitude_nonneg
  refine ⟨m, written, plain, ?_, fun few => ?_⟩
  · rw [IsShort, m.abs_value, ← abs_of_nonneg m.magnitude_nonneg]
    exact short
  · have kept : significant n.magnitude = n.magnitude := by
      refine significant_of_isShort n.magnitude_nonneg ?_
      rw [IsShort, abs_of_nonneg n.magnitude_nonneg, ← n.abs_value]
      exact few
    have same : m.magnitude = n.magnitude := magnitude.trans kept
    have signs : m.negative = n.negative := sign
    rw [Numeral.value, Numeral.value, same, signs]

theorem not_isShort {n : Nat} (big : 10 ^ 6 ≤ n) (last : n % 10 ≠ 0) : ¬IsShort n := by
  rintro ⟨m, k, small, same⟩
  rw [abs_of_nonneg (Nat.cast_nonneg n)] at same
  -- With a power of ten in it the last digit is zero; without one the number is too small.
  by_cases positive : 0 < k
  · obtain ⟨j, rfl⟩ : ∃ j : Nat, k = j + 1 := ⟨(k - 1).toNat, by omega⟩
    have whole : n = m * 10 ^ j * 10 := by
      have power : (m : ℚ) * 10 ^ ((j : Int) + 1) = (m * 10 ^ j * 10 : Nat) := by
        rw [zpow_add_one₀ (by norm_num), zpow_natCast]
        push_cast
        ring
      exact_mod_cast same.trans power
    omega
  · have power : (10 : ℚ) ^ k ≤ 1 := zpow_le_one_of_nonpos₀ (by norm_num) (by omega)
    have bound : (n : ℚ) ≤ m := same.trans_le (mul_le_of_le_one_right (Nat.cast_nonneg m) power)
    have : n ≤ m := by exact_mod_cast bound
    omega

/-! ## Reading a number -/

def readSign : Bytes → Bool × Bytes
  | [] => (false, [])
  | c :: text => if c = minus then (true, text) else (false, c :: text)

def readExponent (text : Bytes) : Int :=
  match text with
  | [] => 0
  | c :: digits =>
    if c = minus then -(digitsValue digits : Int)
    else if c = 43 then digitsValue digits
    else digitsValue text

def readFraction : Bytes → Bytes × Bytes
  | [] => ([], [])
  | c :: text => if c = 46 then (text.takeWhile isDigit, text.dropWhile isDigit) else ([], c :: text)

/-- The number that a text denotes, read exactly. -/
def readNumber (text : Bytes) : Bool × ℚ :=
  let (negative, text) := readSign text
  let (fraction, rest) := readFraction (text.dropWhile isDigit)
  (negative, (digitsValue (text.takeWhile isDigit) + digitsValue fraction / 10 ^ fraction.length) *
    10 ^ readExponent rest.tail)

theorem takeWhile_digits {digits : Bytes} (all : ∀ c ∈ digits, isDigit c = true) {rest : Bytes}
    (stops : rest.head?.all (!isDigit ·) = true) :
    (digits ++ rest).takeWhile isDigit = digits ∧ (digits ++ rest).dropWhile isDigit = rest := by
  rw [List.takeWhile_append_of_pos all, List.dropWhile_append_of_pos all]
  cases rest with
  | nil => simp
  | cons c rest =>
    have other : isDigit c = false := by simpa using stops
    simp [other]

theorem readExponent_bytes (e : Exponent) : readExponent e.bytes.tail = e.value := by
  obtain ⟨upper, sign, digits, nonempty, all⟩ := e
  cases digits with
  | nil => exact absurd rfl nonempty
  | cons c digits =>
    have digit := isDigit_not_sign (all c (by simp))
    cases sign with
    | none => simp [Exponent.bytes, Exponent.value, readExponent, digit]
    | some sign => cases sign <;> simp [Exponent.bytes, Exponent.value, readExponent, minus]

theorem exponentBytes_stops (exponent : Option Exponent) :
    (exponent.elim [] Exponent.bytes).head?.all (!isDigit ·) = true ∧
      (exponent.elim [] Exponent.bytes).head? ≠ some 46 := by
  cases exponent with
  | none => exact ⟨rfl, by simp⟩
  | some e =>
    obtain ⟨upper, sign, digits, nonempty, all⟩ := e
    cases upper <;> exact ⟨rfl, by simp [Exponent.bytes]⟩

theorem readFraction_append {fraction rest : Bytes} (all : ∀ c ∈ fraction, isDigit c = true)
    (stops : rest.head?.all (!isDigit ·) = true) (point : rest.head? ≠ some 46) :
    readFraction ((if fraction = [] then [] else 46 :: fraction) ++ rest) = (fraction, rest) := by
  split
  · rename_i none
    subst none
    cases rest with
    | nil => rfl
    | cons c rest =>
      have other : c ≠ 46 := by simpa using point
      simp [readFraction, other]
  · obtain ⟨taken, dropped⟩ := takeWhile_digits all stops
    simp [readFraction, taken, dropped]

theorem readNumber_bytes (n : Numeral) : readNumber n.bytes = (n.negative, n.magnitude) := by
  obtain ⟨negative, whole, fraction, all, exponent⟩ := n
  obtain ⟨stops, point⟩ := exponentBytes_stops exponent
  -- The digits of the whole part end at the point, at the exponent or at the end.
  have rest : ((if fraction = [] then [] else 46 :: fraction) ++
      exponent.elim [] Exponent.bytes).head?.all (!isDigit ·) = true := by
    split
    · exact stops
    · rfl
  obtain ⟨taken, dropped⟩ := takeWhile_digits
    (fun c (member : c ∈ decimal whole) => isDigit_of_mem_decimal member) rest
  have signed (text : Bytes) : readSign ((if negative then [minus] else []) ++
      (decimal whole ++ text)) = (negative, decimal whole ++ text) := by
    cases negative with
    | true => rfl
    | false =>
      cases digits : decimal whole with
      | nil => exact absurd digits (decimal_ne_nil whole)
      | cons c digits' =>
        have digit := isDigit_not_sign (isDigit_of_mem_decimal (n := whole) (c := c) (by simp [digits]))
        simp [readSign, digit]
  have powers : (10 : ℚ) ^ readExponent (exponent.elim [] Exponent.bytes).tail =
      exponent.elim 1 (10 ^ ·.value) := by
    cases exponent with
    | none => rfl
    | some e => exact congrArg ((10 : ℚ) ^ ·) (readExponent_bytes e)
  simp only [readNumber, Numeral.bytes, List.append_assoc, signed, taken, dropped,
    readFraction_append all stops point, digitsValue_decimal, powers, Numeral.magnitude]

/-- The conversion of a text to a double, without a limit to its precision. -/
def exactCast (text : Bytes) : Option Double :=
  if nonneg : 0 ≤ (readNumber text).2 then some ⟨(readNumber text).1, _, nonneg⟩ else none

theorem exactCast_bytes (n : Numeral) : exactCast n.bytes = some n.double := by
  unfold exactCast
  simp only [readNumber_bytes, dif_pos n.magnitude_nonneg]
  rfl

def integer (n : Nat) : Numeral := ⟨false, n, [], List.forall_mem_nil _, none⟩

theorem integer_value (n : Nat) : (integer n).value = n := by
  simp [integer, Numeral.value, Numeral.magnitude, digitsValue]

end Pinocchio.Json
