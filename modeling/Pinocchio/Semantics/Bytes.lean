import Mathlib.Algebra.Group.Int.Defs
import Mathlib.Algebra.GroupWithZero.Nat
import Mathlib.Data.FinEnum
import Mathlib.Data.List.TakeWhile

/-! Byte strings and decimal numerals, as a C++ program on a 64-bit platform sees them. -/

set_option autoImplicit false

namespace Pinocchio.Semantics

abbrev Bytes := List UInt8

theorem forall_byte {p : UInt8 → Prop} (tried : ∀ n : Fin 256, p (UInt8.ofFin n)) (c : UInt8) :
    p c := by
  simpa using tried c.toFin

def ascii (text : String) : Bytes := text.toList.map Char.toUInt8

theorem all_ne_iff {text : Bytes} {c : UInt8} : (∀ d ∈ text, (d != c) = true) ↔ c ∉ text := by
  constructor
  · intro all member
    simpa using all c member
  · intro free d member
    rw [bne_iff_ne]
    rintro rfl
    exact free member

theorem takeWhile_ne_eq_self {text : Bytes} {c : UInt8} :
    text.takeWhile (· != c) = text ↔ c ∉ text :=
  List.takeWhile_eq_self_iff.trans all_ne_iff

theorem takeWhile_ne_append {text : Bytes} {c : UInt8} (free : c ∉ text) (rest : Bytes) :
    (text ++ c :: rest).takeWhile (· != c) = text := by
  rw [List.takeWhile_append_of_pos (all_ne_iff.mpr free)]
  simp

def longMax : Int := 2 ^ 63 - 1
def longMin : Int := -2 ^ 63

/-- A sequence whose size is a `long`, as the size of every C++ container is. -/
abbrev Sized (α : Type) := {items : List α // (items.length : Int) ≤ longMax}

abbrev Text := Sized UInt8

instance : Inhabited Text := ⟨⟨[], by decide⟩⟩

instance : LawfulBEq Text := inferInstance

theorem one_le_longMax : (1 : Int) ≤ longMax := by decide

theorem three_le_longMax : (3 : Int) ≤ longMax := by decide

/-- The text up to its first NUL, which is all that a C string of it carries. -/
def Text.untilNul (text : Text) : Text :=
  ⟨text.val.takeWhile (· != 0), by
    have shorter := (List.takeWhile_prefix (l := text.val) (· != 0)).length_le
    have bound := text.property
    omega⟩

theorem Text.untilNul_of_free {text : Text} (free : (0 : UInt8) ∉ text.val) :
    text.untilNul = text :=
  Subtype.ext (takeWhile_ne_eq_self.mpr free)

def isDigit (c : UInt8) : Bool := 48 ≤ c && c ≤ 57

def minus : UInt8 := 45

def decimal (n : Nat) : Bytes := (Nat.toDigits 10 n).map Char.toUInt8

def decimalInt : Int → Bytes
  | .ofNat n => decimal n
  | .negSucc n => minus :: decimal (n + 1)

def digitsValue (digits : Bytes) : Nat :=
  digits.foldl (fun value c => 10 * value + (c.toNat - 48)) 0

def clampLong (n : Int) : Int := max longMin (min longMax n)

def isSpace (c : UInt8) : Bool := c = 32 || (9 ≤ c && c ≤ 13)

/-- The C library's conversion in base ten: blanks, a sign, and digits up to the first other
byte. A number without digits is zero, and one out of range is clamped. -/
def strtol (text : Bytes) : Int :=
  match text.dropWhile isSpace with
  | c :: rest =>
    if c = minus then clampLong (-(digitsValue (rest.takeWhile isDigit)))
    else if c = 43 then clampLong (digitsValue (rest.takeWhile isDigit))
    else clampLong (digitsValue ((c :: rest).takeWhile isDigit))
  | [] => 0

theorem clampLong_of_range {n : Int} (low : longMin ≤ n) (high : n ≤ longMax) :
    clampLong n = n := by
  unfold clampLong
  omega

theorem toUInt8_of_digit {c : Char} (digit : c.isDigit = true) :
    c.toUInt8.toNat = c.toNat ∧ 48 ≤ c.toNat ∧ c.toNat ≤ 57 := by
  simp only [Char.isDigit, Bool.and_eq_true, decide_eq_true_eq] at digit
  obtain ⟨low, high⟩ := digit
  have low : 48 ≤ c.toNat := by simpa [UInt32.le_iff_toNat_le] using low
  have high : c.toNat ≤ 57 := by simpa [UInt32.le_iff_toNat_le] using high
  refine ⟨?_, low, high⟩
  simp only [Char.toUInt8, UInt32.toNat_toUInt8]
  change c.toNat % 256 = c.toNat
  omega

theorem isDigit_toUInt8 {c : Char} (digit : c.isDigit = true) : isDigit c.toUInt8 = true := by
  obtain ⟨same, low, high⟩ := toUInt8_of_digit digit
  simp only [isDigit, Bool.and_eq_true, decide_eq_true_eq, UInt8.le_iff_toNat_le, same]
  exact ⟨low, high⟩

theorem isDigit_of_mem_decimal {n : Nat} {c : UInt8} (member : c ∈ decimal n) :
    isDigit c = true := by
  obtain ⟨digit, found, rfl⟩ := List.mem_map.mp member
  exact isDigit_toUInt8 (Nat.isDigit_of_mem_toDigits (by decide) (by decide) found)

theorem decimal_ne_nil (n : Nat) : decimal n ≠ [] := by
  simp [decimal, Nat.toDigits_ne_nil]

theorem digitsValue_map (digits : List Char) (all : ∀ c ∈ digits, c.isDigit = true) (start : Nat) :
    (digits.map Char.toUInt8).foldl (fun value c => 10 * value + (c.toNat - 48)) start =
      Nat.ofDigitChars 10 digits start := by
  induction digits generalizing start with
  | nil => simp
  | cons c rest ih =>
    have head := (toUInt8_of_digit (all c (by simp))).1
    have tail : ∀ d ∈ rest, d.isDigit = true := fun d member => all d (by simp [member])
    simp only [List.map_cons, List.foldl_cons, Nat.ofDigitChars_cons, head, ih tail]
    rfl

theorem digitsValue_decimal (n : Nat) : digitsValue (decimal n) = n := by
  have digits : ∀ c ∈ Nat.toDigits 10 n, c.isDigit = true :=
    fun c member => Nat.isDigit_of_mem_toDigits (by decide) (by decide) member
  simpa [digitsValue, decimal, Nat.ofDigitChars_ten_toDigits] using digitsValue_map _ digits 0

theorem takeWhile_decimal (n : Nat) : (decimal n).takeWhile isDigit = decimal n :=
  List.takeWhile_eq_self_iff.mpr fun _ member => isDigit_of_mem_decimal member

theorem isDigit_not_sign {c : UInt8} (digit : isDigit c = true) :
    isSpace c = false ∧ c ≠ minus ∧ c ≠ 43 := by
  simp only [isDigit, Bool.and_eq_true, decide_eq_true_eq, UInt8.le_iff_toNat_le] at digit
  simp only [isSpace, minus, Bool.or_eq_false_iff, Bool.and_eq_false_iff, decide_eq_false_iff_not,
    UInt8.le_iff_toNat_le, ne_eq, ← UInt8.toNat_inj]
  simp only [UInt8.reduceToNat] at *
  omega

theorem strtol_decimal {n : Nat} (fits : (n : Int) ≤ longMax) : strtol (decimal n) = n := by
  have low : longMin ≤ (n : Int) := by unfold longMin; omega
  cases numeral : decimal n with
  | nil => exact absurd numeral (decimal_ne_nil n)
  | cons c rest =>
    obtain ⟨notSpace, notMinus, notPlus⟩ :=
      isDigit_not_sign (isDigit_of_mem_decimal (n := n) (c := c) (by simp [numeral]))
    have whole := takeWhile_decimal n
    have value := digitsValue_decimal n
    rw [numeral] at whole value
    simp only [strtol, List.dropWhile_cons, notSpace, Bool.false_eq_true, if_false, notMinus,
      notPlus, whole, value]
    exact clampLong_of_range low fits

theorem strtol_decimalInt {n : Int} (low : longMin ≤ n) (high : n ≤ longMax) :
    strtol (decimalInt n) = n := by
  cases n with
  | ofNat n => exact strtol_decimal high
  | negSucc n =>
    have notSpace : isSpace minus = false := by decide
    simp only [decimalInt, strtol, List.dropWhile_cons, notSpace, Bool.false_eq_true, if_false,
      if_true, takeWhile_decimal, digitsValue_decimal]
    exact clampLong_of_range low high

end Pinocchio.Semantics
