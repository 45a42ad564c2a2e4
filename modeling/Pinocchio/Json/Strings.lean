import Mathlib.Data.List.Basic
import Pinocchio.Json.Parser
import Pinocchio.Json.Text

/-! Strings between their texts, the bytes that the parser makes of them, and what they denote.

Every `\u` is encoded on its own, so half of a surrogate pair gets three bytes that are not UTF-8.
But such bytes can still be read, and so no two strings get the same ones.
-/

set_option autoImplicit false

namespace Pinocchio.Json
open Semantics

/-! ## UTF-8, for surrogates as well -/

def encodeCode (v : Nat) : Bytes :=
  if v ≤ 0x7f then [UInt8.ofNat v]
  else if v ≤ 0x7ff then [UInt8.ofNat (v / 64 % 0x20 + 0xc0), UInt8.ofNat (v % 0x40 + 0x80)]
  else if v ≤ 0xffff then
    [UInt8.ofNat (v / 4096 % 0x10 + 0xe0), UInt8.ofNat (v / 64 % 0x40 + 0x80),
      UInt8.ofNat (v % 0x40 + 0x80)]
  else
    [UInt8.ofNat (v / 262144 % 0x08 + 0xf0), UInt8.ofNat (v / 4096 % 0x40 + 0x80),
      UInt8.ofNat (v / 64 % 0x40 + 0x80), UInt8.ofNat (v % 0x40 + 0x80)]

theorem utf8EncodeChar_eq (c : Char) : String.utf8EncodeChar c = encodeCode c.toNat := rfl

theorem encodeUnit_eq {code : Nat} (small : code ≤ 0xffff) : encodeUnit code = encodeCode code := by
  -- The bits that mark a byte do not overlap with those of the code.
  have bits (i a b : Nat) (low : b < 2 ^ i) : 2 ^ i * a ||| b = b + 2 ^ i * a := by
    rw [← Nat.two_pow_add_eq_or_of_lt low, Nat.add_comm]
  have six (n : Nat) : n &&& 0x3f = n % 0x40 := Nat.and_two_pow_sub_one_eq_mod n 6
  have tail (n : Nat) : 0x80 ||| n % 0x40 = n % 0x40 + 0x80 :=
    bits 6 2 (n % 0x40) (Nat.mod_lt n (by decide))
  simp only [encodeUnit, encodeCode, six, tail, Nat.shiftRight_eq_div_pow, if_pos small]
  split
  · have head : 0xe0 ||| code / 2 ^ 12 = code / 4096 % 0x10 + 0xe0 := by
      rw [Nat.mod_eq_of_lt (by omega)]
      exact bits 4 14 _ (by omega)
    rw [if_neg (by omega), if_neg (by omega), head]
  · split
    · have head : 0xc0 ||| code / 2 ^ 6 = code / 64 % 0x20 + 0xc0 := by
        rw [Nat.mod_eq_of_lt (by omega)]
        exact bits 5 6 _ (by omega)
      rw [if_neg (by omega), if_pos (by omega), head]
    · rw [if_pos (by omega)]

def codeUnits (v : Nat) : List Nat :=
  if v < 0x10000 then [v] else [0xd800 + (v - 0x10000) / 0x400, 0xdc00 + (v - 0x10000) % 0x400]

/-- The code units that bytes encode, when every byte but the first of a character is in its place. -/
def unitsOf : Bytes → List Nat
  | [] => []
  | a :: bytes =>
    if a.toNat < 0x80 then a.toNat :: unitsOf bytes
    else match bytes with
    | [] => []
    | b :: bytes =>
      if a.toNat < 0xe0 then ((a.toNat - 0xc0) * 64 + (b.toNat - 0x80)) :: unitsOf bytes
      else match bytes with
      | [] => []
      | c :: bytes =>
        if a.toNat < 0xf0 then
          ((a.toNat - 0xe0) * 4096 + (b.toNat - 0x80) * 64 + (c.toNat - 0x80)) :: unitsOf bytes
        else match bytes with
        | [] => []
        | d :: bytes =>
          codeUnits ((a.toNat - 0xf0) * 262144 + (b.toNat - 0x80) * 4096 + (c.toNat - 0x80) * 64 +
            (d.toNat - 0x80)) ++ unitsOf bytes

section
variable {a : UInt8} (bytes : Bytes)

theorem unitsOf_one (first : a.toNat < 0x80) : unitsOf (a :: bytes) = a.toNat :: unitsOf bytes := by
  rw [unitsOf.eq_def]
  exact if_pos first

theorem unitsOf_two (b : UInt8) (low : 0x80 ≤ a.toNat) (high : a.toNat < 0xe0) :
    unitsOf (a :: b :: bytes) = ((a.toNat - 0xc0) * 64 + (b.toNat - 0x80)) :: unitsOf bytes := by
  rw [unitsOf.eq_def]
  exact (if_neg (by omega)).trans (if_pos high)

theorem unitsOf_three (b c : UInt8) (low : 0xe0 ≤ a.toNat) (high : a.toNat < 0xf0) :
    unitsOf (a :: b :: c :: bytes) =
      ((a.toNat - 0xe0) * 4096 + (b.toNat - 0x80) * 64 + (c.toNat - 0x80)) :: unitsOf bytes := by
  rw [unitsOf.eq_def]
  exact (if_neg (by omega)).trans ((if_neg (by omega)).trans (if_pos high))

theorem unitsOf_four (b c d : UInt8) (low : 0xf0 ≤ a.toNat) :
    unitsOf (a :: b :: c :: d :: bytes) =
      codeUnits ((a.toNat - 0xf0) * 262144 + (b.toNat - 0x80) * 4096 + (c.toNat - 0x80) * 64 +
        (d.toNat - 0x80)) ++ unitsOf bytes := by
  rw [unitsOf.eq_def]
  exact (if_neg (by omega)).trans ((if_neg (by omega)).trans (if_neg (by omega)))

theorem unitsOf_encodeCode {v : Nat} (small : v < 0x110000) :
    unitsOf (encodeCode v ++ bytes) = codeUnits v ++ unitsOf bytes := by
  have byte {n : Nat} (fits : n < 256) : (UInt8.ofNat n).toNat = n := UInt8.toNat_ofNat_of_lt' fits
  have last : (UInt8.ofNat (v % 0x40 + 0x80)).toNat = v % 0x40 + 0x80 := byte (by omega)
  have third : (UInt8.ofNat (v / 64 % 0x40 + 0x80)).toNat = v / 64 % 0x40 + 0x80 := byte (by omega)
  -- The first byte tells how many there are, and every byte gives its share of the code back.
  by_cases one : v ≤ 0x7f
  · have first : (UInt8.ofNat v).toNat = v := byte (by omega)
    rw [encodeCode, if_pos one, codeUnits, if_pos (by omega)]
    exact (unitsOf_one bytes (by omega)).trans (by rw [first]; rfl)
  by_cases two : v ≤ 0x7ff
  · have first : (UInt8.ofNat (v / 64 % 0x20 + 0xc0)).toNat = v / 64 + 0xc0 :=
      (byte (by omega)).trans (by omega)
    have whole : v / 64 * 64 + v % 0x40 = v := by omega
    rw [encodeCode, if_neg one, if_pos two, codeUnits, if_pos (by omega)]
    refine (unitsOf_two bytes _ (by omega) (by omega)).trans ?_
    simp only [first, last, Nat.add_sub_cancel, whole, List.singleton_append]
  by_cases three : v ≤ 0xffff
  · have first : (UInt8.ofNat (v / 4096 % 0x10 + 0xe0)).toNat = v / 4096 + 0xe0 :=
      (byte (by omega)).trans (by omega)
    have whole : v / 4096 * 4096 + v / 64 % 0x40 * 64 + v % 0x40 = v := by omega
    rw [encodeCode, if_neg one, if_neg two, if_pos three, codeUnits, if_pos (by omega)]
    refine (unitsOf_three bytes _ _ (by omega) (by omega)).trans ?_
    simp only [first, third, last, Nat.add_sub_cancel, whole, List.singleton_append]
  · have first : (UInt8.ofNat (v / 262144 % 0x08 + 0xf0)).toNat = v / 262144 + 0xf0 :=
      (byte (by omega)).trans (by omega)
    have second : (UInt8.ofNat (v / 4096 % 0x40 + 0x80)).toNat = v / 4096 % 0x40 + 0x80 :=
      byte (by omega)
    have whole : v / 262144 * 262144 + v / 4096 % 0x40 * 4096 + v / 64 % 0x40 * 64 + v % 0x40 = v := by
      omega
    rw [encodeCode, if_neg one, if_neg two, if_neg three]
    refine (unitsOf_four bytes _ _ _ (by omega)).trans ?_
    simp only [first, second, third, last, Nat.add_sub_cancel, whole]

end

theorem encodeCode_plain {v : Nat} (big : 0x7f < v) : ∀ c ∈ encodeCode v, 0x80 ≤ c.toNat := by
  unfold encodeCode
  rw [if_neg (by omega)]
  split
  · simp only [List.mem_cons, List.not_mem_nil, or_false, forall_eq_or_imp, forall_eq,
      UInt8.toNat_ofNat']
    omega
  split
  all_goals
    simp only [List.mem_cons, List.not_mem_nil, or_false, forall_eq_or_imp, forall_eq,
      UInt8.toNat_ofNat']
    omega

/-! ## Reading a string -/

/-- A byte that the loops over a string only pass. -/
def IsPlain (c : UInt8) : Prop := c ≠ dquote ∧ c ≠ backslash ∧ c ≠ 0

theorem isPlain_of_toNat {c : UInt8} (printable : 0x20 ≤ c.toNat) (quotation : c.toNat ≠ 34)
    (escape : c.toNat ≠ 92) : IsPlain c := by
  refine ⟨?_, ?_, ?_⟩ <;> rintro rfl
  · exact quotation rfl
  · exact escape rfl
  · exact absurd printable (by decide)

theorem raw_isPlain {c : Char} (allowed : 32 ≤ c.toNat ∧ c ≠ '"' ∧ c ≠ '\\') :
    ∀ d ∈ String.utf8EncodeChar c, IsPlain d ∧ 0x20 ≤ d.toNat := by
  obtain ⟨printable, quotation, escape⟩ := allowed
  rw [utf8EncodeChar_eq]
  intro d member
  by_cases ascii : c.toNat ≤ 0x7f
  · rw [encodeCode, if_pos ascii, List.mem_singleton] at member
    have same : d.toNat = c.toNat := by
      rw [member]
      exact UInt8.toNat_ofNat_of_lt' (by simp only [UInt8.size]; omega)
    refine ⟨isPlain_of_toNat (by omega) ?_ ?_, by omega⟩
    · exact fun is => quotation (Char.toNat_inj.mp (same.symm.trans is))
    · exact fun is => escape (Char.toNat_inj.mp (same.symm.trans is))
  · have great := encodeCode_plain (by omega : 0x7f < c.toNat) d member
    exact ⟨isPlain_of_toNat (by omega) (by omega) (by omega), by omega⟩

namespace Piece

def out : Piece → Bytes
  | raw c _ => String.utf8EncodeChar c
  | short s => [s.code]
  | unicode a b c d => encodeUnit (unit a b c d)

def escaped : Piece → Bool
  | raw _ _ => false
  | short _ => true
  | unicode _ _ _ _ => true

theorem unit_le (a b c d : HexDigit) : unit a b c d ≤ 0xffff := by
  unfold unit
  omega

theorem units_out (p : Piece) (rest : Bytes) : unitsOf (p.out ++ rest) = p.units ++ unitsOf rest := by
  cases p with
  | raw c allowed =>
    have small : c.toNat < 0x110000 := by
      rcases c.valid with low | ⟨-, high⟩
      · exact lt_trans low (by decide)
      · exact high
    exact unitsOf_encodeCode rest small
  | short s => cases s <;> exact unitsOf_one rest (by decide)
  | unicode a b c d =>
    have small := unit_le a b c d
    rw [out, encodeUnit_eq small, unitsOf_encodeCode rest (by omega), codeUnits, if_pos (by omega)]
    rfl

end Piece

@[simp] theorem ok_bind {α β : Type} (a : α) (f : α → Except Failure β) :
    (Except.ok a >>= f) = f a := rfl

@[simp] theorem error_bind {α β : Type} (e : Failure) (f : α → Except Failure β) :
    (Except.error e >>= f) = .error e := rfl

theorem pure_ok {α : Type} (a : α) : (pure a : Except Failure α) = .ok a := rfl

theorem consume_cons (c : UInt8) (data : Bytes) : consume c (c :: data) = .ok data := if_pos rfl

theorem HexDigit.byte_reads (d : HexDigit) : isHexDigit d.byte = true ∧ fromHex d.byte = d.value := by
  obtain ⟨value, upper⟩ := d
  have tried : ∀ (value : Fin 16) (upper : Bool),
      isHexDigit (HexDigit.byte ⟨value, upper⟩) = true ∧
        fromHex (HexDigit.byte ⟨value, upper⟩) = value := by decide
  exact tried value upper

theorem Short.letter_reads (s : Short) :
    isLetter s.letter = true ∧ s.letter ≠ 117 ∧ unescapeLetter s.letter = [s.code] := by
  cases s <;> decide

section
variable (hasEscaping : Bool) (text : Bytes)

theorem decodeStringLoop_end (rest : Bytes) :
    decodeStringLoop hasEscaping text (dquote :: rest) = .ok ((hasEscaping, text), rest) := by
  rw [decodeStringLoop.eq_def]
  rfl

theorem decodeStringLoop_plain {run : Bytes} (plain : ∀ c ∈ run, IsPlain c) (rest : Bytes) :
    decodeStringLoop hasEscaping text (run ++ rest) =
      decodeStringLoop hasEscaping (text ++ run) rest := by
  induction run generalizing text with
  | nil => simp
  | cons c run ih =>
    obtain ⟨head, tail⟩ := List.forall_mem_cons.mp plain
    have goes := ih (text ++ [c]) tail
    rw [List.append_assoc, List.singleton_append] at goes
    rw [← goes, List.cons_append, decodeStringLoop.eq_def]
    exact if_pos head

theorem decodeStringLoop_piece (p : Piece) (rest : Bytes) :
    decodeStringLoop hasEscaping text (p.bytes ++ rest) =
      decodeStringLoop (hasEscaping || p.escaped) (text ++ p.bytes) rest := by
  -- A piece that is escaped starts with a backslash, so the first branch is not for it.
  have marked : ¬(backslash ≠ dquote ∧ backslash ≠ backslash ∧ backslash ≠ 0) := by decide
  have other : backslash ≠ dquote := by decide
  cases p with
  | raw c allowed =>
    rw [Piece.escaped, Bool.or_false]
    exact decodeStringLoop_plain hasEscaping text (fun c member => (raw_isPlain allowed c member).1) rest
  | short s =>
    obtain ⟨letter, notUnicode, -⟩ := s.letter_reads
    rw [Piece.escaped, Bool.or_true, Piece.bytes, List.cons_append, decodeStringLoop.eq_def]
    simp only [if_neg marked, if_neg other, if_true, List.cons_append, List.nil_append,
      if_neg notUnicode, letter]
  | unicode a b c d =>
    rw [Piece.escaped, Bool.or_true, Piece.bytes, List.cons_append, decodeStringLoop.eq_def]
    simp only [if_neg marked, if_neg other, if_true, List.cons_append, List.nil_append,
      a.byte_reads.1, b.byte_reads.1, c.byte_reads.1, d.byte_reads.1, Bool.and_self]

end

theorem unescapeLoop_plain {run : Bytes} (plain : ∀ c ∈ run, IsPlain c) (rest : Bytes) :
    unescapeLoop (run ++ rest) = run ++ unescapeLoop rest := by
  induction run with
  | nil => rfl
  | cons c run ih =>
    obtain ⟨head, tail⟩ := List.forall_mem_cons.mp plain
    rw [List.cons_append, unescapeLoop.eq_def]
    exact (if_neg head.2.1).trans (congrArg (c :: ·) (ih tail))

theorem unescapeLoop_piece (p : Piece) (rest : Bytes) :
    unescapeLoop (p.bytes ++ rest) = p.out ++ unescapeLoop rest := by
  cases p with
  | raw c allowed => exact unescapeLoop_plain (fun c member => (raw_isPlain allowed c member).1) rest
  | short s =>
    obtain ⟨-, notUnicode, code⟩ := s.letter_reads
    rw [Piece.bytes, List.cons_append, unescapeLoop.eq_def]
    simp only [if_true, List.cons_append, List.nil_append, if_neg notUnicode, code, Piece.out]
  | unicode a b c d =>
    have unit : fromHex a.byte <<< 12 + fromHex b.byte <<< 8 + fromHex c.byte <<< 4 +
        fromHex d.byte = Piece.unit a b c d := by
      simp only [HexDigit.byte_reads, Nat.shiftLeft_eq, Piece.unit]
      omega
    rw [Piece.bytes, List.cons_append, unescapeLoop.eq_def]
    simp only [if_true, List.cons_append, List.nil_append, unit, Piece.out]

namespace Str

def out (s : Str) : Bytes := s.flatMap Piece.out

def escaped (s : Str) : Bool := s.any Piece.escaped

theorem units_out (s : Str) : unitsOf s.out = s.units := by
  induction s with
  | nil => rfl
  | cons p s ih => exact (p.units_out _).trans (congrArg (p.units ++ ·) ih)

theorem decodeStringLoop_text (s : Str) (hasEscaping : Bool) (text rest : Bytes) :
    decodeStringLoop hasEscaping text (s.text ++ dquote :: rest) =
      .ok ((hasEscaping || s.escaped, text ++ s.text), rest) := by
  induction s generalizing hasEscaping text with
  | nil =>
    rw [escaped, List.any_nil, Bool.or_false, Str.text, List.flatMap_nil, List.append_nil]
    exact decodeStringLoop_end hasEscaping text rest
  | cons p s ih =>
    have tail := ih (hasEscaping || p.escaped) (text ++ p.bytes)
    simp only [Str.text, escaped, List.flatMap_cons, List.any_cons, List.append_assoc,
      Bool.or_assoc] at tail ⊢
    rw [decodeStringLoop_piece, tail]

theorem decodeString_bytes (s : Str) (rest : Bytes) :
    decodeString (s.bytes ++ rest) = .ok ((s.escaped, s.text), rest) := by
  have loop := s.decodeStringLoop_text false [] rest
  rw [decodeString, Str.bytes, List.cons_append, consume_cons, List.append_assoc, ok_bind]
  exact loop

theorem unescapeLoop_text (s : Str) : unescapeLoop s.text = s.out := by
  induction s with
  | nil => rfl
  | cons p s ih => exact (unescapeLoop_piece p _).trans (congrArg (p.out ++ ·) ih)

theorem text_of_not_escaped {s : Str} (not : s.escaped = false) : s.text = s.out := by
  -- Without the flag the text has raw pieces only, and these are copied.
  refine List.flatMap_congr fun p member => ?_
  cases p with
  | raw c allowed => rfl
  | short _ => exact absurd (List.any_eq_false.mp not _ member) (by simp [Piece.escaped])
  | unicode _ _ _ _ => exact absurd (List.any_eq_false.mp not _ member) (by simp [Piece.escaped])

theorem unescape_text (s : Str) : unescape s.escaped s.text = s.out := by
  cases escaped : s.escaped with
  | true => exact s.unescapeLoop_text
  | false => exact text_of_not_escaped escaped

end Str

end Pinocchio.Json
