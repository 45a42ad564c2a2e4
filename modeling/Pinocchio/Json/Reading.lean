import Pinocchio.Json.Numbers
import Pinocchio.Json.Strings

/-! What `crow::json::load` makes of a JSON text.

It takes exactly one document off the front of its input. The one thing it does not take is a number
that has its exponent right behind a single zero.
-/

set_option autoImplicit false

namespace Pinocchio.Json
open Semantics

/-! ## Numbers -/

def isNumberCharacter (c : UInt8) : Bool :=
  isDigit c || c = 46 || c = minus || c = 43 || c = 101 || c = 69

/-- What may come behind a number. -/
def Stops (rest : Bytes) : Prop := ∀ c ∈ rest.head?, isNumberCharacter c = false

theorem Stops.digit {rest : Bytes} (stops : Stops rest) : ∀ c ∈ rest.head?, isDigit c = false := by
  intro c head
  have other := stops c head
  simp only [isNumberCharacter, Bool.or_eq_false_iff] at other
  exact other.1.1.1.1.1

theorem exponentEnds (exponent : Option Exponent) {rest : Bytes} (stops : Stops rest) :
    ∀ c ∈ (exponent.elim [] Exponent.bytes ++ rest).head?, isDigit c = false := by
  cases exponent with
  | none => exact stops.digit
  | some e =>
    intro c head
    obtain rfl : _ = c := Option.some.inj head
    cases e.upper <;> rfl

section
variable (state : NumberParsingState) (skips : Bool) (text : Bytes)

theorem decodeNumberLoop_invalid (data : Bytes) :
    decodeNumberLoop .invalid false text data = .error .invalid := by
  cases data <;> rfl

theorem decodeNumberLoop_digits {state : NumberParsingState} (valid : state ≠ .invalid)
    (zero : state.onZero = state) (digit : state.onDigit = state) {digits : Bytes}
    (all : ∀ c ∈ digits, isDigit c = true) {rest : Bytes}
    (ends : ∀ c ∈ rest.head?, isDigit c = false) :
    decodeNumberLoop state skips text (digits ++ rest) =
      decodeNumberLoop state false (text ++ digits) rest := by
  induction digits generalizing skips text with
  | nil =>
    rw [List.nil_append, List.append_nil]
    cases rest with
    | nil => rfl
    | cons c rest =>
      have other : isDigit c = false := ends c rfl
      rw [decodeNumberLoop, decodeNumberLoop, other, Bool.and_false, Bool.and_false]
  | cons c digits ih =>
    obtain ⟨head, tail⟩ := List.forall_mem_cons.mp all
    have goes (skips : Bool) := ih skips (text ++ [c]) tail
    simp only [List.append_assoc, List.singleton_append] at goes
    rw [List.cons_append, decodeNumberLoop, head, Bool.and_true, if_neg valid, zero, digit]
    split
    · exact goes true
    split
    · exact goes false
    · exact goes true

theorem decodeNumberLoop_end {state : NumberParsingState} (accepts : state.accepts = true)
    {rest : Bytes} (stops : Stops rest) :
    decodeNumberLoop state false text rest = .ok (text, rest) := by
  have valid : state ≠ .invalid := by
    rintro rfl
    exact absurd accepts (by decide)
  cases rest with
  | nil => rw [decodeNumberLoop, if_pos accepts]
  | cons c rest =>
    have other := stops c rfl
    simp only [isNumberCharacter, Bool.or_eq_false_iff, decide_eq_false_iff_not] at other
    obtain ⟨⟨⟨⟨⟨digit, point⟩, sign⟩, plus⟩, lower⟩, upper⟩ := other
    have zero : c ≠ 48 := by
      rintro rfl
      exact absurd digit (by decide)
    rw [decodeNumberLoop, digit, Bool.and_false]
    simp only [Bool.false_eq_true, if_false, if_neg valid, if_neg zero, if_neg point, if_neg sign,
      if_neg plus, lower, upper, or_self, accepts, if_true]

end

theorem decimal_zero : decimal 0 = [48] := rfl

theorem decimal_head {n : Nat} (positive : n ≠ 0) :
    ∃ c digits, decimal n = c :: digits ∧ c ≠ 48 := by
  induction n using Nat.strongRecOn with
  | ind n ih =>
    by_cases small : n < 10
    · have digits : ∀ n : Fin 10, n.val ≠ 0 → (Nat.digitChar n.val).toUInt8 ≠ 48 := by decide
      refine ⟨(Nat.digitChar n).toUInt8, [], ?_, digits ⟨n, small⟩ positive⟩
      rw [decimal, Nat.toDigits_of_lt_base small]
      rfl
    · obtain ⟨c, digits, head, nonzero⟩ := ih (n / 10) (by omega) (by omega)
      refine ⟨c, digits ++ [(Nat.digitChar (n % 10)).toUInt8], ?_, nonzero⟩
      rw [decimal, Nat.toDigits_of_base_le (by decide) (by omega), List.map_append]
      exact congrArg (· ++ [(Nat.digitChar (n % 10)).toUInt8]) head

section
variable {state : NumberParsingState} (text : Bytes)

theorem decodeNumberLoop_digit (valid : state ≠ .invalid) {c : UInt8} (digit : isDigit c = true)
    (data : Bytes) : decodeNumberLoop state false text (c :: data) =
      if c = 48 then decodeNumberLoop state.onZero false (text ++ [c]) data
      else decodeNumberLoop state.onDigit true (text ++ [c]) data := by
  rw [decodeNumberLoop, Bool.false_and, if_neg Bool.false_ne_true, if_neg valid, digit]
  simp only [if_true]

theorem decodeNumberLoop_whole (zero : state.onZero = .zeroFirst) (digit : state.onDigit = .digits)
    (whole : Nat) {rest : Bytes} (ends : ∀ c ∈ rest.head?, isDigit c = false) :
    decodeNumberLoop state false text (decimal whole ++ rest) =
      decodeNumberLoop (if whole = 0 then .zeroFirst else .digits) false (text ++ decimal whole)
        rest := by
  have valid : state ≠ .invalid := by
    rintro rfl
    exact absurd zero (by decide)
  by_cases none : whole = 0
  · subst none
    rw [if_pos rfl, decimal_zero, List.cons_append, decodeNumberLoop_digit text valid (by decide),
      if_pos rfl, zero]
    rfl
  · obtain ⟨c, digits, same, nonzero⟩ := decimal_head none
    have all : ∀ d ∈ c :: digits, isDigit d = true := by
      rw [← same]
      exact fun d member => isDigit_of_mem_decimal member
    obtain ⟨head, tail⟩ := List.forall_mem_cons.mp all
    rw [if_neg none, same, List.cons_append, decodeNumberLoop_digit text valid head,
      if_neg nonzero, digit, decodeNumberLoop_digits true (text ++ [c]) (by decide) rfl rfl tail ends,
      List.append_assoc, List.singleton_append]

theorem decodeNumberLoop_sign (e : Exponent) {rest : Bytes} (stops : Stops rest) :
    decodeNumberLoop .e false text (e.bytes.tail ++ rest) = .ok (text ++ e.bytes.tail, rest) := by
  have finish (skips : Bool) (text digits : Bytes) (all : ∀ c ∈ digits, isDigit c = true) :
      decodeNumberLoop .digitsAfterE skips text (digits ++ rest) = .ok (text ++ digits, rest) :=
    (decodeNumberLoop_digits skips text (by decide) rfl rfl all stops.digit).trans
      (decodeNumberLoop_end (text ++ digits) rfl stops)
  -- After the sign or after the first digit the state is `DigitsAfterE`, and then it stays.
  obtain ⟨upper, sign, digits, nonempty, all⟩ := e
  cases sign with
  | some sign =>
    have goes := finish false (text ++ [if sign then minus else 43]) digits all
    rw [List.append_assoc] at goes
    cases sign <;> exact goes
  | none =>
    cases digits with
    | nil => exact absurd rfl nonempty
    | cons c digits =>
      obtain ⟨head, tail⟩ := List.forall_mem_cons.mp all
      have goes (skips : Bool) := finish skips (text ++ [c]) digits tail
      simp only [List.append_assoc, List.singleton_append] at goes
      refine (decodeNumberLoop_digit text (by decide) head (digits ++ rest)).trans ?_
      split
      · exact goes false
      · exact goes true

theorem decodeNumberLoop_e (valid : state ≠ .invalid) (e : Exponent) (data : Bytes) :
    decodeNumberLoop state false text (e.bytes ++ data) =
      decodeNumberLoop state.onE false (text ++ [if e.upper then 69 else 101])
        (e.bytes.tail ++ data) := by
  cases upper : e.upper <;> simp [Exponent.bytes, upper, decodeNumberLoop, valid, isDigit, minus]

theorem decodeNumberLoop_exponent (accepts : state.accepts = true) (exponent : Option Exponent)
    (goes : exponent.isNone = true ∨ state.onE = .e) {rest : Bytes} (stops : Stops rest) :
    decodeNumberLoop state false text (exponent.elim [] Exponent.bytes ++ rest) =
      .ok (text ++ exponent.elim [] Exponent.bytes, rest) := by
  cases exponent with
  | none =>
    rw [Option.elim_none, List.nil_append, List.append_nil]
    exact decodeNumberLoop_end text accepts stops
  | some e =>
    have next : state.onE = .e := goes.resolve_left (by simp)
    have tail := decodeNumberLoop_sign (text ++ [if e.upper then 69 else 101]) e stops
    rw [List.append_assoc] at tail
    have valid : state ≠ .invalid := by
      rintro rfl
      exact absurd accepts (by decide)
    rw [Option.elim_some, decodeNumberLoop_e text valid e, next]
    exact tail

theorem decodeNumberLoop_fraction (accepts : state.accepts = true)
    (point : state.onPoint = .digitsAfterPoints) {fraction : Bytes}
    (all : ∀ c ∈ fraction, isDigit c = true) (exponent : Option Exponent)
    (goes : fraction = [] → exponent.isNone = true ∨ state.onE = .e) {rest : Bytes}
    (stops : Stops rest) :
    decodeNumberLoop state false text ((if fraction = [] then [] else 46 :: fraction) ++
        (exponent.elim [] Exponent.bytes ++ rest)) =
      .ok (text ++ ((if fraction = [] then [] else 46 :: fraction) ++
        exponent.elim [] Exponent.bytes), rest) := by
  split
  · rename_i none
    exact decodeNumberLoop_exponent text accepts exponent (goes none) stops
  · have valid : state ≠ .invalid := by
      rintro rfl
      exact absurd accepts (by decide)
    have digits := decodeNumberLoop_digits false (text ++ [46])
      (by decide : NumberParsingState.digitsAfterPoints ≠ .invalid) rfl rfl all (exponentEnds exponent stops)
    have tail := decodeNumberLoop_exponent (text ++ [46] ++ fraction)
      (rfl : NumberParsingState.digitsAfterPoints.accepts = true) exponent (Or.inr rfl) stops
    have first : isDigit 46 = false := rfl
    rw [List.cons_append, decodeNumberLoop, first, Bool.and_false, if_neg valid, point]
    refine (digits.trans tail).trans ?_
    simp only [List.append_assoc, List.cons_append, List.nil_append]

end

theorem wholeEnds (n : Numeral) {rest : Bytes} (stops : Stops rest) :
    ∀ c ∈ ((if n.fraction = [] then [] else 46 :: n.fraction) ++
      (n.exponent.elim [] Exponent.bytes ++ rest)).head?, isDigit c = false := by
  split
  · exact exponentEnds n.exponent stops
  · intro c head
    obtain rfl : 46 = c := Option.some.inj head
    rfl

theorem decodeNumber_whole (n : Numeral) {rest : Bytes} (stops : Stops rest) :
    decodeNumber (n.bytes ++ rest) =
      decodeNumberLoop (if n.whole = 0 then .zeroFirst else .digits) false
        ((if n.negative then [minus] else []) ++ decimal n.whole)
        ((if n.fraction = [] then [] else 46 :: n.fraction) ++
          (n.exponent.elim [] Exponent.bytes ++ rest)) := by
  have ends := wholeEnds n stops
  simp only [decodeNumber, Numeral.bytes, List.append_assoc]
  cases n.negative with
  | true =>
    exact decodeNumberLoop_whole [minus] (rfl : NumberParsingState.afterMinus.onZero = .zeroFirst) rfl
      n.whole ends
  | false =>
    exact decodeNumberLoop_whole [] (rfl : NumberParsingState.minus.onZero = .zeroFirst) rfl
      n.whole ends

/-- A number is taken, or its exponent right behind a single zero is an error. -/
theorem decodeNumber_bytes (n : Numeral) {rest : Bytes} (stops : Stops rest) :
    decodeNumber (n.bytes ++ rest) = if n.Plain then .ok (n.bytes, rest) else .error .invalid := by
  rw [decodeNumber_whole n stops]
  by_cases plain : n.Plain
  · rw [if_pos plain]
    -- A whole part that is not zero leaves the state from which an exponent can start.
    have loop := decodeNumberLoop_fraction
      ((if n.negative then [minus] else []) ++ decimal n.whole)
      (by split <;> rfl : (if n.whole = 0 then .zeroFirst else .digits :
        NumberParsingState).accepts = true) (by split <;> rfl) n.all n.exponent
      (fun none => by
        by_cases zero : n.whole = 0
        · exact Or.inl (plain zero none)
        · exact Or.inr (by rw [if_neg zero]; rfl)) stops
    simp only [Numeral.bytes, List.append_assoc] at loop ⊢
    exact loop
  · rw [if_neg plain]
    simp only [Numeral.Plain, not_forall] at plain
    obtain ⟨zero, none, some⟩ := plain
    cases exponent : n.exponent with
    | none => exact absurd (exponent ▸ rfl) some
    | some e =>
      -- The letter leads from a single zero to `Invalid`, whatever comes after it.
      rw [if_pos zero, if_pos none, Option.elim_some, List.nil_append,
        decodeNumberLoop_e _ (by decide) e]
      exact decodeNumberLoop_invalid _ _

/-! ## Documents -/

mutual
/-- What is read for a document, or the failure to read it. -/
def Document.rvalue : Document → Except Failure RValue
  | .null => .ok .null
  | .false => .ok .false
  | .true => .ok .true
  | .number n => if n.Plain then .ok (.number n.bytes) else .error .invalid
  | .string s => .ok (.string s.escaped s.text)
  | .emptyList _ => .ok (.list [])
  | .list l => do return .list (← l.rvalues)
  | .emptyObject _ => .ok (.object [])
  | .object o => do return .object (← o.rvalues)
def Elements.rvalues : Elements → Except Failure (List RValue)
  | .one _ x _ => do
    let r ← x.rvalue
    return [r]
  | .cons _ x _ rest => do
    let r ← x.rvalue
    return r :: (← rest.rvalues)
def Members.rvalues : Members → Except Failure (List (Bytes × RValue))
  | .one _ key _ _ x _ => do
    let r ← x.rvalue
    return [(key.out, r)]
  | .cons _ key _ _ x _ rest => do
    let r ← x.rvalue
    return (key.out, r) :: (← rest.rvalues)
end

theorem wsSkip_append (pad : Blank) (rest : Bytes) : wsSkip (pad.val ++ rest) = wsSkip rest :=
  List.dropWhile_append_of_pos pad.property

theorem wsSkip_cons {c : UInt8} (some : isBlank c = false) (rest : Bytes) :
    wsSkip (c :: rest) = c :: rest :=
  List.dropWhile_cons_of_neg (by rw [Bool.not_eq_true]; exact some)

def starts (c : UInt8) : Bool :=
  c = openList || c = openObject || c = dquote || c = 116 || c = 102 || c = 110 || c = minus ||
    isDigit c

theorem starts_facts {c : UInt8} : starts c = true →
    isBlank c = false ∧ c ≠ closeList ∧ c ≠ closeObject := by
  have facts : ∀ c : UInt8, starts c = true → isBlank c = false ∧ c ≠ closeList ∧ c ≠ closeObject :=
    forall_byte (by decide +kernel)
  exact facts c

theorem numeral_head (n : Numeral) : ∃ c text, n.bytes = c :: text ∧ (c = minus ∨ isDigit c = true) := by
  unfold Numeral.bytes
  cases n.negative with
  | true => exact ⟨minus, _, rfl, Or.inl rfl⟩
  | false =>
    cases digits : decimal n.whole with
    | nil => exact absurd digits (decimal_ne_nil n.whole)
    | cons c text =>
      exact ⟨c, _, rfl, Or.inr (isDigit_of_mem_decimal (n := n.whole) (by simp [digits]))⟩

theorem document_head (x : Document) : ∃ c text, x.bytes = c :: text ∧ starts c = true := by
  cases x with
  | null => exact ⟨110, _, rfl, rfl⟩
  | «false» => exact ⟨102, _, rfl, rfl⟩
  | «true» => exact ⟨116, _, rfl, rfl⟩
  | number n =>
    obtain ⟨c, text, same, head⟩ := numeral_head n
    refine ⟨c, text, same, ?_⟩
    rcases head with rfl | digit
    · decide
    · simp [starts, digit]
  | string s => exact ⟨dquote, _, rfl, rfl⟩
  | emptyList pad => exact ⟨openList, _, rfl, rfl⟩
  | list l => exact ⟨openList, _, rfl, rfl⟩
  | emptyObject pad => exact ⟨openObject, _, rfl, rfl⟩
  | object o => exact ⟨openObject, _, rfl, rfl⟩

theorem wsSkip_document (x : Document) (rest : Bytes) :
    wsSkip (x.bytes ++ rest) = x.bytes ++ rest := by
  obtain ⟨c, text, same, head⟩ := document_head x
  rw [same, List.cons_append, wsSkip_cons (starts_facts head).1]

theorem wsSkip_string (s : Str) (rest : Bytes) : wsSkip (s.bytes ++ rest) = s.bytes ++ rest :=
  wsSkip_cons (c := dquote) (by decide) _

theorem elements_head (l : Elements) (rest : Bytes) :
    ∃ c text, wsSkip (l.bytes ++ rest) = c :: text ∧ starts c = true := by
  cases l with
  | one before x after =>
    obtain ⟨c, text, same, head⟩ := document_head x
    refine ⟨c, text ++ (after.val ++ rest), ?_, head⟩
    simp only [Elements.bytes, List.append_assoc, wsSkip_append, wsSkip_document]
    simp only [same, List.cons_append]
  | cons before x after more =>
    obtain ⟨c, text, same, head⟩ := document_head x
    refine ⟨c, text ++ (after.val ++ comma :: (more.bytes ++ rest)), ?_, head⟩
    simp only [Elements.bytes, List.append_assoc, wsSkip_append, wsSkip_document]
    simp only [same, List.cons_append]

theorem members_head (o : Members) (rest : Bytes) :
    ∃ text, wsSkip (o.bytes ++ rest) = dquote :: text := by
  cases o <;>
    exact ⟨_, by simp only [Members.bytes, List.append_assoc, wsSkip_append, wsSkip_string]; rfl⟩

theorem word_append (rest : Bytes) (v : RValue) (data : Bytes) :
    word rest v (rest ++ data) = .ok (v, data) := by
  simp [word]

theorem stops_blank (pad : Blank) {c : UInt8} (other : isNumberCharacter c = false) (rest : Bytes) :
    Stops (pad.val ++ c :: rest) := by
  intro d head
  obtain ⟨pad, blank⟩ := pad
  cases pad with
  | nil =>
    obtain rfl : c = d := Option.some.inj head
    exact other
  | cons e pad =>
    obtain rfl : e = d := Option.some.inj head
    have facts : ∀ c : UInt8, isBlank c = true → isNumberCharacter c = false :=
      forall_byte (by decide +kernel)
    exact facts e (blank e List.mem_cons_self)

theorem decodeValue_number {fuel : Nat} (n : Numeral) (data : Bytes) :
    decodeValue (fuel + 1) (n.bytes ++ data) = do
      let (text, data) ← decodeNumber (n.bytes ++ data)
      return (.number text, data) := by
  obtain ⟨c, text, same, head⟩ := numeral_head n
  have facts : ∀ c : UInt8, (c = minus ∨ isDigit c = true) →
      c ≠ openList ∧ c ≠ openObject ∧ c ≠ dquote ∧ c ≠ 116 ∧ c ≠ 102 ∧ c ≠ 110 :=
    forall_byte (by decide +kernel)
  obtain ⟨list, object, string, t, f, n⟩ := facts c head
  rw [same, List.cons_append, decodeValue]
  exact (if_neg list).trans <| (if_neg object).trans <| (if_neg string).trans <|
    (if_neg t).trans <| (if_neg f).trans (if_neg n)

section
variable (fuel : Nat) (data : Bytes)

theorem decodeValue_string : decodeValue (fuel + 1) (dquote :: data) = do
    let (string, data) ← decodeString (dquote :: data)
    return (.string string.1 string.2, data) := rfl

theorem decodeValue_list : decodeValue (fuel + 2) (openList :: data) =
    if (wsSkip data).headD 0 = closeList then .ok (.list [], (wsSkip data).tail)
    else decodeListLoop fuel [] (wsSkip data) := rfl

theorem decodeValue_object : decodeValue (fuel + 2) (openObject :: data) =
    if (wsSkip data).headD 0 = closeObject then .ok (.object [], (wsSkip data).tail)
    else decodeObjectLoop fuel [] (wsSkip data) := rfl

theorem decodeListLoop_turn (ret : List RValue) (v : RValue) {pad : Blank} {c : UInt8} (rest : Bytes)
    (some : isBlank c = false) (read : decodeValue fuel data = .ok (v, pad.val ++ c :: rest)) :
    decodeListLoop (fuel + 1) ret data =
      if c = closeList then .ok (.list (ret ++ [v]), rest)
      else consume comma (c :: rest) >>= fun data =>
        decodeListLoop fuel (ret ++ [v]) (wsSkip data) := by
  rw [decodeListLoop, read, ok_bind]
  simp only [wsSkip_append, wsSkip_cons some]
  rfl

theorem decodeObjectLoop_key (ret : List (Bytes × RValue)) (key : Str) (between behind : Blank) :
    decodeObjectLoop (fuel + 1) ret
        (key.bytes ++ (between.val ++ colon :: (behind.val ++ data))) =
      decodeValue fuel (wsSkip data) >>= fun read =>
        if (wsSkip read.2).headD 0 = closeObject then
          .ok (.object (ret ++ [(key.out, read.1)]), (wsSkip read.2).tail)
        else consume comma (wsSkip read.2) >>= fun data =>
          decodeObjectLoop fuel (ret ++ [(key.out, read.1)]) (wsSkip data) := by
  rw [decodeObjectLoop, key.decodeString_bytes, ok_bind]
  dsimp only
  rw [wsSkip_append, wsSkip_cons (by decide), consume_cons, ok_bind, key.unescape_text,
    wsSkip_append]
  rfl

end

mutual
theorem decodeValue_bytes : ∀ (x : Document) (fuel : Nat) (rest : Bytes),
    2 * x.bytes.length ≤ fuel → Stops rest →
    decodeValue fuel (x.bytes ++ rest) = do return (← x.rvalue, rest)
  | x, 0, rest, enough, _ => by
    obtain ⟨c, text, same, -⟩ := document_head x
    rw [same] at enough
    exact absurd enough (by simp)
  | .null, fuel + 1, rest, _, _ => word_append (ascii "ull") .null rest
  | .false, fuel + 1, rest, _, _ => word_append (ascii "alse") .false rest
  | .true, fuel + 1, rest, _, _ => word_append (ascii "rue") .true rest
  | .number n, fuel + 1, rest, _, stops => by
    rw [Document.bytes, decodeValue_number, decodeNumber_bytes n stops, Document.rvalue]
    split <;> rfl
  | .string s, fuel + 1, rest, _, _ => by
    have string := s.decodeString_bytes rest
    rw [Str.bytes, List.cons_append] at string
    rw [Document.bytes, Str.bytes, List.cons_append, decodeValue_string, string]
    rfl
  | .emptyList pad, fuel + 1, rest, enough, _ => by
    obtain ⟨fuel, rfl⟩ : ∃ n, fuel = n + 1 := Nat.exists_eq_add_one.mpr (by
      simp only [Document.bytes, List.length_cons, List.length_append] at enough
      omega)
    rw [Document.bytes, List.cons_append, List.append_assoc, decodeValue_list, wsSkip_append,
      List.singleton_append, wsSkip_cons (by decide)]
    rfl
  | .list l, fuel + 1, rest, enough, _ => by
    simp only [Document.bytes, List.length_cons, List.length_append, List.length_nil] at enough
    obtain ⟨fuel, rfl⟩ : ∃ n, fuel = n + 1 := Nat.exists_eq_add_one.mpr (by omega)
    -- The list is not empty, so the bracket is not looked at before the first element.
    obtain ⟨c, text, same, head⟩ := elements_head l (closeList :: rest)
    have loop := decodeListLoop_bytes l fuel [] rest (by omega)
    rw [Document.bytes, List.cons_append, List.append_assoc, decodeValue_list,
      List.singleton_append]
    refine (if_neg ?_).trans ?_
    · rw [same]
      exact (starts_facts head).2.1
    · rw [loop, Document.rvalue]
      cases l.rvalues <;> rfl
  | .emptyObject pad, fuel + 1, rest, enough, _ => by
    obtain ⟨fuel, rfl⟩ : ∃ n, fuel = n + 1 := Nat.exists_eq_add_one.mpr (by
      simp only [Document.bytes, List.length_cons, List.length_append] at enough
      omega)
    rw [Document.bytes, List.cons_append, List.append_assoc, decodeValue_object, wsSkip_append,
      List.singleton_append, wsSkip_cons (by decide)]
    rfl
  | .object o, fuel + 1, rest, enough, _ => by
    simp only [Document.bytes, List.length_cons, List.length_append, List.length_nil] at enough
    obtain ⟨fuel, rfl⟩ : ∃ n, fuel = n + 1 := Nat.exists_eq_add_one.mpr (by omega)
    obtain ⟨text, same⟩ := members_head o (closeObject :: rest)
    -- What is behind the bracket is the quotation mark of the first key.
    have loop := decodeObjectLoop_bytes o fuel [] rest (by omega)
    rw [Document.bytes, List.cons_append, List.append_assoc, decodeValue_object,
      List.singleton_append]
    refine (if_neg ?_).trans ?_
    · rw [same]
      exact (by decide : dquote ≠ closeObject)
    · rw [loop, Document.rvalue]
      cases o.rvalues <;> rfl
theorem decodeListLoop_bytes : ∀ (l : Elements) (fuel : Nat) (ret : List RValue) (rest : Bytes),
    2 * l.bytes.length < fuel →
    decodeListLoop fuel ret (wsSkip (l.bytes ++ closeList :: rest)) = do
      return (.list (ret ++ (← l.rvalues)), rest)
  | .one before x after, fuel + 1, ret, rest, enough => by
    simp only [Elements.bytes, List.length_append] at enough
    have value := decodeValue_bytes x fuel (after.val ++ closeList :: rest) (by omega)
      (stops_blank after (by decide) rest)
    simp only [Elements.bytes, List.append_assoc, wsSkip_append, wsSkip_document, Elements.rvalues]
    cases read : x.rvalue with
    | error e => rw [decodeListLoop, value, read]; rfl
    | ok r =>
      rw [read] at value
      rw [decodeListLoop_turn _ _ _ _ _ (by decide) value]
      rfl
  | .cons before x after more, fuel + 1, ret, rest, enough => by
    simp only [Elements.bytes, List.length_append, List.length_cons] at enough
    have value := decodeValue_bytes x fuel (after.val ++ comma :: (more.bytes ++ closeList :: rest))
      (by omega) (stops_blank after (by decide) _)
    simp only [Elements.bytes, List.append_assoc, List.cons_append, wsSkip_append, wsSkip_document,
      Elements.rvalues]
    cases read : x.rvalue with
    | error e => rw [decodeListLoop, value, read]; rfl
    | ok r =>
      rw [read] at value
      rw [decodeListLoop_turn _ _ _ _ _ (by decide) value, if_neg (by decide), consume_cons,
        ok_bind, decodeListLoop_bytes more fuel (ret ++ [r]) rest (by omega)]
      cases more.rvalues <;> simp
theorem decodeObjectLoop_bytes : ∀ (o : Members) (fuel : Nat) (ret : List (Bytes × RValue))
    (rest : Bytes), 2 * o.bytes.length < fuel →
    decodeObjectLoop fuel ret (wsSkip (o.bytes ++ closeObject :: rest)) = do
      return (.object (ret ++ (← o.rvalues)), rest)
  | .one before key between behind x after, fuel + 1, ret, rest, enough => by
    simp only [Members.bytes, List.length_append, List.length_cons] at enough
    have value := decodeValue_bytes x fuel (after.val ++ closeObject :: rest) (by omega)
      (stops_blank after (by decide) rest)
    simp only [Members.bytes, List.append_assoc, List.cons_append, wsSkip_append, wsSkip_string,
      decodeObjectLoop_key, wsSkip_document, value, Members.rvalues]
    cases x.rvalue with
    | error e => rfl
    | ok r =>
      simp only [pure_ok, ok_bind, wsSkip_append, wsSkip_cons (c := closeObject) (by decide)]
      rfl
  | .cons before key between behind x after more, fuel + 1, ret, rest, enough => by
    simp only [Members.bytes, List.length_append, List.length_cons] at enough
    have value := decodeValue_bytes x fuel
      (after.val ++ comma :: (more.bytes ++ closeObject :: rest)) (by omega)
      (stops_blank after (by decide) _)
    simp only [Members.bytes, List.append_assoc, List.cons_append, wsSkip_append, wsSkip_string,
      decodeObjectLoop_key, wsSkip_document, value, Members.rvalues]
    cases x.rvalue with
    | error e => rfl
    | ok r =>
      have turn (text : Bytes) : (comma :: text).headD 0 ≠ closeObject :=
        (by decide : comma ≠ closeObject)
      simp only [pure_ok, ok_bind, wsSkip_append, wsSkip_cons (c := comma) (by decide),
        if_neg (turn _), consume_cons]
      rw [decodeObjectLoop_bytes more fuel _ rest (by omega)]
      cases more.rvalues <;> simp
end

/-- A text with blanks around its value. -/
structure JsonText where
  before : Blank
  document : Document
  after : Blank

def JsonText.bytes (t : JsonText) : Bytes := t.before.val ++ (t.document.bytes ++ t.after.val)

theorem load_bytes (t : JsonText) : load t.bytes = t.document.rvalue := by
  obtain ⟨before, x, after⟩ := t
  have ends : wsSkip after.val = [] := List.dropWhile_eq_nil_iff.mpr after.property
  -- The end of the text ends a number as well.
  have stops : Stops after.val := by
    intro c head
    have facts : ∀ c : UInt8, isBlank c = true → isNumberCharacter c = false :=
      forall_byte (by decide +kernel)
    exact facts c (after.property c (List.mem_of_mem_head? head))
  have value := decodeValue_bytes x (2 * (before.val ++ (x.bytes ++ after.val)).length) after.val
    (by simp only [List.length_append]; omega) stops
  simp only [load, JsonText.bytes, parse, wsSkip_append, wsSkip_document, value]
  cases x.rvalue with
  | error e => rfl
  | ok r => simp only [pure_ok, ok_bind, ends, List.headD_nil, ne_eq, not_true_eq_false, if_false]

mutual
def Document.read : Document → RValue
  | .null => .null
  | .false => .false
  | .true => .true
  | .number n => .number n.bytes
  | .string s => .string s.escaped s.text
  | .emptyList _ => .list []
  | .list l => .list l.reads
  | .emptyObject _ => .object []
  | .object o => .object o.reads
def Elements.reads : Elements → List RValue
  | .one _ x _ => [x.read]
  | .cons _ x _ rest => x.read :: rest.reads
def Members.reads : Members → List (Bytes × RValue)
  | .one _ key _ _ x _ => [(key.out, x.read)]
  | .cons _ key _ _ x _ rest => (key.out, x.read) :: rest.reads
end

instance (x : Document) : Decidable x.Plain := inferInstanceAs (Decidable (∀ n ∈ x.numerals, n.Plain))

section
variable {α β γ : Type} (p q : Prop) [Decidable p] [Decidable q] (a : α)

theorem guarded_map (f : α → β) :
    ((if p then .ok a else .error .invalid : Except Failure α) >>= fun a => pure (f a)) =
      if p then .ok (f a) else .error .invalid := by
  split <;> rfl

theorem guarded_both (b : β) (f : α → β → γ) :
    ((if p then .ok a else .error .invalid : Except Failure α) >>= fun a =>
      (if q then .ok b else .error .invalid) >>= fun b => pure (f a b)) =
      if p ∧ q then .ok (f a b) else .error .invalid := by
  by_cases first : p <;> by_cases second : q <;> simp [first, second, pure_ok]

end

mutual
theorem rvalue_eq : ∀ x : Document, x.rvalue = if x.Plain then .ok x.read else .error .invalid
  | .null | .false | .true | .string _ | .emptyList _ | .emptyObject _ => rfl
  | .number n => if_congr List.forall_mem_singleton.symm rfl rfl
  | .list l => by
    rw [Document.rvalue, rvalues_eq l]
    exact guarded_map _ l.reads RValue.list
  | .object o => by
    rw [Document.rvalue, members_eq o]
    exact guarded_map _ o.reads RValue.object
theorem rvalues_eq : ∀ l : Elements,
    l.rvalues = if ∀ n ∈ l.numerals, n.Plain then .ok l.reads else .error .invalid
  | .one _ x _ => by
    rw [Elements.rvalues, rvalue_eq x]
    exact guarded_map x.Plain x.read fun r => [r]
  | .cons _ x _ rest => by
    rw [Elements.rvalues, rvalue_eq x, rvalues_eq rest]
    exact (guarded_both x.Plain _ x.read rest.reads fun r l => r :: l).trans
      (if_congr List.forall_mem_append.symm rfl rfl)
theorem members_eq : ∀ o : Members,
    o.rvalues = if ∀ n ∈ o.numerals, n.Plain then .ok o.reads else .error .invalid
  | .one _ key _ _ x _ => by
    rw [Members.rvalues, rvalue_eq x]
    exact guarded_map x.Plain x.read fun r => [(key.out, r)]
  | .cons _ key _ _ x _ rest => by
    rw [Members.rvalues, rvalue_eq x, members_eq rest]
    exact (guarded_both x.Plain _ x.read rest.reads fun r o => (key.out, r) :: o).trans
      (if_congr List.forall_mem_append.symm rfl rfl)
end

theorem load_text (t : JsonText) :
    load t.bytes = if t.document.Plain then .ok t.document.read else .error .invalid :=
  (load_bytes t).trans (rvalue_eq t.document)

/-! ## The value that was read -/

mutual
/-- The value that what was read stands for. -/
def RValue.value : RValue → Value
  | .null => .null
  | .false => .bool Bool.false
  | .true => .bool Bool.true
  | .number text => .number (if (readNumber text).1 then -(readNumber text).2 else (readNumber text).2)
  | .string hasEscaping text => .string (unitsOf (unescape hasEscaping text))
  | .list l => .list (valuesOf l)
  | .object o => .object (memberValuesOf o)
def valuesOf : List RValue → List Value
  | [] => []
  | r :: l => r.value :: valuesOf l
def memberValuesOf : List (Bytes × RValue) → List (List Nat × Value)
  | [] => []
  | (key, r) :: o => (unitsOf key, r.value) :: memberValuesOf o
end

mutual
theorem read_value : ∀ x : Document, x.read.value = x.value
  | .null | .false | .true => rfl
  | .number n => by rw [Document.read, RValue.value, readNumber_bytes]; rfl
  | .string s => by rw [Document.read, RValue.value, s.unescape_text, s.units_out]; rfl
  | .emptyList _ => by rw [Document.read, RValue.value, valuesOf]; rfl
  | .list l => by rw [Document.read, RValue.value, reads_values l]; rfl
  | .emptyObject _ => by rw [Document.read, RValue.value, memberValuesOf]; rfl
  | .object o => by rw [Document.read, RValue.value, reads_members o]; rfl
theorem reads_values : ∀ l : Elements, valuesOf l.reads = l.values
  | .one _ x _ => by rw [Elements.reads, valuesOf, valuesOf, read_value x]; rfl
  | .cons _ x _ rest => by rw [Elements.reads, valuesOf, read_value x, reads_values rest]; rfl
theorem reads_members : ∀ o : Members, memberValuesOf o.reads = o.values
  | .one _ key _ _ x _ => by
    rw [Members.reads, memberValuesOf, memberValuesOf, key.units_out, read_value x]
    rfl
  | .cons _ key _ _ x _ rest => by
    rw [Members.reads, memberValuesOf, key.units_out, read_value x, reads_members rest]
    rfl
end

theorem value_unique {t u : JsonText} (same : t.bytes = u.bytes) (plain : t.document.Plain) :
    u.document.value = t.document.value := by
  -- The parser reads both documents from the same bytes.
  have read := load_text t
  rw [if_pos plain, same, load_text u] at read
  split at read
  · rw [← read_value, ← read_value, Except.ok.inj read]
  · exact nomatch read

end Pinocchio.Json
