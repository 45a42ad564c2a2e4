import Pinocchio.Json.Writing

/-! Halves of surrogate pairs.

The three bytes that such a half gets begin with two that are never next to each other in UTF-8. They
stay together on the way to the text that is written, and so this text is no JSON text.
-/

set_option autoImplicit false

namespace Pinocchio.Json
open Semantics

/-! ## Texts have none -/

/-- After the first byte of a surrogate comes one that makes it no surrogate. -/
def Clean : Bytes → Prop
  | [] => True
  | c :: rest => (c = 0xed → ∃ d ∈ rest.head?, d < 0xa0) ∧ Clean rest

theorem Clean.append {a b : Bytes} (first : Clean a) (second : Clean b) : Clean (a ++ b) := by
  induction a with
  | nil => exact second
  | cons c a ih =>
    refine ⟨fun is => ?_, ih first.2⟩
    obtain ⟨d, head, small⟩ := first.1 is
    cases a with
    | nil => exact nomatch head
    | cons e a => exact ⟨d, head, small⟩

theorem Clean.of_append {a b : Bytes} (clean : Clean (a ++ b)) : Clean b := by
  induction a with
  | nil => exact clean
  | cons c a ih => exact ih clean.2

theorem clean_of_ne {a : Bytes} (free : ∀ c ∈ a, c ≠ 0xed) : Clean a := by
  induction a with
  | nil => trivial
  | cons c a ih =>
    obtain ⟨head, tail⟩ := List.forall_mem_cons.mp free
    exact ⟨fun is => absurd is head, ih tail⟩

theorem clean_literal {a : Bytes} (free : a.all (· ≠ 0xed) = true) : Clean a :=
  clean_of_ne fun c member => of_decide_eq_true (List.all_eq_true.mp free c member)

theorem Clean.cons {c : UInt8} {a : Bytes} (other : c ≠ 0xed) (clean : Clean a) : Clean (c :: a) :=
  ⟨fun is => absurd is other, clean⟩

theorem Clean.free {a : Bytes} (clean : Clean a) {d : UInt8} (big : 0xa0 ≤ d) : ¬[0xed, d] <:+: a := by
  rintro ⟨before, after, rfl⟩
  rw [List.append_assoc] at clean
  obtain ⟨e, head, small⟩ := clean.of_append.1 rfl
  obtain rfl : d = e := Option.some.inj head
  exact absurd small (UInt8.not_lt.mpr big)

theorem clean_utf8 (c : Char) : Clean (String.utf8EncodeChar c) := by
  have byte {n : Nat} (fits : n < 256) (other : n ≠ 0xed) : UInt8.ofNat n ≠ 0xed := by
    rintro is
    have same := congrArg UInt8.toNat is
    rw [UInt8.toNat_ofNat_of_lt' fits] at same
    exact other same
  have last : UInt8.ofNat (c.toNat % 0x40 + 0x80) ≠ 0xed := byte (by omega) (by omega)
  have third : UInt8.ofNat (c.toNat / 64 % 0x40 + 0x80) ≠ 0xed := byte (by omega) (by omega)
  rw [utf8EncodeChar_eq, encodeCode]
  split
  · exact .cons (byte (by omega) (by omega)) trivial
  split
  · exact .cons (byte (by omega) (by omega)) (.cons last trivial)
  split
  -- The first byte is 0xED for the codes from 0xD000, and a character ends before 0xD800.
  · refine ⟨fun is => ?_, .cons third (.cons last trivial)⟩
    have first := congrArg UInt8.toNat is
    rw [UInt8.toNat_ofNat_of_lt' (by simp only [UInt8.size]; omega)] at first
    have scalar : c.toNat < 0xd800 := by
      rcases c.valid with low | ⟨above, -⟩
      · exact low
      · have : 0xdfff < c.toNat := above
        have : c.toNat / 4096 % 0x10 + 0xe0 = 0xed := first
        omega
    refine ⟨_, rfl, ?_⟩
    rw [UInt8.lt_iff_toNat_lt, UInt8.toNat_ofNat_of_lt' (by simp only [UInt8.size]; omega)]
    have : c.toNat / 4096 % 0x10 + 0xe0 = 0xed := first
    change c.toNat / 64 % 0x40 + 0x80 < 0xa0
    omega
  · exact .cons (byte (by omega) (by omega)) (.cons (byte (by omega) (by omega))
      (.cons third (.cons last trivial)))

theorem Blank.clean (pad : Blank) : Clean pad.val := by
  refine clean_of_ne fun c member => ?_
  rintro rfl
  exact absurd (pad.property _ member) (by decide)

theorem clean_digits {digits : Bytes} (all : ∀ c ∈ digits, isDigit c = true) : Clean digits := by
  refine clean_of_ne fun c member => ?_
  rintro rfl
  exact absurd (all _ member) (by decide)

theorem Piece.clean (p : Piece) : Clean p.bytes := by
  cases p with
  | raw c allowed => exact clean_utf8 c
  | short s => cases s <;> exact clean_literal (by decide)
  | unicode a b c d =>
    have digit (d : HexDigit) : d.byte ≠ 0xed := by
      intro is
      have reads := d.byte_reads.1
      rw [is] at reads
      exact absurd reads (by decide)
    exact .cons (by decide) (.cons (by decide) (.cons (digit a) (.cons (digit b)
      (.cons (digit c) (.cons (digit d) trivial)))))

theorem Str.clean (s : Str) : Clean s.bytes := by
  have text : Clean s.text := by
    induction s with
    | nil => trivial
    | cons p s ih => exact p.clean.append ih
  exact .cons (by decide) (text.append (.cons (by decide) trivial))

theorem Exponent.clean (e : Exponent) : Clean e.bytes := by
  refine .cons (by cases e.upper <;> decide) (Clean.append ?_ (clean_digits e.all))
  match e.sign with
  | none => trivial
  | some true => exact .cons (by decide) trivial
  | some false => exact .cons (by decide) trivial

theorem Numeral.clean (n : Numeral) : Clean n.bytes := by
  refine ((Clean.append ?_ ?_).append ?_).append ?_
  · cases n.negative
    · trivial
    · exact .cons (by decide) trivial
  · exact clean_digits fun _ member => isDigit_of_mem_decimal member
  · split
    · trivial
    · exact .cons (by decide) (clean_digits n.all)
  · cases n.exponent with
    | none => trivial
    | some e => exact e.clean

mutual
theorem Document.clean : ∀ x : Document, Clean x.bytes
  | .null | .false | .true => clean_literal (by decide)
  | .number n => n.clean
  | .string s => s.clean
  | .emptyList pad => .cons (by decide) (pad.clean.append (.cons (by decide) trivial))
  | .list l => .cons (by decide) (l.clean.append (.cons (by decide) trivial))
  | .emptyObject pad => .cons (by decide) (pad.clean.append (.cons (by decide) trivial))
  | .object o => .cons (by decide) (o.clean.append (.cons (by decide) trivial))
theorem Elements.clean : ∀ l : Elements, Clean l.bytes
  | .one before x after => before.clean.append (x.clean.append after.clean)
  | .cons before x after rest =>
    before.clean.append (x.clean.append (after.clean.append (.cons (by decide) rest.clean)))
theorem Members.clean : ∀ o : Members, Clean o.bytes
  | .one before key between behind x after =>
    before.clean.append (key.clean.append (between.clean.append (.cons (by decide)
      (behind.clean.append (x.clean.append after.clean)))))
  | .cons before key between behind x after rest =>
    before.clean.append (key.clean.append (between.clean.append (.cons (by decide)
      (behind.clean.append (x.clean.append (after.clean.append (.cons (by decide) rest.clean)))))))
end

theorem JsonText.clean (t : JsonText) : Clean t.bytes :=
  t.before.clean.append (t.document.clean.append t.after.clean)

/-! ## What is written may have one -/

theorem surrogate_out {p : Piece} (half : ¬p.Direct) : ∃ d, 0xa0 ≤ d ∧ [0xed, d] <:+: escape p.out := by
  cases p with
  | raw c allowed => exact absurd trivial half
  | short s => exact absurd trivial half
  | unicode a b c d =>
    have small := Piece.unit_le a b c d
    simp only [Piece.Direct, not_or, not_lt] at half
    -- The code is between 0xD800 and 0xDFFF, so its bytes are 0xED and one from 0xA0.
    obtain ⟨low, high⟩ := half
    rw [Piece.out, encodeUnit_eq small]
    generalize Piece.unit a b c d = code at *
    have first : UInt8.ofNat (code / 4096 % 0x10 + 0xe0) = 0xed := by
      have is : code / 4096 % 0x10 + 0xe0 = 0xed := by omega
      rw [is]
      rfl
    have plain : escape (encodeCode code) = encodeCode code := by
      refine escape_plain fun c member => ?_
      have great := encodeCode_plain (by omega) c member
      exact ⟨isPlain_of_toNat (by omega) (by omega) (by omega), by omega⟩
    refine ⟨UInt8.ofNat (code / 64 % 0x40 + 0x80), ?_, [], [UInt8.ofNat (code % 0x40 + 0x80)], ?_⟩
    · rw [UInt8.le_iff_toNat_le, UInt8.toNat_ofNat_of_lt' (by simp only [UInt8.size]; omega)]
      change 0xa0 ≤ code / 64 % 0x40 + 0x80
      omega
    · rw [plain, encodeCode, if_neg (by omega), if_neg (by omega), if_pos small, first]
      rfl

theorem surrogate_string {s : Str} (half : ¬s.Direct) :
    ∃ d, 0xa0 ≤ d ∧ [0xed, d] <:+: dumpString s.out := by
  simp only [Str.Direct, not_forall] at half
  obtain ⟨p, member, half⟩ := half
  obtain ⟨d, big, inside⟩ := surrogate_out half
  obtain ⟨before, after, rfl⟩ := List.append_of_mem member
  refine ⟨d, big, inside.trans ⟨dquote :: escape (before.flatMap Piece.out),
    escape (after.flatMap Piece.out) ++ [dquote], ?_⟩⟩
  simp only [dumpString, Str.out, List.flatMap_append, List.flatMap_cons, escape_append,
    List.cons_append, List.append_assoc]

section
variable {D : Type} (number : D → Bytes)

theorem infix_items {l : List (WValue D)} {x : WValue D} (member : x ∈ l) (first : Bool) :
    dumpInternal number x <:+: dumpItems number first l := by
  induction l generalizing first with
  | nil => exact nomatch member
  | cons y l ih =>
    rw [dumpItems]
    rcases List.mem_cons.mp member with rfl | member
    · exact ⟨_, _, rfl⟩
    · exact (ih member false).trans (List.suffix_append _ _).isInfix

theorem infix_members {o : List (Bytes × WValue D)} {m : Bytes × WValue D} (member : m ∈ o)
    (first : Bool) : dumpString m.1 <:+: dumpMembers number first o ∧
      dumpInternal number m.2 <:+: dumpMembers number first o := by
  induction o generalizing first with
  | nil => exact nomatch member
  | cons y o ih =>
    obtain ⟨key, x⟩ := y
    rw [dumpMembers]
    rcases List.mem_cons.mp member with rfl | member
    · refine ⟨⟨(if !first then [comma] else []), [colon] ++ dumpInternal number x ++
        dumpMembers number false o, ?_⟩, ⟨_, _, rfl⟩⟩
      simp only [List.append_assoc]
    · obtain ⟨named, valued⟩ := ih member false
      exact ⟨named.trans (List.suffix_append _ _).isInfix, valued.trans (List.suffix_append _ _).isInfix⟩

end

section
variable {arrange : List (Bytes × WValue Double) → List (Bytes × WValue Double)}

mutual
theorem string_written (walks : ∀ o, (arrange o).Perm o) : ∀ (x : Document) {s : Str}, s ∈ x.strings →
    dumpString s.out <:+: dumpInternal formatG (x.written arrange)
  | .null, _, member | .false, _, member | .true, _, member | .number _, _, member
  | .emptyList _, _, member | .emptyObject _, _, member => nomatch member
  | .string t, s, member => by
    obtain rfl : s = t := List.mem_singleton.mp member
    exact List.infix_rfl
  | .list l, s, member => by
    obtain ⟨x, found, inside⟩ := string_items walks l member
    refine (inside.trans (infix_items formatG found true)).trans ⟨[openList], [closeList], ?_⟩
    rw [Document.written, dumpInternal, List.append_assoc, List.singleton_append]
  | .object o, s, member => by
    obtain ⟨m, found, inside⟩ := string_members walks o member
    obtain ⟨named, valued⟩ := infix_members formatG ((walks _).mem_iff.mpr found) true
    have all : dumpMembers formatG true (arrange (o.written arrange)) <:+:
        dumpInternal formatG ((Document.object o).written arrange) := by
      refine ⟨[openObject], [closeObject], ?_⟩
      rw [Document.written, dumpInternal, List.append_assoc, List.singleton_append]
    rcases inside with inside | inside
    · exact (inside.trans named).trans all
    · exact (inside.trans valued).trans all
theorem string_items (walks : ∀ o, (arrange o).Perm o) : ∀ (l : Elements) {s : Str}, s ∈ l.strings →
    ∃ x ∈ l.written arrange, dumpString s.out <:+: dumpInternal formatG x
  | .one _ x _, s, member => ⟨_, List.mem_singleton_self _, string_written walks x member⟩
  | .cons _ x _ rest, s, member => by
    rcases List.mem_append.mp member with member | member
    · exact ⟨_, List.mem_cons_self, string_written walks x member⟩
    · obtain ⟨y, found, inside⟩ := string_items walks rest member
      exact ⟨y, List.mem_cons_of_mem _ found, inside⟩
theorem string_members (walks : ∀ o, (arrange o).Perm o) : ∀ (o : Members) {s : Str}, s ∈ o.strings →
    ∃ m ∈ o.written arrange, dumpString s.out <:+: dumpString m.1 ∨
      dumpString s.out <:+: dumpInternal formatG m.2
  | .one _ key _ _ x _, s, member => by
    refine ⟨_, List.mem_singleton_self _, ?_⟩
    rcases List.mem_cons.mp member with rfl | member
    · exact Or.inl List.infix_rfl
    · exact Or.inr (string_written walks x member)
  | .cons _ key _ _ x _ rest, s, member => by
    rcases List.mem_cons.mp member with rfl | member
    · exact ⟨_, List.mem_cons_self, Or.inl List.infix_rfl⟩
    rcases List.mem_append.mp member with member | member
    · exact ⟨_, List.mem_cons_self, Or.inr (string_written walks x member)⟩
    · obtain ⟨m, found, inside⟩ := string_members walks rest member
      exact ⟨m, List.mem_cons_of_mem _ found, inside⟩
end

theorem direct_of_text (walks : ∀ o, (arrange o).Perm o) {x : Document} {t : JsonText}
    (text : t.bytes = dump formatG (x.written arrange)) : x.Direct := by
  intro s member
  by_contra half
  -- The two bytes are in what is written, and no JSON text has them.
  obtain ⟨d, big, inside⟩ := surrogate_string half
  refine t.clean.free big ?_
  rw [text]
  exact inside.trans (string_written walks x member)

end

end Pinocchio.Json
