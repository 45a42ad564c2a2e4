import Mathlib.Data.List.Forall2
import Pinocchio.Json.Reading

/-! The texts that `crow::json::dump` gives, as JSON texts.

What is written for a value is a document again, unless a string in it has half of a surrogate pair:
its bytes are no UTF-8, and so they are in no JSON text.
-/

set_option autoImplicit false

namespace Pinocchio.Json
open Semantics

/-! ## Escapes -/

def pieceOf (c : Char) : Piece :=
  if allowed : 32 ≤ c.toNat ∧ c ≠ '"' ∧ c ≠ '\\' then .raw c allowed
  else if c = '"' then .short .quotation
  else if c = '\\' then .short .backslash
  else if c.toNat = 10 then .short .newline
  else if c.toNat = 8 then .short .backspace
  else if c.toNat = 12 then .short .formFeed
  else if c.toNat = 13 then .short .return
  else if c.toNat = 9 then .short .tab
  else .unicode ⟨0, false⟩ ⟨0, false⟩ ⟨Fin.ofNat 16 (c.toNat / 16), false⟩
    ⟨Fin.ofNat 16 (c.toNat % 16), false⟩

theorem escapeChar_plain {c : UInt8} (plain : IsPlain c) (printable : 0x20 ≤ c.toNat) :
    escapeChar c = [c] := by
  have others : ∀ d : UInt8, d.toNat < 0x20 → c ≠ d := by
    rintro d control rfl
    omega
  have notControl : ¬c < 0x20 := by
    rw [UInt8.lt_iff_toNat_lt]
    exact Nat.not_lt.mpr printable
  simp only [escapeChar, if_neg plain.1, if_neg plain.2.1, if_neg (others 10 (by decide)),
    if_neg (others 8 (by decide)), if_neg (others 12 (by decide)), if_neg (others 13 (by decide)),
    if_neg (others 9 (by decide)), if_neg notControl]

theorem escape_append (s t : Bytes) : escape (s ++ t) = escape s ++ escape t :=
  List.flatMap_append

theorem escape_plain {run : Bytes} (plain : ∀ c ∈ run, IsPlain c ∧ 0x20 ≤ c.toNat) :
    escape run = run := by
  induction run with
  | nil => rfl
  | cons c run ih =>
    obtain ⟨head, tail⟩ := List.forall_mem_cons.mp plain
    have rest := ih tail
    rw [escape, List.flatMap_cons, escapeChar_plain head.1 head.2]
    exact congrArg (c :: ·) rest

theorem escape_utf8 (c : Char) :
    escape (String.utf8EncodeChar c) = (pieceOf c).bytes ∧ (pieceOf c).units = utf16 c := by
  by_cases allowed : 32 ≤ c.toNat ∧ c ≠ '"' ∧ c ≠ '\\'
  · rw [pieceOf, dif_pos allowed]
    exact ⟨escape_plain (raw_isPlain allowed), rfl⟩
  -- Only ASCII characters need an escape, and these can be tried one by one.
  · have low : c.toNat < 128 := by
      by_contra high
      refine allowed ⟨by omega, ?_, ?_⟩
      · rintro rfl
        exact high (by decide)
      · rintro rfl
        exact high (by decide)
    have tried : ∀ n : Fin 128, ¬(32 ≤ n.val ∧ Char.ofNat n.val ≠ '"' ∧ Char.ofNat n.val ≠ '\\') →
        escape (String.utf8EncodeChar (Char.ofNat n.val)) = (pieceOf (Char.ofNat n.val)).bytes ∧
          (pieceOf (Char.ofNat n.val)).units = utf16 (Char.ofNat n.val) := by decide +kernel
    have result := tried ⟨c.toNat, low⟩
    simp only [Char.ofNat_toNat] at result
    exact result allowed

theorem Piece.Direct.char {p : Piece} (direct : p.Direct) :
    ∃ c : Char, p.out = String.utf8EncodeChar c ∧ p.units = utf16 c := by
  cases p with
  | raw c allowed => exact ⟨c, rfl, rfl⟩
  | short s => exact ⟨Char.ofNat s.code.toNat, by cases s <;> decide, by cases s <;> decide⟩
  | unicode a b c d =>
    have small := unit_le a b c d
    -- The code is no surrogate, so it is a character, and its own encoding is the right one.
    have valid : (unit a b c d).isValidChar := direct.imp_right fun above => ⟨above, by omega⟩
    have code : (Char.ofNatAux (unit a b c d) valid).toNat = unit a b c d := rfl
    refine ⟨Char.ofNatAux (unit a b c d) valid, ?_, ?_⟩
    · rw [out, encodeUnit_eq small, utf8EncodeChar_eq, code]
    · rw [utf16, code, if_pos (by omega)]
      rfl

theorem dumpString_out {s : Str} (direct : s.Direct) :
    ∃ t : Str, dumpString s.out = t.bytes ∧ t.units = s.units := by
  suffices ∃ t : Str, escape s.out = t.text ∧ t.units = s.units by
    obtain ⟨t, written, same⟩ := this
    exact ⟨t, by rw [dumpString, written]; rfl, same⟩
  induction s with
  | nil => exact ⟨[], rfl, rfl⟩
  | cons p s ih =>
    obtain ⟨head, tail⟩ := List.forall_mem_cons.mp direct
    obtain ⟨c, encoded, units⟩ := head.char
    obtain ⟨t, written, same⟩ := ih tail
    obtain ⟨escaped, denoted⟩ := escape_utf8 c
    refine ⟨pieceOf c :: t, ?_, ?_⟩
    · rw [Str.out, List.flatMap_cons, escape_append, encoded, escaped]
      exact congrArg ((pieceOf c).bytes ++ ·) written
    · rw [Str.units, List.flatMap_cons, denoted, ← units]
      exact congrArg (p.units ++ ·) same

/-! ## Values -/

/-- A document with this text, of which every number can be read again, denotes the value. -/
def Denotes (text : Bytes) (v : Value) : Prop := ∃ x : Document, x.bytes = text ∧ x.Plain ∧ x.value = v

def DenotesKey (text : Bytes) (units : List Nat) : Prop := ∃ s : Str, s.bytes = text ∧ s.units = units

def noBlank : Blank := ⟨[], fun _ member => nomatch member⟩

section
variable {D : Type} {number : D → Bytes}

theorem dumpItems_first {l : List (WValue D)} (some : l ≠ []) :
    dumpItems number false l = comma :: dumpItems number true l := by
  cases l with
  | nil => exact absurd rfl some
  | cons x l => rfl

theorem dumpMembers_first {o : List (Bytes × WValue D)} (some : o ≠ []) :
    dumpMembers number false o = comma :: dumpMembers number true o := by
  cases o with
  | nil => exact absurd rfl some
  | cons m o => rfl

theorem dumpItems_elements {l : List (WValue D)} {vs : List Value} (some : l ≠ [])
    (items : List.Forall₂ (fun x v => Denotes (dump number x) v) l vs) :
    ∃ e : Elements, e.bytes = dumpItems number true l ∧ (∀ n ∈ e.numerals, n.Plain) ∧ e.values = vs := by
  induction items with
  | nil => exact absurd rfl some
  | @cons x v l vs head tail ih =>
    obtain ⟨doc, text, plain, rfl⟩ := head
    by_cases last : l = []
    · subst last
      cases tail
      refine ⟨.one noBlank doc noBlank, ?_, plain, rfl⟩
      simp [Elements.bytes, noBlank, dumpItems, text, dump]
    · obtain ⟨e, texts, plains, rfl⟩ := ih last
      refine ⟨.cons noBlank doc noBlank e, ?_, ?_, rfl⟩
      · simp [Elements.bytes, noBlank, dumpItems, text, dump, texts, dumpItems_first last]
      · exact List.forall_mem_append.mpr ⟨plain, plains⟩

theorem dumpMembers_members {o : List (Bytes × WValue D)} {vs : List (List Nat × Value)} (some : o ≠ [])
    (members : List.Forall₂ (fun m v => DenotesKey (dumpString m.1) v.1 ∧ Denotes (dump number m.2) v.2)
      o vs) :
    ∃ e : Members, e.bytes = dumpMembers number true o ∧ (∀ n ∈ e.numerals, n.Plain) ∧
      e.values = vs := by
  induction members with
  | nil => exact absurd rfl some
  | @cons m v o vs head tail ih =>
    obtain ⟨name, x⟩ := m
    obtain ⟨units, v⟩ := v
    obtain ⟨⟨key, named, rfl⟩, doc, text, plain, rfl⟩ := head
    by_cases last : o = []
    · subst last
      cases tail
      refine ⟨.one noBlank key noBlank noBlank doc noBlank, ?_, plain, rfl⟩
      simp [Members.bytes, noBlank, dumpMembers, named, text, dump]
    · obtain ⟨e, texts, plains, rfl⟩ := ih last
      refine ⟨.cons noBlank key noBlank noBlank doc noBlank e, ?_, ?_, rfl⟩
      · simp [Members.bytes, noBlank, dumpMembers, named, text, dump, texts, dumpMembers_first last]
      · exact List.forall_mem_append.mpr ⟨plain, plains⟩

theorem denotes_list {l : List (WValue D)} {vs : List Value}
    (items : List.Forall₂ (fun x v => Denotes (dump number x) v) l vs) :
    Denotes (dump number (.list l)) (.list vs) := by
  by_cases none : l = []
  · subst none
    cases items
    exact ⟨.emptyList noBlank, rfl, List.forall_mem_nil _, rfl⟩
  · obtain ⟨e, text, plain, rfl⟩ := dumpItems_elements none items
    exact ⟨.list e, by rw [Document.bytes, text]; rfl, plain, rfl⟩

theorem denotes_object {o : List (Bytes × WValue D)} {vs : List (List Nat × Value)}
    (members : List.Forall₂ (fun m v => DenotesKey (dumpString m.1) v.1 ∧ Denotes (dump number m.2) v.2)
      o vs) :
    Denotes (dump number (.object o)) (.object vs) := by
  by_cases none : o = []
  · subst none
    cases members
    exact ⟨.emptyObject noBlank, rfl, List.forall_mem_nil _, rfl⟩
  · obtain ⟨e, text, plain, rfl⟩ := dumpMembers_members none members
    exact ⟨.object e, by rw [Document.bytes, text]; rfl, plain, rfl⟩

end

/-! ## What is written for a document that was read -/

section
variable (arrange : List (Bytes × WValue Double) → List (Bytes × WValue Double))

mutual
/-- The value to be written for a document with exact numbers and distinct keys. -/
def Document.written : Document → WValue Double
  | .null => .null
  | .false => .false
  | .true => .true
  | .number n => .number n.double
  | .string s => .string s.out
  | .emptyList _ => .list []
  | .list l => .list l.written
  | .emptyObject _ => .object (arrange [])
  | .object o => .object (arrange o.written)
def Elements.written : Elements → List (WValue Double)
  | .one _ x _ => [x.written]
  | .cons _ x _ rest => x.written :: rest.written
def Members.written : Members → List (Bytes × WValue Double)
  | .one _ key _ _ x _ => [(key.out, x.written)]
  | .cons _ key _ _ x _ rest => (key.out, x.written) :: rest.written
end

theorem written_keys (o : Members) :
    o.values.map Prod.fst = (o.written arrange).map (unitsOf ·.1) := by
  cases o with
  | one _ key =>
    simp only [Members.values, Members.written, List.map_cons, List.map_nil, key.units_out]
  | cons _ key _ _ _ _ rest =>
    simp only [Members.values, Members.written, List.map_cons, key.units_out, written_keys rest]

theorem written_nodup {o : Members} (distinct : (o.values.map Prod.fst).Nodup) :
    ((o.written arrange).map Prod.fst).Nodup := by
  refine List.Nodup.of_map unitsOf ?_
  rw [List.map_map]
  rw [written_keys arrange] at distinct
  exact distinct

theorem emplace_new {D : Type} {o : List (Bytes × WValue D)} {key : Bytes} (x : WValue D)
    (new : key ∉ o.map Prod.fst) : emplace o key x = o ++ [(key, x)] := by
  -- The key is not there yet, so the pair goes to the end.
  refine if_neg fun found => new ?_
  obtain ⟨m, member, same⟩ := List.any_eq_true.mp found
  exact List.mem_map.mpr ⟨m, member, of_decide_eq_true same⟩

theorem distinct_new {D : Type} {before rest : List (Bytes × WValue D)} {key : Bytes} {x : WValue D}
    (distinct : ((before ++ (key, x) :: rest).map Prod.fst).Nodup) :
    key ∉ before.map Prod.fst := by
  rw [List.map_append, List.map_cons] at distinct
  exact fun member => List.disjoint_of_nodup_append distinct member List.mem_cons_self

section
variable {lexicalCast : Bytes → Option Double}

mutual
theorem wvalue_read (exact : ∀ n : Numeral, Value.Exact (.number n.value) →
    lexicalCast n.bytes = some n.double) :
    ∀ x : Document, x.value.Built → wvalue lexicalCast arrange x.read = some (x.written arrange)
  | .null, _ | .false, _ | .true, _ => rfl
  | .number n, built => by
    rw [Document.read, wvalue, exact n built]
    rfl
  | .string s, _ => by
    rw [Document.read, wvalue, s.unescape_text]
    rfl
  | .emptyList _, _ => rfl
  | .list l, built => by
    rw [Document.read, wvalue, wvalue_reads exact l built.2]
    rfl
  | .emptyObject _, _ => rfl
  | .object o, built => by
    -- Distinct keys are all kept: `emplace` drops a member only for a key that is there.
    have members := wvalue_members exact o [] built.2 (written_nodup arrange built.1)
    rw [Document.read, wvalue, members]
    rfl
theorem wvalue_reads (exact : ∀ n : Numeral, Value.Exact (.number n.value) →
    lexicalCast n.bytes = some n.double) :
    ∀ l : Elements, allItems Value.Exact l.values →
      wvalueItems lexicalCast arrange l.reads = some (l.written arrange)
  | .one _ x _, built => by
    rw [Elements.reads, wvalueItems, wvalue_read exact x built.1]
    rfl
  | .cons _ x _ rest, built => by
    rw [Elements.reads, wvalueItems, wvalue_read exact x built.1, wvalue_reads exact rest built.2]
    rfl
theorem wvalue_members (exact : ∀ n : Numeral, Value.Exact (.number n.value) →
    lexicalCast n.bytes = some n.double) :
    ∀ (o : Members) (before : List (Bytes × WValue Double)), allMembers Value.Exact o.values →
      ((before ++ o.written arrange).map Prod.fst).Nodup →
      wvalueMembers lexicalCast arrange before o.reads = some (before ++ o.written arrange)
  | .one _ key _ _ x _, before, built, distinct => by
    have new := distinct_new distinct
    rw [Members.reads, wvalueMembers, wvalue_read exact x built.1, Option.bind_eq_bind,
      Option.bind_some, emplace_new _ new]
    rfl
  | .cons _ key _ _ x _ rest, before, built, distinct => by
    have new := distinct_new distinct
    rw [Members.written, ← List.singleton_append, ← List.append_assoc] at distinct ⊢
    rw [Members.reads, wvalueMembers, wvalue_read exact x built.1, Option.bind_eq_bind,
      Option.bind_some, emplace_new _ new, wvalue_members exact rest _ built.2 distinct]
end

end

theorem allMembers_iff {p : Value → Prop} {o : List (List Nat × Value)} :
    allMembers p o ↔ ∀ m ∈ o, m.2.All p := by
  induction o with
  | nil => simp [allMembers]
  | cons m o ih => simp [allMembers, ih]

mutual
/-- A document without halves of pairs is written as a text of a value whose numbers are short, and
which is the same when the numbers were short before. -/
theorem written_denotes (walks : ∀ o, (arrange o).Perm o) :
    ∀ x : Document, x.Direct → ∃ v, Denotes (dump formatG (x.written arrange)) v ∧ v.IsShort ∧
      (x.value.IsShort → Same v x.value)
  | .null, _ => ⟨.null, ⟨.null, rfl, List.forall_mem_nil _, rfl⟩, trivial, fun _ => .refl _⟩
  | .false, _ => ⟨.bool false, ⟨.false, rfl, List.forall_mem_nil _, rfl⟩, trivial, fun _ => .refl _⟩
  | .true, _ => ⟨.bool true, ⟨.true, rfl, List.forall_mem_nil _, rfl⟩, trivial, fun _ => .refl _⟩
  | .number n, _ => by
    obtain ⟨m, text, plain, short, same⟩ := formatG_double n
    refine ⟨.number m.value, ⟨.number m, text.symm, List.forall_mem_singleton.mpr plain, rfl⟩, short,
      fun few => ?_⟩
    rw [same few]
    exact .refl _
  | .string s, direct => by
    obtain ⟨t, text, same⟩ := dumpString_out (direct s List.mem_cons_self)
    refine ⟨.string s.units, ⟨.string t, text.symm, List.forall_mem_nil _, ?_⟩, trivial,
      fun _ => .refl _⟩
    rw [Document.value, same]
  | .emptyList _, _ => ⟨.list [], denotes_list .nil, ⟨trivial, trivial⟩, fun _ => .refl _⟩
  | .list l, direct => by
    obtain ⟨vs, items, short, same⟩ := items_denote walks l direct
    exact ⟨.list vs, denotes_list items, ⟨trivial, short⟩, fun few => .list (same few.2)⟩
  | .emptyObject _, _ => by
    have none : arrange [] = [] := List.perm_nil.mp (walks [])
    refine ⟨.object [], ?_, ⟨trivial, trivial⟩, fun _ => .refl _⟩
    rw [Document.written, none]
    exact denotes_object .nil
  | .object o, direct => by
    obtain ⟨vs, members, short, keys, same⟩ := members_denote walks o direct
    -- The hash map is walked in some order, which `Same` does not tell from the first one.
    obtain ⟨ws, arranged, order⟩ := List.perm_comp_forall₂ (walks (o.written arrange)) members
    refine ⟨.object ws, denotes_object arranged, ⟨trivial, ?_⟩, fun few => .object order keys (same few.2)⟩
    exact allMembers_iff.mpr fun m member => allMembers_iff.mp short m (order.mem_iff.mp member)
theorem items_denote (walks : ∀ o, (arrange o).Perm o) :
    ∀ l : Elements, (∀ s ∈ l.strings, s.Direct) → ∃ vs,
      List.Forall₂ (fun x v => Denotes (dump formatG x) v) (l.written arrange) vs ∧
      allItems Value.ShortNumber vs ∧
      (allItems Value.ShortNumber l.values → List.Forall₂ Same vs l.values)
  | .one _ x _, direct => by
    obtain ⟨v, text, short, same⟩ := written_denotes walks x direct
    exact ⟨[v], .cons text .nil, ⟨short, trivial⟩, fun few => .cons (same few.1) .nil⟩
  | .cons _ x _ rest, direct => by
    rw [Elements.strings, List.forall_mem_append] at direct
    obtain ⟨v, text, short, same⟩ := written_denotes walks x direct.1
    obtain ⟨vs, texts, shorts, sames⟩ := items_denote walks rest direct.2
    exact ⟨v :: vs, .cons text texts, ⟨short, shorts⟩, fun few => .cons (same few.1) (sames few.2)⟩
theorem members_denote (walks : ∀ o, (arrange o).Perm o) :
    ∀ o : Members, (∀ s ∈ o.strings, s.Direct) → ∃ vs,
      List.Forall₂ (fun m v => DenotesKey (dumpString m.1) v.1 ∧ Denotes (dump formatG m.2) v.2)
        (o.written arrange) vs ∧
      allMembers Value.ShortNumber vs ∧ vs.map Prod.fst = o.values.map Prod.fst ∧
      (allMembers Value.ShortNumber o.values →
        List.Forall₂ Same (vs.map Prod.snd) (o.values.map Prod.snd))
  | .one _ key _ _ x _, direct => by
    rw [Members.strings, List.forall_mem_cons] at direct
    obtain ⟨t, named, units⟩ := dumpString_out direct.1
    obtain ⟨v, text, short, same⟩ := written_denotes walks x direct.2
    exact ⟨[(key.units, v)], .cons ⟨⟨t, named.symm, units⟩, text⟩ .nil, ⟨short, trivial⟩, rfl,
      fun few => .cons (same few.1) .nil⟩
  | .cons _ key _ _ x _ rest, direct => by
    rw [Members.strings, List.forall_mem_cons, List.forall_mem_append] at direct
    obtain ⟨t, named, units⟩ := dumpString_out direct.1
    obtain ⟨v, text, short, same⟩ := written_denotes walks x direct.2.1
    obtain ⟨vs, texts, shorts, keys, sames⟩ := members_denote walks rest direct.2.2
    exact ⟨(key.units, v) :: vs, .cons ⟨⟨t, named.symm, units⟩, text⟩ texts, ⟨short, shorts⟩,
      congrArg (key.units :: ·) keys, fun few => .cons (same few.1) (sames few.2)⟩
end

end

mutual
theorem same_short : ∀ {v : Value} (w : Value), Same v w → v.IsShort → w.IsShort
  | _, .null, same, short | _, .bool _, same, short | _, .number _, same, short
  | _, .string _, same, short => by
    cases same
    exact short
  | _, .list m, same, short => by
    cases same with
    | refl => exact short
    | list items => exact ⟨trivial, same_items m items short.2⟩
  | _, .object q, same, short => by
    cases same with
    | refl => exact short
    | @object o p _ order keys members =>
      refine ⟨trivial, same_members q members ?_⟩
      exact allMembers_iff.mpr fun m member => allMembers_iff.mp short.2 m (order.mem_iff.mpr member)
theorem same_items : ∀ {l : List Value} (m : List Value), List.Forall₂ Same l m →
    allItems Value.ShortNumber l → allItems Value.ShortNumber m
  | [], [], _, _ => trivial
  | _ :: _, w :: m, .cons same items, short => ⟨same_short w same short.1, same_items m items short.2⟩
theorem same_members : ∀ {p : List (List Nat × Value)} (q : List (List Nat × Value)),
    List.Forall₂ Same (p.map Prod.snd) (q.map Prod.snd) →
    allMembers Value.ShortNumber p → allMembers Value.ShortNumber q
  | [], [], _, _ => trivial
  | (_, _) :: _, (_, w) :: q, .cons same members, short =>
    ⟨same_short w same short.1, same_members q members short.2⟩
end

end Pinocchio.Json
