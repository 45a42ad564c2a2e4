import Pinocchio.Json.Surrogates

/-! The message that `/gcm/send` stores, for the value that was sent.

The data of a request is read, copied and written again. This keeps the value unless a number cannot
be read, half of a surrogate pair is escaped, or a number has more digits than `%g` writes.
-/

set_option autoImplicit false

namespace Pinocchio.Http
open Semantics Json

section
variable (lexicalCast : Bytes → Option Double)
  (arrange : List (Bytes × WValue Double) → List (Bytes × WValue Double))

/-- `crow::json::dump(x["data"])`, where `x` is the body. A key that is missing is an exception. -/
def storedMessage (body : Bytes) : Option Bytes := do
  -- A body that cannot be read is answered with 406.
  let x ← (load body).toOption
  let data ← x.at (ascii "data")
  return dump formatG (← wvalue lexicalCast arrange data)

end

def dataUnits : List Nat := (ascii "data").map UInt8.toNat

/-- A request body that is an object with distinct keys, and the data in it. -/
structure Post where
  before : Blank
  members : Members
  after : Blank
  distinct : (members.values.map Prod.fst).Nodup
  key : Str
  data : Document
  member : (key, data) ∈ members.entries
  named : key.units = dataUnits
  built : data.value.Built

namespace Post

def text (post : Post) : JsonText := ⟨post.before, .object post.members, post.after⟩

def body (post : Post) : Bytes := post.text.bytes

/-- What is stored is a JSON text of the value that was sent, up to the order of object members. -/
def Faithful (lexicalCast : Bytes → Option Double)
    (arrange : List (Bytes × WValue Double) → List (Bytes × WValue Double)) (post : Post) : Prop :=
  ∃ message, storedMessage lexicalCast arrange post.body = some message ∧
    ∃ t : JsonText, t.bytes = message ∧ Same t.document.value post.data.value

end Post

/-! ## The member is found -/

theorem signed_injective : Function.Injective signed := by
  refine List.map_injective_iff.mpr fun c d same => ?_
  have bytes : c.toInt8 = d.toInt8 := Int8.toInt_inj.mp same
  simpa using congrArg Int8.toUInt8 bytes

theorem sorted_members (o : List (Bytes × RValue)) :
    (o.mergeSort fun l r => ¬signed r.1 < signed l.1).Pairwise fun l r =>
      ¬signed r.1 < signed l.1 := by
  have sorted : (o.mergeSort fun l r => ¬signed r.1 < signed l.1).Pairwise fun l r =>
      decide (¬signed r.1 < signed l.1) = true :=
    List.pairwise_mergeSort (fun a b c first second => by
      simp only [decide_eq_true_eq] at first second ⊢
      exact List.not_lt.mpr (List.le_trans (List.not_lt.mp first) (List.not_lt.mp second)))
    (fun a b => by
      simp only [Bool.or_eq_true, decide_eq_true_eq]
      exact (List.le_total (signed a.1) (signed b.1)).imp List.not_lt.mpr List.not_lt.mpr) o
  exact sorted.imp fun is => of_decide_eq_true is

theorem at_member {o : List (Bytes × RValue)} (distinct : (o.map Prod.fst).Nodup) {str : Bytes}
    {v : RValue} (member : (str, v) ∈ o) : (RValue.object o).at str = some v := by
  have sorted := sorted_members o
  have among : (str, v) ∈ o.mergeSort fun l r => ¬signed r.1 < signed l.1 :=
    List.mem_mergeSort.mpr member
  rw [RValue.at]
  cases found : (o.mergeSort fun l r => ¬signed r.1 < signed l.1).find?
      fun l => ¬signed l.1 < signed str with
  | none => exact absurd (List.find?_eq_none.mp found _ among) (by simp)
  | some it =>
    obtain ⟨first, before, after, split, lower⟩ := List.find?_eq_some_iff_append.mp found
    have isMember : it ∈ o := List.mem_mergeSort.mp (List.mem_of_find?_eq_some found)
    rw [split] at among sorted
    have key : it.1 = str := by
      rcases List.mem_append.mp among with among | among
      · exact absurd (lower _ among) (by simp)
      rcases List.mem_cons.mp among with is | among
      · rw [← is]
      -- The member comes later, so its key is not lower than the one that was found.
      · have order := (List.pairwise_cons.mp (List.pairwise_append.mp sorted).2.1).1 _ among
        have least : ¬signed it.1 < signed str := by simpa using first
        exact signed_injective (List.le_antisymm (List.not_lt.mp order) (List.not_lt.mp least))
    have same : it = (str, v) := List.inj_on_of_nodup_map distinct isMember member key
    dsimp only
    rw [if_pos key, same]

theorem reads_entries (o : Members) :
    o.reads = o.entries.map fun entry => (entry.1.out, entry.2.read) := by
  cases o with
  | one => rfl
  | cons _ _ _ _ _ _ rest => exact congrArg (_ :: ·) (reads_entries rest)

theorem values_entries (o : Members) :
    o.values = o.entries.map fun entry => (entry.1.units, entry.2.value) := by
  cases o with
  | one => rfl
  | cons _ _ _ _ _ _ rest => exact congrArg (_ :: ·) (values_entries rest)

theorem out_ascii {s : Str} (small : ∀ u ∈ s.units, u < 0x80) : s.out = s.units.map UInt8.ofNat := by
  induction s with
  | nil => rfl
  | cons p s ih =>
    rw [Str.units, List.flatMap_cons, List.forall_mem_append] at small
    -- A code below 0x80 is its own byte, raw or escaped.
    have head : p.out = p.units.map UInt8.ofNat := by
      cases p with
      | raw c allowed =>
        have ascii : c.toNat ≤ 0x7f := by
          have units : ∀ u ∈ utf16 c, u < 0x80 := small.1
          unfold utf16 at units
          split at units
          · exact Nat.le_of_lt_succ (units _ List.mem_cons_self)
          · exact absurd (units _ List.mem_cons_self) (by omega)
        rw [Piece.out, utf8EncodeChar_eq, encodeCode, if_pos ascii, Piece.units, utf16,
          if_pos (by omega)]
        rfl
      | short s => cases s <;> rfl
      | unicode a b c d =>
        have ascii : Piece.unit a b c d < 0x80 := small.1 _ List.mem_cons_self
        rw [Piece.out, encodeUnit, if_neg (by omega), if_neg (by omega)]
        rfl
    rw [Str.out, List.flatMap_cons, Str.units, List.flatMap_cons, List.map_append, head]
    exact congrArg (p.units.map UInt8.ofNat ++ ·) (ih small.2)

section
variable {lexicalCast : Bytes → Option Double}
  {arrange : List (Bytes × WValue Double) → List (Bytes × WValue Double)} {post : Post}

theorem at_data (post : Post) :
    (Document.object post.members).read.at (ascii "data") = some post.data.read := by
  have key : post.key.out = ascii "data" := by
    rw [out_ascii (by rw [post.named]; decide), post.named]
    decide
  -- Keys that denote different strings are different bytes.
  have distinct : (post.members.reads.map Prod.fst).Nodup := by
    refine List.Nodup.of_map unitsOf ?_
    have units := post.distinct
    rw [values_entries, List.map_map] at units
    rw [reads_entries, List.map_map, List.map_map]
    refine (List.map_congr_left fun entry _ => ?_) ▸ units
    exact entry.1.units_out.symm
  refine at_member distinct ?_
  rw [reads_entries, ← key]
  exact List.mem_map.mpr ⟨_, post.member, rfl⟩

theorem stored_of_plain
    (exact : ∀ n : Numeral, Value.Exact (.number n.value) → lexicalCast n.bytes = some n.double)
    (plain : post.text.document.Plain) :
    storedMessage lexicalCast arrange post.body =
      some (dump formatG (post.data.written arrange)) := by
  have read : load post.body = .ok (Document.object post.members).read :=
    (load_text post.text).trans (if_pos plain)
  have copied := wvalue_read arrange exact post.data post.built
  rw [storedMessage, read]
  simp only [Except.toOption, Option.bind_eq_bind, Option.bind_some, at_data post, copied]
  rfl

theorem stored_of_not_plain (notPlain : ¬post.text.document.Plain) :
    storedMessage lexicalCast arrange post.body = none := by
  have read : load post.body = .error .invalid := (load_text post.text).trans (if_neg notPlain)
  rw [storedMessage, read]
  rfl

theorem short_of_text (walks : ∀ o, (arrange o).Perm o) {x : Document} {t : JsonText}
    (text : t.bytes = dump formatG (x.written arrange)) : t.document.value.IsShort := by
  obtain ⟨v, ⟨y, written, plain, rfl⟩, short, -⟩ :=
    written_denotes arrange walks x (direct_of_text walks text)
  have same : JsonText.bytes ⟨noBlank, y, noBlank⟩ = t.bytes := by
    rw [text, ← written]
    simp [JsonText.bytes, noBlank]
  exact value_unique same plain ▸ short

/-- The message that is stored has the value of the data exactly when every number in the body can
be read, no half of a pair is escaped in the data, and its integers have six significant digits at
most. -/
theorem storedMessage_faithful
    (exact : ∀ n : Numeral, Value.Exact (.number n.value) → lexicalCast n.bytes = some n.double)
    (walks : ∀ o, (arrange o).Perm o) (post : Post) :
    post.Faithful lexicalCast arrange ↔
      post.text.document.Plain ∧ post.data.Direct ∧ post.data.value.IsShort := by
  constructor
  · rintro ⟨message, stored, t, text, same⟩
    have plain : post.text.document.Plain := by
      by_contra notPlain
      rw [stored_of_not_plain notPlain] at stored
      exact nomatch stored
    rw [stored_of_plain exact plain] at stored
    -- What was stored is a text of the value that was written, and of no other.
    rw [← Option.some.inj stored] at text
    exact ⟨plain, direct_of_text walks text, same_short _ same (short_of_text walks text)⟩
  · rintro ⟨plain, direct, short⟩
    obtain ⟨v, ⟨y, written, -, rfl⟩, -, same⟩ := written_denotes arrange walks post.data direct
    refine ⟨_, stored_of_plain exact plain, ⟨noBlank, y, noBlank⟩, ?_, same short⟩
    rw [← written]
    simp [JsonText.bytes, noBlank]

end

def letters (text : String) : Str := text.toList.map pieceOf

theorem letters_direct (text : String) : (letters text).Direct := by
  intro p member
  obtain ⟨c, -, rfl⟩ := List.mem_map.mp member
  unfold pieceOf
  split_ifs
  all_goals first | trivial | skip
  refine Or.inl ?_
  have high := (Fin.ofNat 16 (c.toNat / 16)).isLt
  have low := (Fin.ofNat 16 (c.toNat % 16)).isLt
  simp only [Piece.unit, Fin.val_zero]
  omega

def postOf (data : Document) (built : data.value.Built) : Post where
  before := noBlank
  members := .cons noBlank (letters "to") noBlank noBlank (.string (letters "a")) noBlank
    (.one noBlank (letters "data") noBlank noBlank data noBlank)
  after := noBlank
  distinct := (by decide +kernel : [(letters "to").units, (letters "data").units].Nodup)
  key := letters "data"
  data := data
  member := List.mem_cons_of_mem _ List.mem_cons_self
  named := by decide +kernel
  built := built

theorem integer_exact {n : Nat} (small : n < 2 ^ 53) : Value.Exact (.number (integer n).value) :=
  ⟨n, by rw [integer_value]; rfl, small⟩

def listPost : Post :=
  postOf (.list (.cons noBlank (.number (integer 1200000)) noBlank
      (.one noBlank (.string (letters "a\n\"")) noBlank)))
    ⟨trivial, integer_exact (by decide), ⟨"a\n\"".toList, by decide +kernel⟩, trivial⟩

theorem storedMessage_faithful_list : listPost.Faithful exactCast id := by
  refine (storedMessage_faithful (fun n _ => exactCast_bytes n) (fun o => List.Perm.refl o) listPost).mpr
    ⟨?_, ?_, trivial, ?_, trivial, trivial⟩
  · intro n member
    obtain rfl : n = integer 1200000 := List.mem_singleton.mp member
    exact fun _ _ => rfl
  · intro s member
    obtain rfl : s = letters "a\n\"" := List.mem_singleton.mp member
    exact letters_direct _
  · refine ⟨12, 5, by decide, ?_⟩
    rw [integer_value]
    norm_num

def sevenPost : Post := postOf (.number (integer 1234567)) (integer_exact (by decide))

theorem storedMessage_rounds : sevenPost.body = ascii "\x7b\"to\":\"a\",\"data\":1234567\x7d" ∧
    storedMessage exactCast id sevenPost.body = some (ascii "1.23457e+06") ∧
    ¬sevenPost.Faithful exactCast id := by
  have plain : sevenPost.text.document.Plain := by
    intro n member
    obtain rfl : n = integer 1234567 := List.mem_singleton.mp member
    exact fun _ _ => rfl
  have stored : storedMessage exactCast id sevenPost.body = _ :=
    stored_of_plain (fun n _ => exactCast_bytes n) plain
  refine ⟨by decide +kernel, stored.trans (by decide +kernel), ?_⟩
  rintro ⟨message, same, t, text, value⟩
  rw [← Option.some.inj (stored.symm.trans same)] at text
  have short := same_short _ value (short_of_text (fun o => List.Perm.refl o) text)
  have digits : IsShort (1234567 : Nat) := integer_value 1234567 ▸ short
  exact not_isShort (by decide) (by decide) digits

end Pinocchio.Http
