import Pinocchio.Redis.Grammar

/-! What the parser takes.

Every state of the machine keeps what was read so far: some arrays whose items are complete but
the last, and the beginning of one more item. What is complete has the form of a reply, with the
parser's own reading of numerals.
-/

set_option autoImplicit false

namespace Pinocchio.Redis
open Semantics Reader RedisParser
open Reply (isNumeral)

def NumberKind.byte : NumberKind → UInt8
  | .integer => integerReply
  | .bulk => bulkReply
  | .array => arrayReply

structure OpenArray where
  num : Bytes
  items : List Wire

def OpenArray.bytes (o : OpenArray) : Bytes :=
  arrayReply :: (o.num ++ crlf ++ Wire.bytesItems o.items)

structure OpenArray.Framed (o : OpenArray) (frame : Frame) : Prop where
  count : lenientNumeral o.num = some (o.items.length + 1 + frame.later : Nat)
  formed : Wire.AllFormed lenientNumeral o.items
  items : frame.items = Wire.values o.items

/-- The innermost array comes first in the list, and last on the wire. -/
def openBytes : List OpenArray → Bytes
  | [] => []
  | o :: outer => openBytes outer ++ o.bytes

/-- The bytes of the item that is being read. -/
inductive Begun : Lexer → Bytes → Prop
  | start : Begun .start []
  | text (kind : TextKind) {buf : Bytes} (line : cr ∉ buf ∧ lf ∉ buf) :
      Begun (.text kind buf) (kind.byte :: buf)
  | textEnd (kind : TextKind) {buf : Bytes} (line : cr ∉ buf ∧ lf ∉ buf) :
      Begun (.textEnd kind buf) (kind.byte :: (buf ++ [cr]))
  | number (kind : NumberKind) {buf : Bytes} (numeral : ∀ c ∈ buf, isNumeral c = true) :
      Begun (.number kind buf) (kind.byte :: buf)
  | numberEnd (kind : NumberKind) {buf : Bytes}
      (numeral : buf ≠ [] ∧ ∀ c ∈ buf, isNumeral c = true) :
      Begun (.numberEnd kind buf) (kind.byte :: (buf ++ [cr]))
  | payload {num buf : Bytes} {later : Nat}
      (reads : lenientNumeral num = some (buf.length + 1 + later : Nat)) :
      Begun (.payload later buf) (bulkReply :: (num ++ crlf ++ buf))
  | payloadCR {num buf : Bytes} (reads : lenientNumeral num = some buf.length) :
      Begun (.payloadCR buf) (bulkReply :: (num ++ crlf ++ buf))
  | payloadLF {num buf : Bytes} (reads : lenientNumeral num = some buf.length) :
      Begun (.payloadLF buf) (bulkReply :: (num ++ crlf ++ (buf ++ [cr])))

/-- The bytes that brought the machine into a state. -/
def HasRead (r : Reader) (xs : Bytes) : Prop :=
  ∃ (opens : List OpenArray) (begun : Bytes),
    List.Forall₂ OpenArray.Framed opens r.frames ∧ Begun r.lexer begun ∧
      xs = openBytes opens ++ begun

/-- The bytes have the form of a reply and are read as this value. -/
def Accepts (xs : Bytes) (v : RedisValue) : Prop :=
  ∃ w : Wire, w.Formed lenientNumeral ∧ w.bytes = xs ∧ w.value = v

def Explains (xs : Bytes) : Progress Reader RedisValue → Prop
  | .more r => HasRead r xs
  | .done v => Accepts xs v
  | .reject => True

section
variable {opens : List OpenArray} {frames : List Frame}

theorem hasRead_start : HasRead resp.start [] := ⟨[], [], .nil, .start, rfl⟩

theorem explains_close (framed : List.Forall₂ OpenArray.Framed opens frames) {w : Wire}
    (formed : w.Formed lenientNumeral) :
    Explains (openBytes opens ++ w.bytes) (close frames w.value) := by
  induction framed generalizing w with
  | nil => exact ⟨w, formed, rfl, rfl⟩
  | @cons o frame opens frames head _ ih =>
    obtain ⟨later, items⟩ := frame
    obtain ⟨count, all, rfl⟩ := head
    have grown : Wire.AllFormed lenientNumeral (o.items ++ [w]) :=
      Wire.allFormed_append.mpr ⟨all, formed, trivial⟩
    have values : Wire.values (o.items ++ [w]) = Wire.values o.items ++ [w.value] :=
      Wire.values_append _ _
    have written : Wire.bytesItems (o.items ++ [w]) = Wire.bytesItems o.items ++ w.bytes := by
      rw [Wire.bytesItems_append, Wire.bytesItems, Wire.bytesItems, List.append_nil]
    cases later with
    | zero =>
      have array : (Wire.array o.num (o.items ++ [w])).Formed lenientNumeral :=
        ⟨⟨_, count, Or.inl (by simp)⟩, grown⟩
      have closed := ih array
      rw [Wire.value, values, Wire.bytes, written] at closed
      simpa [close, openBytes, OpenArray.bytes] using closed
    | succ later =>
      have count : lenientNumeral o.num =
          some ((o.items ++ [w]).length + 1 + later : Nat) := by
        rw [count, List.length_append, List.length_singleton]
        dsimp only
        congr 2
        omega
      refine ⟨⟨o.num, o.items ++ [w]⟩ :: opens, [],
        .cons ⟨count, grown, values.symm⟩ ‹_›, .start, ?_⟩
      simp [openBytes, OpenArray.bytes, written]

theorem lenient_of_numeral {num : Bytes} (numeral : num ≠ [] ∧ ∀ c ∈ num, isNumeral c = true) :
    lenientNumeral num = some (strtol num) := if_pos numeral

theorem explains_announce (framed : List.Forall₂ OpenArray.Framed opens frames)
    (kind : NumberKind) {num : Bytes} (numeral : num ≠ [] ∧ ∀ c ∈ num, isNumeral c = true) :
    Explains (openBytes opens ++ kind.byte :: (num ++ crlf))
      (announce kind (strtol num) frames) := by
  have reads := lenient_of_numeral numeral
  cases kind with
  | integer => exact explains_close framed (w := .integer num) ⟨_, reads⟩
  | bulk =>
    simp only [announce]
    split
    · rename_i minus
      have closed := explains_close framed (w := .bulk num none) ⟨_, reads, minus⟩
      simpa [Wire.bytes, Wire.payloadBytes, Wire.value, NumberKind.byte] using closed
    · split
      · rename_i zero
        have size : lenientNumeral num = some (([] : Bytes).length : Nat) := by
          rw [reads, zero]
          rfl
        exact ⟨opens, _, framed, .payloadCR size, by simp [NumberKind.byte]⟩
      · split
        · trivial
        · have size : lenientNumeral num =
              some (([] : Bytes).length + 1 + ((strtol num).toNat - 1) : Nat) := by
            rw [reads, List.length_nil]
            congr 1
            omega
          exact ⟨opens, _, framed, .payload size, by simp [NumberKind.byte]⟩
  | array =>
    simp only [announce]
    split
    · rename_i none
      have counted : Wire.Counts (strtol num) [] := by
        rcases none with minus | zero
        · exact Or.inr ⟨minus, rfl⟩
        · exact Or.inl (by rw [zero]; rfl)
      have closed := explains_close framed (w := .array num []) ⟨⟨_, reads, counted⟩, trivial⟩
      simpa [Wire.bytes, Wire.bytesItems, Wire.value, Wire.values, NumberKind.byte] using closed
    · split
      · trivial
      · refine ⟨⟨num, []⟩ :: opens, [], .cons ⟨?_, trivial, rfl⟩ framed, .start, ?_⟩
        · rw [reads, List.length_nil]
          congr 1
          dsimp only
          omega
        · simp [openBytes, OpenArray.bytes, Wire.bytesItems, NumberKind.byte]

theorem isText_not_end {c : UInt8} (text : isText c = true) : c ≠ lf := by
  rintro rfl
  exact absurd text (by decide)

theorem Begun.hasRead (framed : List.Forall₂ OpenArray.Framed opens frames) {lexer : Lexer}
    {begun : Bytes} (next : Begun lexer begun) :
    HasRead ⟨lexer, frames⟩ (openBytes opens ++ begun) :=
  ⟨opens, begun, framed, next, rfl⟩

theorem explains_start (framed : List.Forall₂ OpenArray.Framed opens frames) (c : UInt8) :
    Explains (openBytes opens ++ [c]) (feed ⟨.start, frames⟩ c) := by
  simp only [feed]
  split
  · rename_i same
    exact same ▸ Begun.hasRead framed (.text .simple (by simp))
  split
  · rename_i same
    exact same ▸ Begun.hasRead framed (.text .error (by simp))
  split
  · rename_i same
    exact same ▸ Begun.hasRead framed (.number .integer (by simp))
  split
  · rename_i same
    exact same ▸ Begun.hasRead framed (.number .bulk (by simp))
  split
  · rename_i same
    exact same ▸ Begun.hasRead framed (.number .array (by simp))
  · trivial

theorem explains_text (framed : List.Forall₂ OpenArray.Framed opens frames) (kind : TextKind)
    {buf : Bytes} (line : cr ∉ buf ∧ lf ∉ buf) (c : UInt8) :
    Explains (openBytes opens ++ kind.byte :: (buf ++ [c])) (feed ⟨.text kind buf, frames⟩ c) := by
  simp only [feed]
  split
  · rename_i same
    exact same ▸ Begun.hasRead framed (.textEnd kind line)
  rename_i other
  split
  · rename_i text
    refine Begun.hasRead framed (.text kind ⟨?_, ?_⟩)
    · simpa [line.1] using Ne.symm other
    · simpa [line.2] using (isText_not_end text).symm
  · trivial

theorem explains_number (framed : List.Forall₂ OpenArray.Framed opens frames) (kind : NumberKind)
    {buf : Bytes} (numeral : ∀ c ∈ buf, isNumeral c = true) (c : UInt8) :
    Explains (openBytes opens ++ kind.byte :: (buf ++ [c]))
      (feed ⟨.number kind buf, frames⟩ c) := by
  simp only [feed]
  split
  · rename_i same
    subst same
    split
    · trivial
    · rename_i some
      exact Begun.hasRead framed (.numberEnd kind ⟨some, numeral⟩)
  split
  · rename_i digit
    refine Begun.hasRead framed (.number kind ?_)
    intro d member
    rcases List.mem_append.mp member with old | new
    · exact numeral d old
    · rw [List.mem_singleton.mp new]
      exact digit
  · trivial

theorem explains_payload (framed : List.Forall₂ OpenArray.Framed opens frames) {num buf : Bytes}
    {later : Nat} (reads : lenientNumeral num = some (buf.length + 1 + later : Nat)) (c : UInt8) :
    Explains (openBytes opens ++ bulkReply :: (num ++ crlf ++ (buf ++ [c])))
      (feed ⟨.payload later buf, frames⟩ c) := by
  cases later with
  | zero =>
    refine Begun.hasRead framed (.payloadCR ?_)
    rw [reads, List.length_append, List.length_singleton, Nat.add_zero]
  | succ later =>
    refine Begun.hasRead framed (.payload ?_)
    rw [reads, List.length_append, List.length_singleton]
    congr 2
    omega

end

theorem explains_feed {r : Reader} {xs : Bytes} (read : HasRead r xs) (c : UInt8) :
    Explains (xs ++ [c]) (feed r c) := by
  obtain ⟨lexer, frames⟩ := r
  obtain ⟨opens, begun, framed, lexed, rfl⟩ := read
  rw [List.append_assoc]
  cases lexed with
  | start => exact explains_start framed c
  | text kind line => exact explains_text framed kind line c
  | @textEnd kind buf line =>
    simp only [feed]
    split
    · rename_i same
      subst same
      have closed := explains_close framed (w := .text kind buf) line
      cases kind <;> simpa [Wire.bytes, Wire.value, TextKind.isError, crlf] using closed
    · trivial
  | number kind numeral => exact explains_number framed kind numeral c
  | @numberEnd kind buf numeral =>
    simp only [feed]
    split
    · rename_i same
      subst same
      simpa [crlf] using explains_announce framed kind numeral
    · trivial
  | @payload num buf later reads =>
    have taken := explains_payload framed reads c
    rwa [← List.append_assoc (num ++ crlf)] at taken
  | @payloadCR num buf reads =>
    simp only [feed]
    split
    · rename_i same
      have ended := Begun.hasRead framed (.payloadLF reads)
      rw [← List.append_assoc (num ++ crlf)] at ended
      exact same ▸ ended
    · trivial
  | @payloadLF num buf reads =>
    simp only [feed]
    split
    · rename_i same
      subst same
      have closed := explains_close framed (w := .bulk num (some buf)) ⟨_, reads, rfl⟩
      simpa [Wire.bytes, Wire.payloadBytes, Wire.value, crlf] using closed
    · trivial

theorem accepts_of_scan {r : Reader} {xs ys : Bytes} {v : RedisValue} {used : Nat}
    (read : HasRead r xs) (done : resp.scan r ys = .done v used) :
    Accepts (xs ++ ys.take used) v := by
  induction ys generalizing r xs used with
  | nil => cases done
  | cons c ys ih =>
    have step : Explains (xs ++ [c]) (resp.feed r c) := explains_feed read c
    rw [resp.scan_cons] at done
    cases progress : resp.feed r c with
    | more t =>
      rw [progress] at done step
      cases rest : resp.scan t ys with
      | pending s => simp [rest] at done
      | rejected k => simp [rest] at done
      | done w k =>
        simp only [Machine.resume_more, rest, Outcome.shift_done, Outcome.done.injEq] at done
        obtain ⟨rfl, rfl⟩ := done
        have taken := ih step rest
        rwa [List.append_assoc, List.singleton_append, ← List.take_succ_cons] at taken
    | done w =>
      rw [progress] at done step
      simp only [Machine.resume_done, Outcome.done.injEq] at done
      obtain ⟨rfl, rfl⟩ := done
      exact step
    | reject => simp [progress] at done

/-- What a fresh parser takes can be read in one way, and it is a reply of the protocol with the
value that was made of it exactly when it is proper, whatever the absent array stands for. -/
theorem parse_accepts (ptr : Text) (absent : RedisValue) {out : Parsed} {v : RedisValue}
    {q : RedisParser} (called : parse {} ptr.val = .ok out) (completed : out.result = .completed)
    (taken : out.parser.result = .ok (v, q)) :
    ∃ w : Wire, w.Formed lenientNumeral ∧ w.bytes = ptr.val.take out.count ∧
      (∀ u : Wire, u.Formed lenientNumeral → u.bytes = ptr.val.take out.count → u = w) ∧
      (IsReply absent (ptr.val.take out.count) v ↔ w.Proper absent) := by
  obtain ⟨got, parsed, meets⟩ := parse_meets represents_initial ptr.val
  cases called.symm.trans parsed
  cases outcome : resp.scan resp.start ptr.val with
  | pending t =>
    rw [outcome] at meets
    cases completed.symm.trans meets.1
  | rejected used =>
    rw [outcome] at meets
    cases completed.symm.trans meets.1
  | done made used =>
    rw [outcome] at meets
    obtain ⟨_, count, ready⟩ := meets
    obtain ⟨rest, popped, _⟩ := ready.pop .assertion
    rw [RedisParser.result, popped] at taken
    cases taken
    rw [Nat.zero_add] at count
    obtain ⟨w, formed, bytes, rfl⟩ := accepts_of_scan hasRead_start outcome
    rw [List.nil_append, ← count] at bytes
    have fits : Wire.Fits w.bytes := by
      constructor
      have all := ptr.property
      rw [bytes, List.length_take]
      omega
    refine ⟨w, formed, bytes, fun u other same => ?_, bytes ▸ isReply_iff absent formed fits⟩
    exact (Wire.bytes_unique u w other formed (x := []) (y := []) (by rw [same, bytes])).1

def sampleBytes : Text := ⟨ascii "*2\r\n:7\r\n$-1\r\n", by decide +kernel⟩

theorem parse_accepts_sample :
    ∃ out q, parse {} sampleBytes.val = .ok out ∧ out.result = .completed ∧
      out.parser.result = .ok (.array [.int 7, .null], q) ∧
      ∃ w : Wire, w.Formed lenientNumeral ∧ w.bytes = sampleBytes.val.take out.count ∧
        (∀ u : Wire, u.Formed lenientNumeral → u.bytes = sampleBytes.val.take out.count → u = w) ∧
        (IsReply .null (sampleBytes.val.take out.count) (.array [.int 7, .null]) ↔
          w.Proper .null) := by
  obtain ⟨out, called, completed, q, taken⟩ :
      ∃ out, parse {} sampleBytes.val = .ok out ∧ out.result = .completed ∧
        ∃ q, out.parser.result = .ok (.array [.int 7, .null], q) :=
    ⟨⟨{ bulkSize := -1, valueStack := [.array [.int 7, .null]] }, 13, .completed⟩,
      by decide +kernel, rfl, { bulkSize := -1 },
      by decide +kernel⟩
  exact ⟨out, q, called, completed, taken,
    parse_accepts sampleBytes .null called completed taken⟩

/-- A lone sign is taken for zero. -/
theorem parse_loneSign :
    ¬∃ absent, ∀ (ptr : Text) (out : Parsed) (v : RedisValue) (q : RedisParser),
      parse {} ptr.val = .ok out → out.result = .completed →
      out.parser.result = .ok (v, q) → IsReply absent (ptr.val.take out.count) v := by
  rintro ⟨absent, always⟩
  have reply := always ⟨ascii ":-\r\n", by decide +kernel⟩
    ⟨{ valueStack := [.int 0] }, 4, .completed⟩ (.int 0) {} (by decide +kernel) rfl
    (by decide +kernel)
  have taken : (Wire.integer [minus]).Formed lenientNumeral := ⟨0, by decide +kernel⟩
  obtain ⟨n, number, _⟩ := (isReply_iff absent taken ⟨by decide +kernel⟩).mp reply
  have none : exactNumeral [minus] = none := by decide +kernel
  cases none.symm.trans number

end Pinocchio.Redis
