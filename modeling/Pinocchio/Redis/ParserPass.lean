import Pinocchio.Redis.Automaton

/-! One pass of the parser's loop computes what the byte machine says.

A parser between two calls represents a state of the machine: its stacks hold the
open arrays with the outermost on top. Within a call those arrays are in the local
variables of `parseArray`, so the loop over the bytes runs with empty stacks.
-/

set_option autoImplicit false

namespace Pinocchio.Redis
open Semantics Reader RedisParser

/-- The parser is in the state of the lexer, with the same bytes collected. -/
def Lexer.Matches (p : RedisParser) : Lexer → Prop
  | .start => p.state = .start
  | .text .simple buf => p.state = .string ∧ p.buf = buf
  | .text .error buf => p.state = .errorString ∧ p.buf = buf
  | .textEnd .simple buf => p.state = .stringLF ∧ p.buf = buf
  | .textEnd .error buf => p.state = .errorLF ∧ p.buf = buf
  | .number .integer buf => p.state = .integer ∧ p.buf = buf
  | .number .bulk buf => p.state = .bulkSize ∧ p.buf = buf
  | .number .array buf => p.state = .arraySize ∧ p.buf = buf
  | .numberEnd .integer buf => p.state = .integerLF ∧ p.buf = buf
  | .numberEnd .bulk buf => p.state = .bulkSizeLF ∧ p.buf = buf
  | .numberEnd .array buf => p.state = .arraySizeLF ∧ p.buf = buf
  | .payload later buf => p.state = .bulk ∧ p.bulkSize = later + 1 ∧ p.buf = buf
  | .payloadCR buf => p.state = .bulkCR ∧ p.buf = buf
  | .payloadLF buf => p.state = .bulkLF ∧ p.buf = buf

def Lexer.isPayload : Lexer → Bool
  | .payload _ _ => true
  | _ => false

theorem Lexer.Matches.congr {p q : RedisParser} {l : Lexer} (held : l.Matches p)
    (state : q.state = p.state) (buf : q.buf = p.buf) (bulkSize : q.bulkSize = p.bulkSize) :
    l.Matches q := by
  cases l with
  | start => exact state.trans held
  | text kind _ => cases kind <;> simpa only [Matches, state, buf] using held
  | textEnd kind _ => cases kind <;> simpa only [Matches, state, buf] using held
  | number kind _ => cases kind <;> simpa only [Matches, state, buf] using held
  | numberEnd kind _ => cases kind <;> simpa only [Matches, state, buf] using held
  | payload _ _ => simpa only [Matches, state, buf, bulkSize] using held
  | payloadCR _ => simpa only [Matches, state, buf] using held
  | payloadLF _ => simpa only [Matches, state, buf] using held

structure Represents (p : RedisParser) (r : Reader) : Prop where
  lexer : r.lexer.Matches p
  arrays : p.arrayStack = r.frames.reverse.map fun frame => (frame.later : Int) + 1
  values : p.valueStack = r.frames.reverse.map fun frame => .array frame.items

theorem represents_initial : Represents {} resp.start := ⟨rfl, rfl, rfl⟩

structure Idle (p : RedisParser) : Prop where
  arrays : p.arrayStack = []
  values : p.valueStack = []

theorem Idle.represents {p : RedisParser} {l : Lexer} (idle : Idle p) (held : l.Matches p) :
    Represents p ⟨l, []⟩ := ⟨held, idle.arrays, idle.values⟩

theorem Represents.idle {p : RedisParser} {l : Lexer} (rep : Represents p ⟨l, []⟩) : Idle p :=
  ⟨rep.arrays, rep.values⟩

structure Ready (p : RedisParser) (v : RedisValue) : Prop where
  state : p.state = .start
  arrays : p.arrayStack = []
  values : p.valueStack = [v]

theorem Ready.pop {p : RedisParser} {v : RedisValue} (ready : Ready p v) (fault : Fault) :
    ∃ q, p.popValue fault = .ok (v, q) ∧ Represents q resp.start := by
  refine ⟨{ p with valueStack := [] }, ?_, ready.state, ready.arrays, rfl⟩
  simp only [popValue, ready.values]

/-- What a call returns agrees with the machine. Of the chunk, `base` bytes were read
before; of the arrays open at the call only outer ones are left by an error. -/
def Meets (base size : Nat) (frames : List Frame) (o : Outcome Reader RedisValue)
    (out : Parsed) : Prop :=
  match o with
  | .pending r => out.result = .incompleted ∧ out.count = size ∧ Represents out.parser r
  | .done v used => out.result = .completed ∧ out.count = base + used ∧ Ready out.parser v
  | .rejected used => out.result = .error ∧ out.count = base + used ∧
      ∃ left, left <:+ frames.tail ∧ Represents out.parser ⟨.start, left⟩

theorem promote_isText (c : UInt8) :
    (isChar (promote c) && !isControl (promote c)) = isText c := by
  have all : ∀ n : Fin 256, (isChar (promote (.ofFin n)) && !isControl (promote (.ofFin n))) =
      isText (.ofFin n) := by decide +kernel
  exact all c.toFin

theorem copyRange_ok {ptr : Bytes} {first last : Nat} (order : first ≤ last)
    (bound : last ≤ ptr.length) :
    copyRange ptr first last = .ok ((ptr.drop first).take (last - first)) := by
  simp only [copyRange, order, bound, and_self, if_true, List.drop_take]

/-! One pass of the loop. -/

/-- What a pass at index `i` must do when the machine says `o` about the rest of the chunk, and the room
that is asked for there is `granted` or not. -/
def Sound (reserve : Reserve) (ptr : Bytes) (i : Nat) (o : Outcome Reader RedisValue)
    (granted : Prop) : Iteration → Prop
  | .next p j => ∃ l : Lexer, l.Matches p ∧ l.isPayload = false ∧ Idle p ∧ i ≤ j ∧ j < ptr.length ∧
      o = (resp.scan ⟨l, []⟩ (ptr.drop (j + 1))).shift (j + 1 - i) ∧
      (granted ↔ Granted reserve ⟨l, []⟩ (ptr.drop (j + 1)))
  | .exit p count result => granted ∧ Meets i ptr.length [] o ⟨p, count, result⟩
  | .array p => ∃ frame, Represents p ⟨.start, [frame]⟩ ∧ i + 1 < ptr.length ∧
      o = (resp.scan ⟨.start, [frame]⟩ (ptr.drop (i + 1))).shift 1 ∧
      (granted ↔ Granted reserve ⟨.start, [frame]⟩ (ptr.drop (i + 1)))
  | .fault reason => reason = .reserve ∧ ¬granted

/-- What a pass at index `i` must do when the byte there has the effect `progress`. -/
def Follows (reserve : Reserve) (ptr : Bytes) (i : Nat) (progress : Progress Reader RedisValue) :
    Iteration → Prop :=
  Sound reserve ptr i (resp.resume progress 1 (ptr.drop (i + 1)))
    (resp.Onward (Permits reserve) progress (ptr.drop (i + 1)))

section Pass
variable {reserve : Reserve} {p : RedisParser} {ptr : Bytes} {i : Nat} {c : UInt8}

theorem Follows.sound {r : Reader} {pass : Iteration} (follows : Follows reserve ptr i (feed r c) pass)
    (here : ptr[i]? = some c) (permits : Permits reserve r c) :
    Sound reserve ptr i (resp.scan r (ptr.drop i)) (Granted reserve r (ptr.drop i)) pass := by
  obtain ⟨bound, same⟩ := List.getElem?_eq_some_iff.mp here
  have asked : Granted reserve r (ptr.drop i) =
      resp.Onward (Permits reserve) (feed r c) (ptr.drop (i + 1)) := by
    rw [List.drop_eq_getElem_cons bound, same]
    exact propext (resp.throughout_cons.trans (and_iff_right permits))
  rw [asked, List.drop_eq_getElem_cons bound, same, Machine.scan_cons]
  exact follows

theorem refused_sound {r : Reader} (here : ptr[i]? = some c) (refused : ¬Permits reserve r c)
    (o : Outcome Reader RedisValue) :
    Sound reserve ptr i o (Granted reserve r (ptr.drop i)) (.fault .reserve) := by
  obtain ⟨bound, same⟩ := List.getElem?_eq_some_iff.mp here
  rw [List.drop_eq_getElem_cons bound, same]
  exact ⟨rfl, fun granted => refused (resp.throughout_cons.mp granted).1⟩

theorem next_sound (here : ptr[i]? = some c) {q : RedisParser} {l : Lexer}
    (held : l.Matches q) (short : l.isPayload = false) (idle : Idle q) :
    Follows reserve ptr i (.more ⟨l, []⟩) (.next q i) := by
  have bound := (List.getElem?_eq_some_iff.mp here).1
  refine ⟨l, held, short, idle, Nat.le_refl i, bound, ?_, Iff.rfl⟩
  rw [Nat.add_sub_cancel_left]
  rfl

theorem fail_sound (idle : Idle p) : Follows reserve ptr i .reject (fail p i) :=
  ⟨trivial, rfl, rfl, [], List.nil_suffix, rfl, idle.arrays, idle.values⟩

theorem complete_sound (idle : Idle p) (v : RedisValue) :
    Follows reserve ptr i (.done v) (complete p i v) :=
  ⟨trivial, rfl, rfl, rfl, idle.arrays, by simp only [pushValue, idle.values]⟩

theorem onStart_sound (here : ptr[i]? = some c) (idle : Idle p) :
    Follows reserve ptr i (feed ⟨.start, []⟩ c) (onStart p i c) := by
  have idle : Idle { p with buf := [] } := ⟨idle.arrays, idle.values⟩
  simp only [onStart, feed]
  by_cases string : c = stringReply
  · rw [if_pos string, if_pos string]
    exact next_sound here (l := .text .simple []) ⟨rfl, rfl⟩ rfl ⟨idle.arrays, idle.values⟩
  rw [if_neg string, if_neg string]
  by_cases error : c = errorReply
  · rw [if_pos error, if_pos error]
    exact next_sound here (l := .text .error []) ⟨rfl, rfl⟩ rfl ⟨idle.arrays, idle.values⟩
  rw [if_neg error, if_neg error]
  by_cases integer : c = integerReply
  · rw [if_pos integer, if_pos integer]
    exact next_sound here (l := .number .integer []) ⟨rfl, rfl⟩ rfl ⟨idle.arrays, idle.values⟩
  rw [if_neg integer, if_neg integer]
  by_cases bulk : c = bulkReply
  · rw [if_pos bulk, if_pos bulk]
    exact next_sound here (l := .number .bulk []) ⟨rfl, rfl⟩ rfl ⟨idle.arrays, idle.values⟩
  rw [if_neg bulk, if_neg bulk]
  by_cases array : c = arrayReply
  · rw [if_pos array, if_pos array]
    exact next_sound here (l := .number .array []) ⟨rfl, rfl⟩ rfl ⟨idle.arrays, idle.values⟩
  rw [if_neg array, if_neg array]
  exact fail_sound idle

theorem onText_sound (here : ptr[i]? = some c) (idle : Idle p) (kind : TextKind)
    (ended : ParserState)
    (goes : ∀ q : RedisParser, q.state = p.state → (Lexer.text kind q.buf).Matches q)
    (ends : ∀ q : RedisParser, q.state = ended → (Lexer.textEnd kind q.buf).Matches q) :
    Follows reserve ptr i (feed ⟨.text kind p.buf, []⟩ c) (onText p i c ended) := by
  simp only [onText, feed, promote_isText]
  by_cases ending : c = cr
  · rw [if_pos ending, if_pos ending]
    exact next_sound here (ends { p with state := ended } rfl) rfl ⟨idle.arrays, idle.values⟩
  rw [if_neg ending, if_neg ending]
  by_cases text : isText c = true
  · rw [if_pos text, if_pos text]
    exact next_sound here (goes { p with buf := p.buf ++ [c] } rfl) rfl ⟨idle.arrays, idle.values⟩
  rw [if_neg text, if_neg text]
  exact fail_sound idle

theorem onNumber_sound (here : ptr[i]? = some c) (idle : Idle p) (kind : NumberKind)
    (ended : ParserState)
    (goes : ∀ q : RedisParser, q.state = p.state → (Lexer.number kind q.buf).Matches q)
    (ends : ∀ q : RedisParser, q.state = ended → (Lexer.numberEnd kind q.buf).Matches q) :
    Follows reserve ptr i (feed ⟨.number kind p.buf, []⟩ c) (onNumber p i c ended) := by
  simp only [onNumber, feed]
  by_cases ending : c = cr
  · rw [if_pos ending, if_pos ending]
    by_cases empty : p.buf = []
    · rw [if_pos empty, if_pos empty]
      exact fail_sound idle
    rw [if_neg empty, if_neg empty]
    exact next_sound here (ends { p with state := ended } rfl) rfl ⟨idle.arrays, idle.values⟩
  rw [if_neg ending, if_neg ending]
  by_cases digit : (isDigit c || decide (c = minus)) = true
  · rw [if_pos digit, if_pos digit]
    exact next_sound here (goes { p with buf := p.buf ++ [c] } rfl) rfl ⟨idle.arrays, idle.values⟩
  rw [if_neg digit, if_neg digit]
  exact fail_sound idle

theorem onTextLF_sound (idle : Idle p) (v : RedisValue) :
    Follows reserve ptr i (if c = lf then close [] v else .reject) (onTextLF p i c v) := by
  simp only [onTextLF]
  by_cases ending : c = lf
  · rw [if_pos ending, if_pos ending]
    exact complete_sound idle v
  rw [if_neg ending, if_neg ending]
  exact fail_sound idle

theorem onBulkCR_sound (here : ptr[i]? = some c) (idle : Idle p) :
    Follows reserve ptr i (feed ⟨.payloadCR p.buf, []⟩ c) (onBulkCR p i c) := by
  simp only [onBulkCR, feed]
  by_cases ending : c = cr
  · rw [if_pos ending, if_pos ending]
    exact next_sound here (l := .payloadLF p.buf) ⟨rfl, rfl⟩ rfl ⟨idle.arrays, idle.values⟩
  rw [if_neg ending, if_neg ending]
  exact fail_sound idle

theorem onIntegerLF_sound (idle : Idle p) :
    Follows reserve ptr i (feed ⟨.numberEnd .integer p.buf, []⟩ c) (onIntegerLF p i c) := by
  have idle' : Idle { p with buf := [] } := ⟨idle.arrays, idle.values⟩
  simp only [onIntegerLF, feed]
  by_cases ending : c = lf
  · rw [if_pos ending, if_pos ending]
    exact complete_sound idle' _
  rw [if_neg ending, if_neg ending]
  exact fail_sound idle

theorem onArraySizeLF_follows (here : ptr[i]? = some c) (idle : Idle p)
    (permits : Permits reserve ⟨.numberEnd .array p.buf, []⟩ c) :
    Follows reserve ptr i (feed ⟨.numberEnd .array p.buf, []⟩ c) (onArraySizeLF p ptr i c reserve) := by
  have bound := (List.getElem?_eq_some_iff.mp here).1
  have idle' : Idle { p with buf := [] } := ⟨idle.arrays, idle.values⟩
  simp only [onArraySizeLF, feed, announce]
  by_cases ending : c = lf
  · rw [if_pos ending, if_pos ending]
    by_cases empty : strtol p.buf = -1 ∨ strtol p.buf = 0
    · rw [if_pos empty, if_pos empty]
      exact complete_sound idle' _
    rw [if_neg empty, if_neg empty]
    by_cases negative : strtol p.buf < 0
    · rw [if_pos negative, if_pos negative]
      exact fail_sound idle'
    rw [if_neg negative, if_neg negative]
    have room : reserve.values (strtol p.buf) = true := permits ending (by omega)
    rw [room, Bool.not_true, if_neg Bool.false_ne_true]
    -- The stack holds the missing elements, a frame those after the next one.
    have size : strtol p.buf = ((strtol p.buf).toNat - 1 : Nat) + 1 := by omega
    have rep : Represents
        { ({ p with buf := [] } : RedisParser).pushFrame (strtol p.buf) [] with state := .start }
        ⟨.start, [⟨(strtol p.buf).toNat - 1, []⟩]⟩ := by
      refine ⟨rfl, ?_, ?_⟩
      · simp only [pushFrame, idle.arrays, List.reverse_singleton, List.map_singleton, ← size]
      · simp only [pushFrame, idle.values, List.reverse_singleton, List.map_singleton]
    by_cases more : i + 1 ≠ ptr.length
    · rw [if_pos more]
      exact ⟨_, rep, by omega, rfl, Iff.rfl⟩
    · rw [if_neg more]
      have last : ptr.drop (i + 1) = [] := List.drop_eq_nil_of_le (by omega)
      unfold Follows
      rw [last]
      exact ⟨trivial, rfl, by simp only [not_not] at more; exact more, rep⟩
  rw [if_neg ending, if_neg ending]
  exact fail_sound idle

theorem onArraySizeLF_sound (here : ptr[i]? = some c) (idle : Idle p) :
    Sound reserve ptr i (resp.scan ⟨.numberEnd .array p.buf, []⟩ (ptr.drop i))
      (Granted reserve ⟨.numberEnd .array p.buf, []⟩ (ptr.drop i)) (onArraySizeLF p ptr i c reserve) := by
  by_cases permits : Permits reserve ⟨.numberEnd .array p.buf, []⟩ c
  · exact (onArraySizeLF_follows here idle permits).sound here permits
  have thrown : onArraySizeLF p ptr i c reserve = .fault .reserve := by
    simp only [Permits, Classical.not_imp, Bool.not_eq_true] at permits
    obtain ⟨ending, positive, none⟩ := permits
    have some : ¬(strtol p.buf = -1 ∨ strtol p.buf = 0) := by omega
    have above : ¬strtol p.buf < 0 := by omega
    simp only [onArraySizeLF, if_pos ending, if_neg some, if_neg above, none, Bool.not_false, if_true]
  rw [thrown]
  exact refused_sound here permits _

theorem onBulkSizeLF_follows (here : ptr[i]? = some c) (idle : Idle p)
    (permits : Permits reserve ⟨.numberEnd .bulk p.buf, []⟩ c) :
    Follows reserve ptr i (feed ⟨.numberEnd .bulk p.buf, []⟩ c) (onBulkSizeLF p ptr i c reserve) := by
  have bound := (List.getElem?_eq_some_iff.mp here).1
  have idle' : Idle { p with bulkSize := strtol p.buf, buf := [] } := ⟨idle.arrays, idle.values⟩
  simp only [onBulkSizeLF, feed, announce]
  by_cases ending : c = lf
  · rw [if_pos ending, if_pos ending]
    by_cases null : strtol p.buf = -1
    · rw [if_pos null, if_pos null]
      exact complete_sound idle' _
    rw [if_neg null, if_neg null]
    by_cases empty : strtol p.buf = 0
    · rw [if_pos empty, if_pos empty]
      exact next_sound here (l := .payloadCR []) ⟨rfl, rfl⟩ rfl ⟨idle.arrays, idle.values⟩
    rw [if_neg empty, if_neg empty]
    by_cases negative : strtol p.buf < 0
    · rw [if_pos negative, if_pos negative]
      exact fail_sound idle'
    rw [if_neg negative, if_neg negative]
    have room : reserve.bytes (strtol p.buf) = true := permits ending (by omega)
    rw [room, Bool.not_true, if_neg Bool.false_ne_true]
    generalize strtol p.buf = size at *
    obtain ⟨later, rfl⟩ : ∃ later : Nat, size = later + 1 := ⟨size.toNat - 1, by omega⟩
    have rest : (ptr.drop (i + 1)).length = ptr.length - (i + 1) := List.length_drop
    have announced : ((later : Int) + 1).toNat - 1 = later := by omega
    have asked := granted_payload reserve later [] [] (ptr.drop (i + 1))
    rw [rest] at asked
    unfold Follows
    rw [Machine.resume_more, announced, scan_payload, rest, Machine.onward_more]
    -- A copy of no bytes leaves the buffer that was just cleared.
    have copied (n : Nat) (fits : i + n + 1 ≤ ptr.length) :
        (if (n : Int) > 0 then copyRange ptr (i + 1) (i + n + 1) else .ok []) =
          .ok ((ptr.drop (i + 1)).take n) := by
      by_cases some : (n : Int) > 0
      · rw [if_pos some, copyRange_ok (by omega) fits]
        congr 2
        omega
      · have none : n = 0 := by omega
        simp [none]
    -- Either the chunk has the whole payload, or it ends within it.
    by_cases whole : later < ptr.length - (i + 1)
    · have read : min ((later : Int) + 1) (ptr.length - i - 1) = (later + 1 : Nat) := by omega
      simp only [read, Int.toNat_natCast]
      rw [copied (later + 1) (by omega), if_pos whole]
      dsimp only
      rw [if_neg (by omega)]
      have offset : i + (later + 1) + 1 - i = later + 1 + 1 := by omega
      have left : (ptr.drop (i + 1)).drop (later + 1) = ptr.drop (i + (later + 1) + 1) := by
        rw [List.drop_drop, show i + 1 + (later + 1) = i + (later + 1) + 1 by omega]
      refine ⟨.payloadCR ((ptr.drop (i + 1)).take (later + 1)), ⟨rfl, rfl⟩, rfl,
        ⟨idle.arrays, idle.values⟩, by omega, by omega, ?_, ?_⟩
      · rw [List.nil_append, Outcome.shift_shift, left, offset]
      · rw [← left]
        exact asked.trans (imp_iff_right whole)
    · have read : min ((later : Int) + 1) (ptr.length - i - 1) = (ptr.length - (i + 1) : Nat) := by
        omega
      simp only [read, Int.toNat_natCast]
      rw [copied (ptr.length - (i + 1)) (by omega), if_neg whole]
      dsimp only
      rw [if_pos (by omega)]
      refine ⟨asked.mpr fun inside => absurd inside whole, rfl, by simp only; omega,
        ⟨rfl, by simp only; omega, ?_⟩, idle.arrays, idle.values⟩
      rw [List.nil_append, List.take_of_length_le (by omega)]
  rw [if_neg ending, if_neg ending]
  exact fail_sound idle

theorem onBulkSizeLF_sound (here : ptr[i]? = some c) (idle : Idle p) :
    Sound reserve ptr i (resp.scan ⟨.numberEnd .bulk p.buf, []⟩ (ptr.drop i))
      (Granted reserve ⟨.numberEnd .bulk p.buf, []⟩ (ptr.drop i)) (onBulkSizeLF p ptr i c reserve) := by
  by_cases permits : Permits reserve ⟨.numberEnd .bulk p.buf, []⟩ c
  · exact (onBulkSizeLF_follows here idle permits).sound here permits
  have thrown : onBulkSizeLF p ptr i c reserve = .fault .reserve := by
    simp only [Permits, Classical.not_imp, Bool.not_eq_true] at permits
    obtain ⟨ending, positive, none⟩ := permits
    have notNull : ¬strtol p.buf = -1 := by omega
    have some : ¬strtol p.buf = 0 := by omega
    have above : ¬strtol p.buf < 0 := by omega
    simp only [onBulkSizeLF, if_pos ending, if_neg notNull, if_neg some, if_neg above, none,
      Bool.not_false, if_true]
  rw [thrown]
  exact refused_sound here permits _

/-- The payload is taken up only where a chunk begins, which makes the copy's end right. -/
theorem onBulk_sound {later : Nat} (nonempty : 0 < ptr.length) (idle : Idle p)
    (state : p.state = .bulk) (size : p.bulkSize = later + 1) :
    Sound reserve ptr 0 (resp.scan ⟨.payload later p.buf, []⟩ ptr)
      (Granted reserve ⟨.payload later p.buf, []⟩ ptr) (onBulk p ptr 0) := by
  have positive : p.bulkSize > 0 := by omega
  have asked := granted_payload reserve later p.buf [] ptr
  simp only [onBulk, size]
  rw [if_pos (by omega), scan_payload]
  by_cases whole : later < ptr.length
  · have read : min ((ptr.length : Int) - (0 : Nat)) ((later : Int) + 1) = (later + 1 : Nat) := by
      omega
    simp only [read, Int.toNat_natCast]
    rw [copyRange_ok (by omega) (by omega), if_pos whole]
    simp only [List.drop_zero, Nat.sub_zero]
    rw [if_neg (by omega)]
    -- At the end of the chunk the source returns here, before the loop would.
    by_cases last : ptr.length = 0 + (later + 1) - 1 + 1
    · rw [if_pos last]
      have used : ptr.drop (later + 1) = [] := List.drop_eq_nil_of_le (by omega)
      refine ⟨asked.mpr fun _ => ?_, ?_⟩
      · rw [used]
        exact resp.throughout_nil _
      · rw [used]
        exact ⟨rfl, last.symm, ⟨rfl, rfl⟩, idle.arrays, idle.values⟩
    · rw [if_neg last]
      have offset : 0 + (later + 1) - 1 + 1 = later + 1 := by omega
      refine ⟨.payloadCR (p.buf ++ ptr.take (later + 1)), ⟨rfl, rfl⟩, rfl,
        ⟨idle.arrays, idle.values⟩, by omega, by omega, ?_, ?_⟩
      · simp only [offset, Nat.sub_zero]
      · rw [offset]
        exact asked.trans (imp_iff_right whole)
  · have read : min ((ptr.length : Int) - (0 : Nat)) ((later : Int) + 1) = ptr.length := by omega
    simp only [read, Int.toNat_natCast]
    rw [copyRange_ok (by omega) (by omega), if_neg whole]
    simp only [List.drop_zero, Nat.sub_zero, List.take_length]
    rw [if_pos (by omega)]
    exact ⟨asked.mpr fun inside => absurd inside whole, rfl, by simp only; omega,
      ⟨state, by simp only; omega, rfl⟩, idle.arrays, idle.values⟩

theorem onChar_sound (here : ptr[i]? = some c) (idle : Idle p) {l : Lexer} (held : l.Matches p)
    (fresh : l.isPayload = true → i = 0) :
    Sound reserve ptr i (resp.scan ⟨l, []⟩ (ptr.drop i)) (Granted reserve ⟨l, []⟩ (ptr.drop i))
      (onChar p ptr i c reserve) := by
  cases l with
  | payload later buf =>
    obtain ⟨state, size, rfl⟩ := held
    obtain rfl := fresh rfl
    have nonempty := (List.getElem?_eq_some_iff.mp here).1
    simp only [onChar, state, List.drop_zero]
    exact onBulk_sound nonempty idle state size
  | start =>
    have state : p.state = .start := held
    simp only [onChar, state]
    exact (onStart_sound here idle).sound here trivial
  | text kind buf =>
    cases kind with
    | simple =>
      obtain ⟨state, rfl⟩ := held
      simp only [onChar, state]
      refine (onText_sound here idle .simple .stringLF ?_ ?_).sound here trivial
      · exact fun q same => ⟨same.trans state, rfl⟩
      · exact fun q same => ⟨same, rfl⟩
    | error =>
      obtain ⟨state, rfl⟩ := held
      simp only [onChar, state]
      refine (onText_sound here idle .error .errorLF ?_ ?_).sound here trivial
      · exact fun q same => ⟨same.trans state, rfl⟩
      · exact fun q same => ⟨same, rfl⟩
  | textEnd kind buf =>
    cases kind with
    | simple =>
      obtain ⟨state, rfl⟩ := held
      simp only [onChar, state]
      exact Follows.sound (onTextLF_sound idle _) here trivial
    | error =>
      obtain ⟨state, rfl⟩ := held
      simp only [onChar, state]
      exact Follows.sound (onTextLF_sound idle _) here trivial
  | number kind buf =>
    cases kind with
    | integer =>
      obtain ⟨state, rfl⟩ := held
      simp only [onChar, state]
      refine (onNumber_sound here idle .integer .integerLF ?_ ?_).sound here trivial
      · exact fun q same => ⟨same.trans state, rfl⟩
      · exact fun q same => ⟨same, rfl⟩
    | bulk =>
      obtain ⟨state, rfl⟩ := held
      simp only [onChar, state]
      refine (onNumber_sound here idle .bulk .bulkSizeLF ?_ ?_).sound here trivial
      · exact fun q same => ⟨same.trans state, rfl⟩
      · exact fun q same => ⟨same, rfl⟩
    | array =>
      obtain ⟨state, rfl⟩ := held
      simp only [onChar, state]
      refine (onNumber_sound here idle .array .arraySizeLF ?_ ?_).sound here trivial
      · exact fun q same => ⟨same.trans state, rfl⟩
      · exact fun q same => ⟨same, rfl⟩
  | numberEnd kind buf =>
    cases kind with
    | integer =>
      obtain ⟨state, rfl⟩ := held
      simp only [onChar, state]
      exact (onIntegerLF_sound idle).sound here trivial
    | bulk =>
      obtain ⟨state, rfl⟩ := held
      simp only [onChar, state]
      exact onBulkSizeLF_sound here idle
    | array =>
      obtain ⟨state, rfl⟩ := held
      simp only [onChar, state]
      exact onArraySizeLF_sound here idle
  | payloadCR buf =>
    obtain ⟨state, rfl⟩ := held
    simp only [onChar, state]
    exact (onBulkCR_sound here idle).sound here trivial
  | payloadLF buf =>
    obtain ⟨state, rfl⟩ := held
    simp only [onChar, state]
    exact Follows.sound (onTextLF_sound idle _) here trivial

end Pass

end Pinocchio.Redis
