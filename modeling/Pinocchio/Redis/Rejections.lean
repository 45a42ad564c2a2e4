import Pinocchio.Redis.Soundness

/-! Which replies of the protocol the parser takes.

A text may have any byte but CR and LF, and the parser takes only some of them. A reply is taken up to
its end, or rejected at a byte of one of its texts.
-/

set_option autoImplicit false

namespace Pinocchio.Redis
open Semantics Reader

namespace Wire

mutual
def Printable : Wire → Prop
  | .text _ buf => ∀ c ∈ buf, isText c = true
  | .integer _ | .bulk _ _ => True
  | .array _ items => AllPrintable items
def AllPrintable : List Wire → Prop
  | [] => True
  | w :: rest => Printable w ∧ AllPrintable rest
end

end Wire

/-- Reading `xs` from this state ends at a byte that is rejected. -/
def Rejects (r : Reader) (xs : Bytes) : Prop := ∃ used, resp.scan r xs = .rejected used

theorem Rejects.append {r : Reader} {xs : Bytes} (rejects : Rejects r xs) (ys : Bytes) :
    Rejects r (xs ++ ys) := by
  obtain ⟨used, rejected⟩ := rejects
  exact ⟨used, by rw [resp.scan_append, rejected]⟩

theorem Rejects.after {r t : Reader} {xs ys : Bytes} (rejects : Rejects t ys)
    (first : resp.Yields r xs (.more t)) : Rejects r (xs ++ ys) := by
  obtain ⟨used, rejected⟩ := rejects
  exact ⟨used + xs.length, by rw [first, Machine.resume_more, rejected, Outcome.shift_rejected]⟩

theorem Rejects.cons {r t : Reader} {c : UInt8} {xs : Bytes} (step : resp.feed r c = .more t)
    (rejects : Rejects t xs) : Rejects r (c :: xs) :=
  rejects.after (Machine.Yields.one step)

/-- The reading of `xs` completes the value if the condition holds, and else is rejected. -/
def Settles (held : Prop) (r : Reader) (xs : Bytes) (progress : Progress Reader RedisValue) :
    Prop :=
  (held → resp.Yields r xs progress) ∧ (¬held → Rejects r xs)

theorem Settles.of_yields {held : Prop} {r : Reader} {xs : Bytes}
    {progress : Progress Reader RedisValue} (whole : resp.Yields r xs progress) (always : held) :
    Settles held r xs progress :=
  ⟨fun _ => whole, fun never => absurd always never⟩

theorem Settles.after {held : Prop} {r t : Reader} {xs ys : Bytes}
    {progress : Progress Reader RedisValue} (rest : Settles held t ys progress)
    (first : resp.Yields r xs (.more t)) : Settles held r (xs ++ ys) progress :=
  ⟨fun printable => first.append (rest.1 printable), fun other => (rest.2 other).after first⟩

theorem Settles.cons {held : Prop} {r t : Reader} {c : UInt8} {xs : Bytes}
    {progress : Progress Reader RedisValue} (step : resp.feed r c = .more t)
    (rest : Settles held t xs progress) : Settles held r (c :: xs) progress :=
  rest.after (Machine.Yields.one step)

theorem text_rejects (kind : TextKind) {text : Bytes} (buf : Bytes) (frames : List Frame)
    (line : cr ∉ text) (other : ¬∀ c ∈ text, isText c = true) :
    Rejects ⟨.text kind buf, frames⟩ text := by
  induction text generalizing buf with
  | nil => exact absurd (List.forall_mem_nil _) other
  | cons c text ih =>
    obtain ⟨notCr, line⟩ := not_or.mp fun is => line (List.mem_cons.mpr is)
    by_cases shown : isText c = true
    · refine (ih (buf ++ [c]) line fun rest => other ?_).cons ?_
      · exact List.forall_mem_cons.mpr ⟨shown, rest⟩
      · simp only [resp, feed, if_neg (Ne.symm notCr), if_pos shown]
    · have step : resp.feed ⟨.text kind buf, frames⟩ c = .reject := by
        simp only [resp, feed, if_neg (Ne.symm notCr), if_neg shown]
      exact ⟨1, by rw [resp.scan_cons, step, Machine.resume_reject]⟩

theorem numeralLine_yields (kind : NumberKind) {num : Bytes} {n : Int}
    (reads : lenientNumeral num = some n) (frames : List Frame) :
    resp.Yields ⟨.number kind [], frames⟩ (num ++ crlf) (announce kind n frames) := by
  unfold lenientNumeral at reads
  obtain ⟨⟨some, all⟩, same⟩ := Option.ite_none_right_eq_some.mp reads
  cases same
  refine (Reply.numeral_yields kind [] num frames all).append ?_
  refine Machine.Yields.cons (t := ⟨.numberEnd kind num, frames⟩) ?_ (Machine.Yields.one ?_)
  · simp only [resp, feed, List.nil_append, if_true, if_neg some]
  · simp only [resp, feed, if_true]

theorem payloadLine_yields {num payload : Bytes} {n : Int} (reads : lenientNumeral num = some n)
    (announces : Wire.Announces n (some payload)) (frames : List Frame) :
    resp.Yields ⟨.number .bulk [], frames⟩ (num ++ crlf ++ (payload ++ crlf))
      (close frames (.bytes payload false)) := by
  have line := numeralLine_yields .bulk reads frames
  have ended : resp.Yields ⟨.payloadCR payload, frames⟩ crlf
      (close frames (.bytes payload false)) :=
    Machine.Yields.cons (t := ⟨.payloadLF payload, frames⟩) rfl (Machine.Yields.one rfl)
  obtain rfl : n = payload.length := announces
  cases payload with
  | nil => exact line.append ended
  | cons c payload =>
    refine line.append ?_
    exact (Reply.payload_yields payload.length [] (c :: payload) frames rfl).append ended

namespace Wire

theorem announce_empty {n : Int} (counts : Counts n []) (frames : List Frame) :
    announce .array n frames = close frames (.array []) := by
  refine if_pos ?_
  rcases counts with none | ⟨minus, _⟩
  · exact Or.inr none
  · exact Or.inl minus

mutual
theorem bytes_settles : ∀ (w : Wire) (_ : w.Formed lenientNumeral) (frames : List Frame),
    Settles w.Printable ⟨.start, frames⟩ w.bytes (close frames w.value)
  | .text kind buf, formed, frames => by
    have head : resp.feed ⟨.start, frames⟩ kind.byte = .more ⟨.text kind [], frames⟩ := by
      cases kind <;> rfl
    rw [bytes]
    constructor
    · intro printable
      refine Machine.Yields.cons head ?_
      cases kind with
      | simple => exact Reply.textLine_yields .simple buf frames printable
      | error => exact Reply.textLine_yields .error buf frames printable
    · intro other
      exact ((text_rejects kind [] frames formed.1 other).append crlf).cons head
  | .integer num, ⟨n, reads⟩, frames => by
    have line := numeralLine_yields .integer reads frames
    have same : strtol num = n := Option.some.inj (Option.ite_none_right_eq_some.mp reads).2
    rw [bytes, value, same]
    exact .of_yields (Machine.Yields.cons (t := ⟨.number .integer [], frames⟩) rfl line) trivial
  | .bulk num none, ⟨n, reads, announces⟩, frames => by
    have line := numeralLine_yields .bulk reads frames
    obtain rfl : n = -1 := announces
    rw [bytes, payloadBytes, List.append_nil, value]
    exact .of_yields (Machine.Yields.cons (t := ⟨.number .bulk [], frames⟩) rfl line) trivial
  | .bulk num (some payload), ⟨n, reads, announces⟩, frames => by
    have whole := payloadLine_yields reads announces frames
    rw [bytes, payloadBytes, value]
    exact .of_yields (Machine.Yields.cons (t := ⟨.number .bulk [], frames⟩) rfl whole) trivial
  | .array num items, ⟨⟨n, reads, counts⟩, formed⟩, frames => by
    have line := numeralLine_yields .array reads frames
    rw [bytes, value]
    refine Settles.cons (t := ⟨.number .array [], frames⟩) rfl ?_
    cases items with
    | nil =>
      rw [bytesItems, values, List.append_nil]
      rw [announce_empty counts] at line
      exact .of_yields line trivial
    | cons w rest =>
      have later : announce .array n frames = .more ⟨.start, ⟨rest.length, []⟩ :: frames⟩ := by
        obtain rfl : n = (w :: rest).length := counts.resolve_right fun absent => nomatch absent.2
        rfl
      rw [later] at line
      exact (bytesItems_settles (w :: rest) formed rest.length [] frames rfl).after line
theorem bytesItems_settles : ∀ (items : List Wire) (_ : AllFormed lenientNumeral items)
    (later : Nat) (before : List RedisValue) (frames : List Frame), items.length = later + 1 →
    Settles (AllPrintable items) ⟨.start, ⟨later, before⟩ :: frames⟩ (bytesItems items)
      (close frames (.array (before ++ values items)))
  | [], _, _, _, _, count => by simp at count
  | w :: rest, formed, later, before, frames, count => by
    have first := bytes_settles w formed.1 (⟨later, before⟩ :: frames)
    rw [bytesItems, values]
    cases later with
    | zero =>
      obtain rfl : rest = [] := List.length_eq_zero_iff.mp (by simpa using count)
      rw [bytesItems, List.append_nil, values]
      exact ⟨fun printable => first.1 printable.1, fun other => first.2 fun head => other
        ⟨head, trivial⟩⟩
    | succ later =>
      have tail := bytesItems_settles rest formed.2 later (before ++ [w.value]) frames
        (by simpa using count)
      rw [List.append_assoc, List.singleton_append] at tail
      constructor
      · exact fun printable => Machine.Yields.append (first.1 printable.1) (tail.1 printable.2)
      · intro other
        by_cases printable : w.Printable
        · exact (tail.2 fun all => other ⟨printable, all⟩).after (first.1 printable)
        · exact (first.2 printable).append _
end

end Wire

end Pinocchio.Redis
