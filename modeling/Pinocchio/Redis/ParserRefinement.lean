import Mathlib.Data.List.Induction
import Pinocchio.Redis.ParserPass

/-! The incremental parser computes the byte machine.

A call on a chunk returns what the machine says about the chunk, unless a `reserve`
throws, and the parser it leaves again represents the machine's state. The recursion is
followed from the loop over the bytes outwards; each step has its own fuel bound.
-/

set_option autoImplicit false

namespace Pinocchio.Redis
open Semantics Reader RedisParser RedisValue

/-- What is left of an array of which `n` elements are missing. -/
def level (l : Lexer) (n : Nat) (items : List RedisValue) : Progress Reader RedisValue :=
  match n with
  | 0 => .done (.array items)
  | later + 1 => .more ⟨l, [⟨later, items⟩]⟩

theorem level_close (n : Nat) (items : List RedisValue) (v : RedisValue) :
    close [⟨n, items⟩] v = level .start n (items ++ [v]) := by
  cases n <;> rfl

/-- A call returns what it must where the room that it asks for is there, and else it throws. -/
structure Answers (granted : Prop) (call : Except Fault Parsed) (meets : Parsed → Prop) : Prop where
  returns : granted → ∃ out, call = .ok out ∧ meets out
  throws : ¬granted → call = .error .reserve

section Answers
variable {granted other : Prop} {call : Except Fault Parsed} {meets more : Parsed → Prop}

theorem Answers.of_granted (out : Parsed) (given : granted) (returned : call = .ok out)
    (met : meets out) : Answers granted call meets :=
  ⟨fun _ => ⟨out, returned, met⟩, fun refused => absurd given refused⟩

theorem Answers.of_refused (refused : ¬granted) (thrown : call = .error .reserve) :
    Answers granted call meets :=
  ⟨fun given => absurd given refused, fun _ => thrown⟩

theorem Answers.congr (answers : Answers other call meets) (same : granted ↔ other) :
    Answers granted call meets :=
  ⟨fun given => answers.returns (same.mp given), fun refused => answers.throws (mt same.mpr refused)⟩

theorem Answers.imp (answers : Answers granted call meets) (each : ∀ out, meets out → more out) :
    Answers granted call more :=
  ⟨fun given => (answers.returns given).imp fun out => And.imp_right (each out), answers.throws⟩

end Answers

variable (reserve : Reserve)

/-- The loop over the bytes, with `n` of them to read. -/
def ChunkSpec (n : Nat) : Prop :=
  ∀ (fuel : Nat) (p : RedisParser) (l : Lexer) (ptr : Bytes) (i : Nat),
    5 * n + 1 ≤ fuel → i + n = ptr.length → Idle p → l.Matches p → (l.isPayload = true → i = 0) →
    Answers (Granted reserve ⟨l, []⟩ (ptr.drop i)) (parseChunk fuel p ptr i reserve)
      (Meets i ptr.length [] (resp.scan ⟨l, []⟩ (ptr.drop i)))

/-- The loop over the elements of an array, `k` of which are missing. -/
def LoopSpec (n : Nat) : Prop :=
  ∀ (fuel : Nat) (p : RedisParser) (l : Lexer) (ptr : Bytes) (i k : Nat) (arraySize x : Int)
    (items : List RedisValue),
    5 * n + 3 ≤ fuel → i + n = ptr.length → Idle p → l.Matches p → (k = 0 → l = .start) →
    arraySize - x = k →
    Answers (resp.Onward (Permits reserve) (level l k items) (ptr.drop i))
      (parseLoop fuel p ptr i arraySize x items reserve)
      (Meets i ptr.length [] (resp.resume (level l k items) 0 (ptr.drop i)))

def ItemsSpec (n : Nat) : Prop :=
  ∀ (fuel : Nat) (p : RedisParser) (l : Lexer) (ptr : Bytes) (i k : Nat) (items : List RedisValue),
    5 * n + 4 ≤ fuel → i + n = ptr.length → Idle p → l.Matches p → (k = 0 → l = .start) →
    Answers (resp.Onward (Permits reserve) (level l k items) (ptr.drop i))
      (parseItems fuel p ptr i k items reserve)
      (Meets i ptr.length [] (resp.resume (level l k items) 0 (ptr.drop i)))

def ArraySpec (n : Nat) : Prop :=
  ∀ (fuel : Nat) (p : RedisParser) (l : Lexer) (frames : List Frame) (ptr : Bytes),
    5 * n + 4 + frames.length ≤ fuel → ptr.length = n → frames ≠ [] → Represents p ⟨l, frames⟩ →
    Answers (Granted reserve ⟨l, frames⟩ ptr) (parseArray fuel p ptr reserve)
      (Meets 0 n frames (resp.scan ⟨l, frames⟩ ptr))

variable {reserve}

theorem pushed_values {p : RedisParser} {items : List RedisValue} (idle : Idle p)
    (start : p.state = .start) : Ready (p.pushValue (.array items)) (.array items) :=
  ⟨start, idle.arrays, by simp only [pushValue, idle.values]⟩

theorem pushed_frame {p : RedisParser} {l : Lexer} {frames : List Frame} {later : Nat}
    {items : List RedisValue} {arraySize : Int} (rep : Represents p ⟨l, frames⟩)
    (size : arraySize = later + 1) :
    Represents (p.pushFrame arraySize items) ⟨l, frames ++ [⟨later, items⟩]⟩ := by
  refine ⟨rep.lexer.congr rfl rfl rfl, ?_, ?_⟩
  · simp only [pushFrame, rep.arrays, size, List.reverse_append, List.reverse_singleton,
      List.singleton_append, List.map_cons]
  · simp only [pushFrame, rep.values, List.reverse_append, List.reverse_singleton,
      List.singleton_append, List.map_cons]

theorem Meets.shift {i j size : Nat} {frames : List Frame} {o : Outcome Reader RedisValue}
    {out : Parsed} (meets : Meets (i + j) size frames o out) :
    Meets i size frames (o.shift j) out := by
  cases o with
  | pending r => exact meets
  | done v used => exact ⟨meets.1, by have := meets.2.1; omega, meets.2.2⟩
  | rejected used => exact ⟨meets.1, by have := meets.2.1; omega, meets.2.2⟩

theorem Meets.within {base size : Nat} {frames : List Frame} {o : Outcome Reader RedisValue}
    {out : Parsed} (meets : Meets base size [] o out) : Meets base size frames o out := by
  cases o with
  | pending r => exact meets
  | done v used => exact meets
  | rejected used =>
    obtain ⟨result, count, left, suffix, rep⟩ := meets
    obtain rfl := List.suffix_nil.mp suffix
    exact ⟨result, count, [], List.nil_suffix, rep⟩

theorem loop_of_chunk (n : Nat) (chunk : ∀ m, m ≤ n → ChunkSpec reserve m) :
    LoopSpec reserve n := by
  -- By induction on the bytes that are left: an element takes at least one of them.
  induction n using Nat.strongRecOn with
  | _ n ih =>
  intro fuel p l ptr i k arraySize x items enough room idle held closed missing
  obtain ⟨fuel, rfl⟩ : ∃ f, fuel = f + 1 := ⟨fuel - 1, by omega⟩
  cases k with
  | zero =>
    obtain rfl := closed rfl
    refine .of_granted ⟨p.pushValue (.array items), i, .completed⟩ trivial ?_
      ⟨rfl, rfl, pushed_values idle held⟩
    rw [parseLoop, if_neg (by omega), if_pos (by omega)]
  | succ later =>
    obtain ⟨fuel, rfl⟩ : ∃ f, fuel = f + 1 := ⟨fuel - 1, by omega⟩
    have rest : (ptr.drop i).length = n := by rw [List.length_drop]; omega
    have element := chunk n (Nat.le_refl n) fuel p l (ptr.drop i) 0 (by omega) (by omega) idle held
      (fun _ => rfl)
    rw [List.drop_zero, rest] at element
    -- The element is read by a call of its own, with the array taken off the stacks.
    have call : parseWith (fuel + 1) p (ptr.drop i) reserve =
        parseChunk fuel p (ptr.drop i) 0 reserve := by
      rw [parseWith, if_neg (by simp [idle.arrays])]
    have asked := granted_append_frames reserve l [] [⟨later, items⟩] (ptr.drop i)
    have scanned := scan_append_frames l [] [⟨later, items⟩] (ptr.drop i)
    rw [List.nil_append] at asked scanned
    simp only [level, Machine.onward_more, Machine.resume_more, Outcome.shift_zero, scanned]
    refine Answers.congr ?_ asked
    rw [parseLoop, if_pos (by omega), call]
    by_cases given : Granted reserve ⟨l, []⟩ (ptr.drop i)
    case neg =>
      exact .of_refused (fun whole => given whole.1) (by rw [element.throws given]; rfl)
    obtain ⟨inner, returned, meets⟩ := element.returns given
    rw [returned]
    cases outcome : resp.scan ⟨l, []⟩ (ptr.drop i) with
    | pending r =>
      rw [outcome] at meets
      obtain ⟨result, count, rep⟩ := meets
      refine .of_granted ⟨inner.parser.pushFrame (arraySize - x) items, i + inner.count,
        .incompleted⟩ ⟨given, fun _ _ done => by cases done⟩ ?_
        ⟨rfl, by simp only; omega, pushed_frame rep (by omega)⟩
      simp only [bind, Except.bind, result]
      rfl
    | rejected used =>
      rw [outcome] at meets
      obtain ⟨result, count, left, suffix, rep⟩ := meets
      refine .of_granted ⟨inner.parser, i + inner.count, .error⟩
        ⟨given, fun _ _ done => by cases done⟩ ?_ ⟨rfl, by simp only; omega, left, suffix, rep⟩
      simp only [bind, Except.bind, result]
      rfl
    | done v used =>
      rw [outcome] at meets
      obtain ⟨result, count, ready⟩ := meets
      obtain ⟨q, popped, rep⟩ := ready.pop .assertion
      have bounds := resp.scan_done_bounds outcome
      have tail := ih (n - used) (by omega) (fun m le => chunk m (by omega))
        (fuel + 1) q .start ptr (i + used) later arraySize (x + 1) (items ++ [v])
        (by omega) (by omega) rep.idle rep.lexer (fun _ => rfl) (by omega)
      simp only [bind, Except.bind, result, popped, count, Nat.zero_add, level_close, List.drop_drop]
      refine (tail.imp fun out met => ?_).congr ?_
      · have offset : resp.resume (level .start later (items ++ [v])) used (ptr.drop (i + used)) =
            (resp.resume (level .start later (items ++ [v])) 0 (ptr.drop (i + used))).shift used := by
          rw [Machine.resume_shift, Nat.zero_add]
        rw [offset]
        exact met.shift
      · simp [given]

theorem items_of_loop (n : Nat) (loop : LoopSpec reserve n) : ItemsSpec reserve n := by
  intro fuel p l ptr i k items enough room idle held closed
  obtain ⟨fuel, rfl⟩ : ∃ f, fuel = f + 1 := ⟨fuel - 1, by omega⟩
  rw [parseItems]
  by_cases used : i = ptr.length
  · rw [if_pos used, used, List.drop_length]
    cases k with
    | zero =>
      obtain rfl := closed rfl
      exact .of_granted _ trivial (if_pos rfl) ⟨rfl, rfl, pushed_values idle held⟩
    | succ later =>
      exact .of_granted _ trivial (if_neg (by omega))
        ⟨rfl, rfl, pushed_frame (idle.represents held) (by omega)⟩
  · rw [if_neg used]
    exact loop fuel p l ptr i k k 0 items (by omega) room idle held closed (by omega)

/-- The stacks without the outermost array, which is on top of them. -/
def peeled (p : RedisParser) (inner : List Frame) : RedisParser :=
  { p with
    arrayStack := inner.reverse.map fun frame => (frame.later : Int) + 1
    valueStack := inner.reverse.map fun frame => .array frame.items }

theorem Represents.peeled {p : RedisParser} {l : Lexer} {inner : List Frame} {outer : Frame}
    (rep : Represents p ⟨l, inner ++ [outer]⟩) : Represents (peeled p inner) ⟨l, inner⟩ :=
  ⟨rep.lexer.congr rfl rfl rfl, rfl, rfl⟩

/-- The outermost array is taken off the stacks, and those inside it go first. -/
theorem parseArray_peel {p : RedisParser} {l : Lexer} {inner : List Frame} {later : Nat}
    {values : List RedisValue} (rep : Represents p ⟨l, inner ++ [⟨later, values⟩]⟩) (fuel : Nat)
    (ptr : Bytes) :
    parseArray (fuel + 1) p ptr reserve =
      if inner ≠ [] then do
        let got ← parseArray fuel (peeled p inner) ptr reserve
        if got.result ≠ .completed then
          return { got with parser := got.parser.pushFrame (later + 1) values }
        let (v, q) ← got.parser.popValue .undefined
        parseItems fuel q ptr got.count later (values ++ [v]) reserve
      else parseItems fuel (peeled p inner) ptr 0 (later + 1) values reserve := by
  have arrays := rep.arrays
  have stacked := rep.values
  simp only [List.reverse_append, List.reverse_singleton, List.singleton_append,
    List.map_cons] at arrays stacked
  have missing : (later : Int) + 1 - 1 = later := by omega
  have opened : inner.reverse.map (fun frame => (frame.later : Int) + 1) ≠ [] ↔ inner ≠ [] := by
    simp
  rw [parseArray, arrays, stacked]
  simp only [opened, toArray_array, missing]
  rfl

theorem array_alone {n : Nat} (items : ItemsSpec reserve n) {fuel : Nat} {p : RedisParser} {l : Lexer}
    {frame : Frame} {ptr : Bytes} (enough : 5 * n + 5 ≤ fuel + 1) (size : ptr.length = n)
    (rep : Represents p ⟨l, [frame]⟩) :
    Answers (Granted reserve ⟨l, [frame]⟩ ptr) (parseArray (fuel + 1) p ptr reserve)
      (Meets 0 n [] (resp.scan ⟨l, [frame]⟩ ptr)) := by
  obtain ⟨later, values⟩ := frame
  -- There is nothing inside: the array is the last of no others.
  have rep : Represents p ⟨l, [] ++ [⟨later, values⟩]⟩ := rep
  have rep' := rep.peeled
  have own := items fuel _ l ptr 0 (later + 1) values (by omega) (by omega) rep'.idle rep'.lexer
    (by omega)
  rw [parseArray_peel rep, if_neg (by simp)]
  simp only [level, Machine.onward_more, Machine.resume_more, Outcome.shift_zero, List.drop_zero,
    size] at own
  exact own

theorem array_after {n : Nat} (items : ∀ m, m ≤ n → ItemsSpec reserve m) {fuel : Nat}
    {p : RedisParser} {l : Lexer} {inner : List Frame} {outer : Frame} {ptr : Bytes} {got : Parsed}
    {v : RedisValue} {used : Nat} (enough : 5 * n + 5 ≤ fuel + 1) (size : ptr.length = n)
    (open_ : inner ≠ []) (rep : Represents p ⟨l, inner ++ [outer]⟩)
    (given : Granted reserve ⟨l, inner⟩ ptr)
    (call : parseArray fuel (peeled p inner) ptr reserve = .ok got)
    (outcome : resp.scan ⟨l, inner⟩ ptr = .done v used)
    (meets : Meets 0 n inner (.done v used) got) :
    Answers (Granted reserve ⟨l, inner ++ [outer]⟩ ptr) (parseArray (fuel + 1) p ptr reserve)
      (Meets 0 n [] (resp.scan ⟨l, inner ++ [outer]⟩ ptr)) := by
  obtain ⟨later, values⟩ := outer
  obtain ⟨result, count, ready⟩ := meets
  obtain ⟨q, popped, held⟩ := ready.pop .undefined
  have bounds := resp.scan_done_bounds outcome
  have own := items (n - used) (by omega) fuel q .start ptr used later (values ++ [v]) (by omega)
    (by omega) held.idle held.lexer (fun _ => rfl)
  have asked := granted_append_frames reserve l inner [⟨later, values⟩] ptr
  rw [parseArray_peel rep, if_pos open_, call, scan_append_frames, outcome]
  simp only [bind, Except.bind, result, popped, count, Nat.zero_add, level_close]
  refine (own.imp fun out met => ?_).congr (asked.trans ?_)
  · have offset : resp.resume (level .start later (values ++ [v])) used (ptr.drop used) =
        (resp.resume (level .start later (values ++ [v])) 0 (ptr.drop used)).shift used := by
      rw [Machine.resume_shift, Nat.zero_add]
    have here : Meets (0 + used) n []
        (resp.resume (level .start later (values ++ [v])) 0 (ptr.drop used)) out := by
      rw [Nat.zero_add, ← size]
      exact met
    rw [offset]
    exact here.shift
  · simp [given, outcome, level_close]

/-- An array is put back when one inside it is not complete, also when that has failed. -/
theorem array_around {fuel : Nat} {p : RedisParser} {l : Lexer} {inner : List Frame} {later : Nat}
    {values : List RedisValue} {ptr : Bytes} {got : Parsed} (open_ : inner ≠ [])
    (rep : Represents p ⟨l, inner ++ [⟨later, values⟩]⟩)
    (call : parseArray fuel (peeled p inner) ptr reserve = .ok got)
    (result : got.result ≠ .completed) :
    parseArray (fuel + 1) p ptr reserve =
      .ok { got with parser := got.parser.pushFrame (later + 1) values } := by
  rw [parseArray_peel rep, if_pos open_, call]
  simp only [bind, Except.bind, result, ne_eq, not_false_eq_true, if_true]
  rfl

/-- The recursion over the open arrays, from the outermost inwards. -/
theorem array_of_items (n : Nat) (items : ∀ m, m ≤ n → ItemsSpec reserve m) :
    ArraySpec reserve n := by
  intro fuel p l frames ptr enough size open_ rep
  -- The outermost array is on top of the stacks, so the frames are taken off at their end.
  induction frames using List.reverseRecOn generalizing fuel p with
  | nil => exact absurd rfl open_
  | append_singleton inner outer ih =>
    rw [List.length_append, List.length_singleton] at enough
    obtain ⟨fuel, rfl⟩ : ∃ f, fuel = f + 1 := ⟨fuel - 1, by omega⟩
    by_cases alone : inner = []
    · subst alone
      exact (array_alone (items n (Nat.le_refl n)) (by omega) size rep).imp fun _ => Meets.within
    have inside := ih fuel _ (by omega) alone rep.peeled
    have asked := granted_append_frames reserve l inner [outer] ptr
    by_cases given : Granted reserve ⟨l, inner⟩ ptr
    case neg =>
      refine .of_refused (fun whole => given (asked.mp whole).1) ?_
      rw [parseArray_peel rep, if_pos alone, inside.throws given]
      rfl
    obtain ⟨got, call, meets⟩ := inside.returns given
    cases outcome : resp.scan ⟨l, inner⟩ ptr with
    | done v used =>
      rw [outcome] at meets
      exact (array_after items (by omega) size alone rep given call outcome meets).imp
        fun _ => Meets.within
    | pending r =>
      rw [outcome] at meets
      obtain ⟨result, count, left⟩ := meets
      refine .of_granted _ (asked.mpr ⟨given, by simp [outcome]⟩)
        (array_around alone rep call (by simp [result])) ?_
      rw [scan_append_frames, outcome]
      exact ⟨result, count, pushed_frame left rfl⟩
    | rejected used =>
      rw [outcome] at meets
      obtain ⟨result, count, left, suffix, held⟩ := meets
      refine .of_granted _ (asked.mpr ⟨given, by simp [outcome]⟩)
        (array_around alone rep call (by simp [result])) ?_
      rw [scan_append_frames, outcome]
      refine ⟨result, count, left ++ [outer], ?_, pushed_frame held rfl⟩
      rw [List.tail_append_of_ne_nil alone]
      exact List.suffix_append_self_iff.mpr suffix

theorem Meets.opened {i size : Nat} {frame : Frame} {o : Outcome Reader RedisValue} {inner : Parsed}
    (meets : Meets 0 size [frame] o inner) :
    Meets i (size + (i + 1)) [] (o.shift 1) { inner with count := inner.count + (i + 1) } := by
  cases o with
  | pending r => exact ⟨meets.1, by have := meets.2.1; simp only; omega, meets.2.2⟩
  | done v used => exact ⟨meets.1, by have := meets.2.1; simp only; omega, meets.2.2⟩
  | rejected used => exact ⟨meets.1, by have := meets.2.1; simp only; omega, meets.2.2⟩

theorem chunk_of_array (n : Nat) (array : ∀ m, m < n → ArraySpec reserve m) :
    ChunkSpec reserve n := by
  induction n using Nat.strongRecOn with
  | _ n ih =>
  intro fuel p l ptr i enough room idle held fresh
  obtain ⟨fuel, rfl⟩ : ∃ f, fuel = f + 1 := ⟨fuel - 1, by omega⟩
  rw [parseChunk]
  cases here : ptr[i]? with
  | none =>
    have ended : ptr.length ≤ i := List.getElem?_eq_none_iff.mp here
    rw [List.drop_eq_nil_of_le ended]
    exact .of_granted _ trivial rfl ⟨rfl, by simp only; omega, idle.represents held⟩
  | some c =>
    have sound := @onChar_sound reserve _ _ _ _ here idle l held fresh
    dsimp only
    cases pass : onChar p ptr i c reserve with
    | fault reason =>
      rw [pass] at sound
      obtain ⟨rfl, refused⟩ := sound
      exact .of_refused refused rfl
    | exit q count result =>
      rw [pass] at sound
      exact .of_granted _ sound.1 rfl sound.2
    | next q j =>
      rw [pass] at sound
      obtain ⟨l', held', short, idle', later, bound, same, asked⟩ := sound
      have tail := ih (n - (j + 1 - i)) (by omega) (fun m less => array m (by omega)) fuel q l' ptr
        (j + 1) (by omega) (by omega) idle' held' (by simp [short])
      refine (tail.imp fun out met => ?_).congr asked
      have position : j + 1 = i + (j + 1 - i) := by omega
      rw [position] at met
      rw [same]
      simpa only [← position] using met.shift
    | array q =>
      rw [pass] at sound
      obtain ⟨frame, rep, more, same, asked⟩ := sound
      have rest : (ptr.drop (i + 1)).length = n - 1 := by rw [List.length_drop]; omega
      have inside := array (n - 1) (by omega) fuel q .start [frame] (ptr.drop (i + 1))
        (by simp only [List.length_singleton]; omega) rest (List.cons_ne_nil _ _) rep
      dsimp only
      refine Answers.congr ⟨fun given => ?_, fun refused => ?_⟩ asked
      · obtain ⟨inner, call, meets⟩ := inside.returns given
        refine ⟨{ inner with count := inner.count + (i + 1) }, by rw [call]; rfl, ?_⟩
        rw [same, show ptr.length = n - 1 + (i + 1) by omega]
        exact meets.opened
      · rw [inside.throws refused]
        rfl

theorem chunkSpec (reserve : Reserve) (n : Nat) : ChunkSpec reserve n := by
  induction n using Nat.strongRecOn with
  | _ n ih =>
  -- The functions call each other in a circle, and only `parseChunk` reads a byte.
  refine chunk_of_array n fun m less => array_of_items m fun k le => ?_
  exact items_of_loop k (loop_of_chunk k fun j le' => ih j (by omega))

theorem arraySpec (reserve : Reserve) (n : Nat) : ArraySpec reserve n :=
  array_of_items n fun k _ => items_of_loop k (loop_of_chunk k fun j _ => chunkSpec reserve j)

/-- A call on a parser that represents a state of the machine returns what the machine says about the
chunk, if the room that it asks for is there, and else throws. -/
theorem parse_answers (reserve : Reserve) {p : RedisParser} {r : Reader} (rep : Represents p r)
    (ptr : Bytes) :
    Answers (Granted reserve r ptr) (p.parse ptr reserve)
      (Meets 0 ptr.length r.frames (resp.scan r ptr)) := by
  obtain ⟨l, frames⟩ := r
  rw [parse, fuelFor, parseWith]
  cases frames with
  | nil =>
    rw [if_neg (by simp [rep.idle.arrays])]
    exact chunkSpec reserve ptr.length _ p l ptr 0 (by omega) (Nat.zero_add _) rep.idle rep.lexer
      (fun _ => rfl)
  | cons first others =>
    have nonempty : first :: others ≠ [] := List.cons_ne_nil _ _
    have height : p.arrayStack.length = (first :: others).length := by simp [rep.arrays]
    have deeper : p.arrayStack ≠ [] := by
      rw [ne_eq, ← List.length_eq_zero_iff, height]
      simp
    rw [if_pos deeper]
    exact arraySpec reserve ptr.length _ p l (first :: others) ptr (by omega) rfl nonempty rep

theorem parse_meets {p : RedisParser} {r : Reader} (rep : Represents p r) (ptr : Bytes) :
    ∃ out, p.parse ptr = .ok out ∧ Meets 0 ptr.length r.frames (resp.scan r ptr) out :=
  (parse_answers {} rep ptr).returns (granted_all r ptr)

end Pinocchio.Redis
