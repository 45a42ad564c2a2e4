import Pinocchio.Crow.HttpSafety

/-! What is called back does not depend on how a stream is cut into buffers. -/

set_option autoImplicit false

namespace Pinocchio.Crow
open Semantics

namespace Reader

theorem run_nparsed (data : Bytes) {r r' : Reader} {n n' : Nat} {ending : Ending}
    (ran : r.run n data = some (r', n', ending)) :
    (ending = .more → n' = n + data.length) ∧ (ending = .exited → n' ≤ n + data.length) ∧
      ∀ errno, ending = .failed errno → n' < n + data.length := by
  induction data generalizing r n with
  | nil =>
    cases ran
    exact ⟨fun _ => rfl, fun no => (by cases no), fun _ no => by cases no⟩
  | cons ch data ih =>
    rw [run] at ran
    rw [List.length_cons]
    cases outcome : r.parser.executeByte ch with
    | goes c actions =>
      rw [outcome] at ran
      obtain ⟨more, exited, failed⟩ := ih ran
      exact ⟨fun same => by have := more same; omega, fun same => by have := exited same; omega,
        fun errno same => by have := failed errno same; omega⟩
    | exits c actions =>
      rw [outcome] at ran
      cases ran
      exact ⟨fun no => (by cases no), fun _ => by omega, fun _ no => by cases no⟩
    | fails errno actions =>
      rw [outcome] at ran
      cases ran
      exact ⟨fun no => (by cases no), fun no => (by cases no), fun _ _ => by omega⟩
    | aborts =>
      rw [outcome] at ran
      cases ran

def behind (calls : List Callback) (n : Nat) : Reader × Nat × Ending → Reader × Nat × Ending :=
  fun (r, m, ending) => ({ r with calls := calls ++ r.calls }, n + m, ending)

theorem perform_calls (c : HttpParser) (ch : UInt8) (r : Reader) (calls : List Callback)
    (action : ParserAction) :
    perform c ch { r with calls := calls ++ r.calls } action =
      { perform c ch r action with calls := calls ++ (perform c ch r action).calls } := by
  cases action with
  | mark text =>
    simp only [perform]
    split <;> rfl
  | data _ => rfl
  | dataThrough _ => rfl
  | messageBegin => rfl
  | headersComplete => simp [perform]
  | messageComplete => simp [perform]

theorem actions_calls (c : HttpParser) (ch : UInt8) (calls : List Callback)
    (actions : List ParserAction) (r : Reader) :
    Reader.actions c ch { r with calls := calls ++ r.calls } actions =
      { Reader.actions c ch r actions with calls := calls ++ (Reader.actions c ch r actions).calls } := by
  unfold Reader.actions
  induction actions generalizing r with
  | nil => rfl
  | cons action actions ih =>
    rw [List.foldl_cons, List.foldl_cons, perform_calls]
    exact ih _

theorem advance_calls (r : Reader) (calls : List Callback) (ch : UInt8) :
    ({ r with calls := calls ++ r.calls } : Reader).advance ch =
      { r.advance ch with calls := calls ++ (r.advance ch).calls } := by
  cases r with
  | mk parser assembly text before => cases text <;> rfl

theorem run_calls (data : Bytes) (r : Reader) (calls : List Callback) (n m : Nat) :
    ({ r with calls := calls ++ r.calls } : Reader).run (n + m) data =
      (r.run m data).map (behind calls n) := by
  induction data generalizing r m with
  | nil => rfl
  | cons ch data ih =>
    rw [run, run]
    cases outcome : r.parser.executeByte ch with
    | goes c actions =>
      simp only [actions_calls, advance_calls]
      exact ih _ (m + 1)
    | exits c actions =>
      simp only [actions_calls]
      rfl
    | fails errno actions =>
      simp only [actions_calls]
      rfl
    | aborts =>
      rfl

end Reader

/-- Buffers are read until one of them cannot be read to its end. -/
def HTTPParser.feedAll (p : HTTPParser) : List Bytes → Option (HTTPParser × List Callback × Bool)
  | [] => some (p, [], true)
  | data :: buffers =>
    (p.feed data).bind fun (q, calls, ok) =>
      if ok then (feedAll q buffers).map fun (r, later, ok) => (r, calls ++ later, ok)
      else some (q, calls, false)

theorem HTTPParser.feedAll_sound (buffers : List Bytes) {p : HTTPParser} (sound : p.Sound) :
    ∃ q calls ok, p.feedAll buffers = some (q, calls, ok) ∧ q.Sound := by
  induction buffers generalizing p with
  | nil => exact ⟨p, [], true, rfl, sound⟩
  | cons data buffers ih =>
    obtain ⟨q, calls, ok, fed, sound'⟩ := feed_sound sound data
    rw [feedAll, fed, Option.bind_some]
    cases ok with
    | false => exact ⟨q, calls, false, rfl, sound'⟩
    | true =>
      obtain ⟨r, later, ok, rest, sound''⟩ := ih sound'
      exact ⟨r, calls ++ later, ok, by simp [rest], sound''⟩

/-- What is left of a stream that was read in buffers, by the reader. -/
structure Agrees (q : HTTPParser) (calls : List Callback) (ok : Bool) (r : Reader) (whole : Bool)
    (ending : Ending) : Prop where
  all : whole = true → ok = true ∧ calls = r.calls ∧ q = ⟨r.parser, none, r.assembly⟩
  failed : ∀ errno, ending = .failed errno →
    ok = false ∧ calls = r.calls ∧ q.httpErrno = some errno
  calls : r.calls <+: calls

theorem Agrees.after {q : HTTPParser} {calls : List Callback} {ok whole whole' : Bool} {r : Reader}
    {ending : Ending} (agrees : Agrees q calls ok r whole ending) (before : List Callback)
    (same : whole' = true → whole = true) :
    Agrees q (before ++ calls) ok { r with calls := before ++ r.calls } whole' ending where
  all entire := by
    obtain ⟨ok, calls, rest⟩ := agrees.all (same entire)
    exact ⟨ok, by rw [calls], rest⟩
  failed errno failed := by
    obtain ⟨ok, calls, rest⟩ := agrees.failed errno failed
    exact ⟨ok, by rw [calls], rest⟩
  calls := (List.prefix_append_right_inj before).mpr agrees.calls

theorem HTTPParser.feedAll_run (buffers : List Bytes) {p : HTTPParser} {r : Reader}
    (between : Between p r) (sound : p.Sound) (each : ∀ data ∈ buffers, data ≠ []) :
    ∃ r' n ending q calls ok, r.run 0 buffers.flatten = some (r', n, ending) ∧
      p.feedAll buffers = some (q, calls, ok) ∧
      Agrees q calls ok r' (n = buffers.flatten.length) ending := by
  induction buffers generalizing p r with
  | nil =>
    refine ⟨r, 0, .more, p, [], true, rfl, rfl, ⟨fun _ => ⟨rfl, between.calls.symm, ?_⟩,
      fun _ no => (by cases no), by rw [between.calls]⟩⟩
    exact HTTPParser.ext between.parser between.errno between.assembly
  | cons data buffers ih =>
    have some' := each data List.mem_cons_self
    have each' : ∀ data ∈ buffers, data ≠ [] := fun d member => each d (List.mem_cons_of_mem _ member)
    obtain ⟨q, calls, ok, fed, sound'⟩ := feed_sound sound data
    rcases feed_run between some' with ⟨_, aborted⟩ | ⟨r₁, n₁, ending, q₁, ran, fed', parser, errno,
      assembly, goes⟩
    · cases fed.symm.trans aborted
    obtain ⟨rfl, rfl, rfl⟩ : q = q₁ ∧ calls = r₁.calls ∧ ok = decide (n₁ = data.length) := by
      simpa using fed.symm.trans fed'
    have parts := r.run_append 0 data buffers.flatten
    rw [ran, Option.bind_some] at parts
    obtain ⟨more, exited, failed⟩ := Reader.run_nparsed data ran
    rw [List.flatten_cons, feedAll, fed', Option.bind_some]
    have fine (other : ∀ e, ending ≠ .failed e) : q.httpErrno = none := by
      cases found : q.httpErrno with
      | none => rfl
      | some e => exact absurd ((errno e).mpr found) (other e)
    cases ending with
    | more =>
      have none := fine fun e no => by cases no
      have between' : Between q { r₁ with calls := [] } :=
        ⟨none, parser, assembly none, rfl, (goes rfl).1, (goes rfl).2⟩
      obtain ⟨r₂, n₂, ending, q₂, later, ok, ran', fed'', agrees⟩ := ih between' sound' each'
      have shifted := Reader.run_calls buffers.flatten { r₁ with calls := [] } r₁.calls n₁ 0
      simp only [List.append_nil, Nat.add_zero] at shifted
      have parts : r.run 0 (data ++ buffers.flatten) = r₁.run n₁ buffers.flatten :=
        parts.trans (if_pos rfl)
      rw [shifted, ran'] at parts
      have length := more rfl
      rw [Nat.zero_add] at length
      refine ⟨{ r₂ with calls := r₁.calls ++ r₂.calls }, n₁ + n₂, ending, q₂, r₁.calls ++ later, ok,
        parts, ?_, agrees.after r₁.calls fun whole => ?_⟩
      · simp [length, fed'']
      · rw [decide_eq_true_eq, List.length_append] at whole
        rw [decide_eq_true_eq]
        omega
    | exited =>
      have none := fine fun e no => by cases no
      have parts : r.run 0 (data ++ buffers.flatten) = .some (r₁, n₁, .exited) :=
        parts.trans (if_neg (by decide))
      have within := exited rfl
      obtain ⟨q₂, later, ok, rest, _⟩ := feedAll_sound buffers sound'
      by_cases last : n₁ = data.length
      · refine ⟨r₁, n₁, .exited, q₂, r₁.calls ++ later, ok, parts, by simp [last, rest],
          ⟨fun whole => ?_, fun _ no => (by cases no), List.prefix_append _ _⟩⟩
        -- Nothing follows, so there is no other buffer.
        rw [decide_eq_true_eq, List.length_append] at whole
        have nothing : buffers = [] := by
          cases buffers with
          | nil => rfl
          | cons d buffers =>
            have some'' := List.length_pos_iff.mpr (each' d List.mem_cons_self)
            rw [List.flatten_cons, List.length_append] at whole
            omega
        subst nothing
        cases rest
        exact ⟨rfl, by simp, HTTPParser.ext parser none (assembly none)⟩
      · refine ⟨r₁, n₁, .exited, q, r₁.calls, false, parts, by simp [last],
          ⟨fun whole => ?_, fun _ no => (by cases no), List.prefix_refl _⟩⟩
        rw [decide_eq_true_eq, List.length_append] at whole
        omega
    | failed e =>
      have parts : r.run 0 (data ++ buffers.flatten) = .some (r₁, n₁, .failed e) :=
        parts.trans (if_neg fun no => by cases no)
      have within := failed e rfl
      have short : n₁ ≠ data.length := by omega
      refine ⟨r₁, n₁, .failed e, q, r₁.calls, false, parts, by simp [short],
        ⟨fun whole => ?_, fun e' same => ?_, List.prefix_refl _⟩⟩
      · rw [decide_eq_true_eq, List.length_append] at whole
        omega
      · cases same
        exact ⟨rfl, rfl, (errno e).mp rfl⟩

/-- Whatever is read, no assertion of a state fails, nor the one about the marks. -/
theorem feedAll_never_aborts (buffers : List Bytes) :
    (({} : HTTPParser).feedAll buffers).isSome = true := by
  obtain ⟨q, calls, ok, fed, _⟩ := HTTPParser.feedAll_sound buffers HTTPParser.sound_initial
  rw [fed]
  rfl

end Pinocchio.Crow
