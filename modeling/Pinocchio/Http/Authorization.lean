import Mathlib.Data.List.DropRight
import Pinocchio.Http.Routes

/-! The check of the key in front of `/gcm/send`.

The header is split at every '=' and the second field is taken without a look at the
number of fields. So a header needs an '=', and the key of one with more of them is cut.
-/

set_option autoImplicit false

namespace Pinocchio.Http
open Semantics Redis Database

def equals : UInt8 := 61

def trim (text : Bytes) : Bytes := (text.dropWhile isSpace).rdropWhile isSpace

/-- An absent header counts as an empty one. -/
def getHeaderValue (header : Option Bytes) : Bytes := header.getD []

namespace PinocchioRun

/-- The handler of `/gcm/send`, with `x` made of the body. -/
def addRouteSend (s : PinocchioRun) (authKey : Bytes) (authorization : Option Bytes)
    (x : Option Posting) : Except Fault PinocchioRun :=
  let serverKey := getHeaderValue authorization
  let fields := serverKey.splitOn equals
  match fields[1]? with
  | none => .error .undefined
  | some field =>
    if trim field = authKey then .ok (s.handle (.send x))
    else .ok (s.respond (.send x) { code := 405 })

end PinocchioRun

section Fields
variable {text : Bytes} {c : UInt8}

theorem mem_dropWhile (member : c ∈ text) (kept : isSpace c = false) :
    c ∈ text.dropWhile isSpace := by
  rw [← List.takeWhile_append_dropWhile (p := isSpace) (l := text)] at member
  rcases List.mem_append.mp member with blank | rest
  · have space := List.mem_takeWhile_imp blank
    rw [kept] at space
    cases space
  · exact rest

theorem mem_trim (member : c ∈ text) (kept : isSpace c = false) : c ∈ trim text := by
  rw [trim, List.rdropWhile, List.mem_reverse]
  exact mem_dropWhile (List.mem_reverse.mpr (mem_dropWhile member kept)) kept

theorem trim_subset (text : Bytes) : trim text ⊆ text := by
  intro c member
  have right : c ∈ text.dropWhile isSpace := (List.rdropWhile_prefix _ _).subset member
  exact (List.dropWhile_suffix _).subset right

def afterEquals (text : Bytes) : Bytes := (text.dropWhile (· != equals)).drop 1

def beforeEquals (text : Bytes) : Bytes := text.takeWhile (· != equals)

theorem span_equals {p : Bytes} (free : equals ∉ p) (k : Bytes) :
    beforeEquals (p ++ equals :: k) = p ∧ afterEquals (p ++ equals :: k) = k := by
  refine ⟨takeWhile_ne_append free k, ?_⟩
  rw [afterEquals, List.dropWhile_append_of_pos (all_ne_iff.mpr free)]
  simp

theorem beforeEquals_of_free (free : equals ∉ text) : beforeEquals text = text :=
  takeWhile_ne_eq_self.mpr free

theorem splitOn_head (text : Bytes) : (text.splitOn equals)[0]? = some (beforeEquals text) := by
  by_cases inside : equals ∈ text
  · obtain ⟨p, k, rfl, free⟩ := List.eq_append_cons_of_mem inside
    rw [List.splitOn_append_cons_self_of_not_mem free, (span_equals free k).1]
    rfl
  · rw [List.splitOn_eq_singleton inside, beforeEquals_of_free inside]
    rfl

theorem splitOn_second (text : Bytes) :
    (text.splitOn equals)[1]? =
      if equals ∈ text then some (beforeEquals (afterEquals text)) else none := by
  split
  · rename_i inside
    obtain ⟨p, k, rfl, free⟩ := List.eq_append_cons_of_mem inside
    rw [List.splitOn_append_cons_self_of_not_mem free, (span_equals free k).2,
      List.getElem?_cons_succ]
    exact splitOn_head k
  · rename_i outside
    rw [List.splitOn_eq_singleton outside]
    rfl

/-- Behind a second '=' the two readings of the key never agree. -/
theorem trim_ne (inside : equals ∈ text) : trim (beforeEquals text) ≠ trim text := by
  intro same
  have kept : equals ∈ trim text := mem_trim inside (by decide)
  rw [← same] at kept
  have passed := List.mem_takeWhile_imp (trim_subset _ kept)
  simp at passed

end Fields

/-- The key behind the first '=' of the header is the configured one, up to blanks. -/
def Accepted (authKey serverKey : Bytes) : Prop :=
  ∃ p k, serverKey = p ++ equals :: k ∧ equals ∉ p ∧ trim k = authKey

theorem accepted_iff {authKey serverKey : Bytes} (inside : equals ∈ serverKey) :
    Accepted authKey serverKey ↔ trim (afterEquals serverKey) = authKey := by
  constructor
  · rintro ⟨p, k, rfl, free, same⟩
    rw [(span_equals free k).2]
    exact same
  · intro same
    obtain ⟨p, k, rfl, free⟩ := List.eq_append_cons_of_mem inside
    rw [(span_equals free k).2] at same
    exact ⟨p, k, rfl, free, same⟩

/-- A post goes past the check when its key is accepted, and else it is answered by 405 and
nothing more. -/
def SendExact (authKey : Bytes) (authorization : Option Bytes) : Prop :=
  ∀ s x, ∃ t, PinocchioRun.addRouteSend s authKey authorization x = .ok t ∧
    (Accepted authKey (getHeaderValue authorization) → t = s.handle (.send x)) ∧
    (¬Accepted authKey (getHeaderValue authorization) → t = s.respond (.send x) { code := 405 })

/-- There is an '=' in the header, and either no second one, or a key that is neither the text
between the first two nor all the text behind the first. -/
def OneReading (authKey serverKey : Bytes) : Prop :=
  equals ∈ serverKey ∧
    (equals ∈ afterEquals serverKey →
      authKey ≠ trim (beforeEquals (afterEquals serverKey)) ∧
        authKey ≠ trim (afterEquals serverKey))

namespace PinocchioRun
variable (s : PinocchioRun) (authKey : Bytes) (authorization : Option Bytes) (x : Option Posting)

theorem addRouteSend_eq :
    s.addRouteSend authKey authorization x =
      if equals ∈ getHeaderValue authorization then
        if trim (beforeEquals (afterEquals (getHeaderValue authorization))) = authKey then
          .ok (s.handle (.send x))
        else .ok (s.respond (.send x) { code := 405 })
      else .error .undefined := by
  simp only [addRouteSend, splitOn_second]
  split
  · rename_i outside
    split at outside
    · cases outside
    · rename_i missing
      rw [if_neg missing]
  · rename_i field here
    split at here
    · rename_i inside
      cases here
      rw [if_pos inside]
    · cases here

theorem handle_ne_respond : handle {} (.send none) ≠ respond {} (.send none) { code := 405 } := by
  intro same
  have responses := congrArg PinocchioRun.responses same
  exact absurd responses (by decide)

end PinocchioRun

open PinocchioRun

theorem addRouteSend_exact (authKey : Bytes) (authorization : Option Bytes) :
    SendExact authKey authorization ↔ OneReading authKey (getHeaderValue authorization) := by
  unfold SendExact OneReading
  simp only [addRouteSend_eq]
  by_cases inside : equals ∈ getHeaderValue authorization
  · simp only [inside, true_and, accepted_iff inside]
    generalize afterEquals (getHeaderValue authorization) = key
    by_cases again : equals ∈ key
    · have different := trim_ne again
      simp only [again, true_imp_iff]
      constructor
      · intro meets
        obtain ⟨t, result, accepted, rejected⟩ := meets {} none
        constructor
        · rintro rfl
          rw [if_pos rfl] at result
          cases result
          exact handle_ne_respond (rejected different.symm)
        · rintro rfl
          rw [if_neg different] at result
          cases result
          exact handle_ne_respond (accepted rfl).symm
      · rintro ⟨first, whole⟩ s x
        rw [if_neg first.symm]
        exact ⟨_, rfl, fun same => absurd same.symm whole, fun _ => rfl⟩
    · -- With a single '=' the field is all that follows it.
      refine iff_of_true (fun s x => ?_) fun other => absurd other again
      rw [beforeEquals_of_free again]
      by_cases same : trim key = authKey
      · rw [if_pos same]
        exact ⟨_, rfl, fun _ => rfl, fun other => absurd same other⟩
      · rw [if_neg same]
        exact ⟨_, rfl, fun other => absurd other same, fun _ => rfl⟩
  · simp only [inside, false_and, iff_false]
    intro meets
    obtain ⟨t, result, _⟩ := meets {} none
    cases result

/-- Without the header there is no second field. -/
theorem addRouteSend_noHeader : ¬∀ authKey authorization, SendExact authKey authorization := by
  intro always
  obtain ⟨t, result, _⟩ := always (ascii "k") none {} none
  have fault : PinocchioRun.addRouteSend {} (ascii "k") none none = .error .undefined := rfl
  rw [fault] at result
  cases result

end Pinocchio.Http
