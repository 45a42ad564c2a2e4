import Mathlib.Data.List.Basic

/-! Patterns with holes, and the choice of the first of several that fit.

A hole is filled by a reader, which takes what it can from the front of a text. So a text fills a
pattern in one way at most.
-/

set_option autoImplicit false

namespace Pinocchio.Semantics

/-- A symbol that has to come, or a hole for something of a kind. -/
inductive Piece (A K : Type) where
  | symbol (a : A)
  | hole (k : K)
  deriving DecidableEq

abbrev Pattern (A K : Type) := List (Piece A K)

namespace Pattern
variable {A K V : Type} [DecidableEq A] (read : K → List A → Option (V × List A))

/-- What a whole text puts into the holes. Nothing is read where the text has ended. -/
def fill : Pattern A K → List A → Option (List V)
  | [], [] => some []
  | .symbol a :: rest, c :: text => if a = c then fill rest text else none
  | .hole k :: rest, c :: text =>
    match read k (c :: text) with
    | some (v, left) => (fill rest left).map (v :: ·)
    | none => none
  | _, _ => none

def kinds : Pattern A K → List K
  | [] => []
  | .symbol _ :: rest => kinds rest
  | .hole k :: rest => k :: kinds rest

variable {read}

theorem fill_nil {p : Pattern A K} {vs : List V} : fill read p [] = some vs ↔ p = [] ∧ vs = [] := by
  cases p with
  | nil => simp [fill, eq_comm]
  | cons piece rest => cases piece <;> simp [fill]

theorem fill_symbols (fragment : List A) (p : Pattern A K) (text : List A) :
    fill read (fragment.map .symbol ++ p) text =
      if fragment <+: text then fill read p (text.drop fragment.length) else none := by
  induction fragment generalizing text with
  | nil => simp
  | cons a fragment ih =>
    cases text with
    | nil => simp [fill]
    | cons c text =>
      simp only [List.map_cons, List.cons_append, fill, List.cons_prefix_cons, List.length_cons,
        List.drop_succ_cons, ih]
      by_cases same : a = c
      · simp [same]
      · simp [same]

theorem fill_hole {k : K} {p : Pattern A K} {text : List A} {vs : List V} (some : text ≠ []) :
    fill read (.hole k :: p) text = .some vs ↔
      ∃ v left others, read k text = .some (v, left) ∧ fill read p left = .some others ∧
        vs = v :: others := by
  cases text with
  | nil => exact absurd rfl some
  | cons c text =>
    simp only [fill]
    cases taken : read k (c :: text) with
    | none => simp
    | some got =>
      obtain ⟨v, left⟩ := got
      simp only [Option.map_eq_some_iff, Option.some.injEq, Prod.mk.injEq]
      constructor
      · rintro ⟨others, rest, rfl⟩
        exact ⟨v, left, others, ⟨rfl, rfl⟩, rest, rfl⟩
      · rintro ⟨_, _, others, ⟨rfl, rfl⟩, rest, rfl⟩
        exact ⟨others, rest, rfl⟩

theorem fill_kinds {p : Pattern A K} {text : List A} {vs : List V} (full : fill read p text = some vs)
    {kind : V → K → Prop} (suits : ∀ k text v left, read k text = some (v, left) → kind v k) :
    List.Forall₂ kind vs (kinds p) := by
  induction p generalizing text vs with
  | nil =>
    cases text with
    | nil => cases full; exact .nil
    | cons c text => cases full
  | cons piece p ih =>
    cases text with
    | nil => exact absurd (fill_nil.mp full).1 (List.cons_ne_nil _ _)
    | cons c text =>
      cases piece with
      | symbol a =>
        simp only [fill] at full
        split at full
        · exact ih full
        · cases full
      | hole k =>
        obtain ⟨v, left, others, taken, rest, rfl⟩ := (fill_hole (List.cons_ne_nil c text)).mp full
        exact .cons (suits k _ v left taken) (ih rest)

end Pattern

/-! The candidate of the least number, where zero is the number of none. -/

section
variable {B X : Type}

def better (found other : Nat × B) : Nat × B :=
  if other.1 ≠ 0 ∧ (found.1 = 0 ∨ found.1 > other.1) then other else found

structure Best (candidate : Nat → B → Prop) (found : Nat × B) : Prop where
  least : ∀ n b, candidate n b → n ≠ 0 → found.1 ≠ 0 ∧ found.1 ≤ n
  chosen : found.1 ≠ 0 → candidate found.1 found.2

variable {candidate others : Nat → B → Prop} {found other : Nat × B}

theorem Best.congr (best : Best candidate found) (same : ∀ n b, candidate n b ↔ others n b) :
    Best others found :=
  ⟨fun n b here => best.least n b ((same n b).mpr here),
    fun some => (same _ _).mp (best.chosen some)⟩

theorem Best.unique (first : Best candidate found) (second : Best candidate other) :
    found.1 = other.1 := by
  by_cases none : found.1 = 0
  · by_contra differ
    have some : other.1 ≠ 0 := fun zero => differ (none.trans zero.symm)
    exact (first.least _ _ (second.chosen some) some).1 none
  · obtain ⟨some, low⟩ := second.least _ _ (first.chosen none) none
    exact Nat.le_antisymm (first.least _ _ (second.chosen some) some).2 low

theorem Best.none (b : B) : Best (fun _ _ => False) (0, b) :=
  ⟨fun _ _ here => here.elim, fun some => absurd rfl some⟩

theorem Best.better (best : Best candidate found) (second : Best others other) :
    Best (fun n b => candidate n b ∨ others n b) (better found other) := by
  unfold Semantics.better
  split
  · rename_i wins
    refine ⟨?_, fun some => Or.inr (second.chosen some)⟩
    rintro n b (here | here) some
    · obtain ⟨_, low⟩ := best.least n b here some
      exact ⟨wins.1, by omega⟩
    · exact second.least n b here some
  · rename_i loses
    refine ⟨?_, fun some => Or.inl (best.chosen some)⟩
    rintro n b (here | here) some
    · exact best.least n b here some
    · obtain ⟨given, low⟩ := second.least n b here some
      omega

theorem Best.foldl {step : Nat × B → X → Nat × B} (branch : X → Nat → B → Prop) (xs : List X)
    (each : ∀ x ∈ xs, ∀ (p : Nat → B → Prop) (r : Nat × B), Best p r →
      Best (fun n b => p n b ∨ branch x n b) (step r x))
    (best : Best candidate found) :
    Best (fun n b => candidate n b ∨ ∃ x ∈ xs, branch x n b) (xs.foldl step found) := by
  induction xs generalizing candidate found with
  | nil => exact best.congr fun n b => by simp
  | cons x xs ih =>
    have first := each x List.mem_cons_self _ _ best
    refine (ih (fun y member => each y (List.mem_cons_of_mem _ member)) first).congr fun n b => ?_
    simp only [List.mem_cons, exists_eq_or_imp, or_assoc]

end

end Pinocchio.Semantics
