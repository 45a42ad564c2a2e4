/-! Transition systems whose steps are chosen by an event.

A step is a partial function of the state and the event, so a disabled event
has no successor and a run is determined by the events that were chosen.
Interleavings of several parties are sequences of events.
-/

set_option autoImplicit false

namespace Pinocchio.Semantics

structure System (S E : Type) where
  initial : S
  step : S → E → Option S

namespace System
variable {S E : Type} (m : System S E)

/-- The state after a sequence of events, unless one of them is disabled. -/
def run : S → List E → Option S
  | s, [] => some s
  | s, e :: es => (m.step s e).bind fun t => run t es

@[simp] theorem run_nil (s : S) : m.run s [] = some s := rfl

@[simp] theorem run_cons (s : S) (e : E) (es : List E) :
    m.run s (e :: es) = (m.step s e).bind fun t => m.run t es := rfl

theorem run_cons_some {s u : S} {e : E} {es : List E} :
    m.run s (e :: es) = some u ↔ ∃ t, m.step s e = some t ∧ m.run t es = some u := by
  simp [Option.bind_eq_some_iff]

/-- The states reached by steps that are all allowed in the state they leave. -/
inductive Reaches (allowed : S → E → Prop) : S → Prop where
  | initial : Reaches allowed m.initial
  | next {s t : S} {e : E} : Reaches allowed s → allowed s e → m.step s e = some t →
      Reaches allowed t

variable {m} {allowed : S → E → Prop}

theorem Reaches.invariant {P : S → Prop} {s : S} (reached : m.Reaches allowed s)
    (start : P m.initial)
    (preserved : ∀ s e t, P s → allowed s e → m.step s e = some t → P t) : P s := by
  induction reached with
  | initial => exact start
  | next _ permitted step ih => exact preserved _ _ _ ih permitted step

theorem Reaches.weaken {wider : S → E → Prop} {s : S} (reached : m.Reaches allowed s)
    (implies : ∀ s e, allowed s e → wider s e) : m.Reaches wider s := by
  induction reached with
  | initial => exact .initial
  | next _ permitted step ih => exact .next ih (implies _ _ permitted) step

variable (m)

/-- Every step that the events take from `s` satisfies `holds`. -/
def Along (holds : S → E → S → Prop) : S → List E → Prop
  | _, [] => True
  | s, e :: es =>
    match m.step s e with
    | some t => holds s e t ∧ Along holds t es
    | none => True

instance decidableAlong (holds : S → E → S → Prop) [∀ s e t, Decidable (holds s e t)] :
    ∀ s es, Decidable (m.Along holds s es)
  | _, [] => isTrue trivial
  | s, e :: es =>
    match step : m.step s e with
    | some t =>
      have := decidableAlong holds t es
      decidable_of_iff (holds s e t ∧ m.Along holds t es) (by simp only [Along, step])
    | none => isTrue (by simp only [Along, step])

variable {m}

theorem along_cons {holds : S → E → S → Prop} {s t : S} {e : E} {es : List E}
    (step : m.step s e = some t) :
    m.Along holds s (e :: es) ↔ holds s e t ∧ m.Along holds t es := by
  simp only [Along, step]

theorem along_of_forall {holds : S → E → S → Prop} {es : List E}
    (always : ∀ e ∈ es, ∀ s t, holds s e t) (s : S) : m.Along holds s es := by
  induction es generalizing s with
  | nil => trivial
  | cons e es ih =>
    cases step : m.step s e with
    | none => simp only [Along, step]
    | some t =>
      rw [along_cons step]
      have later := ih (fun e member => always e (List.mem_cons_of_mem _ member)) t
      exact ⟨always e List.mem_cons_self s t, later⟩

theorem along_at {holds : S → E → S → Prop} {s t u : S} {e : E} {es : List E}
    (along : m.Along holds s (es ++ [e])) (path : m.run s es = some t)
    (step : m.step t e = some u) : holds t e u := by
  induction es generalizing s with
  | nil => cases path; exact ((along_cons step).mp along).1
  | cons first es ih =>
    obtain ⟨v, taken, rest⟩ := (m.run_cons_some).mp path
    exact ih ((along_cons taken).mp along).2 rest

theorem along_invariant {holds : S → E → S → Prop} {P : S → Prop} {s t : S} {es : List E}
    (start : P s) (along : m.Along holds s es) (path : m.run s es = some t)
    (preserved : ∀ s e t, P s → holds s e t → m.step s e = some t → P t) : P t := by
  induction es generalizing s with
  | nil => cases path; exact start
  | cons e es ih =>
    obtain ⟨u, step, rest⟩ := (m.run_cons_some).mp path
    obtain ⟨head, tail⟩ := (along_cons step).mp along
    exact ih (preserved s e u start head step) tail rest

theorem run_invariant {P : S → Prop} {s t : S} {es : List E} (start : P s)
    (path : m.run s es = some t) (preserved : ∀ s e t, P s → m.step s e = some t → P t) : P t := by
  have along : m.Along (fun _ _ _ => True) s es := along_of_forall (fun _ _ _ _ => trivial) s
  exact along_invariant start along path fun s e t held _ step => preserved s e t held step

theorem Reaches.run {s t : S} {es : List E} (reached : m.Reaches allowed s)
    (permitted : m.Along (fun s e _ => allowed s e) s es) (path : m.run s es = some t) :
    m.Reaches allowed t :=
  along_invariant reached permitted path fun _ _ _ before permitted step =>
    before.next permitted step

theorem reaches_of_run {t : S} {es : List E} (path : m.run m.initial es = some t) :
    m.Reaches (fun _ _ => True) t :=
  run_invariant .initial path fun _ _ _ before step => before.next trivial step

/-- The condition holds of every event that is tried, up to the first that is disabled and of that
one too. -/
def Tried (m : System S E) (allowed : S → E → Prop) : S → List E → Prop
  | _, [] => True
  | s, e :: es => allowed s e ∧ ∀ t, m.step s e = some t → Tried m allowed t es

theorem run_iff_tried (inv : S → Prop)
    (enabled : ∀ s e, inv s → ((∃ t, m.step s e = some t) ↔ allowed s e))
    (kept : ∀ s e t, inv s → m.step s e = some t → inv t) {s : S} (start : inv s) (es : List E) :
    (∃ t, m.run s es = some t) ↔ m.Tried allowed s es := by
  induction es generalizing s with
  | nil => exact iff_of_true ⟨s, rfl⟩ trivial
  | cons e es ih =>
    rw [Tried, ← enabled s e start]
    constructor
    · rintro ⟨t, path⟩
      obtain ⟨next, step, rest⟩ := (m.run_cons_some).mp path
      refine ⟨⟨next, step⟩, fun other step' => ?_⟩
      cases step.symm.trans step'
      exact (ih (kept s e next start step)).mp ⟨t, rest⟩
    · rintro ⟨⟨next, step⟩, later⟩
      obtain ⟨t, rest⟩ := (ih (kept s e next start step)).mpr (later next step)
      exact ⟨t, (m.run_cons_some).mpr ⟨next, step, rest⟩⟩

/-- Two step properties that agree wherever an invariant holds, and one of which keeps the
invariant, hold along the same runs. -/
theorem along_iff {p q : S → E → S → Prop} (inv : S → Prop)
    (agree : ∀ s e t, inv s → m.step s e = some t → (p s e t ↔ q s e t))
    (kept : ∀ s e t, inv s → m.step s e = some t → p s e t → inv t)
    {s : S} (start : inv s) (es : List E) : m.Along p s es ↔ m.Along q s es := by
  induction es generalizing s with
  | nil => exact Iff.rfl
  | cons e es ih =>
    cases step : m.step s e with
    | none => simp only [Along, step]
    | some t =>
      rw [along_cons step, along_cons step, ← agree s e t start step]
      refine and_congr_right ?_
      intro head
      exact ih (kept s e t start step head)

end System

end Pinocchio.Semantics
