import Pinocchio.Semantics.Transition

/-! Runs of one system that are seen as runs of another. -/

set_option autoImplicit false

namespace Pinocchio.Semantics

namespace System
variable {S E T F : Type} (m : System S E) (n : System T F)

/-- The events of a run as they are seen in the states in which they happen. -/
def trace (seen : S → E → F) : S → List E → List F
  | _, [] => []
  | s, e :: es =>
    match m.step s e with
    | some t => seen s e :: trace seen t es
    | none => []

variable {m} {seen : S → E → F}

theorem trace_cons {s t : S} {e : E} (step : m.step s e = some t) (es : List E) :
    m.trace seen s (e :: es) = seen s e :: m.trace seen t es := by
  simp only [trace, step]

variable {n} {view : S → T}

theorem run_trace
    (simulates : ∀ s e t, m.step s e = some t → n.step (view s) (seen s e) = some (view t))
    {s t : S} {es : List E} (path : m.run s es = some t) :
    n.run (view s) (m.trace seen s es) = some (view t) := by
  induction es generalizing s with
  | nil =>
    cases path
    rfl
  | cons e es ih =>
    obtain ⟨u, step, rest⟩ := (m.run_cons_some).mp path
    rw [trace_cons step]
    exact (n.run_cons_some).mpr ⟨view u, simulates s e u step, ih rest⟩

theorem along_trace
    (simulates : ∀ s e t, m.step s e = some t → n.step (view s) (seen s e) = some (view t))
    {holds : T → F → T → Prop} {s t : S} {es : List E} (path : m.run s es = some t)
    (along : m.Along (fun s e t => holds (view s) (seen s e) (view t)) s es) :
    n.Along holds (view s) (m.trace seen s es) := by
  induction es generalizing s with
  | nil => trivial
  | cons e es ih =>
    obtain ⟨u, step, rest⟩ := (m.run_cons_some).mp path
    obtain ⟨head, tail⟩ := (along_cons step).mp along
    rw [trace_cons step]
    exact (along_cons (simulates s e u step)).mpr ⟨head, ih rest tail⟩

end System

end Pinocchio.Semantics
