/-! Machines that read a stream one symbol at a time.

A machine reads one item after another. Reading stops at the first rejected
symbol. The laws below say that nothing depends on how the stream is cut into
received pieces: reading a concatenation is reading the parts in turn.
-/

set_option autoImplicit false

namespace Pinocchio.Semantics

/-- The effect of one symbol: wait for the next one, complete an item, or reject. -/
inductive Progress (S V : Type) where
  | more (state : S)
  | done (value : V)
  | reject

/-- The verdict on a sequence, read no further than the end of its first item. -/
inductive Outcome (S V : Type) where
  | pending (state : S)
  | done (value : V) (used : Nat)
  | rejected (used : Nat)

def Outcome.shift {S V : Type} (k : Nat) : Outcome S V → Outcome S V
  | .pending s => .pending s
  | .done v used => .done v (used + k)
  | .rejected used => .rejected (used + k)

@[simp] theorem Outcome.shift_pending {S V : Type} (k : Nat) (s : S) :
    (Outcome.pending s : Outcome S V).shift k = .pending s := rfl

@[simp] theorem Outcome.shift_done {S V : Type} (k used : Nat) (v : V) :
    (Outcome.done v used : Outcome S V).shift k = .done v (used + k) := rfl

@[simp] theorem Outcome.shift_rejected {S V : Type} (k used : Nat) :
    (Outcome.rejected used : Outcome S V).shift k = .rejected (used + k) := rfl

@[simp] theorem Outcome.shift_zero {S V : Type} (o : Outcome S V) : o.shift 0 = o := by
  cases o <;> rfl

@[simp] theorem Outcome.shift_shift {S V : Type} (o : Outcome S V) (j k : Nat) :
    (o.shift j).shift k = o.shift (j + k) := by
  cases o <;> simp [shift, Nat.add_assoc]

/-- Where reading a whole sequence ended: inside an item, or at a rejected symbol. -/
inductive Status (S : Type) where
  | waiting (state : S)
  | rejected (used : Nat)

def Status.shift {S : Type} (k : Nat) : Status S → Status S
  | .waiting s => .waiting s
  | .rejected used => .rejected (used + k)

@[simp] theorem Status.shift_waiting {S : Type} (k : Nat) (s : S) :
    (Status.waiting s).shift k = .waiting s := rfl

@[simp] theorem Status.shift_rejected {S : Type} (k used : Nat) :
    (Status.rejected used : Status S).shift k = .rejected (used + k) := rfl

@[simp] theorem Status.shift_zero {S : Type} (status : Status S) : status.shift 0 = status := by
  cases status <;> rfl

@[simp] theorem Status.shift_shift {S : Type} (status : Status S) (j k : Nat) :
    (status.shift j).shift k = status.shift (j + k) := by
  cases status <;> simp [shift, Nat.add_assoc]

@[simp] theorem Status.shift_eq_waiting {S : Type} {k : Nat} {status : Status S} {s : S} :
    status.shift k = .waiting s ↔ status = .waiting s := by
  cases status <;> simp

/-- The items completed in a sequence, and where its reading ended. -/
structure Consumed (S V : Type) where
  items : List V
  status : Status S

/-- Continue from where `first` ended, `used` symbols later. -/
def Consumed.andThen {S V : Type} (first : Consumed S V) (used : Nat)
    (next : S → Consumed S V) : Consumed S V :=
  match first.status with
  | .waiting s => ⟨first.items ++ (next s).items, (next s).status.shift used⟩
  | .rejected k => ⟨first.items, .rejected k⟩

structure Machine (S A V : Type) where
  start : S
  feed : S → A → Progress S V

namespace Machine
variable {S A V : Type} (m : Machine S A V)

/-- Read up to the end of the first item. -/
def scan : S → List A → Outcome S V
  | s, [] => .pending s
  | s, a :: rest =>
    match m.feed s a with
    | .more t => (scan t rest).shift 1
    | .done v => .done v 1
    | .reject => .rejected 1

/-- Go on after `used` symbols that led to `progress`. -/
def resume (progress : Progress S V) (used : Nat) (rest : List A) : Outcome S V :=
  match progress with
  | .more t => (m.scan t rest).shift used
  | .done v => .done v used
  | .reject => .rejected used

@[simp] theorem resume_more (t : S) (used : Nat) (rest : List A) :
    m.resume (.more t) used rest = (m.scan t rest).shift used := rfl

@[simp] theorem resume_done (v : V) (used : Nat) (rest : List A) :
    m.resume (.done v) used rest = .done v used := rfl

@[simp] theorem resume_reject (used : Nat) (rest : List A) :
    m.resume .reject used rest = .rejected used := rfl

@[simp] theorem scan_nil (s : S) : m.scan s [] = .pending s := rfl

theorem scan_cons (s : S) (a : A) (rest : List A) :
    m.scan s (a :: rest) = m.resume (m.feed s a) 1 rest := by
  simp only [scan, resume]

theorem resume_shift (progress : Progress S V) (j k : Nat) (rest : List A) :
    (m.resume progress j rest).shift k = m.resume progress (j + k) rest := by
  cases progress <;> simp

theorem scan_append (s : S) (first rest : List A) :
    m.scan s (first ++ rest) =
      match m.scan s first with
      | .pending t => (m.scan t rest).shift first.length
      | .done v used => .done v used
      | .rejected used => .rejected used := by
  induction first generalizing s with
  | nil => simp
  | cons a first ih =>
    simp only [List.cons_append, scan, List.length_cons]
    cases m.feed s a with
    | more t =>
      simp only [ih t]
      cases m.scan t first <;> simp
    | done v => rfl
    | reject => rfl

theorem scan_bounds (s : S) (xs : List A) :
    match m.scan s xs with
    | .pending _ => True
    | .done _ used | .rejected used => 1 ≤ used ∧ used ≤ xs.length := by
  induction xs generalizing s with
  | nil => trivial
  | cons a rest ih =>
    rw [scan_cons]
    cases m.feed s a with
    | done v => simp
    | reject => simp
    | more t =>
      have tail := ih t
      rw [resume_more]
      cases outcome : m.scan t rest with
      | pending u => trivial
      | done v used =>
        rw [outcome] at tail
        simp only [Outcome.shift_done, List.length_cons]
        omega
      | rejected used =>
        rw [outcome] at tail
        simp only [Outcome.shift_rejected, List.length_cons]
        omega

theorem scan_done_bounds {s : S} {xs : List A} {v : V} {used : Nat}
    (done : m.scan s xs = .done v used) : 1 ≤ used ∧ used ≤ xs.length := by
  have bounds := m.scan_bounds s xs
  rwa [done] at bounds

theorem scan_rejected_bounds {s : S} {xs : List A} {used : Nat}
    (rejected : m.scan s xs = .rejected used) : 1 ≤ used ∧ used ≤ xs.length := by
  have bounds := m.scan_bounds s xs
  rwa [rejected] at bounds

/-- An item that ends with the sequence is pending on every proper prefix of it. -/
theorem scan_prefix_pending {s : S} {first rest : List A} {v : V}
    (done : m.scan s (first ++ rest) = .done v (first ++ rest).length) (proper : rest ≠ []) :
    ∃ t, m.scan s first = .pending t := by
  -- A verdict within the prefix would be the verdict on the whole, and too early.
  have positive : 0 < rest.length := List.length_pos_iff.mpr proper
  rw [scan_append, List.length_append] at done
  cases head : m.scan s first with
  | pending t => exact ⟨t, rfl⟩
  | done w used =>
    simp only [head, Outcome.done.injEq] at done
    have := (m.scan_done_bounds head).2
    omega
  | rejected used => simp [head] at done

theorem scan_rest {s t : S} {first rest : List A} {v : V}
    (done : m.scan s (first ++ rest) = .done v (first ++ rest).length)
    (pending : m.scan s first = .pending t) : m.scan t rest = .done v rest.length := by
  rw [scan_append, pending, List.length_append] at done
  cases tail : m.scan t rest with
  | pending q => simp [tail] at done
  | rejected used => simp [tail] at done
  | done w used =>
    simp only [tail, Outcome.shift_done, Outcome.done.injEq] at done
    obtain ⟨rfl, length⟩ := done
    congr 1
    omega

/-- A condition on the state and the symbol that holds of every symbol up to the end of the first
item. -/
def Throughout (P : S → A → Prop) : S → List A → Prop
  | _, [] => True
  | s, a :: rest =>
    P s a ∧
      match m.feed s a with
      | .more t => Throughout P t rest
      | .done _ | .reject => True

/-- The condition holds of what is read after some symbols that led to `progress`. -/
def Onward (P : S → A → Prop) (progress : Progress S V) (rest : List A) : Prop :=
  match progress with
  | .more t => m.Throughout P t rest
  | .done _ | .reject => True

section Throughout
variable {P : S → A → Prop}

@[simp] theorem onward_more {t : S} {rest : List A} :
    m.Onward P (.more t) rest ↔ m.Throughout P t rest := Iff.rfl

theorem throughout_nil (s : S) : m.Throughout P s [] := trivial

theorem throughout_cons {s : S} {a : A} {rest : List A} :
    m.Throughout P s (a :: rest) ↔ P s a ∧ m.Onward P (m.feed s a) rest := Iff.rfl

theorem throughout_of_forall (always : ∀ s a, P s a) (s : S) (xs : List A) :
    m.Throughout P s xs := by
  induction xs generalizing s with
  | nil => trivial
  | cons a rest ih =>
    refine m.throughout_cons.mpr ⟨always s a, ?_⟩
    cases m.feed s a with
    | more t => exact ih t
    | done v => trivial
    | reject => trivial

/-- A condition that holds of every symbol that is read, item after item. -/
def Always (P : S → A → Prop) : S → List A → Prop
  | _, [] => True
  | s, a :: rest =>
    P s a ∧
      match m.feed s a with
      | .more t => Always P t rest
      | .done _ => Always P m.start rest
      | .reject => True

theorem always_of_forall (always : ∀ s a, P s a) (s : S) (xs : List A) : m.Always P s xs := by
  induction xs generalizing s with
  | nil => trivial
  | cons a rest ih =>
    rw [Always]
    refine ⟨always s a, ?_⟩
    cases m.feed s a with
    | more t => exact ih t
    | done v => exact ih m.start
    | reject => trivial

theorem always_iff (s : S) (xs : List A) :
    m.Always P s xs ↔ m.Throughout P s xs ∧
      ∀ v used, m.scan s xs = .done v used → m.Always P m.start (xs.drop used) := by
  induction xs generalizing s with
  | nil => simp [Always, Throughout]
  | cons a rest ih =>
    rw [Always, throughout_cons, scan_cons, and_assoc]
    refine and_congr_right fun _ => ?_
    cases m.feed s a with
    | more t =>
      simp only [onward_more, resume_more, ih t]
      refine and_congr_right fun _ => ?_
      cases m.scan t rest <;> simp
    | done v => simp [Onward]
    | reject => simp [Onward]

end Throughout

/-- Reading `xs` from the state `s` has the effect `progress`, whatever follows. -/
def Yields (s : S) (xs : List A) (progress : Progress S V) : Prop :=
  ∀ rest, m.scan s (xs ++ rest) = m.resume progress xs.length rest

section Yields
variable {m} {s t : S} {xs ys : List A} {progress : Progress S V}

theorem Yields.nil (s : S) : m.Yields s [] (.more s) := by
  intro rest
  simp

theorem Yields.one {a : A} (step : m.feed s a = progress) : m.Yields s [a] progress := by
  intro rest
  rw [List.singleton_append, m.scan_cons, step]
  rfl

theorem Yields.append (first : m.Yields s xs (.more t)) (second : m.Yields t ys progress) :
    m.Yields s (xs ++ ys) progress := by
  intro rest
  rw [List.append_assoc, first, m.resume_more, second, m.resume_shift, List.length_append,
    Nat.add_comm]

theorem Yields.cons {a : A} (step : m.feed s a = .more t) (second : m.Yields t xs progress) :
    m.Yields s (a :: xs) progress :=
  (Yields.one step).append second

theorem Yields.done {v : V} (whole : m.Yields s xs (.done v)) (rest : List A) :
    m.scan s (xs ++ rest) = .done v xs.length := whole rest

theorem Yields.exact {v : V} (whole : m.Yields s xs (.done v)) :
    m.scan s xs = .done v xs.length := by
  simpa using whole []

theorem Yields.pending {v : V} (whole : m.Yields s xs (.done v)) {first : List A}
    (part : first <+: xs) (proper : first ≠ xs) : ∃ t, m.scan s first = .pending t := by
  obtain ⟨rest, rfl⟩ := part
  apply m.scan_prefix_pending whole.exact
  rintro rfl
  exact proper (List.append_nil first).symm

end Yields

/-- Read item after item to the end of the sequence or to the first rejected symbol. -/
def consume : S → List A → Consumed S V
  | s, [] => ⟨[], .waiting s⟩
  | s, a :: rest =>
    match m.feed s a with
    | .more t => ⟨(consume t rest).items, (consume t rest).status.shift 1⟩
    | .done v => ⟨v :: (consume m.start rest).items, (consume m.start rest).status.shift 1⟩
    | .reject => ⟨[], .rejected 1⟩

@[simp] theorem consume_nil (s : S) : m.consume s [] = ⟨[], .waiting s⟩ := rfl

theorem consume_eq_scan (s : S) (xs : List A) :
    m.consume s xs =
      match m.scan s xs with
      | .pending t => ⟨[], .waiting t⟩
      | .done v used =>
          ⟨v :: (m.consume m.start (xs.drop used)).items,
            (m.consume m.start (xs.drop used)).status.shift used⟩
      | .rejected used => ⟨[], .rejected used⟩ := by
  induction xs generalizing s with
  | nil => rfl
  | cons a rest ih =>
    simp only [consume, scan]
    cases m.feed s a with
    | more t =>
      simp only [ih t]
      cases m.scan t rest <;> simp
    | done v => simp
    | reject => rfl

theorem consume_append (s : S) (first rest : List A) :
    m.consume s (first ++ rest) =
      (m.consume s first).andThen first.length fun t => m.consume t rest := by
  induction first generalizing s with
  | nil => simp [Consumed.andThen]
  | cons a first ih =>
    simp only [List.cons_append, consume, List.length_cons]
    cases m.feed s a with
    | more t =>
      simp only [ih t, Consumed.andThen]
      cases (m.consume t first).status <;> simp
    | done v =>
      simp only [ih m.start, Consumed.andThen]
      cases (m.consume m.start first).status <;> simp
    | reject => rfl

theorem consume_append_waiting {s t : S} {first : List A} {items : List V}
    (head : m.consume s first = ⟨items, .waiting t⟩) (rest : List A) :
    m.consume s (first ++ rest) =
      ⟨items ++ (m.consume t rest).items, (m.consume t rest).status.shift first.length⟩ := by
  simp only [consume_append, head, Consumed.andThen]

theorem consume_of_pending {s t : S} {xs : List A} (pending : m.scan s xs = .pending t)
    (rest : List A) :
    m.consume s (xs ++ rest) =
      ⟨(m.consume t rest).items, (m.consume t rest).status.shift xs.length⟩ := by
  have head : m.consume s xs = ⟨[], .waiting t⟩ := by rw [consume_eq_scan, pending]
  rw [m.consume_append_waiting head, List.nil_append]

theorem consume_of_done {s : S} {xs : List A} {v : V} {used : Nat}
    (done : m.scan s xs = .done v used) (rest : List A) :
    m.consume s (xs ++ rest) =
      ⟨v :: (m.consume m.start (xs.drop used ++ rest)).items,
        (m.consume m.start (xs.drop used ++ rest)).status.shift used⟩ := by
  rw [consume_eq_scan, scan_append, done]
  dsimp only
  rw [List.drop_append_of_le_length (m.scan_done_bounds done).2]

theorem consume_of_rejected {s : S} {xs : List A} {used : Nat}
    (rejected : m.scan s xs = .rejected used) (rest : List A) :
    m.consume s (xs ++ rest) = ⟨[], .rejected used⟩ := by
  rw [consume_eq_scan, scan_append, rejected]

theorem consume_item {s : S} {xs : List A} {v : V}
    (done : m.scan s xs = .done v xs.length) (rest : List A) :
    m.consume s (xs ++ rest) =
      ⟨v :: (m.consume m.start rest).items, (m.consume m.start rest).status.shift xs.length⟩ := by
  have whole : m.scan s (xs ++ rest) = .done v xs.length := by simp only [scan_append, done]
  simp only [consume_eq_scan m s (xs ++ rest), whole, List.drop_left]

theorem consume_exact {s : S} {xs : List A} {v : V}
    (done : m.scan s xs = .done v xs.length) : m.consume s xs = ⟨[v], .waiting m.start⟩ := by
  simpa using m.consume_item done []

theorem consume_items {I : Type} (encode : I → List A) (value : I → V)
    (exact : ∀ i, m.scan m.start (encode i) = .done (value i) (encode i).length)
    (items : List I) :
    m.consume m.start (items.flatMap encode) = ⟨items.map value, .waiting m.start⟩ := by
  induction items with
  | nil => rfl
  | cons i rest ih =>
    simp only [List.flatMap_cons, m.consume_item (exact i), ih, List.map_cons, Status.shift_waiting]

end Machine

end Pinocchio.Semantics
