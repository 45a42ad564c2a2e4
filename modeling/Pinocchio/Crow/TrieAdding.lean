import Mathlib.Data.List.Nodup
import Pinocchio.Crow.TrieMerging
import Pinocchio.Semantics.History

/-! Adding a rule.

Before nodes are merged, the nodes are the beginnings of the patterns that were added, and a node is
found by its own beginning. So a rule is added to the rules that are there, and refused when there is
one of the same pattern.
-/

set_option autoImplicit false

namespace Pinocchio.Crow
open Semantics

namespace Trie

/-- The pattern of a rule, where `skip` counts the characters of a parameter that are still before
the text. There is none if no tag begins at a `<`. -/
def patternOf : Nat → Bytes → Option RulePattern
  | _, [] => some []
  | skip + 1, _ :: url => patternOf skip url
  | 0, c :: url =>
    if c = opening then
      match paramTraits.find? fun x => x.2.isPrefixOf (c :: url) with
      | some x => (patternOf (x.2.length - 1) url).map (.hole x.1 :: ·)
      | none => none
    else (patternOf 0 url).map (.symbol c :: ·)

def Edge (trie : Trie) (idx : Nat) : Piece UInt8 ParamType → Nat → Prop
  | .hole t, child => (trie.node idx).paramChildrens t = child ∧ child ≠ 0
  | .symbol c, child => ([c], child) ∈ (trie.node idx).children

/-- The nodes of a trie before any merge, by the way to each of them. -/
structure Labelled (trie : Trie) (labels : List RulePattern) : Prop where
  length_eq : labels.length = trie.length
  nodup : labels.Nodup
  root : labels[0]? = some []
  edges : ∀ (i k : Nat) (p : RulePattern) (a : Piece UInt8 ParamType), labels[i]? = some p →
    (Edge trie i a k ↔ labels[k]? = some (p ++ [a]))
  later : ∀ (i k : Nat) (p : RulePattern) (a : Piece UInt8 ParamType), labels[i]? = some p →
    labels[k]? = some (p ++ [a]) → i < k
  closed : ∀ (k : Nat) (p : RulePattern) (a : Piece UInt8 ParamType),
    labels[k]? = some (p ++ [a]) → p ∈ labels
  single : ∀ i, ∀ kv ∈ (trie.node i).children, ∃ c : UInt8, kv.1 = [c]
  apart : ∀ i, (trie.node i).children.Pairwise Apart

def HasRule (trie : Trie) (labels : List RulePattern) (p : RulePattern) (ruleIndex : Nat) : Prop :=
  ∃ k, labels[k]? = some p ∧ (trie.node k).ruleIndex = ruleIndex ∧ ruleIndex ≠ 0

section
variable {trie : Trie} {labels : List RulePattern} {p q : RulePattern} {idx ruleIndex : Nat}

theorem Labelled.place_unique (labelled : Labelled trie labels) {i k : Nat}
    (here : labels[i]? = some p) (there : labels[k]? = some p) : i = k := by
  obtain ⟨inside, rfl⟩ := List.getElem?_eq_some_iff.mp here
  obtain ⟨within, same⟩ := List.getElem?_eq_some_iff.mp there
  exact (labelled.nodup.getElem_inj_iff.mp same).symm

theorem Labelled.labelled_of_edge (labelled : Labelled trie labels) {i : Nat}
    (inside : i < trie.length) : ∃ p, labels[i]? = some p :=
  ⟨_, List.getElem?_eq_getElem (labelled.length_eq ▸ inside)⟩

theorem Labelled.shaped (labelled : Labelled trie labels) : Shaped trie := by
  refine ⟨fun i t child => ?_, fun i kv child => ?_, labelled.apart⟩
  · have inside : i < trie.length := by
      by_contra past
      rw [node_of_length_le (Nat.le_of_not_lt past)] at child
      exact child rfl
    obtain ⟨p, here⟩ := labelled.labelled_of_edge inside
    have there := (labelled.edges i _ p (.hole t) here).mp ⟨rfl, child⟩
    exact ⟨labelled.later i _ p _ here there,
      labelled.length_eq ▸ (List.getElem?_eq_some_iff.mp there).1⟩
  · obtain ⟨c, single⟩ := labelled.single i kv child
    obtain ⟨p, here⟩ := labelled.labelled_of_edge (lt_length_of_children child)
    have edge : Edge trie i (.symbol c) kv.2 := by
      rw [Edge, ← single]
      exact child
    have there := (labelled.edges i kv.2 p (.symbol c) here).mp edge
    refine ⟨by simp [single], labelled.later i _ p _ here there, ?_⟩
    exact labelled.length_eq ▸ (List.getElem?_eq_some_iff.mp there).1

theorem Labelled.prefix_mem (labelled : Labelled trie labels) {rest : RulePattern}
    (member : p ++ rest ∈ labels) : p ∈ labels := by
  induction rest using List.reverseRecOn with
  | nil => simpa using member
  | append_singleton rest a ih =>
    obtain ⟨k, here⟩ := List.mem_iff_getElem?.mp member
    rw [← List.append_assoc] at here
    exact ih (labelled.closed k _ a here)

theorem Labelled.leads_iff (labelled : Labelled trie labels) (here : labels[idx]? = some q) :
    Leads trie idx p ruleIndex ↔ HasRule trie labels (q ++ p) ruleIndex := by
  constructor
  · intro leads
    induction leads generalizing q with
    | here rule => exact ⟨_, by simpa using here, rfl, rule⟩
    | @param i ruleIndex t p child below ih =>
      have there := (labelled.edges i _ q (.hole t) here).mp ⟨rfl, child⟩
      simpa using ih there
    | @fragment i ruleIndex kv p child below ih =>
      obtain ⟨c, single⟩ := labelled.single i kv child
      have edge : Edge trie i (.symbol c) kv.2 := by
        rw [Edge, ← single]
        exact child
      have there := (labelled.edges i kv.2 q (.symbol c) here).mp edge
      simpa [single] using ih there
  · induction p generalizing idx q with
    | nil =>
      rintro ⟨k, there, rfl, some⟩
      rw [List.append_nil] at there
      obtain rfl := labelled.place_unique here there
      exact .here some
    | cons a p ih =>
      intro rule
      have further : q ++ a :: p = (q ++ [a]) ++ p := by simp
      rw [further] at rule
      have member : q ++ [a] ++ p ∈ labels := by
        obtain ⟨k, there, _⟩ := rule
        exact List.mem_of_getElem? there
      obtain ⟨j, next⟩ := List.mem_iff_getElem?.mp (labelled.prefix_mem member)
      have below := ih next rule
      have edge := (labelled.edges idx j q a here).mpr next
      cases a with
      | hole t =>
        obtain ⟨rfl, some⟩ := edge
        exact .param some below
      | symbol c => exact .fragment edge below

theorem Labelled.leads_root (labelled : Labelled trie labels) :
    Leads trie 0 p ruleIndex ↔ HasRule trie labels p ruleIndex :=
  labelled.leads_iff labelled.root

/-! ## A new node -/

/-- A trie with one more node, at the end of an edge. -/
structure Extends (trie after : Trie) (idx : Nat) (a : Piece UInt8 ParamType) : Prop where
  length_eq : after.length = trie.length + 1
  edges : ∀ i b k, Edge after i b k ↔ Edge trie i b k ∨ i = idx ∧ b = a ∧ k = trie.length
  rules : ∀ i, (after.node i).ruleIndex = (trie.node i).ruleIndex
  single : ∀ i, ∀ kv ∈ (after.node i).children, ∃ c : UInt8, kv.1 = [c]
  apart : ∀ i, (after.node i).children.Pairwise Apart

theorem edge_past {i k : Nat} {b : Piece UInt8 ParamType} (past : trie.length ≤ i) :
    ¬Edge trie i b k := by
  cases b with
  | hole t =>
    rintro ⟨child, some⟩
    rw [node_of_length_le past] at child
    exact some child.symm
  | symbol c =>
    intro child
    rw [Edge, node_of_length_le past] at child
    exact absurd child List.not_mem_nil

theorem Extends.labelled {after : Trie} {a : Piece UInt8 ParamType} (step : Extends trie after idx a)
    (labelled : Labelled trie labels) (here : labels[idx]? = some q)
    (new : ∀ k, ¬Edge trie idx a k) :
    Labelled after (labels ++ [q ++ [a]]) ∧
      (labels ++ [q ++ [a]])[trie.length]? = some (q ++ [a]) ∧
      ∀ p ruleIndex, HasRule after (labels ++ [q ++ [a]]) p ruleIndex ↔
        HasRule trie labels p ruleIndex := by
  have absent : q ++ [a] ∉ labels := by
    intro member
    obtain ⟨k, there⟩ := List.mem_iff_getElem?.mp member
    exact new k ((labelled.edges idx k q a here).mpr there)
  have last : (labels ++ [q ++ [a]])[trie.length]? = some (q ++ [a]) := by
    rw [← labelled.length_eq]
    exact List.getElem?_concat_length
  have old {k : Nat} {p : RulePattern} (there : (labels ++ [q ++ [a]])[k]? = some p) :
      labels[k]? = some p ∨ k = trie.length ∧ p = q ++ [a] := by
    rw [← labelled.length_eq]
    exact getElem?_grow_one there
  -- Nothing is behind the new node.
  have leaf {k : Nat} {b : Piece UInt8 ParamType} :
      (labels ++ [q ++ [a]])[k]? ≠ some (q ++ [a] ++ [b]) := by
    intro there
    rcases old there with there | ⟨_, same⟩
    · exact absent (labelled.closed k _ b there)
    · simpa using congrArg List.length same
  refine ⟨⟨?_, ?_, getElem?_grow labelled.root _, ?_, ?_, ?_, step.single, step.apart⟩, last, ?_⟩
  · rw [List.length_append, labelled.length_eq, step.length_eq]
    rfl
  · exact List.nodup_append.mpr ⟨labelled.nodup, List.nodup_singleton _,
      fun p member other single same => absent (List.mem_singleton.mp single ▸ same ▸ member)⟩
  · intro i k p b place
    rw [step.edges]
    rcases old place with known | ⟨rfl, rfl⟩
    · rw [labelled.edges i k p b known]
      constructor
      · rintro (there | ⟨rfl, rfl, rfl⟩)
        · exact getElem?_grow there _
        · cases here.symm.trans known
          exact last
      · intro there
        rcases old there with there | ⟨rfl, whole⟩
        · exact Or.inl there
        · obtain ⟨rfl, ends⟩ := List.append_inj' whole rfl
          cases ends
          exact Or.inr ⟨labelled.place_unique known here, rfl, rfl⟩
    · have below : idx < trie.length :=
        labelled.length_eq ▸ (List.getElem?_eq_some_iff.mp here).1
      constructor
      · rintro (edge | ⟨same, _⟩)
        · exact absurd edge (edge_past le_rfl)
        · omega
      · exact fun there => absurd there leaf
  · intro i k p b place there
    rcases old place with place | ⟨rfl, rfl⟩
    · rcases old there with there | ⟨rfl, _⟩
      · exact labelled.later i k p b place there
      · exact labelled.length_eq ▸ (List.getElem?_eq_some_iff.mp place).1
    · exact absurd there leaf
  · intro k p b there
    rcases old there with there | ⟨_, same⟩
    · exact List.mem_append_left _ (labelled.closed k p b there)
    · obtain ⟨rfl, _⟩ := List.append_inj' same rfl
      exact List.mem_append_left _ (List.mem_of_getElem? here)
  · intro p ruleIndex
    constructor
    · rintro ⟨k, there, rule, some⟩
      rw [step.rules] at rule
      rcases old there with there | ⟨rfl, _⟩
      · exact ⟨k, there, rule, some⟩
      · rw [node_of_length_le le_rfl] at rule
        exact absurd rule.symm some
    · rintro ⟨k, there, rule, some⟩
      exact ⟨k, getElem?_grow there _, (step.rules k).trans rule, some⟩

theorem node_newNode (i : Nat) : trie.newNode.node i = trie.node i := by
  unfold node newNode
  rcases Nat.lt_or_ge i trie.length with inside | past
  · rw [List.getElem?_append_left inside]
  · rw [List.getElem?_eq_none past, List.getElem?_append_right past]
    cases i - trie.length <;> simp

theorem node_set_newNode (inside : idx < trie.length) (node : Node) (i : Nat) :
    Trie.node (trie.newNode.set idx node) i = if i = idx then node else trie.node i := by
  have within : idx < trie.newNode.length := by
    rw [newNode, List.length_append]
    omega
  rw [node_set, node_newNode]
  simp [within]

/-- What making a child comes to: a child at the end of the edge, and no rule more or less. -/
def Made (trie : Trie) (labels : List RulePattern) (q : RulePattern) (a : Piece UInt8 ParamType)
    (next : Trie × Nat) : Prop :=
  ∃ labels', Labelled next.1 labels' ∧ labels'[next.2]? = some (q ++ [a]) ∧
    (∀ p ∈ labels', p ∈ labels ∨ p = q ++ [a]) ∧
    ∀ p ruleIndex, HasRule next.1 labels' p ruleIndex ↔ HasRule trie labels p ruleIndex

theorem Labelled.made (labelled : Labelled trie labels) (here : labels[idx]? = some q)
    {a : Piece UInt8 ParamType} {k : Nat} (edge : Edge trie idx a k) :
    Made trie labels q a (trie, k) :=
  ⟨labels, labelled, (labelled.edges idx k q a here).mp edge, fun _ => Or.inl, fun _ _ => Iff.rfl⟩

theorem Extends.made {after : Trie} {a : Piece UInt8 ParamType} (step : Extends trie after idx a)
    (labelled : Labelled trie labels) (here : labels[idx]? = some q)
    (new : ∀ k, ¬Edge trie idx a k) : Made trie labels q a (after, trie.length) := by
  obtain ⟨labelled', there, rules⟩ := step.labelled labelled here new
  exact ⟨_, labelled', there, fun p member => by simpa using member, rules⟩

theorem paramChild_made (labelled : Labelled trie labels) (here : labels[idx]? = some q)
    (t : ParamType) : Made trie labels q (.hole t) (trie.paramChild idx t) := by
  have inside : idx < trie.length := labelled.length_eq ▸ (List.getElem?_eq_some_iff.mp here).1
  unfold paramChild
  simp only []
  split
  · rename_i none
    have step : Extends trie (trie.newNode.set idx { trie.node idx with paramChildrens := fun other =>
        if other = t then trie.length else (trie.node idx).paramChildrens other }) idx (.hole t) := by
      refine ⟨by simp [newNode], fun i b k => ?_, fun i => ?_, fun i kv member => ?_, fun i => ?_⟩
      · unfold Edge
        rw [node_set_newNode inside]
        cases b with
        | symbol c =>
          by_cases same : i = idx
          · subst same
            simp
          · simp [same]
        | hole s =>
          by_cases same : i = idx
          · subst same
            by_cases this : s = t
            · subst this
              simp only [if_true, true_and, none]
              constructor
              · rintro ⟨rfl, _⟩
                exact Or.inr rfl
              · rintro (⟨rfl, some⟩ | rfl)
                · exact absurd rfl some
                · exact ⟨rfl, by omega⟩
            · simp [this]
          · simp [same]
      · rw [node_set_newNode inside]
        split
        · rename_i same
          rw [same]
        · rfl
      · rw [node_set_newNode inside] at member
        split at member
        · exact labelled.single idx kv member
        · exact labelled.single i kv member
      · rw [node_set_newNode inside]
        split
        · exact labelled.apart idx
        · exact labelled.apart i
    have new (k : Nat) : ¬Edge trie idx (.hole t) k := by
      rintro ⟨rfl, some⟩
      exact some none
    exact step.made labelled here new
  · rename_i some
    exact labelled.made here ⟨rfl, some⟩

theorem lookup_some {map : List (Bytes × Nat)} {key : Bytes} {value : Nat}
    (found : map.lookup key = some value) : (key, value) ∈ map := by
  obtain ⟨front, rest, rfl, _⟩ := List.lookup_eq_some_iff.mp found
  simp

theorem pieceChild_made (labelled : Labelled trie labels) (here : labels[idx]? = some q)
    (c : UInt8) : Made trie labels q (.symbol c) (trie.pieceChild idx c) := by
  have inside : idx < trie.length := labelled.length_eq ▸ (List.getElem?_eq_some_iff.mp here).1
  unfold pieceChild
  simp only []
  split
  · rename_i child found
    exact labelled.made here (lookup_some found)
  · rename_i none
    have new (k : Nat) : ¬Edge trie idx (.symbol c) k := fun edge => by
      have differs := List.lookup_eq_none_iff.mp none ([c], k) edge
      simp at differs
    have step : Extends trie (trie.newNode.set idx { trie.node idx with children :=
        (trie.node idx).children ++ [([c], trie.length)] }) idx (.symbol c) := by
      refine ⟨by simp [newNode], fun i b k => ?_, fun i => ?_, fun i kv member => ?_, fun i => ?_⟩
      · unfold Edge
        rw [node_set_newNode inside]
        cases b with
        | hole t =>
          by_cases same : i = idx
          · subst same
            simp
          · simp [same]
        | symbol d =>
          by_cases same : i = idx
          · subst same
            simp
          · simp [same]
      · rw [node_set_newNode inside]
        split
        · rename_i same
          rw [same]
        · rfl
      · rw [node_set_newNode inside] at member
        split at member
        · rcases List.mem_append.mp member with old | fresh
          · exact labelled.single idx kv old
          · exact ⟨c, by rw [List.mem_singleton.mp fresh]⟩
        · exact labelled.single i kv member
      · rw [node_set_newNode inside]
        split
        · refine List.pairwise_append.mpr ⟨labelled.apart idx, List.pairwise_singleton _ _, ?_⟩
          intro kv old fresh member
          obtain ⟨d, single⟩ := labelled.single idx kv old
          have differs := List.lookup_eq_none_iff.mp none kv old
          obtain rfl := List.mem_singleton.mp member
          rw [single] at differs
          have other : d ≠ c := by
            rintro rfl
            simp at differs
          exact ⟨by simp [single, other], by simp [single, Ne.symm other]⟩
        · exact labelled.apart i
    exact step.made labelled here new

/-! ## The whole rule -/

theorem Labelled.set_rule (labelled : Labelled trie labels) (here : labels[idx]? = some q)
    (free : (trie.node idx).ruleIndex = 0) (given : ruleIndex ≠ 0) :
    Labelled (trie.set idx { trie.node idx with ruleIndex }) labels ∧
      ∀ p r, HasRule (trie.set idx { trie.node idx with ruleIndex }) labels p r ↔
        HasRule trie labels p r ∨ p = q ∧ r = ruleIndex := by
  have inside : idx < trie.length := labelled.length_eq ▸ (List.getElem?_eq_some_iff.mp here).1
  have rest (i : Nat) :
      (Trie.node (trie.set idx { trie.node idx with ruleIndex }) i).paramChildrens =
          (trie.node i).paramChildrens ∧
        (Trie.node (trie.set idx { trie.node idx with ruleIndex }) i).children =
          (trie.node i).children := by
    rw [node_set]
    split
    · rename_i same
      rw [same.1]
      exact ⟨rfl, rfl⟩
    · exact ⟨rfl, rfl⟩
  have edges (i k : Nat) (a : Piece UInt8 ParamType) :
      Edge (trie.set idx { trie.node idx with ruleIndex }) i a k ↔ Edge trie i a k := by
    cases a with
    | hole t => rw [Edge, Edge, (rest i).1]
    | symbol c => rw [Edge, Edge, (rest i).2]
  refine ⟨⟨?_, labelled.nodup, labelled.root, fun i k p a place => ?_, labelled.later,
    labelled.closed, fun i => ?_, fun i => ?_⟩, fun p r => ⟨?_, ?_⟩⟩
  · rw [List.length_set]
    exact labelled.length_eq
  · exact (edges i k a).trans (labelled.edges i k p a place)
  · rw [(rest i).2]
    exact labelled.single i
  · rw [(rest i).2]
    exact labelled.apart i
  · rintro ⟨k, there, rule, some⟩
    rw [node_set] at rule
    split at rule
    · rename_i same
      rw [same.1] at there
      exact Or.inr ⟨Option.some.inj (there.symm.trans here), rule.symm⟩
    · exact Or.inl ⟨k, there, rule, some⟩
  · rintro (⟨k, there, rule, some⟩ | ⟨rfl, rfl⟩)
    · refine ⟨k, there, ?_, some⟩
      rw [node_set, if_neg, rule]
      rintro ⟨rfl, _⟩
      exact some (rule.symm.trans free)
    · exact ⟨idx, here, by rw [node_set, if_pos ⟨rfl, inside⟩], given⟩

/-- What adding a rule comes to: the rules with one more, and no node off the way to it, unless there
is one of its pattern. -/
def Adds (trie : Trie) (labels : List RulePattern) (p : RulePattern) (ruleIndex : Nat)
    (result : Except AddError Trie) : Prop :=
  (result = .error .exists ∧ ∃ r, HasRule trie labels p r) ∨
    (¬∃ r, HasRule trie labels p r) ∧ ∃ after labels', result = .ok after ∧
      Labelled after labels' ∧ (∀ p' ∈ labels', p' ∈ labels ∨ p' <+: p) ∧
        ∀ p' r, HasRule after labels' p' r ↔ HasRule trie labels p' r ∨ p' = p ∧ r = ruleIndex

theorem Adds.of_made {a : Piece UInt8 ParamType} {next : Trie × Nat}
    {result : Except AddError Trie} (made : Made trie labels q a next)
    (below : ∀ labels', Labelled next.1 labels' → labels'[next.2]? = some (q ++ [a]) →
      Adds next.1 labels' (q ++ [a] ++ p) ruleIndex result) :
    Adds trie labels (q ++ a :: p) ruleIndex result := by
  obtain ⟨labels', labelled, there, known, same⟩ := made
  have whole : q ++ [a] ++ p = q ++ a :: p := by simp
  have adds := below labels' labelled there
  rw [whole] at adds
  rcases adds with ⟨refused, r, rule⟩ | ⟨free, after, labels'', called, labelled', ways, rules⟩
  · exact Or.inl ⟨refused, r, (same _ _).mp rule⟩
  refine Or.inr ⟨?_, after, labels'', called, labelled', fun p' member => ?_, fun p' r => ?_⟩
  · rintro ⟨r, rule⟩
    exact free ⟨r, (same _ _).mpr rule⟩
  · rcases ways p' member with old | way
    · exact (known p' old).imp_right fun ends => by simp [ends]
    · exact Or.inr way
  · rw [rules, same]

theorem add_adds (given : ruleIndex ≠ 0) (url : Bytes) {trie : Trie} {labels : List RulePattern}
    (labelled : Labelled trie labels) {idx : Nat} {q : RulePattern} (here : labels[idx]? = some q)
    {skip : Nat} {p : RulePattern} (pattern : patternOf skip url = some p) :
    Adds trie labels (q ++ p) ruleIndex (trie.add ruleIndex idx skip url) := by
  induction url generalizing trie labels idx q skip p with
  | nil =>
    simp only [patternOf, Option.some.injEq] at pattern
    subst pattern
    rw [List.append_nil, add]
    split
    · rename_i free
      obtain ⟨labelled', rules⟩ := labelled.set_rule here free given
      refine Or.inr ⟨?_, _, labels, rfl, labelled', fun _ => Or.inl, rules⟩
      rintro ⟨r, k, there, rule, some⟩
      obtain rfl := labelled.place_unique here there
      exact some (rule.symm.trans free)
    · rename_i taken
      exact Or.inl ⟨rfl, _, idx, here, rfl, taken⟩
  | cons c url ih =>
    cases skip with
    | succ skip =>
      rw [patternOf] at pattern
      rw [add]
      exact ih labelled here pattern
    | zero =>
      rw [patternOf] at pattern
      rw [add]
      split at pattern
      · rename_i tag
        rw [if_pos tag]
        cases found : paramTraits.find? fun x => x.2.isPrefixOf (c :: url) with
        | none => simp [found] at pattern
        | some x =>
          simp only [found, Option.map_eq_some_iff] at pattern
          obtain ⟨rest, pattern, rfl⟩ := pattern
          exact Adds.of_made (paramChild_made labelled here x.1)
            fun labels' labelled' there => ih labelled' there pattern
      · rename_i plain
        rw [if_neg plain]
        simp only [Option.map_eq_some_iff] at pattern
        obtain ⟨rest, pattern, rfl⟩ := pattern
        exact Adds.of_made (pieceChild_made labelled here c)
          fun labels' labelled' there => ih labelled' there pattern

/-- Where no tag begins at a `<`, adding the rule does not come to an end. -/
theorem add_loops (url : Bytes) {trie : Trie} {idx skip : Nat} (none : patternOf skip url = .none) :
    trie.add ruleIndex idx skip url = .error .loops := by
  induction url generalizing trie idx skip with
  | nil => cases none
  | cons c url ih =>
    cases skip with
    | succ skip =>
      rw [patternOf] at none
      rw [add]
      exact ih none
    | zero =>
      rw [patternOf] at none
      rw [add]
      split at none
      · rename_i tag
        rw [if_pos tag]
        cases found : paramTraits.find? fun x => x.2.isPrefixOf (c :: url) with
        | none => rfl
        | some x =>
          simp only [found, Option.map_eq_none_iff] at none
          exact ih none
      · rename_i plain
        rw [if_neg plain]
        exact ih (Option.map_eq_none_iff.mp none)

end

end Trie

end Pinocchio.Crow
