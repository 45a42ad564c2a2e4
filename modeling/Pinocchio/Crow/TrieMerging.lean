import Mathlib.Data.List.Nodup
import Pinocchio.Crow.TrieSearch

/-! Merging levels of nodes that hold nothing.

A node whose children hold nothing takes over their children, with longer fragments. Neither it nor
any other node then leads elsewhere, so a search finds the same. The work comes to an end: a merge
moves the children of its node towards the end of the vector.
-/

set_option autoImplicit false

namespace Pinocchio.Crow
open Semantics

namespace Trie
variable {walk : Walk} {trie : Trie} {idx : Nat}

theorem node_of_length_le (past : trie.length ≤ idx) : trie.node idx = {} := by
  rw [node, List.getElem?_eq_none past]
  rfl

theorem node_set (i : Nat) (node : Node) :
    Trie.node (trie.set idx node) i = if i = idx ∧ idx < trie.length then node else trie.node i := by
  unfold Trie.node
  rw [List.getElem?_set]
  by_cases same : idx = i
  · subst same
    by_cases inside : idx < trie.length
    · simp [inside]
    · simp [inside]
  · simp [same, Ne.symm same]

theorem lt_length_of_children {kv : Bytes × Nat} (child : kv ∈ (trie.node idx).children) :
    idx < trie.length := by
  by_contra past
  rw [node_of_length_le (Nat.le_of_not_lt past)] at child
  exact absurd child List.not_mem_nil

/-! ## What is merged -/

theorem assign_new {map : List (Bytes × Nat)} {key : Bytes} (value : Nat)
    (new : ∀ kv ∈ map, kv.1 ≠ key) : assign map key value = map ++ [(key, value)] := by
  refine if_neg fun found => ?_
  obtain ⟨kv, member, same⟩ := List.any_eq_true.mp found
  exact new kv member (of_decide_eq_true same)

theorem foldl_assign {pairs map : List (Bytes × Nat)} (apart : (map ++ pairs).Pairwise Apart) :
    pairs.foldl (fun map kv => assign map kv.1 kv.2) map = map ++ pairs := by
  induction pairs generalizing map with
  | nil => simp
  | cons kv pairs ih =>
    have new : ∀ old ∈ map, old.1 ≠ kv.1 := fun old member same =>
      ((List.pairwise_append.mp apart).2.2 old member kv List.mem_cons_self).1
        (same ▸ List.prefix_refl _)
    rw [List.foldl_cons, assign_new kv.2 new]
    have apart : (map ++ [kv] ++ pairs).Pairwise Apart := by simpa using apart
    simpa using ih apart

def longer (kv child : Bytes × Nat) : Bytes × Nat := (kv.1 ++ child.1, child.2)

theorem not_prefix_of_apart {first second : Bytes × Nat} (apart : Apart first second)
    (behind rest : Bytes) : ¬first.1 ++ behind <+: second.1 ++ rest := by
  intro front
  have one : first.1 <+: second.1 ++ rest := (List.prefix_append _ _).trans front
  have two : second.1 <+: second.1 ++ rest := List.prefix_append _ _
  exact (List.prefix_or_prefix_of_prefix one two).elim apart.1 apart.2

theorem longer_apart {first second : Bytes × Nat} (apart : Apart first second)
    (child other : Bytes × Nat) : Apart (longer first child) (longer second other) :=
  ⟨not_prefix_of_apart apart _ _, not_prefix_of_apart apart.symm _ _⟩

theorem longer_apart_same {child other : Bytes × Nat} (kv : Bytes × Nat)
    (apart : Apart child other) : Apart (longer kv child) (longer kv other) :=
  ⟨fun front => apart.1 ((List.prefix_append_right_inj _).mp front),
    fun front => apart.2 ((List.prefix_append_right_inj _).mp front)⟩

def grandchildren (walk : Walk) (trie : Trie) (idx : Nat) : List (Bytes × Nat) :=
  (walk.1 (trie.node idx).children).flatMap fun kv =>
    (walk.1 (trie.node kv.2).children).map (longer kv)

theorem walk_apart (walk : Walk) (shaped : Shaped trie) (idx : Nat) :
    (walk.1 (trie.node idx).children).Pairwise Apart :=
  (walk.2 _).symm.pairwise (shaped.apart idx) Apart.symm

theorem grandchildren_apart (shaped : Shaped trie) (idx : Nat) :
    (grandchildren walk trie idx).Pairwise Apart := by
  refine List.pairwise_flatMap.mpr ⟨fun kv _ => ?_, ?_⟩
  · exact List.pairwise_map.mpr ((walk_apart walk shaped kv.2).imp (longer_apart_same kv))
  · refine (walk_apart walk shaped idx).imp fun apart first one second two => ?_
    obtain ⟨child, _, rfl⟩ := List.mem_map.mp one
    obtain ⟨other, _, rfl⟩ := List.mem_map.mp two
    exact longer_apart apart child other

theorem merged_eq (shaped : Shaped trie) (idx : Nat) :
    trie.merged walk (trie.node idx) = grandchildren walk trie idx := by
  calc trie.merged walk (trie.node idx)
      = (grandchildren walk trie idx).foldl (fun map kv => assign map kv.1 kv.2) [] := by
        simp only [merged, grandchildren, List.foldl_flatMap, List.foldl_map, longer]
    _ = grandchildren walk trie idx := foldl_assign (grandchildren_apart shaped idx)

theorem mem_grandchildren {entry : Bytes × Nat} :
    entry ∈ grandchildren walk trie idx ↔ ∃ kv ∈ (trie.node idx).children,
      ∃ child ∈ (trie.node kv.2).children, entry = longer kv child := by
  simp only [grandchildren, List.mem_flatMap, List.mem_map, (walk.2 _).mem_iff]
  exact exists_congr fun kv => and_congr_right fun _ =>
    exists_congr fun child => and_congr_right fun _ => eq_comm

/-! ## One merge -/

/-- All fragments of a node lead to places from `b` on. -/
def FragmentsFrom (trie : Trie) (idx b : Nat) : Prop := ∀ kv ∈ (trie.node idx).children, b ≤ kv.2

/-- What merging nodes keeps. -/
structure Merges (trie after : Trie) : Prop where
  shaped : Shaped after
  length_eq : after.length = trie.length
  rules : ∀ i, (after.node i).ruleIndex = (trie.node i).ruleIndex
  params : ∀ i, (after.node i).paramChildrens = (trie.node i).paramChildrens
  leads : ∀ i p ruleIndex, Leads after i p ruleIndex ↔ Leads trie i p ruleIndex
  from_le : ∀ i b, FragmentsFrom trie i b → FragmentsFrom after i b

theorem Merges.refl (shaped : Shaped trie) : Merges trie trie :=
  ⟨shaped, rfl, fun _ => rfl, fun _ => rfl, fun _ _ _ => Iff.rfl, fun _ _ h => h⟩

theorem Merges.trans {after last : Trie} (first : Merges trie after) (second : Merges after last) :
    Merges trie last where
  shaped := second.shaped
  length_eq := second.length_eq.trans first.length_eq
  rules i := (second.rules i).trans (first.rules i)
  params i := (second.params i).trans (first.params i)
  leads i p ruleIndex := (second.leads i p ruleIndex).trans (first.leads i p ruleIndex)
  from_le i b low := second.from_le i b (first.from_le i b low)

/-- The trie after a node has taken over the children of its children. -/
def lift (walk : Walk) (trie : Trie) (idx : Nat) : Trie :=
  trie.set idx { trie.node idx with children := grandchildren walk trie idx }

section
variable (inside : idx < trie.length)
include inside

theorem lift_node (i : Nat) : (lift walk trie idx).node i =
    if i = idx then { trie.node idx with children := grandchildren walk trie idx }
    else trie.node i := by
  rw [lift, node_set]
  simp [inside]

theorem lift_keeps (i : Nat) :
    ((lift walk trie idx).node i).ruleIndex = (trie.node i).ruleIndex ∧
      ((lift walk trie idx).node i).paramChildrens = (trie.node i).paramChildrens := by
  rw [lift_node inside]
  split
  · rename_i same
    rw [same]
    exact ⟨rfl, rfl⟩
  · exact ⟨rfl, rfl⟩

theorem lift_leads_of_leads (simple : ∀ kv ∈ (trie.node idx).children,
      (trie.node kv.2).isSimpleNode = true) {i ruleIndex : Nat} {p : RulePattern}
    (leads : Leads trie i p ruleIndex) :
    Leads (lift walk trie idx) i p ruleIndex ∧ ((trie.node i).isSimpleNode = true →
      ∃ child ∈ (trie.node i).children, ∃ rest, p = child.1.map .symbol ++ rest ∧
        Leads (lift walk trie idx) child.2 rest ruleIndex) := by
  induction leads with
  | @here i rule =>
    refine ⟨?_, fun simple => absurd (isSimpleNode_iff.mp simple).1 rule⟩
    have same : ((lift walk trie idx).node i).ruleIndex = (trie.node i).ruleIndex :=
      (lift_keeps inside i).1
    rw [← same] at rule ⊢
    exact .here rule
  | @param i ruleIndex t p child below ih =>
    refine ⟨?_, fun simple => absurd ((isSimpleNode_iff.mp simple).2 t) child⟩
    have same : ((lift walk trie idx).node i).paramChildrens = (trie.node i).paramChildrens :=
      (lift_keeps inside i).2
    rw [← same] at child ih
    exact .param child ih.1
  | @fragment i ruleIndex kv p child below ih =>
    refine ⟨?_, fun _ => ⟨kv, child, p, rfl, ih.1⟩⟩
    by_cases same : i = idx
    · subst same
      -- The child is one that was merged, so the way goes on to one of its children.
      obtain ⟨next, member, rest, rfl, far⟩ := ih.2 (simple kv child)
      have entry : longer kv next ∈ ((lift walk trie i).node i).children := by
        rw [lift_node inside, if_pos rfl]
        exact mem_grandchildren.mpr ⟨kv, child, next, member, rfl⟩
      have whole := Leads.fragment entry far
      rwa [longer, List.map_append, List.append_assoc] at whole
    · have entry : kv ∈ ((lift walk trie idx).node i).children := by
        rwa [lift_node inside, if_neg same]
      exact .fragment entry ih.1

theorem leads_of_lift_leads {i ruleIndex : Nat} {p : RulePattern}
    (leads : Leads (lift walk trie idx) i p ruleIndex) : Leads trie i p ruleIndex := by
  induction leads with
  | @here i rule =>
    rw [lift_node inside] at rule ⊢
    split at rule
    · rename_i same
      subst same
      rw [if_pos rfl]
      exact .here rule
    · rename_i other
      rw [if_neg other]
      exact .here rule
  | @param i ruleIndex t p child below ih =>
    rw [lift_node inside] at child ih
    split at child
    · rename_i same
      subst same
      rw [if_pos rfl] at ih
      exact .param child ih
    · rename_i other
      rw [if_neg other] at ih
      exact .param child ih
  | @fragment i ruleIndex kv p child below ih =>
    rw [lift_node inside] at child
    split at child
    · rename_i same
      subst same
      obtain ⟨first, member, next, here, rfl⟩ := mem_grandchildren.mp child
      have whole := Leads.fragment member (Leads.fragment here ih)
      rwa [longer, List.map_append, List.append_assoc]
    · exact .fragment child ih

theorem lift_merges (shaped : Shaped trie) (simple : ∀ kv ∈ (trie.node idx).children,
    (trie.node kv.2).isSimpleNode = true) : Merges trie (lift walk trie idx) := by
  have length : (lift walk trie idx).length = trie.length := List.length_set
  refine ⟨⟨fun i t child => ?_, fun i kv child => ?_, fun i => ?_⟩, length,
    fun i => (lift_keeps inside i).1, fun i => (lift_keeps inside i).2,
    fun i p ruleIndex => ⟨leads_of_lift_leads inside,
      fun leads => (lift_leads_of_leads inside simple leads).1⟩, fun i b low kv child => ?_⟩
  · rw [(lift_keeps inside i).2] at child ⊢
    rw [length]
    exact shaped.params i t child
  · rw [lift_node inside] at child
    rw [length]
    split at child
    · rename_i same
      subst same
      obtain ⟨first, member, next, here, rfl⟩ := mem_grandchildren.mp child
      obtain ⟨some, behind, _⟩ := shaped.fragments i first member
      obtain ⟨_, later, within⟩ := shaped.fragments first.2 next here
      exact ⟨List.append_ne_nil_of_left_ne_nil some _, behind.trans later, within⟩
    · exact shaped.fragments i kv child
  · rw [lift_node inside]
    split
    · exact grandchildren_apart shaped idx
    · exact shaped.apart i
  · rw [lift_node inside] at child
    split at child
    · rename_i same
      subst same
      obtain ⟨first, member, next, here, rfl⟩ := mem_grandchildren.mp child
      have later := (shaped.fragments first.2 next here).2.1
      exact (low first member).trans later.le
    · exact low kv child

theorem lift_from (shaped : Shaped trie) {b : Nat} (low : FragmentsFrom trie idx b) :
    FragmentsFrom (lift walk trie idx) idx (b + 1) := by
  intro kv child
  rw [lift_node inside, if_pos rfl] at child
  obtain ⟨first, member, next, here, rfl⟩ := mem_grandchildren.mp child
  have later := (shaped.fragments first.2 next here).2.1
  exact Nat.succ_le_of_lt ((low first member).trans_lt later)

end

/-! ## All merges -/

theorem foldlM_merges {X : Type} (walk : Walk) (place : X → Nat) (fuel : Nat) (xs : List X)
    (shaped : Shaped trie) (each : ∀ x ∈ xs, ∀ trie' : Trie, Merges trie trie' →
      ∃ after, optimizeNode walk fuel trie' (place x) = some after ∧ Merges trie' after) :
    ∃ after, xs.foldlM (fun trie x => optimizeNode walk fuel trie (place x)) trie = some after ∧
      Merges trie after := by
  induction xs generalizing trie with
  | nil => exact ⟨trie, rfl, .refl shaped⟩
  | cons x xs ih =>
    obtain ⟨next, call, step⟩ := each x List.mem_cons_self trie (.refl shaped)
    obtain ⟨after, rest, merges⟩ := ih step.shaped fun y member trie' later =>
      each y (List.mem_cons_of_mem _ member) trie' (step.trans later)
    refine ⟨after, ?_, step.trans merges⟩
    rw [List.foldlM_cons, call]
    exact rest

/-- The calls that are still to come below a node whose fragments lead to places from `b` on. -/
def depth (length idx b : Nat) : Nat := (length - idx) * (length + 1) + (length - b)

theorem depth_child {length idx child b : Nat} (behind : idx < child) (inside : child < length) :
    depth length child (child + 1) < depth length idx b := by
  obtain ⟨k, left⟩ : ∃ k, length - idx = k + 1 := ⟨length - idx - 1, by omega⟩
  have fewer : (length - child) * (length + 1) ≤ k * (length + 1) :=
    Nat.mul_le_mul_right _ (by omega)
  unfold depth
  rw [left, Nat.add_mul, Nat.one_mul]
  omega

theorem optimizeNode_merges (fuel : Nat) {trie : Trie} {idx b : Nat} (shaped : Shaped trie)
    (low : FragmentsFrom trie idx b) (enough : depth trie.length idx b < fuel) :
    ∃ after, optimizeNode walk fuel trie idx = some after ∧ Merges trie after := by
  induction fuel generalizing trie idx b with
  | zero => exact absurd enough (Nat.not_lt_zero _)
  | succ fuel ih =>
    -- A child is further behind, in whatever trie the calls before left.
    have below {trie' : Trie} (merges : Merges trie trie') {child : Nat} (behind : idx < child)
        (inside : child < trie.length) :
        ∃ after, optimizeNode walk fuel trie' child = some after ∧ Merges trie' after := by
      refine ih (b := child + 1) merges.shaped
        (fun kv member => (merges.shaped.fragments child kv member).2.1) ?_
      rw [merges.length_eq]
      exact (depth_child behind inside).trans_le (Nat.le_of_lt_succ enough)
    obtain ⟨next, params, merges⟩ := foldlM_merges walk id fuel
      ((ParamType.all.map (trie.node idx).paramChildrens).filter (· ≠ 0)) shaped
      (fun child member trie' merges => by
        obtain ⟨from_map, some⟩ := List.mem_filter.mp member
        obtain ⟨t, _, rfl⟩ := List.mem_map.mp from_map
        obtain ⟨behind, inside⟩ := shaped.params idx t (of_decide_eq_true some)
        exact below merges behind inside)
    have first : ((ParamType.all.map (trie.node idx).paramChildrens).filter (· ≠ 0)).foldlM
        (optimizeNode walk fuel) trie = some next := params
    simp only [optimizeNode, first, Option.bind_eq_bind, Option.bind_some]
    split
    · exact ⟨next, rfl, merges⟩
    rename_i some
    obtain ⟨kv, child⟩ := List.exists_mem_of_ne_nil _ some
    have inside : idx < next.length := lt_length_of_children child
    split
    · rename_i all
      have simple : ∀ kv ∈ (next.node idx).children, (next.node kv.2).isSimpleNode = true :=
        fun kv member => List.all_eq_true.mp all kv ((walk.2 _).mem_iff.mpr member)
      have step : Merges next (lift walk next idx) := lift_merges inside merges.shaped simple
      rw [merged_eq merges.shaped]
      have last : kv.2 < trie.length :=
        merges.length_eq ▸ (merges.shaped.fragments idx kv child).2.2
      have start : b ≤ kv.2 := merges.from_le idx b low kv child
      obtain ⟨after, call, rest⟩ := ih step.shaped
        (lift_from inside merges.shaped (merges.from_le idx b low)) (by
          rw [step.length_eq, merges.length_eq]
          unfold depth at enough ⊢
          omega)
      exact ⟨after, call, (merges.trans step).trans rest⟩
    · obtain ⟨after, call, rest⟩ := foldlM_merges walk Prod.snd fuel
        (walk.1 (next.node idx).children) merges.shaped
        (fun kv member trie' later => by
          obtain ⟨_, behind, inside⟩ :=
            merges.shaped.fragments idx kv ((walk.2 _).mem_iff.mp member)
          exact below (merges.trans later) behind (merges.length_eq ▸ inside))
      exact ⟨after, call, merges.trans rest⟩

theorem optimize_merges (shaped : Shaped trie) (some : trie ≠ []) :
    ∃ after, optimize walk trie = .some after ∧ Merges trie after := by
  have length := List.length_pos_iff.mpr some
  refine optimizeNode_merges (b := 1) _ shaped
    (fun kv member => (shaped.fragments 0 kv member).2.1) ?_
  unfold depth
  rw [Nat.sub_zero, Nat.mul_add, Nat.mul_add]
  omega

end Trie

end Pinocchio.Crow
