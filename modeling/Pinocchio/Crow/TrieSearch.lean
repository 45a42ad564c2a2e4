import Mathlib.Data.List.Basic
import Pinocchio.Crow.Trie
import Pinocchio.Semantics.Patterns

/-! What a search of the trie finds.

A node leads to the rules below it, each by a pattern of characters and parameters. A search finds
the smallest rule whose pattern the URL fills, and merging nodes does not change where a node leads.
-/

set_option autoImplicit false

namespace Pinocchio.Crow
open Semantics

abbrev RulePattern := Pattern UInt8 ParamType

namespace Trie

theorem isSimpleNode_iff {node : Node} :
    node.isSimpleNode = true ↔ node.ruleIndex = 0 ∧ ∀ t, node.paramChildrens t = 0 := by
  simp only [Node.isSimpleNode, Bool.and_eq_true, decide_eq_true_eq, List.all_eq_true]
  exact and_congr_right fun _ => ⟨fun all t => all t (ParamType.mem_all t), fun all t _ => all t⟩

/-- The rules below a node. -/
inductive Leads (trie : Trie) : Nat → RulePattern → Nat → Prop
  | here {idx : Nat} (rule : (trie.node idx).ruleIndex ≠ 0) :
    Leads trie idx [] (trie.node idx).ruleIndex
  | param {idx ruleIndex : Nat} {t : ParamType} {p : RulePattern}
    (child : (trie.node idx).paramChildrens t ≠ 0)
    (below : Leads trie ((trie.node idx).paramChildrens t) p ruleIndex) :
    Leads trie idx (.hole t :: p) ruleIndex
  | fragment {idx ruleIndex : Nat} {kv : Bytes × Nat} {p : RulePattern}
    (child : kv ∈ (trie.node idx).children) (below : Leads trie kv.2 p ruleIndex) :
    Leads trie idx (kv.1.map .symbol ++ p) ruleIndex

/-- Neither of two fragments goes on with the other. -/
def Apart (first second : Bytes × Nat) : Prop :=
  ¬first.1 <+: second.1 ∧ ¬second.1 <+: first.1

theorem Apart.symm {first second : Bytes × Nat} (apart : Apart first second) :
    Apart second first := ⟨apart.2, apart.1⟩

/-- The children of a node are behind it in the vector, and at most one of its fragments is in front
of a text. -/
structure Shaped (trie : Trie) : Prop where
  params : ∀ idx t, (trie.node idx).paramChildrens t ≠ 0 →
    idx < (trie.node idx).paramChildrens t ∧ (trie.node idx).paramChildrens t < trie.length
  fragments : ∀ idx, ∀ kv ∈ (trie.node idx).children,
    kv.1 ≠ [] ∧ idx < kv.2 ∧ kv.2 < trie.length
  apart : ∀ idx, (trie.node idx).children.Pairwise Apart

/-! ## The search -/

section
variable {D : Type} {strtod : Strtod D} {walk : Walk} {trie : Trie}

def pushAll (params : RoutingParams D) (values : List (Param D)) : RoutingParams D :=
  values.foldl RoutingParams.push params

/-- A rule below a node whose pattern is filled by a text, and the parameters with those of it. -/
def Fits (strtod : Strtod D) (trie : Trie) (idx : Nat) (url : Bytes) (params : RoutingParams D)
    (ruleIndex : Nat) (found : RoutingParams D) : Prop :=
  ∃ p values, Leads trie idx p ruleIndex ∧ Pattern.fill (readParam strtod) p url = some values ∧
    found = pushAll params values

theorem fits_nil (shaped : Shaped trie) {idx ruleIndex : Nat} {params found : RoutingParams D} :
    Fits strtod trie idx [] params ruleIndex found ↔
      ruleIndex ≠ 0 ∧ ruleIndex = (trie.node idx).ruleIndex ∧ found = params := by
  constructor
  · rintro ⟨p, values, leads, full, rfl⟩
    obtain ⟨rfl, rfl⟩ := Pattern.fill_nil.mp full
    generalize empty : ([] : RulePattern) = p at leads
    cases leads with
    | here rule => exact ⟨rule, rfl, rfl⟩
    | param child below => cases empty
    | fragment child below =>
      obtain ⟨none, _⟩ := List.append_eq_nil_iff.mp empty.symm
      exact absurd (List.map_eq_nil_iff.mp none) (shaped.fragments _ _ child).1
  · rintro ⟨some, rfl, rfl⟩
    exact ⟨[], [], .here some, rfl, rfl⟩

def FitsParam (strtod : Strtod D) (trie : Trie) (idx : Nat) (url : Bytes)
    (params : RoutingParams D) (t : ParamType) (ruleIndex : Nat) (found : RoutingParams D) : Prop :=
  (trie.node idx).paramChildrens t ≠ 0 ∧
    ∃ value left, readParam strtod t url = some (value, left) ∧
      Fits strtod trie ((trie.node idx).paramChildrens t) left (params.push value) ruleIndex found

def FitsFragment (strtod : Strtod D) (trie : Trie) (url : Bytes) (params : RoutingParams D)
    (kv : Bytes × Nat) (ruleIndex : Nat) (found : RoutingParams D) : Prop :=
  kv.1 <+: url ∧ Fits strtod trie kv.2 (url.drop kv.1.length) params ruleIndex found

theorem fits_cons {idx ruleIndex : Nat} {url : Bytes} {params found : RoutingParams D}
    (more : url ≠ []) :
    Fits strtod trie idx url params ruleIndex found ↔
      (∃ t ∈ ParamType.all, FitsParam strtod trie idx url params t ruleIndex found) ∨
      ∃ kv ∈ (trie.node idx).children, FitsFragment strtod trie url params kv ruleIndex found := by
  constructor
  · rintro ⟨p, values, leads, full, rfl⟩
    cases leads with
    | here rule =>
      cases url with
      | nil => exact absurd rfl more
      | cons c url => cases full
    | @param _ _ t p child below =>
      obtain ⟨value, left, others, taken, rest, rfl⟩ := (Pattern.fill_hole more).mp full
      exact Or.inl ⟨t, t.mem_all, child, value, left, taken, p, others, below, rest, rfl⟩
    | @fragment _ _ kv p child below =>
      rw [Pattern.fill_symbols] at full
      split at full
      · rename_i front
        exact Or.inr ⟨kv, child, front, p, values, below, full, rfl⟩
      · cases full
  · rintro (⟨t, _, child, value, left, taken, p, others, below, rest, rfl⟩ |
      ⟨kv, child, front, p, values, below, full, rfl⟩)
    · refine ⟨.hole t :: p, value :: others, .param child below, ?_, rfl⟩
      exact (Pattern.fill_hole more).mpr ⟨value, left, others, taken, rest, rfl⟩
    · refine ⟨_, values, .fragment child below, ?_, rfl⟩
      rw [Pattern.fill_symbols, if_pos front, full]

theorem best_param {idx : Nat} {url : Bytes} {params : RoutingParams D} {t : ParamType}
    (search : Bytes → Nat → RoutingParams D → Nat × RoutingParams D)
    (below : (trie.node idx).paramChildrens t ≠ 0 → ∀ left params,
      Best (Fits strtod trie ((trie.node idx).paramChildrens t) left params)
        (search left ((trie.node idx).paramChildrens t) params))
    {others : Nat → RoutingParams D → Prop} {found : Nat × RoutingParams D}
    (best : Best others found) :
    Best (fun n b => others n b ∨ FitsParam strtod trie idx url params t n b)
      (if (trie.node idx).paramChildrens t ≠ 0 then
        match readParam strtod t url with
        | some (value, left) =>
          updateFound found (search left ((trie.node idx).paramChildrens t) (params.push value))
        | none => found
      else found) := by
  unfold FitsParam
  split
  · rename_i child
    cases taken : readParam strtod t url with
    | none => exact best.congr fun n b => by simp
    | some got =>
      refine (best.better (below child got.2 (params.push got.1))).congr fun n b => ?_
      refine or_congr_right ⟨fun fits => ⟨child, got.1, got.2, rfl, fits⟩, ?_⟩
      rintro ⟨_, value, left, same, fits⟩
      cases same
      exact fits
  · rename_i none
    exact best.congr fun n b => by simp [not_not.mp none]

theorem best_fragment {url : Bytes} {params : RoutingParams D} {kv : Bytes × Nat}
    (search : Bytes → Nat → RoutingParams D → Nat × RoutingParams D)
    (below : Best (Fits strtod trie kv.2 (url.drop kv.1.length) params)
      (search (url.drop kv.1.length) kv.2 params))
    {others : Nat → RoutingParams D → Prop} {found : Nat × RoutingParams D}
    (best : Best others found) :
    Best (fun n b => others n b ∨ FitsFragment strtod trie url params kv n b)
      (if kv.1.isPrefixOf url then
        updateFound found (search (url.drop kv.1.length) kv.2 params)
      else found) := by
  unfold FitsFragment
  split
  · rename_i front
    have front := List.isPrefixOf_iff_prefix.mp front
    exact (best.better below).congr fun n b => or_congr_right (by simp [front])
  · rename_i other
    have other : ¬kv.1 <+: url := fun front => other (List.isPrefixOf_iff_prefix.mpr front)
    exact best.congr fun n b => by simp [other]

theorem find_best (shaped : Shaped trie) (fuel idx : Nat) (url : Bytes) (params : RoutingParams D)
    (some : 0 < fuel) (enough : trie.length ≤ idx + fuel) :
    Best (Fits strtod trie idx url params) (find walk strtod trie fuel url idx params) := by
  induction fuel generalizing idx url params with
  | zero => exact absurd some (Nat.lt_irrefl 0)
  | succ fuel ih =>
    rw [find]
    simp only []
    split
    · rename_i ended
      subst ended
      refine ⟨fun n found fits given => ?_, fun given => (fits_nil shaped).mpr ⟨given, rfl, rfl⟩⟩
      obtain ⟨_, same, _⟩ := (fits_nil shaped).mp fits
      exact ⟨same ▸ given, Nat.le_of_eq same.symm⟩
    · rename_i more
      have byParam := Best.foldl (FitsParam strtod trie idx url params) ParamType.all
        (fun t _ others found best => best_param (find walk strtod trie fuel)
          (fun child left params => by
            obtain ⟨behind, inside⟩ := shaped.params idx t child
            exact ih _ left params (by omega) (by omega)) best)
        (Best.none ({} : RoutingParams D))
      have byFragment := Best.foldl (FitsFragment strtod trie url params)
        (walk.1 (trie.node idx).children)
        (fun kv member others found best => best_fragment (find walk strtod trie fuel)
          (by
            obtain ⟨_, behind, inside⟩ := shaped.fragments idx kv ((walk.2 _).mem_iff.mp member)
            exact ih kv.2 _ params (by omega) (by omega)) best)
        byParam
      refine byFragment.congr fun n b => ?_
      rw [fits_cons more, false_or]
      simp only [(walk.2 _).mem_iff]

end

end Trie

end Pinocchio.Crow
