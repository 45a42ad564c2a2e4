import Mathlib.Data.List.Nodup

/-! Histories: lists that only grow at their end, and queues read off their front. -/

set_option autoImplicit false

namespace Pinocchio.Semantics
variable {α β : Type} {items : List α} {k : Nat} {a b : α}

theorem getElem?_grow (found : items[k]? = some a) (more : List α) :
    (items ++ more)[k]? = some a := by
  rw [List.getElem?_append_left (List.getElem?_eq_some_iff.mp found).1, found]

theorem getElem?_grow_one (found : (items ++ [b])[k]? = some a) :
    items[k]? = some a ∨ k = items.length ∧ a = b := by
  rw [List.getElem?_append] at found
  split at found
  · exact Or.inl found
  · rename_i past
    obtain ⟨bound, same⟩ := List.getElem?_eq_some_iff.mp found
    have last : k - items.length = 0 := by simpa using bound
    simp only [last, List.getElem_cons_zero] at same
    exact Or.inr ⟨by omega, same.symm⟩

theorem getElem?_grow_other (other : k ≠ items.length) : (items ++ [b])[k]? = items[k]? := by
  rcases Nat.lt_or_gt_of_ne other with before | past
  · rw [List.getElem?_append_left before]
  · rw [List.getElem?_eq_none (by simp; omega), List.getElem?_eq_none (by omega)]

theorem pairwise_idxOf [DecidableEq α] (nodup : items.Nodup) :
    items.Pairwise fun first second => items.idxOf first < items.idxOf second := by
  rw [List.pairwise_iff_getElem]
  intro i j before past order
  rw [nodup.idxOf_getElem, nodup.idxOf_getElem]
  exact order

theorem getElem?_of_drop {rest : List α} (drop : items.drop k = a :: rest) :
    items[k]? = some a := by
  have front := congrArg (fun unread => unread[0]?) drop
  simpa only [List.getElem?_drop, Nat.add_zero, List.getElem?_cons_zero] using front

theorem drop_of_getElem? (found : items[k]? = some a) : items.drop k = a :: items.drop (k + 1) := by
  obtain ⟨bound, here⟩ := List.getElem?_eq_some_iff.mp found
  rw [List.drop_eq_getElem_cons bound, here]

end Pinocchio.Semantics
