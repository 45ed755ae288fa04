import Mathlib

set_option autoImplicit false

namespace Aggregation

variable {α : Type}

theorem item_at_split (items : Array α) (below above : List α) (item : α)
    (split : items.toList = below ++ item :: above) : items[below.length]? = some item := by
  rw [← Array.getElem?_toList, split, List.getElem?_append_right (Nat.le_refl _), Nat.sub_self,
    List.getElem?_cons_zero]

theorem modify_at_split (items : Array α) (below above : List α) (item : α) (change : α → α)
    (split : items.toList = below ++ item :: above) :
    items.modify below.length change = (below ++ change item :: above).toArray := by
  rw [← Array.toList_inj, Array.toList_modify, split, List.modify_eq_take_drop,
    List.take_left, List.drop_left, List.modifyHead_cons]

theorem insert_at_split (items : Array α) (below above : List α) (fresh : α)
    (split : items.toList = below ++ above) :
    items.insertIdxIfInBounds below.length fresh = (below ++ fresh :: above).toArray := by
  have inside : below.length ≤ items.size := by
    rw [← Array.length_toList, split, List.length_append]
    exact Nat.le_add_right _ _
  rw [Array.insertIdxIfInBounds, dif_pos inside, ← Array.toList_inj, Array.toList_insertIdx, split,
    List.toList_toArray]
  clear split inside
  induction below with
  | nil => rfl
  | cons head tail ih => rw [List.cons_append, List.length_cons, List.insertIdx_succ_cons, ih]; rfl

theorem erase_at_split (items : Array α) (below above : List α) (item : α)
    (split : items.toList = below ++ item :: above) :
    items.eraseIdxIfInBounds below.length = (below ++ above).toArray := by
  rw [← Array.toList_inj, Array.toList_eraseIdxIfInBounds, split,
    List.eraseIdx_append_of_length_le (Nat.le_refl _), Nat.sub_self, List.eraseIdx_zero, List.tail_cons]

theorem set_at_split (items : Array α) (below above : List α) (item fresh : α)
    (split : items.toList = below ++ item :: above) :
    items.setIfInBounds below.length fresh = (below ++ fresh :: above).toArray := by
  rw [← Array.toList_inj, Array.toList_setIfInBounds, split, List.set_append_right _ _ (Nat.le_refl _),
    Nat.sub_self, List.set_cons_zero]

end Aggregation
