import Mathlib

/-!
# A stable sort and what is left out before it

Sorting by insertion keeps the order of items that compare equal. So it makes no difference
whether items are left out before the sort or after it.
-/

namespace StableSort

variable {α : Type*} {r : α → α → Prop} [DecidableRel r]

theorem filter_orderedInsert [IsTrans α r] {p : α → Bool} {a : α} {items : List α}
    (h : items.Pairwise r) :
    (items.orderedInsert r a).filter p =
      if p a then (items.filter p).orderedInsert r a else items.filter p := by
  induction items with
  | nil => cases hp : p a <;> simp [hp]
  | cons b items ih =>
      obtain ⟨hb, hitems⟩ := List.pairwise_cons.mp h
      by_cases hab : r a b
      · -- then everything that is kept of the list comes after the item, too
        have hfront : ∀ c ∈ (b :: items).filter p, r a c := by
          intro c hc
          obtain rfl | hc := List.mem_cons.mp (List.mem_of_mem_filter hc)
          · exact hab
          · exact IsTrans.trans _ _ _ hab (hb c hc)
        have hinsert : ((b :: items).filter p).orderedInsert r a = a :: (b :: items).filter p := by
          cases hkept : (b :: items).filter p with
          | nil => rfl
          | cons c kept =>
              exact List.orderedInsert_cons_of_le r kept (hfront c (hkept ▸ List.mem_cons_self))
        rw [List.orderedInsert_cons_of_le r items hab, List.filter_cons, hinsert]
      · rw [List.orderedInsert_of_not_le r items hab, List.filter_cons, ih hitems,
          List.filter_cons]
        cases p a <;> cases p b <;> simp [hab]

theorem filter_insertionSort [Std.Total r] [IsTrans α r] (p : α → Bool) (items : List α) :
    (items.insertionSort r).filter p = (items.filter p).insertionSort r := by
  induction items with
  | nil => rfl
  | cons a items ih =>
      rw [List.insertionSort_cons, filter_orderedInsert (List.pairwise_insertionSort r items), ih,
        List.filter_cons]
      cases p a <;> rfl

end StableSort
