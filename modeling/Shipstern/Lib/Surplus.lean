import Mathlib

/-!
# What one list has in excess of another

`surplus taken items` are the items of a list beyond those that another list accounts for: of
each item as many first occurrences are left out as it has occurrences there. The count of an
item in both together is the larger of its two counts.

Items are compared up to an equivalence, and an occurrence of an item is one of any item equal
to it.
-/

namespace Surplus

variable {α : Type*} [BEq α]

/-- The items that come after at least as many equal ones as are taken. `seen` are the items in
front. -/
def surplusAfter (taken seen : List α) : List α → List α
  | [] => []
  | item :: items =>
      if taken.count item ≤ seen.count item then
        item :: surplusAfter taken (seen ++ [item]) items
      else surplusAfter taken (seen ++ [item]) items

def surplus (taken items : List α) : List α := surplusAfter taken [] items

variable [EquivBEq α]

theorem beq_congr {a b : α} (h : (a == b) = true) (c : α) : (c == a) = (c == b) := by
  rw [Bool.eq_iff_iff]
  exact ⟨fun hca => BEq.trans hca h, fun hcb => BEq.trans hcb (BEq.symm h)⟩

theorem count_congr {a b : α} (h : (a == b) = true) (items : List α) :
    items.count a = items.count b := by
  rw [List.count, List.count]
  exact List.countP_congr fun c _ => by rw [beq_congr h c]

theorem count_surplusAfter (taken seen items : List α) (a : α) :
    (surplusAfter taken seen items).count a =
      items.count a - (taken.count a - seen.count a) := by
  induction items generalizing seen with
  | nil => simp [surplusAfter]
  | cons item items ih =>
      have hseen : (seen ++ [item]).count a = seen.count a + if item == a then 1 else 0 := by
        simp [List.count_cons]
      by_cases heq : (item == a) = true
      · have htaken := count_congr heq taken
        have hcount := count_congr heq seen
        rw [surplusAfter, List.count_cons, if_pos heq]
        rw [if_pos heq] at hseen
        split
        · rw [List.count_cons, if_pos heq, ih, hseen]
          omega
        · rw [ih, hseen]
          omega
      · rw [if_neg heq, Nat.add_zero] at hseen
        rw [surplusAfter, List.count_cons, if_neg heq, Nat.add_zero]
        split
        · rw [List.count_cons, if_neg heq, Nat.add_zero, ih, hseen]
        · rw [ih, hseen]

/-- Together with what is taken, an item occurs as often as in the list where it occurs more. -/
theorem count_append_surplus (taken items : List α) (a : α) :
    (taken ++ surplus taken items).count a = max (taken.count a) (items.count a) := by
  rw [List.count_append, surplus, count_surplusAfter, List.count_nil]
  omega

end Surplus
