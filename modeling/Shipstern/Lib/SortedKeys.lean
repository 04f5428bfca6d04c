import Mathlib

/-!
# Sets as sorted lists

A set of keys is kept as a list in strictly ascending order: sorting and dropping repetitions
puts any list in that form, and two lists in that form with the same members are equal.
A key is found by halving the range that can hold it.
-/

open Std

namespace SortedKeys

universe u

variable {α : Type u} [Ord α] [DecidableEq α]

/-- Strictly ascending. -/
def Ascending (keys : List α) : Prop := keys.Pairwise fun a b => compare a b = .lt

/-- Sort, then drop every key that equals the one before it. -/
def normalize (keys : List α) : List α :=
  (keys.mergeSort fun a b => (compare a b).isLE).destutter (· ≠ ·)

/-- Halve the range of `size` positions from `base` on until it holds one position. -/
def narrow (keys : List α) (key : α) : Nat → Nat → Nat → Nat
  | 0, base, _ => base
  | fuel + 1, base, size =>
      if size ≤ 1 then base
      else
        let mid := base + size / 2
        let above := keys[mid]?.any fun found => compare found key = .gt
        narrow keys key fuel (if above then base else mid) (size - size / 2)

/-- The position of a key. -/
def search (keys : List α) (key : α) : Option Nat :=
  let base := narrow keys key keys.length 0 keys.length
  if keys[base]?.any fun found => compare found key = .eq then some base else none

/-! ## Normal form -/

omit [Ord α] in
theorem mem_destutter'_ne {a b : α} {keys : List α} :
    b ∈ keys.destutter' (· ≠ ·) a ↔ b = a ∨ b ∈ keys := by
  induction keys generalizing a with
  | nil => simp
  | cons c keys ih =>
      rw [List.destutter'_cons]
      split
      · rw [List.mem_cons, ih, List.mem_cons]
      · next heq =>
          obtain rfl : a = c := not_not.mp heq
          rw [ih, List.mem_cons]
          tauto

@[simp] theorem mem_normalize {keys : List α} {key : α} : key ∈ normalize keys ↔ key ∈ keys := by
  have hmem : ∀ l : List α, key ∈ l.destutter (· ≠ ·) ↔ key ∈ l := by
    rintro (_ | ⟨a, l⟩)
    · rfl
    · rw [List.destutter_cons', mem_destutter'_ne, List.mem_cons]
  rw [normalize, hmem, List.mem_mergeSort]

omit [Ord α] [DecidableEq α] in
theorem isChain_both {R S : α → α → Prop} {keys : List α} (h : keys.Pairwise R)
    (h' : keys.IsChain S) : keys.IsChain fun a b => R a b ∧ S a b := by
  induction keys with
  | nil => exact .nil
  | cons a keys ih =>
      rw [List.pairwise_cons] at h
      rw [List.isChain_cons] at h' ⊢
      exact ⟨fun b hb => ⟨h.1 b (List.mem_of_mem_head? hb), h'.1 b hb⟩, ih h.2 h'.2⟩

section Lawful

variable [TransOrd α] [LawfulEqOrd α]

theorem ascending_normalize (keys : List α) : Ascending (normalize keys) := by
  have hsorted : (keys.mergeSort fun a b => (compare a b).isLE).Pairwise
      fun a b => (compare a b).isLE = true :=
    List.pairwise_mergeSort (fun _ _ _ => TransCmp.isLE_trans)
      (fun a b => by
        have hswap : compare a b = (compare b a).swap := OrientedCmp.eq_swap
        rw [hswap]
        cases compare b a <;> rfl) keys
  have hle := hsorted.sublist (List.destutter_sublist (· ≠ ·) _)
  have hne := List.isChain_destutter (· ≠ ·) (keys.mergeSort fun a b => (compare a b).isLE)
  have hchain : (normalize keys).IsChain fun a b => compare a b = .lt := by
    refine (isChain_both hle hne).imp ?_
    rintro a b ⟨hab, hdiff⟩
    cases hcompare : compare a b with
    | lt => rfl
    | eq => exact absurd (LawfulEqOrd.eq_of_compare hcompare) hdiff
    | gt => simp [hcompare] at hab
  have htrans : IsTrans α fun a b => compare a b = .lt := ⟨fun _ _ _ => TransCmp.lt_trans⟩
  exact List.isChain_iff_pairwise.mp hchain

omit [LawfulEqOrd α] [DecidableEq α] in
theorem Ascending.nodup {keys : List α} (h : Ascending keys) : keys.Nodup := by
  refine List.Pairwise.imp ?_ h
  rintro a _ hlt rfl
  simp at hlt

omit [LawfulEqOrd α] [DecidableEq α] in
/-- A set has one form. -/
theorem Ascending.ext {keys keys' : List α} (h : Ascending keys) (h' : Ascending keys')
    (hmem : ∀ key, key ∈ keys ↔ key ∈ keys') : keys = keys' := by
  refine ((List.perm_ext_iff_of_nodup h.nodup h'.nodup).mpr hmem).eq_of_pairwise ?_ h h'
  intro a b _ _ hab hba
  have hswap : compare a b = (compare b a).swap := OrientedCmp.eq_swap
  simp [hab, hba] at hswap

/-! ## Search -/

omit [LawfulEqOrd α] [DecidableEq α] in
/-- The position of a key stays in the range. -/
theorem narrow_eq {keys : List α} (h : Ascending keys) {key : α} {i : Nat}
    (hi : keys[i]? = some key) {fuel base size : Nat} (hfuel : size ≤ fuel + 1)
    (hlow : base ≤ i) (hhigh : i < base + size) (hrange : base + size ≤ keys.length) :
    narrow keys key fuel base size = i := by
  induction fuel generalizing base size with
  | zero =>
      rw [narrow]
      omega
  | succ fuel ih =>
      rw [narrow]
      split
      · omega
      · have hmid : base + size / 2 < keys.length := by omega
        obtain ⟨hlt, hget⟩ := List.getElem?_eq_some_iff.mp hi
        simp only [List.getElem?_eq_getElem hmid, Option.any_some, decide_eq_true_eq]
        split
        · next habove =>
            -- A position at or behind `mid` would hold a greater key.
            have hbefore : i < base + size / 2 := by
              by_contra hbehind
              obtain heq | hgt := Nat.lt_or_eq_of_le (Nat.not_lt.mp hbehind)
              · have hasc := List.pairwise_iff_getElem.mp h _ _ hmid hlt heq
                rw [hget, habove] at hasc
                contradiction
              · simp only [hgt, hget] at habove
                simp at habove
            exact ih (by omega) hlow (by omega) (by omega)
        · next hnot =>
            have hbehind : base + size / 2 ≤ i := by
              by_contra hbefore
              have hasc := List.pairwise_iff_getElem.mp h _ _ hlt hmid (Nat.not_le.mp hbefore)
              rw [hget] at hasc
              have hswap : compare key keys[base + size / 2] =
                  (compare keys[base + size / 2] key).swap := OrientedCmp.eq_swap
              rw [hasc] at hswap
              cases hcompare : compare keys[base + size / 2] key with
              | lt => simp [hcompare] at hswap
              | eq => simp [hcompare] at hswap
              | gt => exact hnot hcompare
            exact ih (by omega) hbehind (by omega) (by omega)

omit [DecidableEq α] in
theorem search_isSome {keys : List α} (h : Ascending keys) (key : α) :
    (search keys key).isSome = true ↔ key ∈ keys := by
  constructor
  · intro hfound
    rw [search] at hfound
    split at hfound
    · next hany =>
        obtain ⟨found, hget, heq⟩ := (Option.any_eq_true _ _).mp hany
        rw [← LawfulEqOrd.eq_of_compare (of_decide_eq_true heq)]
        exact List.mem_of_getElem? hget
    · contradiction
  · intro hmem
    obtain ⟨i, hi⟩ := List.mem_iff_getElem?.mp hmem
    have hlt := (List.getElem?_eq_some_iff.mp hi).1
    have hbase : narrow keys key keys.length 0 keys.length = i :=
      narrow_eq h hi (by omega) (by omega) (by omega) (by omega)
    simp [search, hbase, hi]

end Lawful

end SortedKeys
