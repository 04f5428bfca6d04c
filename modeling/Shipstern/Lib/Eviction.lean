import Mathlib
import Shipstern.Lib.OrderedMap

/-!
# Eviction from ordered maps

A map that gains an entry for every key it hears of is kept small by dropping its least
keys. `splitOff` drops the keys below a cutoff and `capped` drops the least key for as long
as the map has more than `cap` entries. Neither changes an entry that it keeps. A key
survives the cutoff if it is not below it, and it survives the cap if the keys above it
fit in a set of fewer than `cap` elements.
-/

open Std

namespace OrderedMap

universe u v

variable {κ : Type u} {β : Type v} {cmp : κ → κ → Ordering} [TransCmp cmp]

/-- The entries whose keys are not below the cutoff. -/
def splitOff (m : ExtTreeMap κ β cmp) (cutoff : κ) : ExtTreeMap κ β cmp :=
  m.filter fun k _ => (cmp cutoff k).isLE

/-- The map without its least key. -/
def popFirst (m : ExtTreeMap κ β cmp) : ExtTreeMap κ β cmp :=
  match m.minKey? with
  | none => m
  | some k => m.erase k

/-- Drop the least key while there are more than `cap`, at most `fuel` times. -/
def popWhile (cap : Nat) : Nat → ExtTreeMap κ β cmp → ExtTreeMap κ β cmp
  | 0, m => m
  | fuel + 1, m => if cap < m.size then popWhile cap fuel (popFirst m) else m

/-- Drop the least key for as long as there are more than `cap`. -/
def capped (cap : Nat) (m : ExtTreeMap κ β cmp) : ExtTreeMap κ β cmp :=
  popWhile cap m.size m

section Size

theorem size_popFirst (m : ExtTreeMap κ β cmp) : (popFirst m).size = m.size - 1 := by
  rw [popFirst]
  cases h : m.minKey? with
  | none =>
      rw [ExtTreeMap.minKey?_eq_none_iff] at h
      simp [h]
  | some k =>
      have hmem : k ∈ m := ExtTreeMap.minKey?_mem h
      simp [ExtTreeMap.size_erase, hmem]

theorem size_popWhile_le {cap fuel : Nat} {m : ExtTreeMap κ β cmp}
    (enough : m.size ≤ cap + fuel) : (popWhile cap fuel m).size ≤ cap := by
  induction fuel generalizing m with
  | zero => exact enough
  | succ fuel ih =>
      rw [popWhile]
      split
      · apply ih
        rw [size_popFirst]
        omega
      · omega

/-- The loop stops with at most `cap` entries. -/
theorem size_capped_le (cap : Nat) (m : ExtTreeMap κ β cmp) : (capped cap m).size ≤ cap :=
  size_popWhile_le (Nat.le_add_left _ _)

end Size

section Keys

theorem mem_of_mem_popFirst {m : ExtTreeMap κ β cmp} {k : κ} (h : k ∈ popFirst m) : k ∈ m := by
  rw [popFirst] at h
  split at h
  · exact h
  · exact ExtTreeMap.mem_of_mem_erase h

theorem mem_of_mem_popWhile {cap fuel : Nat} {m : ExtTreeMap κ β cmp} {k : κ}
    (h : k ∈ popWhile cap fuel m) : k ∈ m := by
  induction fuel generalizing m with
  | zero => exact h
  | succ fuel ih =>
      rw [popWhile] at h
      split at h
      · exact mem_of_mem_popFirst (ih h)
      · exact h

theorem mem_of_mem_capped {cap : Nat} {m : ExtTreeMap κ β cmp} {k : κ}
    (h : k ∈ capped cap m) : k ∈ m :=
  mem_of_mem_popWhile h

end Keys

variable [LawfulEqCmp cmp]

theorem getElem?_splitOff (m : ExtTreeMap κ β cmp) (cutoff k : κ) :
    (splitOff m cutoff)[k]? = if (cmp cutoff k).isLE then m[k]? else none := by
  rw [splitOff, ExtTreeMap.getElem?_filter']
  cases (cmp cutoff k).isLE <;> cases m[k]? <;> rfl

theorem mem_of_mem_splitOff {m : ExtTreeMap κ β cmp} {cutoff k : κ}
    (h : k ∈ splitOff m cutoff) : k ∈ m := by
  rw [ExtTreeMap.mem_iff_isSome_getElem?, getElem?_splitOff] at h
  rw [ExtTreeMap.mem_iff_isSome_getElem?]
  split at h
  · exact h
  · contradiction

/-- What a cutoff keeps, it keeps unchanged. -/
theorem getElem?_of_mem_splitOff {m : ExtTreeMap κ β cmp} {cutoff k : κ}
    (h : k ∈ splitOff m cutoff) : (splitOff m cutoff)[k]? = m[k]? := by
  rw [ExtTreeMap.mem_iff_isSome_getElem?] at h
  rw [getElem?_splitOff] at h ⊢
  split at h
  next hle => rw [if_pos hle]
  next => cases h

variable [DecidableEq κ]

theorem getElem?_of_mem_popFirst {m : ExtTreeMap κ β cmp} {k : κ} (h : k ∈ popFirst m) :
    (popFirst m)[k]? = m[k]? := by
  rw [popFirst] at h ⊢
  split at h
  · rfl
  · next least _ =>
      rw [ExtTreeMap.mem_iff_isSome_getElem?, getElem?_erase] at h
      rw [getElem?_erase]
      split at h
      · cases h
      · next hne => rw [if_neg hne]

theorem getElem?_of_mem_popWhile {cap fuel : Nat} {m : ExtTreeMap κ β cmp} {k : κ}
    (h : k ∈ popWhile cap fuel m) : (popWhile cap fuel m)[k]? = m[k]? := by
  induction fuel generalizing m with
  | zero => rfl
  | succ fuel ih =>
      rw [popWhile] at h ⊢
      split at h
      · next hlt =>
          rw [if_pos hlt, ih h]
          exact getElem?_of_mem_popFirst (mem_of_mem_popWhile h)
      · next hle => rw [if_neg hle]

/-- What a cap keeps, it keeps unchanged. -/
theorem getElem?_of_mem_capped {cap : Nat} {m : ExtTreeMap κ β cmp} {k : κ}
    (h : k ∈ capped cap m) : (capped cap m)[k]? = m[k]? :=
  getElem?_of_mem_popWhile h

/-- A map whose keys above `k` are few and whose least key is `k` is small. -/
theorem size_le_of_minKey {m : ExtTreeMap κ β cmp} {k : κ} (least : m.minKey? = some k)
    {above : Finset κ} (habove : ∀ a ∈ m, cmp k a = .lt → a ∈ above) :
    m.size ≤ above.card + 1 := by
  have hmin := (ExtTreeMap.minKey?_eq_some_iff_mem_and_forall.mp least).2
  have hsub : m.keys.toFinset ⊆ insert k above := by
    intro a ha
    rw [List.mem_toFinset, ExtTreeMap.mem_keys] at ha
    have hle := hmin a ha
    cases hcmp : cmp k a with
    | lt => exact Finset.mem_insert_of_mem (habove a ha hcmp)
    | eq =>
        rw [LawfulEqCmp.eq_of_compare hcmp]
        exact Finset.mem_insert_self a above
    | gt => simp [hcmp] at hle
  calc
    m.size = m.keys.toFinset.card := by
      rw [List.toFinset_card_of_nodup (nodup_keys m), ExtTreeMap.length_keys]
    _ ≤ (insert k above).card := Finset.card_le_card hsub
    _ ≤ above.card + 1 := Finset.card_insert_le k above

theorem getElem?_popFirst {m : ExtTreeMap κ β cmp} {k : κ} {above : Finset κ}
    (habove : ∀ a ∈ m, cmp k a = .lt → a ∈ above) (large : above.card + 1 < m.size) :
    (popFirst m)[k]? = m[k]? := by
  rw [popFirst]
  split
  · rfl
  · next least hleast =>
      rw [getElem?_erase]
      split
      · next heq =>
          subst heq
          have hsize := size_le_of_minKey hleast habove
          omega
      · rfl

theorem getElem?_popWhile {cap fuel : Nat} {m : ExtTreeMap κ β cmp} {k : κ} {above : Finset κ}
    (habove : ∀ a ∈ m, cmp k a = .lt → a ∈ above) (few : above.card < cap) :
    (popWhile cap fuel m)[k]? = m[k]? := by
  induction fuel generalizing m with
  | zero => rfl
  | succ fuel ih =>
      rw [popWhile]
      split
      · rw [ih fun a ha => habove a (mem_of_mem_popFirst ha)]
        exact getElem?_popFirst habove (by omega)
      · rfl

/-- A key with fewer than `cap` keys above it survives the cap. -/
theorem getElem?_capped {cap : Nat} {m : ExtTreeMap κ β cmp} {k : κ} {above : Finset κ}
    (habove : ∀ a ∈ m, cmp k a = .lt → a ∈ above) (few : above.card < cap) :
    (capped cap m)[k]? = m[k]? :=
  getElem?_popWhile habove few

end OrderedMap
