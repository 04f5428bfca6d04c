import Mathlib

/-!
# Grouping a list by a key

Items are added one by one to the group of their key, and a new key starts a group at the
end. The groups are then the parts of the list with equal keys, each in the order of the
list, and a search that only one key can satisfy finds what it finds in the group of that
key, whatever the order of the groups is.
-/

namespace Grouping

universe u v w

variable {K : Type u} {A : Type v} {B : Type w} [DecidableEq K]

/-- Append to the group of a key, or start one at the end. -/
def add (key : K) (item : A) : List (K × List A) → List (K × List A)
  | [] => [(key, [item])]
  | (k, group) :: rest =>
      if k = key then (k, group ++ [item]) :: rest else (k, group) :: add key item rest

/-- The groups of a list: each key once, with the items of that key. -/
structure GroupedBy (k : A → K) (items : List A) (groups : List (K × List A)) : Prop where
  nodup : (groups.map Prod.fst).Nodup
  mem_iff : ∀ key group,
    (key, group) ∈ groups ↔ group = items.filter (fun a => k a = key) ∧ group ≠ []

theorem GroupedBy.nil (k : A → K) : GroupedBy k [] [] :=
  ⟨List.nodup_nil, fun key group => by simp⟩

theorem map_fst_add (key : K) (item : A) (groups : List (K × List A)) :
    (add key item groups).map Prod.fst =
      if key ∈ groups.map Prod.fst then groups.map Prod.fst
      else groups.map Prod.fst ++ [key] := by
  induction groups with
  | nil => rfl
  | cons entry rest ih =>
      obtain ⟨k, group⟩ := entry
      by_cases hk : k = key
      · simp [add, hk]
      · have hk' : key ≠ k := fun h => hk h.symm
        simp only [add, hk, if_false, List.map_cons, ih, List.mem_cons, hk', false_or]
        split <;> rfl

theorem mem_add_of_ne {key k : K} {item : A} {group : List A} {groups : List (K × List A)}
    (h : k ≠ key) : (k, group) ∈ add key item groups ↔ (k, group) ∈ groups := by
  induction groups with
  | nil => simp [add, h]
  | cons entry rest ih =>
      obtain ⟨k', group'⟩ := entry
      by_cases hk : k' = key
      · have hkk : k ≠ k' := fun heq => h (heq.trans hk)
        rw [add, if_pos hk]
        simp [hkk]
      · simp [add, hk, ih]

theorem mem_add_self {key : K} {item : A} {group : List A} {groups : List (K × List A)}
    (hnodup : (groups.map Prod.fst).Nodup) :
    (key, group) ∈ add key item groups ↔
      (∃ g, (key, g) ∈ groups ∧ group = g ++ [item]) ∨
        (key ∉ groups.map Prod.fst ∧ group = [item]) := by
  induction groups with
  | nil => simp [add]
  | cons entry rest ih =>
      obtain ⟨k, g⟩ := entry
      rw [List.map_cons, List.nodup_cons] at hnodup
      by_cases hk : k = key
      · subst hk
        have hnot : ∀ g', (k, g') ∉ rest := fun g' hmem => hnodup.1 (List.mem_map.mpr ⟨_, hmem, rfl⟩)
        simp [add, hnot]
      · have hk' : key ≠ k := fun h => hk h.symm
        simp only [add, hk, if_false, List.mem_cons, Prod.mk.injEq, hk', false_and, false_or,
          ih hnodup.2, List.map_cons]

theorem GroupedBy.key_mem {k : A → K} {items : List A} {groups : List (K × List A)}
    (h : GroupedBy k items groups) {key : K} :
    key ∈ groups.map Prod.fst ↔ items.filter (fun a => k a = key) ≠ [] := by
  constructor
  · intro hmem
    obtain ⟨⟨key, group⟩, hentry, rfl⟩ := List.mem_map.mp hmem
    obtain ⟨hgroup, hne⟩ := (h.mem_iff key group).mp hentry
    exact hgroup ▸ hne
  · intro hne
    exact List.mem_map_of_mem ((h.mem_iff key _).mpr ⟨rfl, hne⟩)

/-- Adding an item keeps the groups those of the list so far. -/
theorem GroupedBy.add {k : A → K} {items : List A} {groups : List (K × List A)}
    (h : GroupedBy k items groups) (item : A) :
    GroupedBy k (items ++ [item]) (add (k item) item groups) := by
  refine ⟨?_, fun key group => ?_⟩
  · rw [map_fst_add]
    split
    · exact h.nodup
    · next hnew => exact List.nodup_append.mpr ⟨h.nodup, List.nodup_singleton _, by
        intro a ha b hb
        rw [List.mem_singleton.mp hb]
        exact fun heq => hnew (heq ▸ ha)⟩
  · rw [List.filter_append]
    by_cases hkey : key = k item
    · subst hkey
      rw [mem_add_self h.nodup, h.key_mem]
      have hitem : [item].filter (fun a => k a = k item) = [item] := by simp
      rw [hitem]
      constructor
      · rintro (⟨g, hg, rfl⟩ | ⟨hnone, rfl⟩)
        · obtain ⟨rfl, -⟩ := (h.mem_iff _ _).mp hg
          exact ⟨rfl, by simp⟩
        · rw [not_not] at hnone
          exact ⟨by rw [hnone, List.nil_append], by simp⟩
      · rintro ⟨rfl, -⟩
        by_cases hnone : items.filter (fun a => k a = k item) = []
        · exact Or.inr ⟨by simpa using hnone, by rw [hnone, List.nil_append]⟩
        · exact Or.inl ⟨_, (h.mem_iff _ _).mpr ⟨rfl, hnone⟩, rfl⟩
    · have hitem : [item].filter (fun a => k a = key) = [] := by
        have hne : ¬k item = key := fun heq => hkey heq.symm
        simp [hne]
      rw [mem_add_of_ne hkey, h.mem_iff, hitem, List.append_nil]

/-- A search that only the group of `key` can satisfy. -/
theorem GroupedBy.findSome?_eq {k : A → K} {items : List A} {groups : List (K × List A)}
    (h : GroupedBy k items groups) (key : K) (f : K → List A → Option B)
    (hother : ∀ key' group, (key', group) ∈ groups → key' ≠ key → f key' group = none) :
    groups.findSome? (fun entry => f entry.1 entry.2) =
      if items.filter (fun a => k a = key) = [] then none
      else f key (items.filter fun a => k a = key) := by
  split
  · next hnone =>
      rw [List.findSome?_eq_none_iff]
      rintro ⟨key', group⟩ hmem
      refine hother key' group hmem ?_
      rintro rfl
      obtain ⟨hgroup, hne⟩ := (h.mem_iff _ _).mp hmem
      exact hne (hgroup.trans hnone)
  · next hne =>
      have hmem : (key, items.filter fun a => k a = key) ∈ groups := (h.mem_iff _ _).mpr ⟨rfl, hne⟩
      cases hresult : f key (items.filter fun a => k a = key) with
      | some b =>
          cases hfound : groups.findSome? (fun entry => f entry.1 entry.2) with
          | none => exact absurd (List.findSome?_eq_none_iff.mp hfound _ hmem) (by simp [hresult])
          | some b' =>
              obtain ⟨⟨key', group⟩, hentry, heq⟩ := List.exists_of_findSome?_eq_some hfound
              have hkey : key' = key := by
                by_contra hne'
                rw [hother key' group hentry hne'] at heq
                cases heq
              subst hkey
              obtain ⟨rfl, -⟩ := (h.mem_iff _ _).mp hentry
              rw [← heq, hresult]
      | none =>
          rw [List.findSome?_eq_none_iff]
          rintro ⟨key', group⟩ hentry
          by_cases hkey : key' = key
          · subst hkey
            obtain ⟨rfl, -⟩ := (h.mem_iff _ _).mp hentry
            exact hresult
          · exact hother key' group hentry hkey

end Grouping
