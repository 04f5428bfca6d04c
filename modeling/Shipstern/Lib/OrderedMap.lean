import Mathlib

/-!
# Ordered maps with a default entry and a head of line

`Std.ExtTreeMap` is the extensional ordered map of the standard library: two maps
with the same lookups are equal. This file adds the three operations that buffers
of pending work are built from. `upsert` updates the entry of a key, starting from
the default when the key is absent. `eraseKeys` removes a list of keys. `headOfLine`
is the entry with the least key that is not yet done; it is what an in-order
consumer has to serve next, and everything below it is done.

The last section describes the values of a map that was filled by inserting a list
of bindings with pairwise distinct keys: they are the values of that list in the
order of their keys, whatever the order of the insertions was.
-/

open Std

namespace OrderedMap

universe u v

variable {κ : Type u} {β : Type v} {cmp : κ → κ → Ordering} [TransCmp cmp]

section Upsert

variable [LawfulEqCmp cmp] [DecidableEq κ]

/-- Update the entry of `k`, taking the default entry when there is none. -/
def upsert [Inhabited β] (m : ExtTreeMap κ β cmp) (k : κ) (f : β → β) : ExtTreeMap κ β cmp :=
  m.insert k (f (m.getD k default))

theorem getElem?_insert (m : ExtTreeMap κ β cmp) (k a : κ) (v : β) :
    (m.insert k v)[a]? = if a = k then some v else m[a]? := by
  rw [ExtTreeMap.getElem?_insert]
  by_cases h : a = k
  · subst h
    simp
  · have : cmp k a ≠ .eq := fun he => h (LawfulEqCmp.eq_of_compare he).symm
    simp [h, this]

theorem getElem?_upsert [Inhabited β] (m : ExtTreeMap κ β cmp) (k a : κ) (f : β → β) :
    (upsert m k f)[a]? = if a = k then some (f (m.getD k default)) else m[a]? :=
  getElem?_insert m k a _

theorem upsert_upsert [Inhabited β] (m : ExtTreeMap κ β cmp) (k : κ) (f g : β → β) :
    upsert (upsert m k f) k g = upsert m k (g ∘ f) := by
  apply ExtTreeMap.ext_getElem?
  intro a
  simp only [getElem?_upsert, ExtTreeMap.getD_eq_getD_getElem?]
  split <;> simp

theorem upsert_eq_self [Inhabited β] {m : ExtTreeMap κ β cmp} {k : κ} {f : β → β} {b : β}
    (present : m[k]? = some b) (fixed : f b = b) : upsert m k f = m := by
  apply ExtTreeMap.ext_getElem?
  intro a
  rw [getElem?_upsert]
  split
  · next h =>
      subst h
      simp [ExtTreeMap.getD_eq_getD_getElem?, present, fixed]
  · rfl

theorem getElem?_erase (m : ExtTreeMap κ β cmp) (k a : κ) :
    (m.erase k)[a]? = if a = k then none else m[a]? := by
  rw [ExtTreeMap.getElem?_erase]
  by_cases h : a = k
  · subst h
    simp
  · have : cmp k a ≠ .eq := fun he => h (LawfulEqCmp.eq_of_compare he).symm
    simp [h, this]

theorem erase_eq_self {m : ExtTreeMap κ β cmp} {k : κ} (absent : m[k]? = none) :
    m.erase k = m := by
  apply ExtTreeMap.ext_getElem?
  intro a
  rw [getElem?_erase]
  split
  · next h => rw [h, absent]
  · rfl

/-- Remove every key of the list. -/
def eraseKeys (m : ExtTreeMap κ β cmp) (ks : List κ) : ExtTreeMap κ β cmp :=
  ks.foldl ExtTreeMap.erase m

theorem getElem?_eraseKeys (m : ExtTreeMap κ β cmp) (ks : List κ) (a : κ) :
    (eraseKeys m ks)[a]? = if a ∈ ks then none else m[a]? := by
  induction ks generalizing m with
  | nil => simp [eraseKeys]
  | cons k ks ih =>
      change (eraseKeys (m.erase k) ks)[a]? = _
      rw [ih, getElem?_erase]
      by_cases hk : a = k <;> simp [hk]

end Upsert

section Keys

variable [LawfulEqCmp cmp]

theorem mem_keys_iff (m : ExtTreeMap κ β cmp) (k : κ) : k ∈ m.keys ↔ ∃ b, m[k]? = some b := by
  rw [ExtTreeMap.mem_keys, ExtTreeMap.mem_iff_isSome_getElem?, Option.isSome_iff_exists]

theorem nodup_keys (m : ExtTreeMap κ β cmp) : m.keys.Nodup := by
  simpa [List.Nodup] using m.distinct_keys

/-- A map is iterated in the order of its keys, so equal key sets give equal traversals. -/
theorem keys_eq_of_mem_iff {β' : Type v} {m : ExtTreeMap κ β cmp} {m' : ExtTreeMap κ β' cmp}
    (h : ∀ k, k ∈ m.keys ↔ k ∈ m'.keys) : m.keys = m'.keys := by
  have hperm : m.keys.Perm m'.keys :=
    (List.perm_ext_iff_of_nodup (nodup_keys m) (nodup_keys m')).2 h
  refine hperm.eq_of_pairwise ?_ m.ordered_keys m'.ordered_keys
  intro a b _ _ hab hba
  have hswap : cmp a b = (cmp b a).swap := OrientedCmp.eq_swap
  simp [hab, hba] at hswap

theorem keys_insert_of_mem [DecidableEq κ] {m : ExtTreeMap κ β cmp} {k : κ} {b : β}
    (present : m[k]? = some b) (v : β) : (m.insert k v).keys = m.keys := by
  apply keys_eq_of_mem_iff
  intro a
  simp only [mem_keys_iff, getElem?_insert]
  by_cases h : a = k
  · subst h
    simp [present]
  · simp [h]

end Keys

section HeadOfLine

variable [LawfulEqCmp cmp]

/-- The entry with the least key among those that are not done. -/
def headOfLine (done : β → Bool) (m : ExtTreeMap κ β cmp) : Option (κ × β) :=
  m.toList.find? (fun e => !done e.2)

theorem headOfLine_eq_none {done : β → Bool} {m : ExtTreeMap κ β cmp} :
    headOfLine done m = none ↔ ∀ (k : κ) (b : β), m[k]? = some b → done b = true := by
  simp only [headOfLine, List.find?_eq_none, Prod.forall,
    ExtTreeMap.mem_toList_iff_getElem?_eq_some, Bool.not_eq_true', Bool.not_eq_false]

/-- The head of line is present and not done, and everything below it is done. -/
theorem headOfLine_eq_some {done : β → Bool} {m : ExtTreeMap κ β cmp} {k : κ} {b : β} :
    headOfLine done m = some (k, b) ↔
      m[k]? = some b ∧ done b = false ∧
        ∀ (k' : κ) (b' : β), m[k']? = some b' → cmp k' k = .lt → done b' = true := by
  have hlt : ∀ {a c : κ}, cmp a c = .lt → cmp c a ≠ .lt := by
    intro a c hac hca
    have hswap : cmp a c = (cmp c a).swap := OrientedCmp.eq_swap
    simp [hac, hca] at hswap
  have hsorted := m.ordered_keys_toList
  constructor
  · intro h
    obtain ⟨hb, before, after, heq, hdone⟩ := List.find?_eq_some_iff_append.mp h
    have hmem : (k, b) ∈ m.toList := by simp [heq]
    refine ⟨ExtTreeMap.mem_toList_iff_getElem?_eq_some.mp hmem, by simpa using hb, ?_⟩
    intro k' b' hk' hcmp
    have hmem' := ExtTreeMap.mem_toList_iff_getElem?_eq_some.mpr hk'
    rw [heq] at hmem' hsorted
    obtain hin | hin := List.mem_append.mp hmem'
    · simpa using hdone _ hin
    · obtain hself | hrest := List.mem_cons.mp hin
      · cases hself
        simp [ReflCmp.compare_self] at hcmp
      · have := (List.pairwise_cons.mp (List.pairwise_append.mp hsorted).2.1).1 _ hrest
        exact absurd hcmp (hlt this)
  · rintro ⟨hk, hb, hbelow⟩
    have hmem := ExtTreeMap.mem_toList_iff_getElem?_eq_some.mpr hk
    obtain ⟨before, after, heq⟩ := List.append_of_mem hmem
    refine List.find?_eq_some_iff_append.mpr ⟨by simp [hb], before, after, heq, ?_⟩
    rintro ⟨k', b'⟩ hin
    have hk' : m[k']? = some b' :=
      ExtTreeMap.mem_toList_iff_getElem?_eq_some.mp (by simp [heq, hin])
    rw [heq] at hsorted
    have := (List.pairwise_append.mp hsorted).2.2 _ hin (k, b) (by simp)
    simp [hbelow k' b' hk' this]

/-- From the greatest key on down, the first key with a property is the greatest one. -/
theorem find?_reverse_toList {p : κ → Bool} {m : ExtTreeMap κ β cmp} {k : κ} {b : β}
    (h : m.toList.reverse.find? (fun e => p e.1) = some (k, b)) :
    m[k]? = some b ∧ p k = true ∧
      ∀ (k' : κ) (b' : β), m[k']? = some b' → cmp k k' = .lt → p k' = false := by
  obtain ⟨hp, before, after, heq, hbefore⟩ := List.find?_eq_some_iff_append.mp h
  have hmem : (k, b) ∈ m.toList := by
    rw [← List.mem_reverse, heq]
    simp
  refine ⟨ExtTreeMap.mem_toList_iff_getElem?_eq_some.mp hmem, hp, fun k' b' hk' hlt => ?_⟩
  have hmem' : (k', b') ∈ m.toList.reverse :=
    List.mem_reverse.mpr (ExtTreeMap.mem_toList_iff_getElem?_eq_some.mpr hk')
  have hsorted : m.toList.reverse.Pairwise fun e f => cmp f.1 e.1 = .lt :=
    List.pairwise_reverse.mpr m.ordered_keys_toList
  rw [heq] at hmem' hsorted
  obtain hin | hin := List.mem_append.mp hmem'
  · simpa using hbefore _ hin
  · obtain hself | hrest := List.mem_cons.mp hin
    · cases hself
      simp [ReflCmp.compare_self] at hlt
    · have hgt := (List.pairwise_cons.mp (List.pairwise_append.mp hsorted).2.1).1 _ hrest
      have hswap : cmp k k' = (cmp k' k).swap := OrientedCmp.eq_swap
      simp [hlt, hgt] at hswap

end HeadOfLine

section Filled

/-- The map obtained by inserting a list of bindings from left to right. -/
def filled (bindings : List (κ × β)) : ExtTreeMap κ β cmp :=
  bindings.foldl (fun m e => m.insert e.1 e.2) ∅

theorem filled_concat (bindings : List (κ × β)) (e : κ × β) :
    (filled (bindings ++ [e]) : ExtTreeMap κ β cmp) = (filled bindings).insert e.1 e.2 := by
  simp [filled]

variable [LawfulEqCmp cmp] [DecidableEq κ]

/-- With distinct keys no binding overwrites another one. -/
theorem getElem?_filled {bindings : List (κ × β)} (distinct : (bindings.map Prod.fst).Nodup)
    (k : κ) (b : β) :
    (filled bindings : ExtTreeMap κ β cmp)[k]? = some b ↔ (k, b) ∈ bindings := by
  induction bindings using List.reverseRecOn generalizing k b with
  | nil => simp [filled]
  | append_singleton bindings e ih =>
      rw [List.map_append, List.nodup_append] at distinct
      obtain ⟨hfront, -, hnew⟩ := distinct
      rw [filled_concat, getElem?_insert]
      by_cases hk : k = e.1
      · subst hk
        have hfresh : (e.1, b) ∉ bindings := fun hin =>
          hnew e.1 (List.mem_map.mpr ⟨_, hin, rfl⟩) e.1 (by simp) rfl
        simp only [if_true, Option.some.injEq, List.mem_append, List.mem_singleton, hfresh,
          false_or]
        exact ⟨fun h => by subst h; rfl, fun h => by rw [← h]⟩
      · rw [if_neg hk, ih hfront]
        simp only [List.mem_append, List.mem_singleton, iff_self_or]
        intro h
        exact absurd (congrArg Prod.fst h) hk

/-- The traversal of a filled map is the key-ordered permutation of its bindings. -/
theorem toList_filled_perm {bindings : List (κ × β)} (distinct : (bindings.map Prod.fst).Nodup) :
    (filled bindings : ExtTreeMap κ β cmp).toList.Perm bindings := by
  have hnodup : (filled bindings : ExtTreeMap κ β cmp).toList.Nodup := by
    refine (filled bindings : ExtTreeMap κ β cmp).ordered_keys_toList.imp ?_
    intro a b hlt heq
    subst heq
    simp [ReflCmp.compare_self] at hlt
  refine (List.perm_ext_iff_of_nodup hnodup (distinct.of_map _)).2 ?_
  rintro ⟨k, b⟩
  rw [ExtTreeMap.mem_toList_iff_getElem?_eq_some, getElem?_filled distinct]

/-- The values of the bindings, in the strict order of their keys. -/
def InKeyOrder (cmp : κ → κ → Ordering) (bindings : List (κ × β)) (values : List β) : Prop :=
  ∃ sorted : List (κ × β), sorted.Perm bindings ∧
    sorted.Pairwise (fun a b => cmp a.1 b.1 = .lt) ∧ values = sorted.map Prod.snd

/-- A filled map yields the values of its bindings in key order. -/
theorem inKeyOrder_filled {bindings : List (κ × β)} (distinct : (bindings.map Prod.fst).Nodup) :
    InKeyOrder cmp bindings ((filled bindings : ExtTreeMap κ β cmp).toList.map Prod.snd) :=
  ⟨_, toList_filled_perm distinct, (filled bindings).ordered_keys_toList, rfl⟩

omit [LawfulEqCmp cmp] [DecidableEq κ] in
/-- The order of the bindings does not matter. -/
theorem InKeyOrder.unique {bindings bindings' : List (κ × β)} {values values' : List β}
    (h : InKeyOrder cmp bindings values) (h' : InKeyOrder cmp bindings' values')
    (hperm : bindings.Perm bindings') : values = values' := by
  obtain ⟨sorted, hp, hlt, rfl⟩ := h
  obtain ⟨sorted', hp', hlt', rfl⟩ := h'
  have heq : sorted = sorted' := by
    refine (hp.trans (hperm.trans hp'.symm)).eq_of_pairwise ?_ hlt hlt'
    intro a b _ _ hab hba
    have hswap : cmp a.1 b.1 = (cmp b.1 a.1).swap := OrientedCmp.eq_swap
    simp [hab, hba] at hswap
  rw [heq]

/-- The value of the last binding of a key. -/
def lastBinding (bindings : List (κ × β)) (k : κ) : Option β :=
  (bindings.reverse.find? (·.1 = k)).map Prod.snd

omit [LawfulEqCmp cmp] in
theorem lastBinding_append (front back : List (κ × β)) (k : κ) :
    lastBinding (front ++ back) k = (lastBinding back k).or (lastBinding front k) := by
  rw [lastBinding, List.reverse_append, List.find?_append, Option.map_or]
  rfl

/-- Filling a map, the last binding of a key wins. -/
theorem getElem?_filled_eq_lastBinding (bindings : List (κ × β)) (k : κ) :
    (filled bindings : ExtTreeMap κ β cmp)[k]? = lastBinding bindings k := by
  induction bindings using List.reverseRecOn with
  | nil => simp [filled, lastBinding]
  | append_singleton bindings e ih =>
      rw [filled_concat, getElem?_insert, lastBinding_append, ih]
      by_cases hk : k = e.1
      · simp [lastBinding, hk]
      · simp [lastBinding, hk, Ne.symm hk]

theorem filled_toList (m : ExtTreeMap κ β cmp) : filled m.toList = m := by
  apply ExtTreeMap.ext_getElem?
  intro k
  have hdistinct : (m.toList.map Prod.fst).Nodup := by
    rw [ExtTreeMap.map_fst_toList_eq_keys]
    exact nodup_keys m
  apply Option.ext
  intro b
  rw [getElem?_filled hdistinct, ExtTreeMap.mem_toList_iff_getElem?_eq_some]

theorem lastBinding_toList (m : ExtTreeMap κ β cmp) (k : κ) : lastBinding m.toList k = m[k]? :=
  calc
    lastBinding m.toList k = (filled m.toList : ExtTreeMap κ β cmp)[k]? :=
      (getElem?_filled_eq_lastBinding m.toList k).symm
    _ = m[k]? := by rw [filled_toList]

omit [LawfulEqCmp cmp] [DecidableEq κ] in
theorem size_filled_le (bindings : List (κ × β)) :
    (filled bindings : ExtTreeMap κ β cmp).size ≤ bindings.length := by
  induction bindings using List.reverseRecOn with
  | nil => simp [filled]
  | append_singleton bindings e ih =>
      rw [filled_concat, List.length_append]
      exact ExtTreeMap.size_insert_le.trans (Nat.add_le_add_right ih 1)

/-- A filled map has as many entries as bindings only if no key occurs twice. -/
theorem nodup_of_size_filled {bindings : List (κ × β)}
    (h : (filled bindings : ExtTreeMap κ β cmp).size = bindings.length) :
    (bindings.map Prod.fst).Nodup := by
  induction bindings using List.reverseRecOn with
  | nil => exact List.nodup_nil
  | append_singleton bindings e ih =>
      have hle : (filled bindings : ExtTreeMap κ β cmp).size ≤ bindings.length :=
        size_filled_le bindings
      rw [filled_concat, ExtTreeMap.size_insert, List.length_append, List.length_singleton] at h
      split at h
      · omega
      · next hfresh =>
          have hfront := ih (by omega)
          rw [List.map_append, List.nodup_append]
          refine ⟨hfront, List.nodup_singleton _, ?_⟩
          intro a ha b hb hab
          obtain ⟨⟨k, v⟩, hmem, rfl⟩ := List.mem_map.mp ha
          have hget : (filled bindings : ExtTreeMap κ β cmp)[k]? = some v :=
            (getElem?_filled hfront k v).mpr hmem
          obtain rfl : k = e.1 := hab.trans (List.mem_singleton.mp hb)
          rw [ExtTreeMap.contains_eq_isSome_getElem?, hget] at hfresh
          exact hfresh rfl

end Filled

end OrderedMap
