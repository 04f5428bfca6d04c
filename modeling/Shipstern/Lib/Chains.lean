import Mathlib

/-!
# The longest walk from a node

The longest walk from a node of a graph is one link more than the longest of the walks from
the nodes that it links to. Walks are bounded only where no cycle can be reached.
-/

namespace Chains

universe u

variable {α : Type u} {Links : α → α → Prop} {a b c : α} {m n : Nat}

/-- A walk of the given number of links. -/
inductive Walk (Links : α → α → Prop) : Nat → α → α → Prop
  | refl (a : α) : Walk Links 0 a a
  | link {n : Nat} {a b c : α} (head : Links a b) (rest : Walk Links n b c) :
      Walk Links (n + 1) a c

/-- A walk of at least one link. -/
abbrev Leads (Links : α → α → Prop) : α → α → Prop := Relation.TransGen Links

/-- No walk from the node has more links than the given number, which one of them has. -/
structure IsLongest (Links : α → α → Prop) (a : α) (n : Nat) : Prop where
  attained : ∃ b, Walk Links n a b
  bounded : ∀ m b, Walk Links m a b → m ≤ n

/-- The same of the walks that start with a link into the list. -/
structure IsLongestInto (Links : α → α → Prop) (targets : List α) (n : Nat) : Prop where
  attained : n = 0 ∨ ∃ b ∈ targets, ∃ m c, Walk Links m b c ∧ n = m + 1
  bounded : ∀ b ∈ targets, ∀ m c, Walk Links m b c → m + 1 ≤ n

theorem Walk.append (h : Walk Links m a b) (hnext : Walk Links n b c) :
    Walk Links (m + n) a c := by
  induction h with
  | refl => simpa using hnext
  | @link m a b' b head _ ih =>
      rw [Nat.add_right_comm]
      exact .link head (ih hnext)

/-- The first links of a walk. -/
theorem Walk.take (h : Walk Links n a c) (hle : m ≤ n) : ∃ b, Walk Links m a b := by
  induction h generalizing m with
  | refl a =>
      obtain rfl : m = 0 := Nat.le_zero.mp hle
      exact ⟨a, .refl a⟩
  | @link n a b c head _ ih =>
      cases m with
      | zero => exact ⟨a, .refl a⟩
      | succ m =>
          obtain ⟨b', hb⟩ := ih (Nat.le_of_succ_le_succ hle)
          exact ⟨b', .link head hb⟩

theorem Leads.exists_walk (h : Leads Links a b) : ∃ n, Walk Links (n + 1) a b := by
  induction h with
  | single hlink => exact ⟨0, .link hlink (.refl _)⟩
  | tail _ hlink ih =>
      obtain ⟨n, hn⟩ := ih
      exact ⟨n + 1, hn.append (.link hlink (.refl _))⟩

theorem exists_walk_of_reaches (h : Relation.ReflTransGen Links a b) :
    ∃ n, Walk Links n a b := by
  induction h with
  | refl => exact ⟨0, .refl a⟩
  | tail _ hlink ih =>
      obtain ⟨n, hn⟩ := ih
      exact ⟨n + 1, hn.append (.link hlink (.refl _))⟩

/-- Around a cycle there are walks of any length. -/
theorem exists_walk_of_cycle (hcycle : Leads Links a a) (n : Nat) :
    ∃ m, n ≤ m ∧ Walk Links m a a := by
  obtain ⟨k, hk⟩ := hcycle.exists_walk
  induction n with
  | zero => exact ⟨0, Nat.le_refl 0, .refl a⟩
  | succ n ih =>
      obtain ⟨m, hle, hm⟩ := ih
      exact ⟨m + (k + 1), by omega, hm.append hk⟩

/-- Where walks are bounded no cycle is reached. -/
theorem not_cycle_of_bounded (hbounded : ∀ m b, Walk Links m a b → m ≤ n)
    (hreach : Relation.ReflTransGen Links a b) : ¬ Leads Links b b := by
  intro hcycle
  obtain ⟨m, hm⟩ := exists_walk_of_reaches hreach
  obtain ⟨k, hle, hk⟩ := exists_walk_of_cycle hcycle (n + 1)
  have := hbounded (m + k) b (hm.append hk)
  omega

theorem IsLongestInto.nil : IsLongestInto Links [] 0 := ⟨.inl rfl, by simp⟩

theorem IsLongestInto.concat {targets : List α} (h : IsLongestInto Links targets m)
    (hb : IsLongest Links b n) : IsLongestInto Links (targets ++ [b]) (max m (n + 1)) where
  attained := by
    obtain hle | hlt := Nat.le_total m (n + 1)
    · obtain ⟨c, hc⟩ := hb.attained
      exact .inr ⟨b, by simp, n, c, hc, by omega⟩
    · obtain rfl | ⟨b', hb', k, c, hc, hm⟩ := h.attained
      · omega
      · exact .inr ⟨b', by simp [hb'], k, c, hc, by omega⟩
  bounded := by
    intro b' hb' k c hc
    obtain hb' | hb' := List.mem_append.mp hb'
    · have := h.bounded b' hb' k c hc
      omega
    · cases List.mem_singleton.mp hb'
      have := hb.bounded k c hc
      omega

theorem IsLongestInto.isLongest {targets : List α} (h : IsLongestInto Links targets n)
    (htargets : ∀ b, Links a b ↔ b ∈ targets) : IsLongest Links a n where
  attained := by
    obtain rfl | ⟨b, hb, m, c, hc, rfl⟩ := h.attained
    · exact ⟨a, .refl a⟩
    · exact ⟨c, .link ((htargets b).mpr hb) hc⟩
  bounded := by
    intro m c hc
    cases hc with
    | refl => exact Nat.zero_le n
    | link head rest => exact h.bounded _ ((htargets _).mp head) _ _ rest

end Chains
