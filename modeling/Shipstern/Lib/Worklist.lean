import Mathlib

/-!
# Reachability with a worklist

A search takes a node from the stack and, if it was not seen before, pushes the nodes that it
links to. A node is expanded once, so the initial stack and all links bound the number of
turns. With that much fuel the nodes seen at the end are those that are reachable from the
stack.
-/

namespace Worklist

variable {α : Type} [DecidableEq α] (links : α → List α)

/-- Reachable in any number of links. -/
abbrev Reaches : α → α → Prop := Relation.ReflTransGen fun a b => b ∈ links a

/-- The head of the stack is its top. -/
def search : Nat → List α → List α → List α
  | 0, seen, _ => seen
  | _ + 1, seen, [] => seen
  | fuel + 1, seen, a :: stack =>
      if a ∈ seen then search fuel seen stack
      else search fuel (a :: seen) ((links a).reverse ++ stack)

/-- The links of the keys that are not seen yet. -/
def unseenLinks (keys seen : List α) : Nat :=
  (keys.map fun key => if key ∈ seen then 0 else (links key).length).sum

/-- The turns that are left when only the given keys have links. -/
def potential (keys seen stack : List α) : Nat := stack.length + unseenLinks links keys seen

theorem unseenLinks_cons_le (keys seen : List α) (a : α) :
    unseenLinks links keys (a :: seen) ≤ unseenLinks links keys seen := by
  induction keys with
  | nil => exact Nat.le_refl _
  | cons key keys ih =>
      simp only [unseenLinks, List.map_cons, List.sum_cons, List.mem_cons] at ih ⊢
      split
      · omega
      · next hkey =>
          rw [if_neg fun h => hkey (Or.inr h)]
          omega

theorem unseenLinks_cons {keys seen : List α} {a : α} (ha : a ∉ seen) (hmem : a ∈ keys) :
    (links a).length + unseenLinks links keys (a :: seen) ≤ unseenLinks links keys seen := by
  induction keys with
  | nil => cases hmem
  | cons key keys ih =>
      by_cases hkey : a = key
      · subst hkey
        have hle := unseenLinks_cons_le links keys seen a
        simp only [unseenLinks, List.map_cons, List.sum_cons, List.mem_cons, true_or, if_true,
          if_neg ha] at hle ⊢
        omega
      · have hrest := ih ((List.mem_cons.mp hmem).resolve_left hkey)
        have hle : (if key ∈ a :: seen then 0 else (links key).length) =
            if key ∈ seen then 0 else (links key).length := by
          have hne : key ≠ a := fun h => hkey h.symm
          simp [hne]
        simp only [unseenLinks, List.map_cons, List.sum_cons] at hrest ⊢
        omega

theorem potential_expand {keys seen stack : List α} {a : α} (hkeys : ∀ b ∉ keys, links b = [])
    (ha : a ∉ seen) :
    potential links keys (a :: seen) ((links a).reverse ++ stack) ≤
      potential links keys seen stack := by
  have hsum : (links a).length + unseenLinks links keys (a :: seen) ≤
      unseenLinks links keys seen := by
    by_cases hmem : a ∈ keys
    · exact unseenLinks_cons links ha hmem
    · rw [hkeys a hmem, List.length_nil, Nat.zero_add]
      exact unseenLinks_cons_le links keys seen a
  simp only [potential, List.length_append, List.length_reverse]
  omega

variable {links}

theorem subset_search (fuel : Nat) {seen stack : List α} :
    seen ⊆ search links fuel seen stack := by
  induction fuel generalizing seen stack with
  | zero => exact List.Subset.refl seen
  | succ fuel ih =>
      cases stack with
      | nil => exact List.Subset.refl seen
      | cons a stack =>
          rw [search]
          split
          · exact ih
          · exact List.Subset.trans (List.subset_cons_self a seen) ih

/-- Everything that is seen is reachable. -/
theorem reaches_of_mem_search {fuel : Nat} {seen stack : List α} {b : α}
    (h : b ∈ search links fuel seen stack) : b ∈ seen ∨ ∃ a ∈ stack, Reaches links a b := by
  induction fuel generalizing seen stack with
  | zero => exact Or.inl h
  | succ fuel ih =>
      cases stack with
      | nil => exact Or.inl h
      | cons a stack =>
          rw [search] at h
          split at h
          · exact (ih h).imp_right fun ⟨c, hc, hreach⟩ => ⟨c, List.mem_cons_of_mem a hc, hreach⟩
          · obtain hseen | ⟨c, hc, hreach⟩ := ih h
            · obtain rfl | hseen := List.mem_cons.mp hseen
              · exact Or.inr ⟨b, List.mem_cons_self, .refl⟩
              · exact Or.inl hseen
            · obtain hc | hc := List.mem_append.mp hc
              · exact Or.inr ⟨a, List.mem_cons_self, .head (List.mem_reverse.mp hc) hreach⟩
              · exact Or.inr ⟨c, List.mem_cons_of_mem a hc, hreach⟩

/-- With enough fuel the search ends with a set that contains the stack and is closed under
links. -/
theorem search_closed {keys : List α} (hkeys : ∀ b ∉ keys, links b = []) {fuel : Nat}
    {seen stack : List α} (hfuel : potential links keys seen stack ≤ fuel)
    (hseen : ∀ a ∈ seen, ∀ b ∈ links a, b ∈ seen ∨ b ∈ stack) :
    stack ⊆ search links fuel seen stack ∧
      ∀ a ∈ search links fuel seen stack, ∀ b ∈ links a, b ∈ search links fuel seen stack := by
  induction fuel generalizing seen stack with
  | zero =>
      obtain rfl : stack = [] := by
        refine List.eq_nil_of_length_eq_zero ?_
        simp only [potential] at hfuel
        omega
      exact ⟨List.nil_subset _, fun a ha b hb => (hseen a ha b hb).resolve_right List.not_mem_nil⟩
  | succ fuel ih =>
      cases stack with
      | nil =>
          exact ⟨List.nil_subset _,
            fun a ha b hb => (hseen a ha b hb).resolve_right List.not_mem_nil⟩
      | cons a stack =>
          rw [search]
          split
          · next ha =>
              have hpotential : potential links keys seen stack ≤ fuel := by
                simp only [potential, List.length_cons] at hfuel ⊢
                omega
              obtain ⟨hstack, hclosed⟩ := ih hpotential fun b hb c hc => by
                obtain h | h := hseen b hb c hc
                · exact Or.inl h
                · obtain rfl | h := List.mem_cons.mp h
                  · exact Or.inl ha
                  · exact Or.inr h
              exact ⟨List.cons_subset.mpr ⟨subset_search fuel ha, hstack⟩, hclosed⟩
          · next ha =>
              have hpotential : potential links keys (a :: seen) ((links a).reverse ++ stack) ≤
                  fuel := by
                have hle := @potential_expand α _ links keys seen stack a hkeys ha
                simp only [potential, List.length_cons] at hfuel hle ⊢
                omega
              obtain ⟨hstack, hclosed⟩ := ih hpotential fun b hb c hc => by
                obtain rfl | hb := List.mem_cons.mp hb
                · exact Or.inr (List.mem_append_left _ (List.mem_reverse.mpr hc))
                · obtain h | h := hseen b hb c hc
                  · exact Or.inl (List.mem_cons_of_mem a h)
                  · obtain rfl | h := List.mem_cons.mp h
                    · exact Or.inl List.mem_cons_self
                    · exact Or.inr (List.mem_append_right _ h)
              refine ⟨List.cons_subset.mpr ⟨subset_search fuel List.mem_cons_self, ?_⟩, hclosed⟩
              exact fun b hb => hstack (List.mem_append_right _ hb)

/-- A search from a stack, with fuel for all links of the keys. -/
def reachable (links : α → List α) (keys stack : List α) : List α :=
  search links (potential links keys [] stack) [] stack

theorem mem_reachable {keys stack : List α} (hkeys : ∀ b ∉ keys, links b = []) {b : α} :
    b ∈ reachable links keys stack ↔ ∃ a ∈ stack, Reaches links a b := by
  obtain ⟨hstack, hclosed⟩ := search_closed hkeys (Nat.le_refl (potential links keys [] stack))
    fun a ha => absurd ha List.not_mem_nil
  constructor
  · intro h
    exact (reaches_of_mem_search h).resolve_left List.not_mem_nil
  · rintro ⟨a, ha, hreach⟩
    induction hreach with
    | refl => exact hstack ha
    | tail _ hlink ih => exact hclosed _ ih _ hlink

end Worklist
