import Mathlib

/-!
# Counting between resets

A log of events, some of which reset a counter and some of which advance it. The count at the
end of every initial part bounds the number of advances in every stretch without a reset.
-/

namespace Window

universe u

variable {α : Type u} (reset tick : α → Bool)

/-- The events after the last reset. -/
def sinceReset (events : List α) : List α := events.rtakeWhile fun e => !reset e

/-- The number of advances after the last reset. -/
def count (events : List α) : Nat := (sinceReset reset events).countP tick

variable {reset tick} {events mid : List α} {e : α} {limit : Nat}

@[simp] theorem count_nil : count reset tick ([] : List α) = 0 := rfl

theorem count_concat_reset (h : reset e = true) : count reset tick (events ++ [e]) = 0 := by
  rw [count, sinceReset, List.rtakeWhile_concat_neg _ _ _ (by simp [h])]
  rfl

theorem count_concat (h : reset e = false) :
    count reset tick (events ++ [e]) = count reset tick events + if tick e then 1 else 0 := by
  rw [count, sinceReset, List.rtakeWhile_concat_pos _ _ _ (by simp [h]), List.countP_append,
    List.countP_singleton]
  rfl

/-- Without a reset in between, the count has gone up by all advances. -/
theorem count_append (front : List α) (hmid : ∀ e ∈ mid, reset e = false) :
    count reset tick (front ++ mid) = count reset tick front + mid.countP tick := by
  induction mid using List.reverseRecOn with
  | nil => simp
  | append_singleton mid e ih =>
      rw [List.forall_mem_append] at hmid
      have hlast : reset e = false := hmid.2 e (List.mem_singleton_self e)
      rw [← List.append_assoc, count_concat hlast, ih hmid.1, List.countP_append,
        List.countP_singleton, Nat.add_assoc]

/-- Every initial part stays within the limit. -/
def Within (reset tick : α → Bool) (limit : Nat) (events : List α) : Prop :=
  ∀ front, front <+: events → count reset tick front ≤ limit

theorem Within.nil : Within reset tick limit ([] : List α) := by
  intro front hfront
  rw [List.prefix_nil.mp hfront]
  exact Nat.zero_le limit

theorem Within.concat (h : Within reset tick limit events)
    (hlast : count reset tick (events ++ [e]) ≤ limit) :
    Within reset tick limit (events ++ [e]) := by
  intro front hfront
  obtain rfl | hfront := List.prefix_concat_iff.mp hfront
  · exact hlast
  · exact h front hfront

/-- A stretch without a reset has at most the limit of advances. -/
theorem Within.stretch (h : Within reset tick limit events) (hmid : mid <:+: events)
    (hreset : ∀ e ∈ mid, reset e = false) : mid.countP tick ≤ limit := by
  obtain ⟨front, back, rfl⟩ := hmid
  have hbound := h (front ++ mid) (List.prefix_append _ _)
  rw [count_append front hreset] at hbound
  omega

end Window
