import Mathlib

/-!
# Gap-free segments of a set

A producer that walks through a set in order, one predecessor link at a time, must never
skip an element. `IsParentIn` says that a function picks predecessors in a set, and
`Segment` that a list runs through the set without gaps. A segment can only grow at its
end by the element whose predecessor is the last one: any other element of the set that
is above the first one and not yet listed has its predecessor beyond the end.
-/

namespace Succession

universe u

variable {κ : Type u} [LinearOrder κ]

/-- Every non-minimal element of the set has the greatest smaller element as its parent. -/
def IsParentIn (C : Set κ) (parent : κ → κ) : Prop :=
  ∀ s ∈ C, (∃ c ∈ C, c < s) → IsGreatest {c | c ∈ C ∧ c < s} (parent s)

/-- The list runs through the set in ascending order and leaves nothing out between any
two of its elements. -/
structure Segment (C : Set κ) (xs : List κ) : Prop where
  mem : ∀ x ∈ xs, x ∈ C
  increasing : xs.Pairwise (· < ·)
  gapFree : ∀ c ∈ C, ∀ a ∈ xs, ∀ b ∈ xs, a ≤ c → c ≤ b → c ∈ xs

namespace Segment

variable {C : Set κ} {parent : κ → κ} {xs : List κ} {f l x : κ}

theorem nil : Segment C [] := ⟨by simp, .nil, by simp⟩

theorem le_getLast (h : Segment C xs) (hl : xs.getLast? = some l) (hx : x ∈ xs) : x ≤ l := by
  obtain ⟨front, rfl⟩ := List.getLast?_eq_some_iff.mp hl
  obtain hin | hin := List.mem_append.mp hx
  · exact ((List.pairwise_append.mp h.increasing).2.2 x hin l (by simp)).le
  · exact (List.mem_singleton.mp hin).le

/-- An unlisted element above the first one, whose parent is not beyond the last one,
is the successor of the last one. -/
theorem parent_eq_getLast (h : Segment C xs) (hparent : IsParentIn C parent) (hf : f ∈ xs)
    (hl : xs.getLast? = some l) (hx : x ∈ C) (hnew : x ∉ xs) (hfx : f < x)
    (hle : parent x ≤ l) : parent x = l ∧ l < x := by
  have hlmem : l ∈ xs := List.mem_of_getLast? hl
  have hlx : l < x := by
    obtain hlt | hge := lt_or_ge l x
    · exact hlt
    · exact absurd (h.gapFree x hx f hf l hlmem hfx.le hge) hnew
  have hgreatest := hparent x hx ⟨f, h.mem f hf, hfx⟩
  exact ⟨le_antisymm hle (hgreatest.2 ⟨h.mem l hlmem, hlx⟩), hlx⟩

/-- A segment grows by the element whose parent is its last one. -/
theorem concat (h : Segment C xs) (hx : x ∈ C)
    (hnext : ∀ l, xs.getLast? = some l → l < x ∧ ∀ c ∈ C, c < x → c ≤ l) :
    Segment C (xs ++ [x]) := by
  obtain rfl | ⟨front, l, rfl⟩ := List.eq_nil_or_concat' xs
  · refine ⟨by simpa using hx, by simp, ?_⟩
    intro c _ a ha b hb hac hcb
    simp only [List.nil_append, List.mem_singleton] at ha hb ⊢
    subst ha hb
    exact le_antisymm hcb hac
  · obtain ⟨hlx, hmax⟩ := hnext l (by simp)
    have hbelow : ∀ a ∈ front ++ [l], a ≤ l := fun a ha => h.le_getLast (by simp) ha
    refine ⟨?_, ?_, ?_⟩
    · intro a ha
      obtain hold | hnew := List.mem_append.mp ha
      · exact h.mem a hold
      · exact (List.mem_singleton.mp hnew) ▸ hx
    · refine List.pairwise_append.mpr ⟨h.increasing, by simp, ?_⟩
      intro a ha b hb
      rw [List.mem_singleton.mp hb]
      exact lt_of_le_of_lt (hbelow a ha) hlx
    · intro c hc a ha b hb hac hcb
      have hcx : c ≤ x := by
        obtain hold | hnew := List.mem_append.mp hb
        · exact le_trans hcb ((hbelow b hold).trans hlx.le)
        · exact hcb.trans (List.mem_singleton.mp hnew).le
      obtain rfl | hlt := eq_or_lt_of_le hcx
      · simp
      · refine List.mem_append_left _ ?_
        obtain hold | hnew := List.mem_append.mp ha
        · exact h.gapFree c hc a hold l (by simp) hac (hmax c hc hlt)
        · rw [List.mem_singleton.mp hnew] at hac
          exact absurd hlt (not_lt.mpr hac)

end Segment

end Succession
