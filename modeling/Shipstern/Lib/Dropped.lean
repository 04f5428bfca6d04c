import Mathlib

/-!
# Lists with dropped entries

Some entries of a list are marked. A subsequence of the list is shorter than the list, so entries
behind a dropped one have moved to the front. When what it lacks at the end is marked, every
marked entry of its length is still in place and no other place took an entry of the tail, then
nothing has moved: the subsequence is a prefix.
-/

namespace Dropped

variable {α : Type*}

/-- Where `k` stands in the first list it stands in the second. -/
theorem count_le_count [DecidableEq α] {k : α} {ps xs : List α}
    (h : List.Forall₂ (fun p x => p = k → x = k) ps xs) : ps.count k ≤ xs.count k := by
  induction h with
  | nil => exact Nat.le_refl _
  | @cons p x ps xs hpx _ ih =>
      rw [List.count_cons, List.count_cons]
      by_cases hp : p = k
      · simp only [hp, hpx hp, beq_self_eq_true, if_true]
        omega
      · simp only [beq_iff_eq, hp, if_false]
        omega

/-- Without further entries `k` the two lists have it in the same places. -/
theorem places_of_count_le [DecidableEq α] {k : α} {ps xs : List α}
    (h : List.Forall₂ (fun p x => p = k → x = k) ps xs) (hcount : xs.count k ≤ ps.count k) :
    List.Forall₂ (fun p x => x = k → p = k) ps xs := by
  induction h with
  | nil => exact .nil
  | @cons p x ps xs hpx htail ih =>
      have hle := count_le_count htail
      rw [List.count_cons, List.count_cons] at hcount
      by_cases hp : p = k
      · simp only [hp, hpx hp, beq_self_eq_true, if_true] at hcount
        exact .cons (fun _ => hp) (ih (by omega))
      · by_cases hx : x = k
        · simp only [hx, beq_self_eq_true, if_true, beq_iff_eq, hp, if_false] at hcount
          omega
        · simp only [beq_iff_eq, hp, hx, if_false] at hcount
          exact .cons (fun hxk => absurd hxk hx) (ih (by omega))

/-- Two lists that are marked in the same places, agree there, and have the same other entries. -/
theorem eq_of_filter_eq {marked : α → Bool} {ps xs : List α}
    (h : List.Forall₂ (fun p x => (marked p → x = p) ∧ (marked x → marked p)) ps xs)
    (hfilter : ps.filter (fun a => !marked a) = xs.filter fun a => !marked a) : ps = xs := by
  induction h with
  | nil => rfl
  | @cons p x ps xs hpx htail ih =>
      cases hp : marked p with
      | true =>
          have hx : x = p := hpx.1 hp
          subst hx
          simp only [List.filter_cons, hp, Bool.not_true, Bool.false_eq_true, if_false] at hfilter
          rw [ih hfilter]
      | false =>
          have hx : marked x = false := by
            cases hmx : marked x with
            | true => exact absurd (hpx.2 hmx) (by rw [hp]; exact Bool.false_ne_true)
            | false => rfl
          simp only [List.filter_cons, hp, hx, Bool.not_false, if_true] at hfilter
          obtain ⟨rfl, htails⟩ := List.cons.inj hfilter
          rw [ih htails]

theorem length_filter_eq {marked : α → Bool} {ps xs : List α}
    (h : List.Forall₂ (fun p x => (marked p → x = p) ∧ (marked x → marked p)) ps xs) :
    (ps.filter fun a => !marked a).length = (xs.filter fun a => !marked a).length := by
  induction h with
  | nil => rfl
  | @cons p x ps xs hpx _ ih =>
      have hsame : marked p = marked x := by
        rw [Bool.eq_iff_iff]
        exact ⟨fun hp => hpx.1 hp ▸ hp, hpx.2⟩
      rw [List.filter_cons, List.filter_cons, ← hsame]
      split
      · rw [List.length_cons, List.length_cons, ih]
      · exact ih

/-- A subsequence of `ps ++ tail` of the length of `ps` is `ps` itself, when the tail is marked,
the marked entries of `ps` are in place and no entry of the tail came to an unmarked place. -/
theorem eq_of_sublist [DecidableEq α] {marked : α → Bool} {ps tail xs : List α}
    (hsub : xs.Sublist (ps ++ tail)) (htail : ∀ a ∈ tail, marked a)
    (hplace : List.Forall₂ (fun p x => marked p → x = p) ps xs)
    (hforeign : List.Forall₂ (fun p x => marked p ∨ x ∉ tail) ps xs) : ps = xs := by
  -- a marked entry of the subsequence stands in a marked place: otherwise it is none of the
  -- tail, and the places of its value in `ps` already use up all its occurrences
  have hmarked : List.Forall₂ (fun p x => marked x → marked p) ps xs := by
    rw [List.forall₂_iff_get]
    refine ⟨hplace.length_eq, fun i hi hi' hx => ?_⟩
    by_contra hp
    obtain hp' | hnot := (List.forall₂_iff_get.mp hforeign).2 i hi hi'
    · exact hp hp'
    · have hat : List.Forall₂ (fun p x => p = xs.get ⟨i, hi'⟩ → x = xs.get ⟨i, hi'⟩) ps xs := by
        refine hplace.imp fun p x hpx hpk => ?_
        rw [hpx (hpk ▸ hx), hpk]
      have hcount : xs.count (xs.get ⟨i, hi'⟩) ≤ ps.count (xs.get ⟨i, hi'⟩) := by
        have hle := hsub.count_le (xs.get ⟨i, hi'⟩)
        rwa [List.count_append, List.count_eq_zero_of_not_mem hnot, Nat.add_zero] at hle
      have hback := (List.forall₂_iff_get.mp (places_of_count_le hat hcount)).2 i hi hi' rfl
      exact hp (hback ▸ hx)
  have hboth : List.Forall₂ (fun p x => (marked p → x = p) ∧ (marked x → marked p)) ps xs := by
    rw [List.forall₂_iff_get] at hplace hmarked ⊢
    exact ⟨hplace.1, fun i hi hi' => ⟨hplace.2 i hi hi', hmarked.2 i hi hi'⟩⟩
  refine eq_of_filter_eq hboth ?_
  have hnone : tail.filter (fun a => !marked a) = [] := by
    rw [List.filter_eq_nil_iff]
    intro a ha hnot
    rw [htail a ha] at hnot
    cases hnot
  have hfilter := hsub.filter fun a => !marked a
  rw [List.filter_append, hnone, List.append_nil] at hfilter
  exact (hfilter.eq_of_length (length_filter_eq hboth).symm).symm

end Dropped
