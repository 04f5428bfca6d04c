import Mathlib

/-!
# Bounded retry

A step that reports an outcome is run again while its outcome asks for it and attempts
are left. The outcome of the loop is the outcome of its last run. `Repeats` lists the runs
before the last one; each of them asked for another attempt.
-/

namespace Retry

universe u v

variable {σ : Type u} {ω : Type v}

/-- Run the step once and again at most `left` more times. -/
def tries (step : σ → ω × σ) (again : ω → Bool) : Nat → σ → ω × σ
  | 0, s => step s
  | left + 1, s =>
      if again (step s).1 then tries step again left (step s).2 else step s

/-- The loop over `1..=max_attempts`, with the bound raised to one. -/
def retry (maxAttempts : Nat) (step : σ → ω × σ) (again : ω → Bool) (s : σ) : ω × σ :=
  tries step again (max maxAttempts 1 - 1) s

/-- `n` runs of the step that all asked for another one. -/
inductive Repeats (step : σ → ω × σ) (again : ω → Bool) : Nat → σ → σ → Prop
  | none {s : σ} : Repeats step again 0 s s
  | more {n : Nat} {s t : σ} (asked : again (step s).1 = true)
      (rest : Repeats step again n (step s).2 t) : Repeats step again (n + 1) s t

variable {step : σ → ω × σ} {again : ω → Bool} {s : σ}

/-- A retry loop is some runs that asked for another one and a last run, which is final or
the last that was allowed. -/
theorem tries_spec (step : σ → ω × σ) (again : ω → Bool) (left : Nat) (s : σ) :
    ∃ n t, n ≤ left ∧ Repeats step again n s t ∧ tries step again left s = step t ∧
      (again (step t).1 = true → n = left) := by
  induction left generalizing s with
  | zero => exact ⟨0, s, Nat.le_refl 0, .none, rfl, fun _ => rfl⟩
  | succ left ih =>
      by_cases hagain : again (step s).1 = true
      · obtain ⟨n, t, hle, hrepeats, hlast, hfull⟩ := ih (step s).2
        refine ⟨n + 1, t, Nat.succ_le_succ hle, .more hagain hrepeats, ?_, ?_⟩
        · rw [tries, if_pos hagain, hlast]
        · intro hasked
          rw [hfull hasked]
      · exact ⟨0, s, Nat.zero_le _, .none, by rw [tries, if_neg hagain],
          fun hasked => absurd hasked hagain⟩

/-- What every run that asks for another one preserves holds before the last run. -/
theorem Repeats.invariant {P : σ → Prop} {n : Nat} {t : σ} (h : Repeats step again n s t)
    (preserved : ∀ s, P s → again (step s).1 = true → P (step s).2) (start : P s) : P t := by
  induction h with
  | none => exact start
  | more asked _ ih => exact ih (preserved _ start asked)

/-- Where every run appends to a log, the loop appends what its runs append, one after the
other. -/
theorem Repeats.log {ε : Type*} {P : List ε → Prop} {n : Nat} {t : σ}
    (h : Repeats step again n s t) (log : σ → List ε)
    (appends : ∀ s, again (step s).1 = true → ∃ es, P es ∧ log (step s).2 = log s ++ es) :
    ∃ tried : List (List ε), tried.length = n ∧ (∀ es ∈ tried, P es) ∧
      log t = log s ++ tried.flatten := by
  induction h with
  | none => exact ⟨[], rfl, by simp, by simp⟩
  | @more n s t asked _ ih =>
      obtain ⟨es, hes, hstep⟩ := appends s asked
      obtain ⟨tried, hlength, htried, hlog⟩ := ih
      refine ⟨es :: tried, by simp [hlength], ?_, ?_⟩
      · rintro es' (_ | ⟨_, hmem⟩)
        · exact hes
        · exact htried es' hmem
      · rw [hlog, hstep, List.flatten_cons, List.append_assoc]

end Retry
