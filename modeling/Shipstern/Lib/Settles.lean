import Mathlib

/-!
# Recursion with so many levels

A recursion that follows no structure is given a number of levels and has no result when they do
not suffice. It settles when every number of levels that is large enough gives the same result.
Settling passes through the ways in which such a recursion uses its calls, so a recursion settles
as soon as the calls it makes do.
-/

open Filter

namespace Levels

universe u v

variable {α β : Type u}

/-- From some number of levels on there is one result. -/
def Settles (run : Nat → Option α) : Prop := ∃ a, ∀ᶠ levels in atTop, run levels = some a

namespace Settles

theorem const (a : α) : Settles fun _ => some a := ⟨a, .of_forall fun _ => rfl⟩

/-- One level for the call itself. -/
theorem succ {run : Nat → Option α} (h : Settles fun levels => run (levels + 1)) : Settles run := by
  obtain ⟨a, ha⟩ := h
  obtain ⟨enough, hall⟩ := eventually_atTop.mp ha
  refine ⟨a, eventually_atTop.mpr ⟨enough + 1, fun levels hlevels => ?_⟩⟩
  obtain ⟨more, rfl⟩ : ∃ more, levels = more + 1 := ⟨levels - 1, by omega⟩
  exact hall more (by omega)

theorem bind {run : Nat → Option α} {next : Nat → α → Option β} (h : Settles run)
    (hnext : ∀ a, Settles fun levels => next levels a) :
    Settles fun levels => (run levels).bind (next levels) := by
  obtain ⟨a, ha⟩ := h
  obtain ⟨b, hb⟩ := hnext a
  refine ⟨b, (ha.and hb).mono fun levels hboth => ?_⟩
  obtain ⟨hrun, hrest⟩ := hboth
  simp only [hrun, Option.bind_some]
  exact hrest

theorem map {run : Nat → Option α} (h : Settles run) (f : α → β) :
    Settles fun levels => (run levels).map f := by
  obtain ⟨a, ha⟩ := h
  exact ⟨f a, ha.mono fun levels hrun => by simp only [hrun, Option.map_some]⟩

theorem mapM {ι : Type v} {run : Nat → ι → Option α} {inputs : List ι}
    (h : ∀ i ∈ inputs, Settles fun levels => run levels i) :
    Settles fun levels => inputs.mapM (run levels) := by
  induction inputs with
  | nil => exact const []
  | cons i inputs ih =>
      obtain ⟨hfirst, hrest⟩ := List.forall_mem_cons.mp h
      simp only [List.mapM_cons]
      exact hfirst.bind fun a => (ih hrest).bind fun rest => const (a :: rest)

end Settles

end Levels
