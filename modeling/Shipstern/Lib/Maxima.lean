import Mathlib

/-!
# The successive maxima of a sequence

An item is a successive maximum when every item before it is smaller. A pass that holds the
largest item so far, gives it up when a larger one arrives and gives up the last one at the
end lists them.
-/

namespace Maxima

universe u

variable {α : Type u} [LinearOrder α]

/-- The item occurs where everything before it is smaller. -/
def IsMaximum (items : List α) (m : α) : Prop :=
  ∃ front back, items = front ++ m :: back ∧ ∀ a ∈ front, a < m

/-- The list of the items that are larger than all items before them, each once. -/
structure SuccessiveMaxima (items maxima : List α) : Prop where
  increasing : maxima.Pairwise (· < ·)
  mem_iff : ∀ m, m ∈ maxima ↔ IsMaximum items m

/-- The pass, with the item it holds. -/
def givenUp : Option α → List α → List α
  | none, [] => []
  | some top, [] => [top]
  | none, a :: rest => givenUp (some a) rest
  | some top, a :: rest =>
      if top < a then top :: givenUp (some a) rest else givenUp (some top) rest

variable {a m top : α} {items rest : List α}

theorem isMaximum_cons : IsMaximum (a :: rest) m ↔ m = a ∨ a < m ∧ IsMaximum rest m := by
  constructor
  · rintro ⟨front, back, hitems, hsmaller⟩
    cases front with
    | nil =>
        cases hitems
        exact .inl rfl
    | cons b front =>
        obtain ⟨rfl, hrest⟩ := List.cons.inj hitems
        exact .inr ⟨hsmaller a List.mem_cons_self, front, back, hrest,
          fun b hb => hsmaller b (List.mem_cons_of_mem _ hb)⟩
  · rintro (rfl | ⟨hlt, front, back, rfl, hsmaller⟩)
    · exact ⟨[], rest, rfl, by simp⟩
    · refine ⟨a :: front, back, rfl, ?_⟩
      rintro b (_ | ⟨_, hb⟩)
      · exact hlt
      · exact hsmaller b hb

theorem mem_givenUp_some :
    m ∈ givenUp (some top) items ↔ m = top ∨ top < m ∧ IsMaximum items m := by
  induction items generalizing top with
  | nil => simp [givenUp, IsMaximum]
  | cons a rest ih =>
      rw [givenUp, isMaximum_cons]
      split
      · next hlt =>
          rw [List.mem_cons, ih]
          constructor
          · rintro (rfl | rfl | ⟨hm, hmax⟩)
            · exact .inl rfl
            · exact .inr ⟨hlt, .inl rfl⟩
            · exact .inr ⟨hlt.trans hm, .inr ⟨hm, hmax⟩⟩
          · rintro (rfl | ⟨hm, rfl | hmax⟩)
            · exact .inl rfl
            · exact .inr (.inl rfl)
            · exact .inr (.inr hmax)
      · next hle =>
          rw [ih]
          constructor
          · rintro (rfl | ⟨hm, hmax⟩)
            · exact .inl rfl
            · exact .inr ⟨hm, .inr ⟨(not_lt.mp hle).trans_lt hm, hmax⟩⟩
          · rintro (rfl | ⟨hm, rfl | ⟨-, hmax⟩⟩)
            · exact .inl rfl
            · exact absurd hm hle
            · exact .inr ⟨hm, hmax⟩

theorem givenUp_increasing (top : Option α) (items : List α) :
    (givenUp top items).Pairwise (· < ·) := by
  induction items generalizing top with
  | nil => cases top <;> simp [givenUp]
  | cons a rest ih =>
      cases top with
      | none => exact ih (some a)
      | some top =>
          rw [givenUp]
          split
          · next hlt =>
              refine List.pairwise_cons.mpr ⟨fun m hm => ?_, ih (some a)⟩
              obtain rfl | ⟨hm, -⟩ := mem_givenUp_some.mp hm
              · exact hlt
              · exact hlt.trans hm
          · exact ih (some top)

theorem successiveMaxima_givenUp (items : List α) :
    SuccessiveMaxima items (givenUp none items) where
  increasing := givenUp_increasing none items
  mem_iff := by
    intro m
    cases items with
    | nil => simp [givenUp, IsMaximum]
    | cons a rest => rw [givenUp, mem_givenUp_some, isMaximum_cons]

end Maxima
