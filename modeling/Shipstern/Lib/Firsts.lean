import Mathlib

/-!
# The first item of each key

A pass over a list that keeps an item when its key has not been seen. What is kept of a key is
what a search for the key finds.
-/

namespace Firsts

universe u v

variable {α : Type u} {κ : Type v} [DecidableEq κ] (key : α → κ)

def firsts : List κ → List α → List α
  | _, [] => []
  | seen, a :: rest =>
      if key a ∈ seen then firsts seen rest else a :: firsts (key a :: seen) rest

variable {key}

theorem mem_firsts {seen : List κ} {items : List α} {a : α} :
    a ∈ firsts key seen items ↔
      key a ∉ seen ∧ items.find? (fun b => key b = key a) = some a := by
  induction items generalizing seen with
  | nil => simp [firsts]
  | cons b rest ih =>
      rw [firsts]
      by_cases hkey : key b = key a
      · -- the search stops at `b`
        have hfind : (b :: rest).find? (fun c => key c = key a) = some b :=
          List.find?_cons_of_pos (by simpa using hkey)
        rw [hfind, Option.some.injEq]
        by_cases hseen : key b ∈ seen
        · have hseen' : key a ∈ seen := hkey ▸ hseen
          simp [hseen, ih, hseen']
        · have hseen' : key a ∉ seen := hkey ▸ hseen
          simp only [hkey, hseen', if_false, List.mem_cons, ih, not_true_eq_false,
            false_and, or_false, not_false_eq_true, true_and]
          exact eq_comm
      · have hfind : (b :: rest).find? (fun c => key c = key a) =
            rest.find? (fun c => key c = key a) :=
          List.find?_cons_of_neg (by simpa using hkey)
        have hne : a ≠ b := fun hab => hkey (hab ▸ rfl)
        rw [hfind]
        by_cases hseen : key b ∈ seen
        · simp [hseen, ih]
        · have hcons : key a ∉ key b :: seen ↔ key a ∉ seen := by
            simp [List.mem_cons, Ne.symm hkey]
          rw [if_neg hseen, List.mem_cons, or_iff_right hne, ih, hcons]

/-- A key that occurs and has not been seen is kept. -/
theorem mem_map_firsts {seen : List κ} {items : List α} {k : κ} :
    k ∈ (firsts key seen items).map key ↔ k ∉ seen ∧ k ∈ items.map key := by
  rw [List.mem_map, List.mem_map]
  constructor
  · rintro ⟨a, ha, rfl⟩
    obtain ⟨hseen, hfind⟩ := mem_firsts.mp ha
    exact ⟨hseen, a, List.mem_of_find?_eq_some hfind, rfl⟩
  · rintro ⟨hseen, a, ha, rfl⟩
    obtain ⟨first, hfirst⟩ : ∃ first, items.find? (fun b => key b = key a) = some first :=
      Option.isSome_iff_exists.mp (List.find?_isSome.mpr ⟨a, ha, by simp⟩)
    have hkey : key first = key a := by simpa using List.find?_some hfirst
    exact ⟨first, mem_firsts.mpr ⟨hkey ▸ hseen, hkey ▸ hfirst⟩, hkey⟩

theorem nodup_firsts (seen : List κ) (items : List α) : ((firsts key seen items).map key).Nodup := by
  induction items generalizing seen with
  | nil => exact List.nodup_nil
  | cons a rest ih =>
      rw [firsts]
      split
      · exact ih seen
      · rw [List.map_cons, List.nodup_cons]
        exact ⟨fun hmem => (mem_map_firsts.mp hmem).1 List.mem_cons_self, ih _⟩

end Firsts
