import Mathlib

/-!
# Logs whose entries are justified by their past

A log lists what happened in order. A property of an entry and of what was logged before it
is checked at every entry; a log that is written in parts is checked part by part.
-/

namespace Log

universe u

variable {ε : Type u} {P : List ε → ε → Prop} {past log log' : List ε}

/-- Every entry of the log holds of what was logged before it, `past` included. -/
def Justified (P : List ε → ε → Prop) (past log : List ε) : Prop :=
  ∀ front e back, log = front ++ e :: back → P (past ++ front) e

theorem Justified.nil : Justified P past [] := by
  intro front e back h
  simp at h

theorem justified_cons {e : ε} :
    Justified P past (e :: log) ↔ P past e ∧ Justified P (past ++ [e]) log := by
  constructor
  · intro h
    refine ⟨by simpa using h [] e log rfl, ?_⟩
    intro front e' back hlog
    have := h (e :: front) e' back (by rw [hlog, List.cons_append])
    simpa using this
  · rintro ⟨hhead, hrest⟩ front e' back hlog
    cases front with
    | nil =>
        cases hlog
        simpa using hhead
    | cons x front =>
        obtain ⟨rfl, hback⟩ := List.cons.inj hlog
        simpa using hrest front e' back hback

theorem justified_append :
    Justified P past (log ++ log') ↔ Justified P past log ∧ Justified P (past ++ log) log' := by
  induction log generalizing past with
  | nil => simp [Justified.nil]
  | cons e log ih =>
      rw [List.cons_append, justified_cons, justified_cons, ih, and_assoc,
        List.append_assoc, List.singleton_append]

/-- Parts that keep an invariant of the past and are justified wherever it holds make a log
that is justified. -/
theorem Justified.flatten {I : List ε → Prop} {parts : List (List ε)}
    (step : ∀ part ∈ parts, ∀ past, I past → Justified P past part ∧ I (past ++ part))
    (start : I past) : Justified P past parts.flatten ∧ I (past ++ parts.flatten) := by
  induction parts generalizing past with
  | nil => exact ⟨.nil, by simpa using start⟩
  | cons part parts ih =>
      obtain ⟨hpart, hnext⟩ := step part List.mem_cons_self past start
      obtain ⟨hrest, hlast⟩ := ih (fun part hmem => step part (List.mem_cons_of_mem _ hmem)) hnext
      rw [List.flatten_cons, ← List.append_assoc]
      exact ⟨justified_append.mpr ⟨hpart, hrest⟩, hlast⟩

end Log
