import Mathlib

/-!
# Computations that may fail

Inversion rules for `Except`: a successful sequence of computations is a sequence of
successes. A list mapped with a fallible function succeeds element by element, and a
fallible fold is a run whose invariant may mention the inputs consumed so far.
-/

namespace Fallible

universe u v w z

variable {ε : Type u} {α β : Type v}

theorem bind_eq_ok {x : Except ε α} {f : α → Except ε β} {b : β} :
    (x >>= f) = .ok b ↔ ∃ a, x = .ok a ∧ f a = .ok b := by
  cases x with
  | error e => simp [bind, Except.bind]
  | ok a => simp [bind, Except.bind]

theorem bind_eq_error {x : Except ε α} {f : α → Except ε β} {e : ε} :
    (x >>= f) = .error e ↔ x = .error e ∨ ∃ a, x = .ok a ∧ f a = .error e := by
  cases x with
  | error failure => simp [bind, Except.bind]
  | ok a => simp [bind, Except.bind]

theorem map_eq_ok {x : Except ε α} {f : α → β} {b : β} :
    x.map f = .ok b ↔ ∃ a, x = .ok a ∧ f a = b := by
  cases x with
  | error e => simp [Except.map]
  | ok a => simp [Except.map]

theorem mapError_eq_ok {ε' : Type w} {x : Except ε α} {f : ε → ε'} {a : α} :
    x.mapError f = .ok a ↔ x = .ok a := by
  cases x with
  | error e => simp [Except.mapError]
  | ok b => simp [Except.mapError]

theorem mapM_eq_ok {ι : Type w} {f : ι → Except ε α} {inputs : List ι} {results : List α} :
    inputs.mapM f = .ok results ↔ List.Forall₂ (fun i a => f i = .ok a) inputs results := by
  induction inputs generalizing results with
  | nil => simp [pure, Except.pure, eq_comm]
  | cons i inputs ih =>
      rw [List.mapM_cons, bind_eq_ok]
      constructor
      · rintro ⟨a, ha, hrest⟩
        obtain ⟨rest, hmap, hresults⟩ := bind_eq_ok.mp hrest
        cases hresults
        exact .cons ha (ih.mp hmap)
      · intro h
        cases h with
        | cons ha hrest => exact ⟨_, ha, bind_eq_ok.mpr ⟨_, ih.mpr hrest, rfl⟩⟩

/-- A list fails with the failure of one of its items. -/
theorem exists_of_mapM_eq_error {ι : Type w} {f : ι → Except ε α} {inputs : List ι} {e : ε}
    (h : inputs.mapM f = .error e) : ∃ i ∈ inputs, f i = .error e := by
  induction inputs with
  | nil => cases h
  | cons i inputs ih =>
      rw [List.mapM_cons] at h
      rcases bind_eq_error.mp h with hi | ⟨a, -, hrest⟩
      · exact ⟨i, List.mem_cons_self, hi⟩
      · rcases bind_eq_error.mp hrest with hrest | ⟨results, -, hpure⟩
        · obtain ⟨j, hj, hfails⟩ := ih hrest
          exact ⟨j, List.mem_cons_of_mem i hj, hfails⟩
        · cases hpure

theorem exists_of_forM_eq_error {ι : Type w} {f : ι → Except ε PUnit} {inputs : List ι} {e : ε}
    (h : inputs.forM f = .error e) : ∃ i ∈ inputs, f i = .error e := by
  induction inputs with
  | nil => cases h
  | cons i inputs ih =>
      have hstep : (f i >>= fun _ => inputs.forM f) = .error e := h
      rcases bind_eq_error.mp hstep with hi | ⟨_, -, hrest⟩
      · exact ⟨i, List.mem_cons_self, hi⟩
      · obtain ⟨j, hj, hfails⟩ := ih hrest
        exact ⟨j, List.mem_cons_of_mem i hj, hfails⟩

theorem mapM_eq_some {ι : Type w} {f : ι → Option α} {inputs : List ι} {results : List α} :
    inputs.mapM f = some results ↔ List.Forall₂ (fun i a => f i = some a) inputs results := by
  induction inputs generalizing results with
  | nil => simp [eq_comm]
  | cons i inputs ih =>
      rw [List.mapM_cons]
      constructor
      · intro h
        obtain ⟨a, ha, h⟩ := Option.bind_eq_some_iff.mp h
        obtain ⟨rest, hrest, h⟩ := Option.bind_eq_some_iff.mp h
        cases h
        exact .cons ha (ih.mp hrest)
      · rintro (_ | ⟨ha, hrest⟩)
        rw [ha, ih.mpr hrest]
        rfl

theorem forall₂_exists {ι : Type w} {R : ι → α → Prop} {inputs : List ι} {results : List α}
    (h : List.Forall₂ R inputs results) {i : ι} (hi : i ∈ inputs) : ∃ a, R i a := by
  induction h with
  | nil => contradiction
  | cons hhead _ ih =>
      rcases List.mem_cons.mp hi with rfl | hi
      · exact ⟨_, hhead⟩
      · exact ih hi

theorem forall₂_mem_right {ι : Type w} {R : ι → α → Prop} {inputs : List ι} {results : List α}
    (h : List.Forall₂ R inputs results) {a : α} (ha : a ∈ results) : ∃ i ∈ inputs, R i a := by
  induction h with
  | nil => cases ha
  | cons hhead _ ih =>
      obtain rfl | ha := List.mem_cons.mp ha
      · exact ⟨_, List.mem_cons_self, hhead⟩
      · obtain ⟨i, hi, hR⟩ := ih ha
        exact ⟨i, List.mem_cons_of_mem _ hi, hR⟩

theorem forall₂_imp_mem {ι : Type w} {R S : ι → α → Prop} {inputs : List ι} {results : List α}
    (h : List.Forall₂ R inputs results) (himp : ∀ i ∈ inputs, ∀ a, R i a → S i a) :
    List.Forall₂ S inputs results := by
  induction h with
  | nil => exact .nil
  | cons hhead _ ih =>
      obtain ⟨hfirst, hrest⟩ := List.forall_mem_cons.mp himp
      exact .cons (hfirst _ hhead) (ih hrest)

/-- Where every result is its input, nothing is changed. -/
theorem forall₂_eq {R : α → α → Prop} {inputs results : List α} (h : List.Forall₂ R inputs results)
    (heq : ∀ i ∈ inputs, ∀ a, R i a → a = i) : results = inputs := by
  have heqs : List.Forall₂ (· = ·) inputs results :=
    forall₂_imp_mem h fun i hi a hR => (heq i hi a hR).symm
  rw [List.forall₂_eq_eq_eq] at heqs
  exact heqs.symm

theorem forall₂_map_eq {ι : Type w} {γ : Type z} {R : ι → α → Prop} {f : ι → γ} {g : α → γ}
    {inputs : List ι} {results : List α} (h : List.Forall₂ R inputs results)
    (heq : ∀ i a, R i a → g a = f i) : results.map g = inputs.map f := by
  induction h with
  | nil => rfl
  | cons hhead _ ih => rw [List.map_cons, List.map_cons, heq _ _ hhead, ih]

/-- Two rows with a common middle are one row. -/
theorem forall₂_comp {ι : Type w} {γ : Type z} {R : ι → α → Prop} {S : α → γ → Prop}
    {inputs : List ι} {middle : List α} {results : List γ} (h : List.Forall₂ R inputs middle)
    (h' : List.Forall₂ S middle results) :
    List.Forall₂ (fun i c => ∃ a ∈ middle, R i a ∧ S a c) inputs results := by
  induction h generalizing results with
  | nil =>
      cases h'
      exact .nil
  | cons hhead _ ih =>
      cases h' with
      | cons hnext hrest =>
          refine .cons ⟨_, List.mem_cons_self, hhead, hnext⟩ ((ih hrest).imp fun i c hrow => ?_)
          obtain ⟨a, ha, hrow⟩ := hrow
          exact ⟨a, List.mem_cons_of_mem _ ha, hrow⟩

theorem forall₂_forall_iff {ι : Type w} {R : ι → α → Prop} {P : ι → Prop} {Q : α → Prop}
    (hPQ : ∀ i a, R i a → (P i ↔ Q a)) {inputs : List ι} {results : List α}
    (h : List.Forall₂ R inputs results) : (∀ i ∈ inputs, P i) ↔ ∀ a ∈ results, Q a := by
  induction h with
  | nil => simp only [List.not_mem_nil, false_imp_iff, implies_true]
  | cons hhead _ ih => rw [List.forall_mem_cons, List.forall_mem_cons, hPQ _ _ hhead, ih]

/-- Every input has its result. -/
theorem mapM_ok_mem {ι : Type w} {f : ι → Except ε α} {inputs : List ι} {results : List α}
    (h : inputs.mapM f = .ok results) {i : ι} (hi : i ∈ inputs) : ∃ a, f i = .ok a :=
  forall₂_exists (mapM_eq_ok.mp h) hi

/-- Where successes are those of a function, so are their lists. -/
theorem mapM_eq_map {ι : Type w} {f : ι → Except ε α} {g : ι → α}
    (hf : ∀ i a, f i = .ok a → a = g i) {inputs : List ι} {results : List α}
    (h : inputs.mapM f = .ok results) : results = inputs.map g := by
  have hall := mapM_eq_ok.mp h
  clear h
  induction hall with
  | nil => rfl
  | cons hhead _ ih => rw [List.map_cons, ← hf _ _ hhead, ← ih]

/-- An invariant of the single step, relative to the inputs consumed so far, holds after
every fold that succeeds. -/
theorem foldlM_induction {ι : Type w} {step : α → ι → Except ε α} {P : List ι → α → Prop}
    {inputs : List ι} {s t : α} (start : P [] s)
    (keep : ∀ done i s t, P done s → step s i = .ok t → P (done ++ [i]) t)
    (h : inputs.foldlM step s = .ok t) : P inputs t := by
  induction inputs using List.reverseRecOn generalizing t with
  | nil =>
      cases h
      exact start
  | append_singleton inputs i ih =>
      rw [List.foldlM_append] at h
      obtain ⟨mid, hmid, hlast⟩ := bind_eq_ok.mp h
      rw [List.foldlM_cons] at hlast
      obtain ⟨last, hstep, hpure⟩ := bind_eq_ok.mp hlast
      cases hpure
      exact keep inputs i mid t (ih hmid) hstep

/-! ## Checks with a cache -/

section Decides

universe x

variable {σ τ : Type x} {ι : Type w} {I : σ → Prop} {J : τ → Prop} {P Q : Prop}

/-- The check passes exactly where the property holds, and then leaves a sound cache. -/
def Decides (I : σ → Prop) (P : Prop) (check : Except ε σ) : Prop :=
  (∃ s, check = .ok s ∧ I s ∧ P) ∨ (∃ e, check = .error e) ∧ ¬ P

namespace Decides

variable {check : Except ε σ} {s : σ}

theorem isOk_iff (h : Decides I P check) : check.isOk = true ↔ P := by
  obtain ⟨s, rfl, -, hP⟩ | ⟨⟨e, rfl⟩, hP⟩ := h
  · exact ⟨fun _ => hP, fun _ => rfl⟩
  · exact ⟨nofun, fun h => absurd h hP⟩

theorem congr (h : Decides I P check) (hiff : P ↔ Q) : Decides I Q check := by
  obtain ⟨s, hs, hI, hP⟩ | ⟨herror, hP⟩ := h
  · exact .inl ⟨s, hs, hI, hiff.mp hP⟩
  · exact .inr ⟨herror, fun hQ => hP (hiff.mpr hQ)⟩

theorem pure (h : I s) : Decides I True (.ok s : Except ε σ) := .inl ⟨s, rfl, h, trivial⟩

theorem mapError {ε' : Type u} {f : ε → ε'} (h : Decides I P check) :
    Decides I P (check.mapError f) := by
  obtain ⟨s, rfl, hI, hP⟩ | ⟨⟨e, rfl⟩, hP⟩ := h
  · exact .inl ⟨s, rfl, hI, hP⟩
  · exact .inr ⟨⟨f e, rfl⟩, hP⟩

theorem bind {next : σ → Except ε τ} (h : Decides I P check)
    (hnext : ∀ s, I s → Decides J Q (next s)) : Decides J (P ∧ Q) (check >>= next) := by
  obtain ⟨s, rfl, hI, hP⟩ | ⟨⟨e, rfl⟩, hP⟩ := h
  · obtain ⟨t, ht, hJ, hQ⟩ | ⟨⟨e, he⟩, hQ⟩ := hnext s hI
    · exact .inl ⟨t, ht, hJ, hP, hQ⟩
    · exact .inr ⟨⟨e, he⟩, fun hboth => hQ hboth.2⟩
  · exact .inr ⟨⟨e, rfl⟩, fun hboth => hP hboth.1⟩

theorem foldlM {step : σ → ι → Except ε σ} {items : List ι} {R : ι → Prop}
    (hstep : ∀ item ∈ items, ∀ s, I s → Decides I (R item) (step s item)) (hs : I s) :
    Decides I (∀ item ∈ items, R item) (items.foldlM step s) := by
  induction items generalizing s with
  | nil => exact (pure hs).congr (by simp)
  | cons item items ih =>
      rw [List.foldlM_cons]
      have hrest : ∀ t, I t → Decides I (∀ item ∈ items, R item) (items.foldlM step t) :=
        fun t ht => ih (fun other hother => hstep other (List.mem_cons_of_mem _ hother)) ht
      exact ((hstep item List.mem_cons_self s hs).bind hrest).congr List.forall_mem_cons.symm

end Decides

end Decides

end Fallible
