import Mathlib

/-!
# Computations over a state that may fail

Inversion rules for `StateT σ (Except ε)`: a run that succeeds is a sequence of runs that succeed,
with the states in between. A loop over a list keeps an invariant that may mention the items done
so far.
-/

namespace Stateful

variable {σ ε α β ι : Type}

theorem bind_ok {x : StateT σ (Except ε) α} {f : α → StateT σ (Except ε) β} {s t : σ} {b : β} :
    (x >>= f) s = .ok (b, t) ↔ ∃ a mid, x s = .ok (a, mid) ∧ f a mid = .ok (b, t) := by
  show (x s >>= fun p => f p.1 p.2) = .ok (b, t) ↔ _
  cases x s with
  | error e => simp [bind, Except.bind]
  | ok p =>
      obtain ⟨a, mid⟩ := p
      simp [bind, Except.bind]

theorem pure_ok {a b : α} {s t : σ} :
    (pure a : StateT σ (Except ε) α) s = .ok (b, t) ↔ a = b ∧ s = t := by
  show Except.ok (a, s) = .ok (b, t) ↔ _
  simp

theorem map_ok {x : StateT σ (Except ε) α} {f : α → β} {s t : σ} {b : β} :
    (f <$> x) s = .ok (b, t) ↔ ∃ a, x s = .ok (a, t) ∧ f a = b := by
  rw [← bind_pure_comp, bind_ok]
  constructor
  · rintro ⟨a, mid, hx, hpure⟩
    obtain ⟨rfl, rfl⟩ := pure_ok.mp hpure
    exact ⟨a, hx, rfl⟩
  · rintro ⟨a, hx, rfl⟩
    exact ⟨a, t, hx, pure_ok.mpr ⟨rfl, rfl⟩⟩

theorem get_ok {s t a : σ} :
    (get : StateT σ (Except ε) σ) s = .ok (a, t) ↔ s = a ∧ s = t := by
  show Except.ok (s, s) = .ok (a, t) ↔ _
  simp

theorem set_ok {s t new : σ} {u : PUnit} :
    (set new : StateT σ (Except ε) PUnit) s = .ok (u, t) ↔ new = t := by
  show Except.ok (PUnit.unit, new) = .ok (u, t) ↔ _
  simp

theorem modify_ok {f : σ → σ} {s t : σ} {u : PUnit} :
    (modify f : StateT σ (Except ε) PUnit) s = .ok (u, t) ↔ f s = t := by
  show Except.ok (PUnit.unit, f s) = .ok (u, t) ↔ _
  simp

theorem throw_ok {e : ε} {s t : σ} {a : α} :
    (throw e : StateT σ (Except ε) α) s = .ok (a, t) ↔ False := by
  show Except.error e = .ok (a, t) ↔ _
  simp

theorem lift_ok {x : Except ε α} {s t : σ} {a : α} :
    (liftM x : StateT σ (Except ε) α) s = .ok (a, t) ↔ x = .ok a ∧ s = t := by
  cases x with
  | error e =>
      show Except.error e = .ok (a, t) ↔ _
      simp
  | ok b =>
      show Except.ok (b, s) = .ok (a, t) ↔ _
      simp

/-! ## Triples for runs that may fail -/

/-- A run that starts where `I` holds ends where `J` holds, or fails with an allowed error. -/
def Ensures (I J : σ → Prop) (allowed : ε → Prop) (x : StateT σ (Except ε) α) : Prop :=
  ∀ s, I s → match x s with
    | .ok (_, t) => J t
    | .error e => allowed e

/-- The run keeps an invariant. -/
abbrev Keeps (I : σ → Prop) (allowed : ε → Prop) (x : StateT σ (Except ε) α) : Prop :=
  Ensures I I allowed x

namespace Ensures

variable {I J K : σ → Prop} {allowed : ε → Prop}

theorem pure (a : α) : Ensures I I allowed (pure a) := fun _ hs => hs

theorem bind {x : StateT σ (Except ε) α} {f : α → StateT σ (Except ε) β}
    (hx : Ensures I J allowed x) (hf : ∀ a, Ensures J K allowed (f a)) :
    Ensures I K allowed (x >>= f) := by
  intro s hs
  have hstep := hx s hs
  show match (x s >>= fun p => f p.1 p.2) with
    | .ok (_, t) => K t
    | .error e => allowed e
  cases hrun : x s with
  | error e =>
      rw [hrun] at hstep
      exact hstep
  | ok p =>
      rw [hrun] at hstep
      exact hf p.1 p.2 hstep

/-- What is known of the state that is read. -/
theorem get_bind {f : σ → StateT σ (Except ε) β}
    (hf : ∀ s, I s → Ensures (fun t => t = s) J allowed (f s)) : Ensures I J allowed (get >>= f) :=
  fun s hs => hf s hs s rfl

theorem strengthen {I' : σ → Prop} {x : StateT σ (Except ε) α} (h : Ensures I J allowed x)
    (himp : ∀ s, I' s → I s) : Ensures I' J allowed x :=
  fun s hs => h s (himp s hs)

theorem throw {e : ε} (h : allowed e) : Ensures I J allowed (throw e : StateT σ (Except ε) α) :=
  fun _ _ => h

theorem lift {x : Except ε α} (h : ∀ e, x = .error e → allowed e) :
    Ensures I I allowed (liftM x : StateT σ (Except ε) α) := by
  intro s hs
  cases x with
  | error e => exact h e rfl
  | ok a => exact hs

theorem modify {f : σ → σ} (h : ∀ s, I s → J (f s)) :
    Ensures I J allowed (modify f : StateT σ (Except ε) PUnit) :=
  h

theorem set {t : σ} (h : J t) : Ensures I J allowed (set t : StateT σ (Except ε) PUnit) :=
  fun _ _ => h

theorem discard {x : StateT σ (Except ε) α} (h : Ensures I J allowed x) :
    Ensures I J allowed (Functor.discard x) := by
  have hmap : Functor.discard x = (fun _ => PUnit.unit) <$> x := rfl
  rw [hmap, ← bind_pure_comp]
  exact h.bind fun _ => .pure _

theorem forM {f : ι → StateT σ (Except ε) PUnit} {items : List ι}
    (h : ∀ i ∈ items, Ensures I I allowed (f i)) : Ensures I I allowed (items.forM f) := by
  induction items with
  | nil => exact .pure _
  | cons i items ih =>
      rw [List.forall_mem_cons] at h
      exact (h.1).bind fun _ => ih h.2

end Ensures

/-- What every pass of a loop keeps holds after the loop, relative to the items done. -/
theorem forM_induction {f : ι → StateT σ (Except ε) PUnit} {P : List ι → σ → Prop}
    {items : List ι} {s t : σ} {u : PUnit} (start : P [] s)
    (keep : ∀ done i s t, i ∈ items → P done s → f i s = .ok (⟨⟩, t) → P (done ++ [i]) t)
    (h : items.forM f s = .ok (u, t)) : P items t := by
  suffices hrest : ∀ done rest, done ++ rest = items → ∀ s, P done s →
      rest.forM f s = .ok (u, t) → P items t from hrest [] items rfl s start h
  intro done rest
  induction rest generalizing done with
  | nil =>
      intro hitems s hs hrun
      obtain ⟨-, rfl⟩ := pure_ok.mp hrun
      rw [List.append_nil] at hitems
      exact hitems ▸ hs
  | cons i rest ih =>
      intro hitems s hs hrun
      obtain ⟨⟨⟩, mid, hstep, hrest⟩ := bind_ok.mp hrun
      refine ih (done ++ [i]) (by rw [List.append_assoc]; exact hitems) mid ?_ hrest
      exact keep done i s mid (hitems ▸ by simp) hs hstep

end Stateful
