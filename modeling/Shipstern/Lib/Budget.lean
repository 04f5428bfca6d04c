import Mathlib

/-!
# Computations that spend from a budget

A computation gets a budget and either fails or returns a value with what is left of it.
`Returns` is partial correctness. `Affords x budget a left` says that the budget is enough
for `x` to return `a` with at least `left` to spare, and that a larger budget is enough too,
so that a cheaper computation can stand in for a more expensive one.
-/

abbrev Budgeted (ε α : Type) := StateT Nat (Except ε) α

namespace Budgeted

variable {ε α β ι κ : Type}

/-- Pay one unit, or fail when nothing is left. -/
def spend (exhausted : ε) : Budgeted ε Unit := fun budget =>
  match budget with
  | 0 => .error exhausted
  | left + 1 => .ok ((), left)

/-- Fail, whatever the budget. -/
def fail (e : ε) : Budgeted ε α := fun _ => .error e

/-- A computation that spends nothing. -/
def free (x : Except ε α) : Budgeted ε α := fun budget => x.map fun a => (a, budget)

theorem bind_ok {x : Budgeted ε α} {f : α → Budgeted ε β} {budget left : Nat} {b : β} :
    (x >>= f) budget = .ok (b, left) ↔
      ∃ a mid, x budget = .ok (a, mid) ∧ f a mid = .ok (b, left) := by
  show (x budget >>= fun p => f p.1 p.2) = .ok (b, left) ↔ _
  cases x budget with
  | error e => simp [bind, Except.bind]
  | ok p =>
      obtain ⟨a, mid⟩ := p
      simp [bind, Except.bind]

theorem pure_ok {a b : α} {budget left : Nat} :
    (pure a : Budgeted ε α) budget = .ok (b, left) ↔ a = b ∧ budget = left := by
  show Except.ok (a, budget) = .ok (b, left) ↔ _
  simp

theorem fail_ok {e : ε} {budget left : Nat} {a : α} :
    (fail e : Budgeted ε α) budget = .ok (a, left) ↔ False := by
  simp [fail]

theorem free_ok {x : Except ε α} {budget left : Nat} {a : α} :
    free x budget = .ok (a, left) ↔ x = .ok a ∧ budget = left := by
  cases x with
  | error e => simp [free, Except.map]
  | ok b => simp [free, Except.map]

theorem spend_ok {e : ε} {budget left : Nat} :
    spend e budget = .ok ((), left) ↔ budget = left + 1 := by
  cases budget with
  | zero => simp [spend]
  | succ n => simp [spend]

theorem free_ok_bind {a : α} {f : α → Budgeted ε β} : (free (.ok a) >>= f) = f a := rfl

theorem mapM_cons_ok {f : ι → Budgeted ε α} {i : ι} {inputs : List ι} {budget left : Nat}
    {results : List α} :
    (i :: inputs).mapM f budget = .ok (results, left) ↔ ∃ a mid rest,
      f i budget = .ok (a, mid) ∧ inputs.mapM f mid = .ok (rest, left) ∧ results = a :: rest := by
  rw [List.mapM_cons, bind_ok]
  constructor
  · rintro ⟨a, mid, ha, hrest⟩
    obtain ⟨rest, last, hmap, hpure⟩ := bind_ok.mp hrest
    obtain ⟨rfl, rfl⟩ := pure_ok.mp hpure
    exact ⟨a, mid, rest, ha, hmap, rfl⟩
  · rintro ⟨a, mid, rest, ha, hmap, rfl⟩
    exact ⟨a, mid, ha, bind_ok.mpr ⟨rest, left, hmap, pure_ok.mpr ⟨rfl, rfl⟩⟩⟩

/-! ## Partial correctness -/

/-- Every value that the computation returns satisfies the postcondition. -/
def Returns (x : Budgeted ε α) (P : α → Prop) : Prop :=
  ∀ budget a left, x budget = .ok (a, left) → P a

theorem Returns.bind {x : Budgeted ε α} {f : α → Budgeted ε β} {P : α → Prop} {Q : β → Prop}
    (hx : Returns x P) (hf : ∀ a, P a → Returns (f a) Q) : Returns (x >>= f) Q := by
  intro budget b left h
  obtain ⟨a, mid, ha, hb⟩ := bind_ok.mp h
  exact hf a (hx budget a mid ha) mid b left hb

theorem Returns.pure {a : α} {P : α → Prop} (h : P a) : Returns (pure a : Budgeted ε α) P := by
  intro budget b left hb
  exact (pure_ok.mp hb).1 ▸ h

theorem Returns.fail {e : ε} {P : α → Prop} : Returns (fail e : Budgeted ε α) P :=
  fun _ _ _ h => (fail_ok.mp h).elim

theorem Returns.mapM {f : ι → Budgeted ε α} {R : ι → α → Prop} {inputs : List ι}
    (h : ∀ i ∈ inputs, Returns (f i) (R i)) : Returns (inputs.mapM f) (List.Forall₂ R inputs) := by
  induction inputs with
  | nil => exact .pure .nil
  | cons i inputs ih =>
      rw [List.forall_mem_cons] at h
      intro budget results left hrun
      obtain ⟨a, mid, rest, ha, hrest, rfl⟩ := mapM_cons_ok.mp hrun
      exact .cons (h.1 budget a mid ha) (ih h.2 mid rest left hrest)

theorem Returns.free {x : Except ε α} {P : α → Prop} (h : ∀ a, x = .ok a → P a) :
    Returns (free x) P :=
  fun _ a _ hrun => h a (free_ok.mp hrun).1

/-- Whatever came before. -/
theorem Returns.after {x : Budgeted ε α} {f : α → Budgeted ε β} {Q : β → Prop}
    (hf : ∀ a, Returns (f a) Q) : Returns (x >>= f) Q := by
  intro budget b left h
  obtain ⟨a, mid, -, hb⟩ := bind_ok.mp h
  exact hf a mid b left hb

/-- What all results of a list satisfy. -/
theorem Returns.mapM_mem {f : ι → Budgeted ε α} {P : α → Prop} {inputs : List ι}
    (h : ∀ i ∈ inputs, Returns (f i) P) :
    Returns (inputs.mapM f) fun results => ∀ a ∈ results, P a := by
  induction inputs with
  | nil => exact .pure (by simp)
  | cons i inputs ih =>
      rw [List.forall_mem_cons] at h
      intro budget results left hrun
      obtain ⟨a, mid, rest, ha, hrest, rfl⟩ := mapM_cons_ok.mp hrun
      exact List.forall_mem_cons.mpr ⟨h.1 budget a mid ha, ih h.2 mid rest left hrest⟩

/-! ## Budgets only shrink -/

/-- No run has more left than it was given. -/
def Frugal (x : Budgeted ε α) : Prop := ∀ budget a left, x budget = .ok (a, left) → left ≤ budget

theorem Frugal.bind {x : Budgeted ε α} {f : α → Budgeted ε β} (hx : Frugal x)
    (hf : ∀ a, Frugal (f a)) : Frugal (x >>= f) := by
  intro budget b left h
  obtain ⟨a, mid, ha, hb⟩ := bind_ok.mp h
  exact Nat.le_trans (hf a mid b left hb) (hx budget a mid ha)

theorem Frugal.pure {a : α} : Frugal (pure a : Budgeted ε α) :=
  fun _ _ _ h => Nat.le_of_eq (pure_ok.mp h).2.symm

theorem Frugal.fail {e : ε} : Frugal (fail e : Budgeted ε α) :=
  fun _ _ _ h => (fail_ok.mp h).elim

theorem Frugal.free {x : Except ε α} : Frugal (free x) :=
  fun _ _ _ h => Nat.le_of_eq (free_ok.mp h).2.symm

theorem Frugal.spend {e : ε} : Frugal (spend e) := by
  rintro budget ⟨⟩ left h
  have hbudget := spend_ok.mp h
  omega

theorem Frugal.mapM {f : ι → Budgeted ε α} (h : ∀ i, Frugal (f i)) (inputs : List ι) :
    Frugal (inputs.mapM f) := by
  induction inputs with
  | nil => exact .pure
  | cons i inputs ih =>
      rw [List.mapM_cons]
      exact (h i).bind fun _ => ih.bind fun _ => .pure

theorem Frugal.forM {f : ι → Budgeted ε PUnit} (h : ∀ i, Frugal (f i)) (inputs : List ι) :
    Frugal (inputs.forM f) := by
  induction inputs with
  | nil => exact .pure
  | cons i inputs ih => exact (h i).bind fun _ => ih

/-! ## Enough budget -/

/-- From the budget or a larger one the computation returns the value, with at least `left`
to spare. -/
def Affords (x : Budgeted ε α) (budget : Nat) (a : α) (left : Nat) : Prop :=
  ∀ more, budget ≤ more → ∃ spare, left ≤ spare ∧ x more = .ok (a, spare)

theorem Affords.bind {x : Budgeted ε α} {f : α → Budgeted ε β} {budget mid left : Nat} {a : α}
    {b : β} (hx : Affords x budget a mid) (hf : Affords (f a) mid b left) :
    Affords (x >>= f) budget b left := by
  intro more hmore
  obtain ⟨spare, hspare, ha⟩ := hx more hmore
  obtain ⟨last, hlast, hb⟩ := hf spare hspare
  exact ⟨last, hlast, bind_ok.mpr ⟨a, spare, ha, hb⟩⟩

theorem Affords.pure {a : α} {budget : Nat} : Affords (pure a : Budgeted ε α) budget a budget :=
  fun more hmore => ⟨more, hmore, rfl⟩

theorem Affords.free {x : Except ε α} {a : α} {budget : Nat} (h : x = .ok a) :
    Affords (free x) budget a budget :=
  fun more hmore => ⟨more, hmore, free_ok.mpr ⟨h, rfl⟩⟩

theorem Affords.weaken {x : Budgeted ε α} {budget budget' left left' : Nat} {a : α}
    (h : Affords x budget a left) (hbudget : budget ≤ budget') (hleft : left' ≤ left) :
    Affords x budget' a left' := by
  intro more hmore
  obtain ⟨spare, hspare, ha⟩ := h more (Nat.le_trans hbudget hmore)
  exact ⟨spare, Nat.le_trans hleft hspare, ha⟩

theorem Affords.spend {e : ε} {left : Nat} : Affords (spend e) (left + 1) () left := by
  intro more hmore
  refine ⟨more - 1, by omega, spend_ok.mpr (by omega)⟩

/-- A list mapped with a computation, replaced element by element, where the replacements
may be run in several ways. -/
theorem mapM_affords {μ : Type} {S : μ → Prop} {f : ι → Budgeted ε α} {g : μ → κ → Budgeted ε α}
    {R : ι → κ → Prop} {inputs : List ι}
    (h : ∀ i ∈ inputs, ∀ budget a left, f i budget = .ok (a, left) →
      ∃ k, R i k ∧ ∀ m, S m → Affords (g m k) budget a left)
    {budget left : Nat} {results : List α} (hrun : inputs.mapM f budget = .ok (results, left)) :
    ∃ replaced, List.Forall₂ R inputs replaced ∧
      ∀ m, S m → Affords (replaced.mapM (g m)) budget results left := by
  induction inputs generalizing budget results with
  | nil =>
      obtain ⟨rfl, rfl⟩ := pure_ok.mp hrun
      exact ⟨[], .nil, fun _ _ => .pure⟩
  | cons i inputs ih =>
      rw [List.forall_mem_cons] at h
      obtain ⟨a, mid, rest, ha, hrest, rfl⟩ := mapM_cons_ok.mp hrun
      obtain ⟨k, hk, hafford⟩ := h.1 budget a mid ha
      obtain ⟨replaced, hreplaced, hmap⟩ := ih h.2 hrest
      refine ⟨k :: replaced, .cons hk hreplaced, fun m hm => ?_⟩
      rw [List.mapM_cons]
      exact (hafford m hm).bind ((hmap m hm).bind .pure)

end Budgeted
