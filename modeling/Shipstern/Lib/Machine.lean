import Mathlib

/-!
# Runs of deterministic machines with outputs

A machine consumes a list of inputs from the left. `exec` is the state it reaches
and `outputs` the concatenation of everything its steps emitted. Properties of whole
runs are proved by induction on the *history*: a run is extended at its right end,
so an invariant may relate the current state to every earlier input.

A step may itself be a loop that repeats one partial transition until it is no
longer enabled. `Exhausts` is that loop as a relation, with the list of what its
iterations emitted; an invariant of the single transition is an invariant of the loop.

A system of several actors has no step function but a step relation. Its runs are the
reflexive transitive closure of the relation, and `invariant_of_steps` is the rule for what
holds in every state of every run.

`Ascending` is the contract of an in-order producer: its outputs strictly increase and
its frontier is the last of them.
-/

namespace Machine

universe u v w

section Runs

variable {σ : Type u} {ι : Type v} {ω : Type w}
variable (step : σ → ι → σ) (out : σ → ι → List ω)

/-- The state after a list of inputs. -/
def exec (s : σ) (inputs : List ι) : σ := inputs.foldl step s

/-- Everything emitted while the inputs are consumed, in order. -/
def outputs : σ → List ι → List ω
  | _, [] => []
  | s, i :: inputs => out s i ++ outputs (step s i) inputs

@[simp] theorem exec_nil (s : σ) : exec step s [] = s := rfl

@[simp] theorem exec_cons (s : σ) (i : ι) (inputs : List ι) :
    exec step s (i :: inputs) = exec step (step s i) inputs := rfl

theorem exec_append (s : σ) (front back : List ι) :
    exec step s (front ++ back) = exec step (exec step s front) back :=
  List.foldl_append

theorem exec_concat (s : σ) (inputs : List ι) (i : ι) :
    exec step s (inputs ++ [i]) = step (exec step s inputs) i := by
  simp [exec_append]

@[simp] theorem outputs_nil (s : σ) : outputs step out s [] = [] := rfl

@[simp] theorem outputs_cons (s : σ) (i : ι) (inputs : List ι) :
    outputs step out s (i :: inputs) = out s i ++ outputs step out (step s i) inputs := rfl

theorem outputs_append (s : σ) (front back : List ι) :
    outputs step out s (front ++ back) =
      outputs step out s front ++ outputs step out (exec step s front) back := by
  induction front generalizing s with
  | nil => simp
  | cons i front ih => simp [ih]

theorem outputs_concat (s : σ) (inputs : List ι) (i : ι) :
    outputs step out s (inputs ++ [i]) = outputs step out s inputs ++ out (exec step s inputs) i := by
  simp [outputs_append]

/-- Whatever a run emits was emitted by one of its steps. -/
theorem mem_outputs {s : σ} {inputs : List ι} {o : ω} :
    o ∈ outputs step out s inputs ↔
      ∃ front i back, inputs = front ++ i :: back ∧ o ∈ out (exec step s front) i := by
  constructor
  · intro h
    induction inputs generalizing s with
    | nil => simp at h
    | cons i inputs ih =>
        obtain hnow | hlater := List.mem_append.mp h
        · exact ⟨[], i, inputs, rfl, hnow⟩
        · obtain ⟨front, j, back, rfl, hj⟩ := ih hlater
          exact ⟨i :: front, j, back, rfl, hj⟩
  · rintro ⟨front, i, back, rfl, h⟩
    rw [outputs_append, outputs_cons]
    exact List.mem_append_right _ (List.mem_append_left _ h)

end Runs

section History

variable {ι : Type v}

/-- Every input of the run is allowed after the inputs that precede it. -/
def Obeys (allowed : List ι → ι → Prop) (inputs : List ι) : Prop :=
  ∀ front i back, inputs = front ++ i :: back → allowed front i

variable {allowed : List ι → ι → Prop}

theorem Obeys.front {front back : List ι} (h : Obeys allowed (front ++ back)) :
    Obeys allowed front := by
  rintro a i b rfl
  exact h a i (b ++ back) (by simp)

theorem Obeys.last {inputs : List ι} {i : ι} (h : Obeys allowed (inputs ++ [i])) :
    allowed inputs i :=
  h inputs i [] rfl

/-- A rule that allows everything restricts no run. -/
theorem Obeys.unrestricted (inputs : List ι) : Obeys (fun _ _ => True) inputs :=
  fun _ _ _ _ => trivial

theorem obeys_iff_take {inputs : List ι} :
    Obeys allowed inputs ↔
      ∀ n, (h : n < inputs.length) → allowed (inputs.take n) (inputs.get ⟨n, h⟩) := by
  constructor
  · intro h n hn
    exact h _ _ (inputs.drop (n + 1)) (by simp)
  · rintro h front i back rfl
    simpa using h front.length (by simp)

/-- Whether a run is allowed can be checked input by input. -/
instance [∀ front i, Decidable (allowed front i)] (inputs : List ι) :
    Decidable (Obeys allowed inputs) :=
  decidable_of_iff' _ obeys_iff_take

/-- Induction on the history of a run all of whose inputs are allowed. -/
theorem history_induction {P : List ι → Prop} (nil : P [])
    (snoc : ∀ inputs i, allowed inputs i → P inputs → P (inputs ++ [i]))
    {inputs : List ι} (h : Obeys allowed inputs) : P inputs := by
  induction inputs using List.reverseRecOn with
  | nil => exact nil
  | append_singleton inputs i ih => exact snoc inputs i h.last (ih h.front)

end History

section Exhausts

variable {σ : Type u} {ω : Type w}

/-- Repeat a partial transition until it is not enabled any more. -/
inductive Exhausts (next : σ → Option (ω × σ)) : σ → List ω → σ → Prop
  | done {s : σ} (stuck : next s = none) : Exhausts next s [] s
  | more {s s' t : σ} {o : ω} {os : List ω} (enabled : next s = some (o, s'))
      (rest : Exhausts next s' os t) : Exhausts next s (o :: os) t

namespace Exhausts

variable {next : σ → Option (ω × σ)}

/-- An invariant of the transition, which may mention what was emitted so far,
holds when the loop stops. -/
theorem invariant {P : List ω → σ → Prop}
    (preserved : ∀ os s o s', next s = some (o, s') → P os s → P (os ++ [o]) s')
    {s t : σ} {os : List ω} (h : Exhausts next s os t) {before : List ω} (start : P before s) :
    P (before ++ os) t := by
  induction h generalizing before with
  | done => simpa using start
  | @more s s' t o os enabled _ ih =>
      simpa using ih (preserved before s o s' enabled start)

/-- An enabled loop runs its first transition. -/
theorem head_mem {s s' t : σ} {o : ω} {os : List ω} (h : Exhausts next s os t)
    (enabled : next s = some (o, s')) : o ∈ os := by
  cases h with
  | done stuck => simp [enabled] at stuck
  | more first rest =>
      rw [enabled] at first
      cases first
      exact List.mem_cons_self

end Exhausts

end Exhausts

section Steps

variable {σ : Type u} {step : σ → σ → Prop} {s t : σ}

/-- What every step preserves holds after every run. -/
theorem invariant_of_steps {P : σ → Prop} (preserved : ∀ s t, step s t → P s → P t)
    (h : Relation.ReflTransGen step s t) (start : P s) : P t := by
  induction h with
  | refl => exact start
  | tail _ hstep ih => exact preserved _ _ hstep ih

end Steps

section Ascending

variable {κ : Type u} [Preorder κ]

/-- The outputs strictly increase and the frontier is the last one. -/
structure Ascending (frontier : Option κ) (xs : List κ) : Prop where
  increasing : xs.Pairwise (· < ·)
  last : frontier = xs.getLast?

namespace Ascending

variable {frontier frontier' : Option κ} {xs ys : List κ} {x : κ}

theorem nil : Ascending none ([] : List κ) := ⟨.nil, rfl⟩

theorem le_frontier (h : Ascending frontier xs) (hx : x ∈ xs) :
    ∃ l, frontier = some l ∧ x ≤ l := by
  have hne : xs ≠ [] := List.ne_nil_of_mem hx
  refine ⟨xs.getLast hne, h.last.trans (List.getLast?_eq_some_getLast hne), ?_⟩
  obtain ⟨front, hfront⟩ : ∃ front, xs = front ++ [xs.getLast hne] :=
    ⟨xs.dropLast, (List.dropLast_concat_getLast hne).symm⟩
  have hinc := h.increasing
  rw [hfront] at hx hinc
  obtain hin | hin := List.mem_append.mp hx
  · exact ((List.pairwise_append.mp hinc).2.2 x hin _ (by simp)).le
  · simp only [List.mem_singleton] at hin
    exact hin.le

/-- Emitting above the frontier keeps the contract. -/
theorem concat (h : Ascending frontier xs) (above : ∀ l, frontier = some l → l < x) :
    Ascending (some x) (xs ++ [x]) := by
  refine ⟨List.pairwise_append.mpr ⟨h.increasing, by simp, ?_⟩, by simp⟩
  intro y hy z hz
  obtain ⟨l, hl, hyl⟩ := h.le_frontier hy
  cases List.mem_singleton.mp hz
  exact lt_of_le_of_lt hyl (above l hl)

/-- The frontier of an in-order producer never moves back. -/
theorem frontier_mono (h : Ascending frontier xs) (h' : Ascending frontier' (xs ++ ys)) {l : κ}
    (hl : frontier = some l) : ∃ l', frontier' = some l' ∧ l ≤ l' := by
  have hmem : l ∈ xs := List.mem_of_getLast? (h.last.symm.trans hl)
  exact h'.le_frontier (List.mem_append_left ys hmem)

/-- The frontier is below whatever is emitted later. -/
theorem frontier_below (h : Ascending frontier xs) (h' : Ascending frontier' (xs ++ ys))
    (hx : x ∈ ys) : ∀ l, frontier = some l → l < x := by
  intro l hl
  have hmem : l ∈ xs := List.mem_of_getLast? (h.last.symm.trans hl)
  exact (List.pairwise_append.mp h'.increasing).2.2 l hmem x hx

end Ascending

end Ascending

end Machine
