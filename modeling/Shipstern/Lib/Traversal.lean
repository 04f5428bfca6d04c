import Mathlib

/-!
# Depth-first traversal with an explicit stack

A type is a kind of tree when every value has a list of children. `IsPreorder` says that
`visit` lists a value and then what it visits below each of its children in turn. An
iterator reaches the same list without recursion: its stack holds, for every value on
the path to the current one, the children that are still to come.

The head of the stack is its top.
-/

namespace Traversal

universe u

variable {α : Type u} (children : α → List α)

/-- `visit` lists every value before what lies below it, children in order. -/
def IsPreorder (visit : α → List α) : Prop :=
  ∀ a, visit a = a :: (children a).flatMap visit

/-- The next value of the traversal. Exhausted lists are popped off first, and the
children of the value are pushed. -/
def next : List (List α) → Option (α × List (List α))
  | [] => none
  | [] :: stack => next stack
  | (a :: siblings) :: stack => some (a, children a :: siblings :: stack)

/-- Everything the traversal yields from a stack, for at most `fuel` values. -/
def drain : Nat → List (List α) → List α
  | 0, _ => []
  | fuel + 1, stack =>
      match next children stack with
      | none => []
      | some (a, stack) => a :: drain fuel stack

/-- What is still to be visited. -/
def pending (visit : α → List α) (stack : List (List α)) : List α :=
  stack.flatMap fun siblings => siblings.flatMap visit

variable {children} {visit : α → List α}

/-- The iterator ends exactly when nothing is pending. -/
theorem pending_of_next_none (visit : α → List α) {stack : List (List α)}
    (h : next children stack = none) :
    pending visit stack = [] := by
  induction stack with
  | nil => rfl
  | cons siblings stack ih =>
      cases siblings with
      | nil => simpa [pending] using ih h
      | cons a siblings => simp [next] at h

/-- One step takes the first pending value and keeps the others in order. -/
theorem pending_of_next_some (hvisit : IsPreorder children visit) {stack rest : List (List α)}
    {a : α} (h : next children stack = some (a, rest)) :
    pending visit stack = a :: pending visit rest := by
  induction stack with
  | nil => simp [next] at h
  | cons siblings stack ih =>
      cases siblings with
      | nil => simpa [pending] using ih h
      | cons b siblings =>
          obtain ⟨rfl, rfl⟩ : b = a ∧ children b :: siblings :: stack = rest := by
            simpa [next] using h
          simp [pending, hvisit b]

/-- With enough fuel the iterator yields the pending values and then ends. -/
theorem drain_eq_pending (hvisit : IsPreorder children visit) {fuel : Nat}
    {stack : List (List α)} (hfuel : (pending visit stack).length ≤ fuel) :
    drain children fuel stack = pending visit stack := by
  induction fuel generalizing stack with
  | zero => exact (List.eq_nil_of_length_eq_zero (Nat.le_zero.mp hfuel)).symm
  | succ fuel ih =>
      cases hnext : next children stack with
      | none => simp [drain, hnext, pending_of_next_none visit hnext]
      | some head =>
          obtain ⟨a, rest⟩ := head
          have hstep := pending_of_next_some hvisit hnext
          have hrest : (pending visit rest).length ≤ fuel := by
            rw [hstep, List.length_cons] at hfuel
            omega
          simp [drain, hnext, hstep, ih hrest]

end Traversal
