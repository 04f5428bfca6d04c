import Shipstern.BlockCoordinator.Drain

/-!
# Runs of the coordinator

A run is any finite list of calls on a fresh state: events and the two drains, in any
order. `instructionSlots` and `accountSlots` are the concatenations of everything the
drains of the run returned.

`run_induction` is the rule behind most theorems about runs. It looks at a run at the
grain of single flushes, so an invariant is checked for one event, one flush of either
kind, and one cleanup; the loops of the drains do not appear in it. `run_invariant` is
the same rule for a property of the state alone.
-/

open Std OrderedMap Machine

namespace Shipstern.BlockCoordinator

/-- One call on the coordinator state. -/
inductive Op (R : Type)
  | apply (event : CoordinatorEvent R)
  | drainInstruction
  | drainAccount
deriving DecidableEq

/-- The event applied by the call, if it is one. -/
def Op.event? {R : Type} : Op R → Option (CoordinatorEvent R)
  | .apply event => some event
  | _ => none

/-- The events of a list of calls. -/
def events {R : Type} (ops : List (Op R)) : List (CoordinatorEvent R) :=
  ops.filterMap Op.event?

namespace CoordinatorState

variable {R : Type}

/-- The state after one call. -/
def step (st : CoordinatorState R) : Op R → CoordinatorState R
  | .apply event => st.apply event
  | .drainInstruction => st.drainInstructionFlushable.2
  | .drainAccount => st.drainAccountFlushable.2

/-- The instruction slots returned by one call; a failed drain returns none. -/
def emittedInstructions (st : CoordinatorState R) : Op R → List (InstructionSlot R)
  | .drainInstruction =>
      match st.drainInstructionFlushable.1 with
      | .ok flushed => flushed
      | .error _ => []
  | _ => []

/-- The account slots returned by one call. -/
def emittedAccounts (st : CoordinatorState R) : Op R → List (AccountSlot R)
  | .drainAccount => st.drainAccountFlushable.1
  | _ => []

theorem step_drainInstruction (st : CoordinatorState R) :
    ∃ mid, Exhausts nextInstruction st (st.emittedInstructions .drainInstruction) mid ∧
      st.step .drainInstruction =
        if (st.emittedInstructions .drainInstruction).isEmpty then mid
        else mid.cleanupFullyDrained := by
  obtain ⟨outs, mid, hex, hdrain⟩ := st.drainInstruction_exhausts
  have houts : st.emittedInstructions .drainInstruction = outs := by
    simp only [emittedInstructions, hdrain]
  rw [houts]
  exact ⟨mid, hex, by simp only [step, hdrain]⟩

theorem step_drainAccount (st : CoordinatorState R) :
    ∃ mid, Exhausts nextAccount st (st.emittedAccounts .drainAccount) mid ∧
      st.step .drainAccount =
        if (st.emittedAccounts .drainAccount).isEmpty then mid
        else mid.cleanupFullyDrained := by
  obtain ⟨outs, mid, hex, hdrain⟩ := st.drainAccount_exhausts
  have houts : st.emittedAccounts .drainAccount = outs := by
    simp only [emittedAccounts, hdrain]
  rw [houts]
  exact ⟨mid, hex, by simp only [step, hdrain]⟩

/-- One instruction drain, in terms of the state it is called on. -/
theorem step_instructionDrain (st : CoordinatorState R) :
    ∃ mid, InstructionDrain st (st.emittedInstructions .drainInstruction) mid ∧
      st.step .drainInstruction =
        if (st.emittedInstructions .drainInstruction).isEmpty then mid
        else mid.cleanupFullyDrained := by
  obtain ⟨mid, hex, hstep⟩ := st.step_drainInstruction
  exact ⟨mid, .of_exhausts hex, hstep⟩

theorem step_accountDrain (st : CoordinatorState R) :
    ∃ mid, AccountDrain st (st.emittedAccounts .drainAccount) mid ∧
      st.step .drainAccount =
        if (st.emittedAccounts .drainAccount).isEmpty then mid
        else mid.cleanupFullyDrained := by
  obtain ⟨mid, hex, hstep⟩ := st.step_drainAccount
  exact ⟨mid, .of_exhausts hex, hstep⟩

/-- An emitted instruction slot is an entry that passed its gate. -/
theorem mem_emittedInstructions {st : CoordinatorState R} {op : Op R} {ix : InstructionSlot R}
    (h : ix ∈ st.emittedInstructions op) :
    op = .drainInstruction ∧ ∃ buf, st.buffer[ix.slot]? = some buf ∧
      buf.instructionsDrained = false ∧ buf.instructionGateReached = true ∧
      buf.drainInstructionRecords ix.slot = some (ix, buf.takeInstructionRecords) := by
  cases op with
  | drainInstruction =>
      obtain ⟨mid, hdrain, -⟩ := st.step_instructionDrain
      exact ⟨rfl, hdrain.source ix h⟩
  | apply _ => simp [emittedInstructions] at h
  | drainAccount => simp [emittedInstructions] at h

/-- An emitted account slot is an entry that passed its gate. -/
theorem mem_emittedAccounts {st : CoordinatorState R} {op : Op R} {acct : AccountSlot R}
    (h : acct ∈ st.emittedAccounts op) :
    op = .drainAccount ∧ ∃ buf, st.buffer[acct.slot]? = some buf ∧
      buf.accountsDrained = false ∧ buf.accountGateReached = true ∧
      buf.drainAccountRecords acct.slot = (acct, buf.takeAccountRecords) := by
  cases op with
  | drainAccount =>
      obtain ⟨mid, hdrain, -⟩ := st.step_accountDrain
      exact ⟨rfl, hdrain.source acct h⟩
  | apply _ => simp [emittedAccounts] at h
  | drainInstruction => simp [emittedAccounts] at h

end CoordinatorState

section Run

variable {R : Type} (commitAt : AccountCommitAt)

/-- The state after a run. -/
def run (ops : List (Op R)) : CoordinatorState R :=
  exec CoordinatorState.step (.new commitAt) ops

/-- Every instruction slot returned over a run. -/
def instructionSlots (ops : List (Op R)) : List (InstructionSlot R) :=
  outputs CoordinatorState.step CoordinatorState.emittedInstructions (.new commitAt) ops

/-- Every account slot returned over a run. -/
def accountSlots (ops : List (Op R)) : List (AccountSlot R) :=
  outputs CoordinatorState.step CoordinatorState.emittedAccounts (.new commitAt) ops

@[simp] theorem run_nil : run commitAt ([] : List (Op R)) = .new commitAt := rfl

@[simp] theorem run_concat (ops : List (Op R)) (op : Op R) :
    run commitAt (ops ++ [op]) = (run commitAt ops).step op :=
  exec_concat _ _ _ _

@[simp] theorem instructionSlots_nil : instructionSlots commitAt ([] : List (Op R)) = [] := rfl

@[simp] theorem instructionSlots_concat (ops : List (Op R)) (op : Op R) :
    instructionSlots commitAt (ops ++ [op]) =
      instructionSlots commitAt ops ++ (run commitAt ops).emittedInstructions op :=
  outputs_concat _ _ _ _ _

@[simp] theorem accountSlots_nil : accountSlots commitAt ([] : List (Op R)) = [] := rfl

@[simp] theorem accountSlots_concat (ops : List (Op R)) (op : Op R) :
    accountSlots commitAt (ops ++ [op]) =
      accountSlots commitAt ops ++ (run commitAt ops).emittedAccounts op :=
  outputs_concat _ _ _ _ _

/-- What was emitted stays emitted. -/
theorem instructionSlots_append (front back : List (Op R)) :
    ∃ later, instructionSlots commitAt (front ++ back) =
      instructionSlots commitAt front ++ later :=
  ⟨_, outputs_append _ _ _ front back⟩

theorem accountSlots_append (front back : List (Op R)) :
    ∃ later, accountSlots commitAt (front ++ back) = accountSlots commitAt front ++ later :=
  ⟨_, outputs_append _ _ _ front back⟩

@[simp] theorem events_nil : events ([] : List (Op R)) = [] := rfl

@[simp] theorem events_append (front back : List (Op R)) :
    events (front ++ back) = events front ++ events back :=
  List.filterMap_append

@[simp] theorem events_apply (e : CoordinatorEvent R) (ops : List (Op R)) :
    events (.apply e :: ops) = e :: events ops := rfl

@[simp] theorem events_drainInstruction (ops : List (Op R)) :
    events (.drainInstruction :: ops) = events ops := rfl

@[simp] theorem events_drainAccount (ops : List (Op R)) :
    events (.drainAccount :: ops) = events ops := rfl

variable {commitAt}

/-- Induction over a run whose calls are all allowed, one event, one flush or one cleanup
at a time. The two lists hold what was emitted so far, also in the middle of a drain. -/
theorem run_induction {allowed : List (Op R) → Op R → Prop}
    {P : List (Op R) → List (InstructionSlot R) → List (AccountSlot R) →
      CoordinatorState R → Prop}
    (start : P [] [] [] (.new commitAt))
    (event : ∀ ops e, allowed ops (.apply e) →
      P ops (instructionSlots commitAt ops) (accountSlots commitAt ops) (run commitAt ops) →
      P (ops ++ [.apply e]) (instructionSlots commitAt ops) (accountSlots commitAt ops)
        ((run commitAt ops).apply e))
    (instruction : ∀ ops ixs accts st buf metadata ix st',
      CoordinatorState.InstructionFlush st buf metadata ix st' →
      P ops ixs accts st → P ops (ixs ++ [ix]) accts st')
    (account : ∀ ops ixs accts st buf acct st', CoordinatorState.AccountFlush st buf acct st' →
      P ops ixs accts st → P ops ixs (accts ++ [acct]) st')
    (cleanup : ∀ ops ixs accts st, P ops ixs accts st → P ops ixs accts st.cleanupFullyDrained)
    (drain : ∀ ops op ixs accts st, op.event? = none → P ops ixs accts st →
      P (ops ++ [op]) ixs accts st)
    {ops : List (Op R)} (h : Obeys allowed ops) :
    P ops (instructionSlots commitAt ops) (accountSlots commitAt ops) (run commitAt ops) := by
  refine history_induction (P := fun ops =>
    P ops (instructionSlots commitAt ops) (accountSlots commitAt ops) (run commitAt ops))
    start ?_ h
  intro ops op hop ih
  cases op with
  | apply e =>
      simpa [CoordinatorState.emittedInstructions, CoordinatorState.emittedAccounts,
        CoordinatorState.step] using event ops e hop ih
  | drainInstruction =>
      obtain ⟨mid, hex, hstep⟩ := (run commitAt ops).step_drainInstruction
      have hflush : ∀ ixs st ix st', CoordinatorState.nextInstruction st = some (ix, st') →
          P ops ixs (accountSlots commitAt ops) st →
            P ops (ixs ++ [ix]) (accountSlots commitAt ops) st' := by
        intro ixs st ix st' hnext hst
        obtain ⟨buf, metadata, flush⟩ := CoordinatorState.nextInstruction_eq_some.mp hnext
        exact instruction ops ixs _ st buf metadata ix st' flush hst
      have hmid := hex.invariant hflush ih
      simp only [instructionSlots_concat, accountSlots_concat, run_concat, hstep,
        CoordinatorState.emittedAccounts, List.append_nil]
      refine drain ops .drainInstruction _ _ _ rfl ?_
      split
      · exact hmid
      · exact cleanup _ _ _ _ hmid
  | drainAccount =>
      obtain ⟨mid, hex, hstep⟩ := (run commitAt ops).step_drainAccount
      have hflush : ∀ accts st acct st', CoordinatorState.nextAccount st = some (acct, st') →
          P ops (instructionSlots commitAt ops) accts st →
            P ops (instructionSlots commitAt ops) (accts ++ [acct]) st' := by
        intro accts st acct st' hnext hst
        obtain ⟨buf, flush⟩ := CoordinatorState.nextAccount_eq_some.mp hnext
        exact account ops _ accts st buf acct st' flush hst
      have hmid := hex.invariant hflush ih
      simp only [instructionSlots_concat, accountSlots_concat, run_concat, hstep,
        CoordinatorState.emittedInstructions, List.append_nil]
      refine drain ops .drainAccount _ _ _ rfl ?_
      split
      · exact hmid
      · exact cleanup _ _ _ _ hmid

/-- The same rule for a property of the state alone. -/
theorem run_invariant {allowed : List (Op R) → Op R → Prop} {P : CoordinatorState R → Prop}
    (start : P (.new commitAt))
    (event : ∀ ops e, allowed ops (.apply e) → P (run commitAt ops) →
      P ((run commitAt ops).apply e))
    (instruction : ∀ st buf metadata ix st',
      CoordinatorState.InstructionFlush st buf metadata ix st' → P st → P st')
    (account : ∀ st buf acct st', CoordinatorState.AccountFlush st buf acct st' → P st → P st')
    (cleanup : ∀ st, P st → P st.cleanupFullyDrained)
    {ops : List (Op R)} (h : Obeys allowed ops) : P (run commitAt ops) := by
  refine run_induction (P := fun _ _ _ st => P st) start event ?_ ?_ ?_ ?_ h
  · intro _ _ _ st buf metadata ix st' flush hst
    exact instruction st buf metadata ix st' flush hst
  · intro _ _ _ st buf acct st' flush hst
    exact account st buf acct st' flush hst
  · intro _ _ _ st hst
    exact cleanup st hst
  · intro _ _ _ _ st _ hst
    exact hst

/-- The commitment level is fixed for a run. -/
@[simp] theorem run_accountCommitAt (ops : List (Op R)) :
    (run commitAt ops).accountCommitAt = commitAt := by
  refine run_invariant (P := fun st => st.accountCommitAt = commitAt)
    rfl ?_ ?_ ?_ ?_ (Obeys.unrestricted ops)
  · intro ops e _ h
    rw [CoordinatorState.apply_accountCommitAt]
    exact h
  · intro st buf metadata ix st' flush h
    rw [flush.result]
    exact h
  · intro st buf acct st' flush h
    rw [flush.result]
    exact h
  · intro st h
    rw [CoordinatorState.cleanupFullyDrained_accountCommitAt]
    exact h

end Run

/-! ## Building runs -/

section Concrete

variable {R : Type}

/-- Block metadata with the zero hash, as the tests of the source build it. -/
def testMetadata (parentSlot : Slot) (expectedTxCount : Nat) : BlockMetadata :=
  ⟨parentSlot, .replicate 32 0, expectedTxCount⟩

/-- `apply_ready_slot`: freeze, parse and confirm one slot. -/
def applyReadySlot (slot parent : Slot) (expectedTxCount : Nat) : List (Op R) :=
  .apply (.blockFrozen slot (testMetadata parent expectedTxCount)) ::
    (List.replicate expectedTxCount (.apply (.transactionParsed slot)) ++
      [.apply (.slotConfirmed slot)])

end Concrete

end Shipstern.BlockCoordinator
