import Shipstern.BlockCoordinator.History

/-!
# Soundness of the gates

Whatever a drain emits was let through by the events accepted since the entry of its slot
was created. On the instruction side the last accepted `BlockFrozen` is what is emitted,
the slot was confirmed, and its transactions were parsed in the number that this block
announced. On the account side the first accepted commitment event fixed the number of
updates to wait for, and at least as many outcomes were accepted.

A `BlockFrozen` that is dropped by its guard does not count, even if the entry is still
waiting: behind both frontiers every lifecycle event is dropped.
-/

open Std OrderedMap Machine

namespace Shipstern.BlockCoordinator

variable {R : Type} {commitAt : AccountCommitAt} {ops : List (Op R)}

open CoordinatorState

/-- An emitted instruction slot with the life of its entry and the events behind it. -/
theorem instruction_entryLife {ix : InstructionSlot R}
    (h : ix ∈ (run commitAt ops).emittedInstructions .drainInstruction) :
    ∃ before since buf metadata, ops = before ++ since ∧
      EntryLife commitAt ix.slot before since ∧
      (run commitAt (before ++ since)).buffer[ix.slot]? = some buf ∧
      EntryOf ix.slot ((run commitAt before).acceptedEvents since) buf ∧
      buf.instructionsDrained = false ∧ buf.metadata = some metadata ∧
      metadata.expectedTxCount ≤ buf.parsedTxCount ∧ buf.instructionCommitmentReached = true ∧
      buf.drainInstructionRecords ix.slot = some (ix, buf.takeInstructionRecords) := by
  obtain ⟨-, buf, hbuf, hundrained, hgate, hix⟩ := mem_emittedInstructions h
  obtain ⟨metadata, hmeta, hparsed, hconfirmed⟩ := buf.instructionGateReached_iff.mp hgate
  obtain ⟨before, since, rfl, life⟩ := EntryLife.exists_of_present (by rw [hbuf]; rfl)
  have hentry := life.entryOf
  rw [hbuf, Option.getD_some] at hentry
  exact ⟨before, since, buf, metadata, rfl, life, hbuf, hentry, hundrained, hmeta, hparsed, hconfirmed,
    hix⟩

/-- An emitted account slot with the life of its entry and the events behind it. -/
theorem account_entryLife {acct : AccountSlot R}
    (h : acct ∈ (run commitAt ops).emittedAccounts .drainAccount) :
    ∃ before since buf n, ops = before ++ since ∧
      EntryLife commitAt acct.slot before since ∧
      (run commitAt (before ++ since)).buffer[acct.slot]? = some buf ∧
      EntryOf acct.slot ((run commitAt before).acceptedEvents since) buf ∧
      buf.accountsDrained = false ∧ EntryLife.FrozenAt commitAt acct.slot before since n ∧
      n ≤ buf.accountProcessedCount ∧
      buf.drainAccountRecords acct.slot = (acct, buf.takeAccountRecords) := by
  obtain ⟨-, buf, hbuf, hundrained, hgate, hacct⟩ := mem_emittedAccounts h
  obtain ⟨n, hn, hprocessed, -⟩ := buf.accountGateReached_iff.mp hgate
  obtain ⟨before, since, rfl, life⟩ := EntryLife.exists_of_present (by rw [hbuf]; rfl)
  have hentry := life.entryOf
  have haccount := life.accountGate
  rw [hbuf, Option.getD_some] at hentry haccount
  exact ⟨before, since, buf, n, rfl, life, hbuf, hentry, hundrained, haccount.frozen n hn, hprocessed,
    hacct⟩

/-- Both gates are sound in every run, and the instruction drain never fails. -/
theorem drains_respect_gates (commitAt : AccountCommitAt) (ops : List (Op R)) :
    (∀ ix ∈ (run commitAt ops).emittedInstructions .drainInstruction, ∃ before since,
        ops = before ++ since ∧ EntryLife commitAt ix.slot before since ∧
        (((run commitAt before).acceptedEvents since).filterMap
            (·.metadata? ix.slot)).getLast? =
          some ⟨ix.parentSlot, ix.blockhash, ix.executedTransactionCount⟩ ∧
        .slotConfirmed ix.slot ∈ (run commitAt before).acceptedEvents since ∧
        ix.executedTransactionCount ≤ ((run commitAt before).acceptedEvents since).countP
          (·.isTransactionParsed ix.slot)) ∧
      (∀ acct ∈ (run commitAt ops).emittedAccounts .drainAccount, ∃ before since n,
        ops = before ++ since ∧ EntryLife commitAt acct.slot before since ∧
        EntryLife.FrozenAt commitAt acct.slot before since n ∧
        n ≤ ((run commitAt before).acceptedEvents since).countP
          (·.isAccountOutcome acct.slot)) ∧
      ∃ flushed, (run commitAt ops).drainInstructionFlushable.1 = .ok flushed := by
  refine ⟨?_, ?_, ?_⟩
  · intro ix hix
    obtain ⟨before, since, buf, metadata, hops, life, -, hentry, -, hmeta, hparsed,
      hconfirmed, hdrain⟩ := instruction_entryLife hix
    have hix := SlotRecordBuffer.drainInstructionRecords_eq hmeta hdrain
    refine ⟨before, since, hops, life, ?_, hentry.confirmed.mp hconfirmed, ?_⟩
    · rw [← hentry.metadata, hmeta, hix]
    · rw [← hentry.parsedTx, hix]
      exact hparsed
  · intro acct hacct
    obtain ⟨before, since, buf, n, hops, life, -, hentry, -, hfrozen, hprocessed, -⟩ :=
      account_entryLife hacct
    exact ⟨before, since, n, hops, life, hfrozen, hentry.processed ▸ hprocessed⟩
  · obtain ⟨outs, mid, -, hdrain⟩ := (run commitAt ops).drainInstruction_exhausts
    exact ⟨outs, by rw [hdrain]⟩

/-- Slot 1 is frozen and confirmed behind slot 2. Its accounts are drained, so both
frontiers have passed it when it is frozen again with five transactions. -/
def refrozenRun : List (Op Nat) :=
  applyReadySlot 2 1 0 ++ [.drainInstruction] ++ applyReadySlot 1 0 0 ++
    [.drainAccount, .apply (.blockFrozen 1 (testMetadata 0 5))]

/-- The last `BlockFrozen` that was applied to the entry of slot 1 announces five
transactions, and slot 1 is emitted with none. -/
theorem refrozen_emitted_without_last_block :
    refrozenRun.getLast? = some (.apply (.blockFrozen 1 (testMetadata 0 5))) ∧
      (run .confirmed refrozenRun.dropLast).buffer[1]?.isSome ∧
      ((run .confirmed refrozenRun).emittedInstructions .drainInstruction).map
        (fun ix => (ix.slot, ix.executedTransactionCount)) = [(1, 0)] := by
  decide +kernel

end Shipstern.BlockCoordinator
