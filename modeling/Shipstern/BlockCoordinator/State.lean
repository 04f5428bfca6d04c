import Mathlib
import Shipstern.BlockCoordinator.Buffer

/-!
# The coordinator state machine

`CoordinatorState` with its nine events and its two drains (`state.rs`). Every path of
the source's `apply` returns `Ok(())`, so `apply` is a total function on states here.
A drain returns its result together with the state it leaves behind, which is the
mutated `self` of the source also when the result is an error.

Log lines are left out, and with them the functions that only log. The two drop counters
stay, because the account guards write them.
-/

open Std OrderedMap

namespace Shipstern.BlockCoordinator

/-- All inputs to the coordinator state machine. -/
inductive CoordinatorEvent (R : Type)
  | blockFrozen (slot : Slot) (metadata : BlockMetadata)
  | slotConfirmed (slot : Slot)
  | slotFinalized (slot : Slot)
  | slotDiscarded (slot : Slot) (reason : DiscardReason)
  | accountEventSeen (slot : Slot)
  | instructionRecordParsed (slot : Slot) (key : InstructionRecordSortKey) (record : R)
  | accountRecordParsed (slot : Slot) (key : AccountRecordSortKey) (record : R)
  | transactionParsed (slot : Slot)
  | parseStats (slot : Slot) (kind : ParseStatsKind)
deriving DecidableEq

/-- Pure-ish coordinator state (no channels, no wrapper). -/
structure CoordinatorState (R : Type) where
  buffer : ExtTreeMap Slot (SlotRecordBuffer R)
  discardedSlots : Finset Slot
  lastInstructionFlushedSlot : Option Slot
  lastAccountFlushedSlot : Option Slot
  /-- Running count of account events per slot until the account gate is frozen. -/
  accountEventCounts : ExtTreeMap Slot Nat
  accountCommitAt : AccountCommitAt
  lateAccountRecordDrops : Nat
  lateAccountEventDrops : Nat

namespace CoordinatorState

variable {R : Type}

/-- How far behind the flushed slots a tombstone is kept. -/
def discardedSlotRetentionBehindFlush : Slot := 512

def new (accountCommitAt : AccountCommitAt) : CoordinatorState R where
  buffer := ∅
  discardedSlots := ∅
  lastInstructionFlushedSlot := none
  lastAccountFlushedSlot := none
  accountEventCounts := ∅
  accountCommitAt := accountCommitAt
  lateAccountRecordDrops := 0
  lateAccountEventDrops := 0

/-- The minimum of the two flush slots, or whichever one exists. -/
def lastFlushedSlot (st : CoordinatorState R) : Option Slot :=
  match st.lastInstructionFlushedSlot, st.lastAccountFlushedSlot with
  | some a, some b => some (min a b)
  | a, b => a.or b

/-- `self.buffer.entry(slot).or_default()` followed by a mutation of the entry. -/
def modifyEntry (st : CoordinatorState R) (slot : Slot)
    (f : SlotRecordBuffer R → SlotRecordBuffer R) : CoordinatorState R :=
  { st with buffer := upsert st.buffer slot f }

/-! ## Guards -/

/-- The slot is at or behind a flush frontier. -/
def behind (frontier : Option Slot) (slot : Slot) : Bool :=
  frontier.any fun last => slot ≤ last

/-- Guard for lifecycle events: both frontiers have passed the slot. -/
def isAlreadyFlushed (st : CoordinatorState R) (slot : Slot) : Bool :=
  behind st.lastInstructionFlushedSlot slot && behind st.lastAccountFlushedSlot slot

/-- Instruction events for slots at or behind the flush frontier are stale. -/
def validateInstructionSlot (st : CoordinatorState R) (slot : Slot) : Bool :=
  if slot ∈ st.discardedSlots then false
  else if behind st.lastInstructionFlushedSlot slot then false
  else true

/-- Guard for account events; a drop after the flush is counted. -/
def validateAccountSlot (st : CoordinatorState R) (slot : Slot) : Bool × CoordinatorState R :=
  if slot ∈ st.discardedSlots then (false, st)
  else if behind st.lastAccountFlushedSlot slot then
    (false, { st with lateAccountRecordDrops := st.lateAccountRecordDrops + 1 })
  else if st.buffer[slot]?.any SlotRecordBuffer.accountsDrained then
    (false, { st with lateAccountRecordDrops := st.lateAccountRecordDrops + 1 })
  else (true, st)

/-- The account gate has been frozen for the slot. -/
def isAccountGateFrozen (st : CoordinatorState R) (slot : Slot) : Bool :=
  st.buffer[slot]?.any SlotRecordBuffer.isAccountGateFrozen

/-! ## Transitions -/

/-- Move the running account count into the entry and mark its account commitment. -/
def freezeAccountGate (st : CoordinatorState R) (slot : Slot) : CoordinatorState R :=
  let count := st.accountEventCounts[slot]?.getD 0
  let st := { st with accountEventCounts := st.accountEventCounts.erase slot }
  st.modifyEntry slot fun buf =>
    (buf.setExpectedAccountCount count).markAccountCommitmentReached

/-- Drop the tombstones far behind `lastFlushedSlot`. -/
def pruneDiscardedSlots (st : CoordinatorState R) : CoordinatorState R :=
  match st.lastFlushedSlot with
  | some last =>
      let minRetained := last - discardedSlotRetentionBehindFlush
      { st with discardedSlots := st.discardedSlots.filter fun s => minRetained < s }
  | none => st

/-- Put a tombstone for the slot, forget its account count and remove its entry. -/
def discardSlot (st : CoordinatorState R) (slot : Slot) (_reason : DiscardReason) :
    CoordinatorState R :=
  let st := { st with discardedSlots := insert slot st.discardedSlots }
  let st := { st with accountEventCounts := st.accountEventCounts.erase slot }
  let st := st.pruneDiscardedSlots
  { st with buffer := st.buffer.erase slot }

/-- Apply one event. -/
def apply (st : CoordinatorState R) : CoordinatorEvent R → CoordinatorState R
  | .blockFrozen slot metadata =>
      if st.isAlreadyFlushed slot then st
      else st.modifyEntry slot (·.setBlockMetadata metadata)
  | .slotConfirmed slot =>
      if st.isAlreadyFlushed slot then st
      else
        let st := st.modifyEntry slot (·.markInstructionCommitmentReached)
        if st.accountCommitAt = .confirmed then st.freezeAccountGate slot else st
  | .slotFinalized slot =>
      if st.accountCommitAt ≠ .finalized then st
      else if st.isAlreadyFlushed slot then st
      else
        let st := st.modifyEntry slot (·.markAsFinalized)
        if st.accountCommitAt = .finalized then st.freezeAccountGate slot else st
  | .slotDiscarded slot reason => st.discardSlot slot reason
  | .accountEventSeen slot =>
      if st.isAlreadyFlushed slot then st
      else if slot ∈ st.discardedSlots then st
      else if st.buffer[slot]?.any fun buf =>
          buf.accountGateReached || st.isAccountGateFrozen slot then
        { st with lateAccountEventDrops := st.lateAccountEventDrops + 1 }
      else
        { st with accountEventCounts :=
            st.accountEventCounts.insert slot (st.accountEventCounts[slot]?.getD 0 + 1) }
  | .instructionRecordParsed slot key record =>
      if !st.validateInstructionSlot slot then st
      else st.modifyEntry slot (·.insertInstructionRecord key record)
  | .accountRecordParsed slot key record =>
      match st.validateAccountSlot slot with
      | (false, st) => st
      | (true, st) =>
          st.modifyEntry slot fun buf =>
            (buf.insertAccountRecord key record).incrementAccountProcessedCount
  | .transactionParsed slot =>
      if !st.validateInstructionSlot slot then st
      else st.modifyEntry slot (·.incrementParsedTxCount)
  | .parseStats slot kind =>
      if kind.isAccountStat then
        match st.validateAccountSlot slot with
        | (false, st) => st
        | (true, st) =>
            st.modifyEntry slot fun buf =>
              (buf.incrementParseStat kind).incrementAccountProcessedCount
      else if !st.validateInstructionSlot slot then st
      else st.modifyEntry slot (·.incrementParseStat kind)

/-! ## Draining -/

/-- Remove the entries with both sides drained, then prune the tombstones and the
account counts; the counts are pruned by the account frontier. -/
def cleanupFullyDrained (st : CoordinatorState R) : CoordinatorState R :=
  let drained := (st.buffer.filter fun _ buf => buf.isFullyDrained).keys
  let st := { st with buffer := eraseKeys st.buffer drained }
  let st := st.pruneDiscardedSlots
  match st.lastAccountFlushedSlot with
  | some last =>
      { st with accountEventCounts := st.accountEventCounts.filter fun s _ => last < s }
  | none => st

/-- Loop body of `drain_instruction_flushable` over the keys collected before the loop.
No iteration removes an entry, so every key of the list is still present. -/
def drainInstructionLoop : List Slot → CoordinatorState R → List (InstructionSlot R) →
    Except CoordinatorError (List (InstructionSlot R)) × CoordinatorState R
  | [], st, flushed => (.ok flushed, st)
  | slot :: slots, st, flushed =>
      match st.buffer[slot]? with
      | none => (.ok flushed, st)
      | some buf =>
          if buf.instructionsDrained || !buf.instructionGateReached then
            -- Stop at the first non-ready slot to maintain ordering.
            if !buf.instructionsDrained then (.ok flushed, st)
            else drainInstructionLoop slots st flushed
          else
            match buf.parentSlot with
            | none => (.error (.readySlotMissingMetadata slot), st)
            | some parentSlot =>
                let isFirst := st.lastInstructionFlushedSlot.isNone
                let parentOk := behind st.lastInstructionFlushedSlot parentSlot ||
                  parentSlot ∈ st.discardedSlots
                if !isFirst && !parentOk then (.ok flushed, st)
                else
                  match buf.drainInstructionRecords slot with
                  | none => (.error (.readySlotMissingMetadata slot), st)
                  | some (ixSlot, buf) =>
                      drainInstructionLoop slots
                        { st with
                          buffer := st.buffer.insert slot buf
                          lastInstructionFlushedSlot := some slot }
                        (flushed ++ [ixSlot])

/-- Drain the instruction-ready slots. -/
def drainInstructionFlushable (st : CoordinatorState R) :
    Except CoordinatorError (List (InstructionSlot R)) × CoordinatorState R :=
  match drainInstructionLoop st.buffer.keys st [] with
  | (.ok flushed, st) =>
      (.ok flushed, if flushed.isEmpty then st else st.cleanupFullyDrained)
  | (.error e, st) => (.error e, st)

/-- Loop body of `drain_account_flushable` over the keys collected before the loop. -/
def drainAccountLoop : List Slot → CoordinatorState R → List (AccountSlot R) →
    List (AccountSlot R) × CoordinatorState R
  | [], st, flushed => (flushed, st)
  | slot :: slots, st, flushed =>
      match st.buffer[slot]? with
      | none => (flushed, st)
      | some buf =>
          if buf.accountsDrained || !buf.accountGateReached then
            if !buf.accountsDrained then (flushed, st)
            else drainAccountLoop slots st flushed
          else
            let (acctSlot, buf) := buf.drainAccountRecords slot
            drainAccountLoop slots
              { st with
                buffer := st.buffer.insert slot buf
                lastAccountFlushedSlot := some slot }
              (flushed ++ [acctSlot])

/-- Drain the account-ready slots. -/
def drainAccountFlushable (st : CoordinatorState R) :
    List (AccountSlot R) × CoordinatorState R :=
  match drainAccountLoop st.buffer.keys st [] with
  | (flushed, st) => (flushed, if flushed.isEmpty then st else st.cleanupFullyDrained)

end CoordinatorState

end Shipstern.BlockCoordinator
