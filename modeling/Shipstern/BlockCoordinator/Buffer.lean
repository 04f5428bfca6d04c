import Shipstern.BlockCoordinator.Types
import Shipstern.Lib.OrderedMap

/-!
# The per-slot record buffer

`SlotRecordBuffer` collects everything the coordinator knows about one pending slot
(`buffer.rs`): the parsed records under their sort keys, the block metadata, the
counters behind the two gates, and whether each side was drained. The functions below
are the source methods without their log lines; none of the branches that only log
changes the buffer.
-/

open Std

namespace Shipstern.BlockCoordinator

/-- Per-slot buffer of parsed records. Instructions flush once every transaction
is parsed and the slot is confirmed; accounts flush once every update is parsed at the
configured commitment. The field defaults are the source's `Default`. -/
structure SlotRecordBuffer (R : Type) where
  instructionRecords : ExtTreeMap InstructionRecordSortKey R := ∅
  accountRecords : ExtTreeMap AccountRecordSortKey R := ∅
  metadata : Option BlockMetadata := none
  parsedTxCount : Nat := 0
  instructionCommitmentReached : Bool := false
  finalized : Bool := false
  accountCommitmentReached : Bool := false
  /-- `none` until the account gate is frozen, which blocks the account flush. -/
  expectedAccountCount : Option Nat := none
  accountProcessedCount : Nat := 0
  instructionsDrained : Bool := false
  accountsDrained : Bool := false
  filteredInstructionCount : Nat := 0
  failedInstructionCount : Nat := 0
  filteredAccountCount : Nat := 0
  failedAccountCount : Nat := 0
  transactionStatusFailedCount : Nat := 0
  transactionStatusSucceededCount : Nat := 0

namespace SlotRecordBuffer

variable {R : Type}

instance : Inhabited (SlotRecordBuffer R) := ⟨{}⟩

/-! ## Mutators -/

/-- A second record under the same key overwrites the first one. -/
def insertInstructionRecord (buf : SlotRecordBuffer R) (key : InstructionRecordSortKey)
    (record : R) : SlotRecordBuffer R :=
  { buf with instructionRecords := buf.instructionRecords.insert key record }

def insertAccountRecord (buf : SlotRecordBuffer R) (key : AccountRecordSortKey) (record : R) :
    SlotRecordBuffer R :=
  { buf with accountRecords := buf.accountRecords.insert key record }

/-- The last metadata wins. -/
def setBlockMetadata (buf : SlotRecordBuffer R) (metadata : BlockMetadata) : SlotRecordBuffer R :=
  { buf with metadata := some metadata }

def incrementParsedTxCount (buf : SlotRecordBuffer R) : SlotRecordBuffer R :=
  { buf with parsedTxCount := buf.parsedTxCount + 1 }

def incrementParseStat (buf : SlotRecordBuffer R) : ParseStatsKind → SlotRecordBuffer R
  | .instructionFiltered =>
      { buf with filteredInstructionCount := buf.filteredInstructionCount + 1 }
  | .instructionError => { buf with failedInstructionCount := buf.failedInstructionCount + 1 }
  | .accountFiltered => { buf with filteredAccountCount := buf.filteredAccountCount + 1 }
  | .accountError => { buf with failedAccountCount := buf.failedAccountCount + 1 }
  | .transactionStatusFailed =>
      { buf with transactionStatusFailedCount := buf.transactionStatusFailedCount + 1 }
  | .transactionStatusSucceeded =>
      { buf with transactionStatusSucceededCount := buf.transactionStatusSucceededCount + 1 }

def incrementAccountProcessedCount (buf : SlotRecordBuffer R) : SlotRecordBuffer R :=
  { buf with accountProcessedCount := buf.accountProcessedCount + 1 }

def markInstructionCommitmentReached (buf : SlotRecordBuffer R) : SlotRecordBuffer R :=
  { buf with instructionCommitmentReached := true }

def markAsFinalized (buf : SlotRecordBuffer R) : SlotRecordBuffer R :=
  { buf with finalized := true }

def markAccountCommitmentReached (buf : SlotRecordBuffer R) : SlotRecordBuffer R :=
  { buf with accountCommitmentReached := true }

/-- First write wins: once the expected count is set, later calls are ignored. -/
def setExpectedAccountCount (buf : SlotRecordBuffer R) (count : Nat) : SlotRecordBuffer R :=
  if buf.expectedAccountCount.isSome then buf
  else { buf with expectedAccountCount := some count }

/-! ## Gates -/

def txParseComplete (buf : SlotRecordBuffer R) : Bool :=
  buf.metadata.any fun metadata => metadata.expectedTxCount ≤ buf.parsedTxCount

def accountParseComplete (buf : SlotRecordBuffer R) : Bool :=
  buf.expectedAccountCount.any fun n => n ≤ buf.accountProcessedCount

/-- Instruction gate: every transaction parsed and the slot confirmed. -/
def instructionGateReached (buf : SlotRecordBuffer R) : Bool :=
  buf.txParseComplete && buf.instructionCommitmentReached

/-- Account gate: every account update parsed and the account commitment reached. -/
def accountGateReached (buf : SlotRecordBuffer R) : Bool :=
  buf.accountParseComplete && buf.accountCommitmentReached

def isAccountGateFrozen (buf : SlotRecordBuffer R) : Bool :=
  buf.accountCommitmentReached && buf.expectedAccountCount.isSome

def isFullyDrained (buf : SlotRecordBuffer R) : Bool :=
  buf.instructionsDrained && buf.accountsDrained

def parentSlot (buf : SlotRecordBuffer R) : Option Slot :=
  buf.metadata.map BlockMetadata.parentSlot

/-! ## Draining -/

/-- The buffer after its instruction records were taken. -/
def takeInstructionRecords (buf : SlotRecordBuffer R) : SlotRecordBuffer R :=
  { buf with instructionRecords := ∅, instructionsDrained := true }

/-- Drain the instruction records in key order; `none` when the metadata is missing. -/
def drainInstructionRecords (buf : SlotRecordBuffer R) (slot : Slot) :
    Option (InstructionSlot R × SlotRecordBuffer R) :=
  buf.metadata.map fun metadata =>
    ({ slot
       parentSlot := metadata.parentSlot
       blockhash := metadata.blockhash
       executedTransactionCount := metadata.expectedTxCount
       records := buf.instructionRecords.toList.map Prod.snd
       filteredInstructionCount := buf.filteredInstructionCount
       failedInstructionCount := buf.failedInstructionCount
       transactionStatusFailedCount := buf.transactionStatusFailedCount
       transactionStatusSucceededCount := buf.transactionStatusSucceededCount },
      buf.takeInstructionRecords)

/-- What is emitted for an entry with metadata. -/
theorem drainInstructionRecords_eq {buf buf' : SlotRecordBuffer R} {slot : Slot}
    {metadata : BlockMetadata} {ix : InstructionSlot R} (hmeta : buf.metadata = some metadata)
    (h : buf.drainInstructionRecords slot = some (ix, buf')) :
    ix =
      { slot
        parentSlot := metadata.parentSlot
        blockhash := metadata.blockhash
        executedTransactionCount := metadata.expectedTxCount
        records := buf.instructionRecords.toList.map Prod.snd
        filteredInstructionCount := buf.filteredInstructionCount
        failedInstructionCount := buf.failedInstructionCount
        transactionStatusFailedCount := buf.transactionStatusFailedCount
        transactionStatusSucceededCount := buf.transactionStatusSucceededCount } := by
  rw [drainInstructionRecords, hmeta, Option.map_some] at h
  exact (Prod.mk.inj (Option.some.inj h)).1.symm

/-- The buffer after its account records were taken. -/
def takeAccountRecords (buf : SlotRecordBuffer R) : SlotRecordBuffer R :=
  { buf with accountRecords := ∅, accountsDrained := true }

/-- Drain the account records in key order. -/
def drainAccountRecords (buf : SlotRecordBuffer R) (slot : Slot) :
    AccountSlot R × SlotRecordBuffer R :=
  ({ slot
     records := buf.accountRecords.toList.map Prod.snd
     decodedAccountCount := buf.accountRecords.size
     filteredAccountCount := buf.filteredAccountCount
     failedAccountCount := buf.failedAccountCount },
    buf.takeAccountRecords)

/-! ## The gates as propositions -/

theorem instructionGateReached_iff (buf : SlotRecordBuffer R) :
    buf.instructionGateReached = true ↔
      ∃ metadata, buf.metadata = some metadata ∧ metadata.expectedTxCount ≤ buf.parsedTxCount ∧
        buf.instructionCommitmentReached = true := by
  cases h : buf.metadata <;> simp [instructionGateReached, txParseComplete, h]

theorem accountGateReached_iff (buf : SlotRecordBuffer R) :
    buf.accountGateReached = true ↔
      ∃ n, buf.expectedAccountCount = some n ∧ n ≤ buf.accountProcessedCount ∧
        buf.accountCommitmentReached = true := by
  cases h : buf.expectedAccountCount <;> simp [accountGateReached, accountParseComplete, h]

end SlotRecordBuffer

end Shipstern.BlockCoordinator
