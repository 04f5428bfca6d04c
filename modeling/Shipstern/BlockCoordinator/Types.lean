import Mathlib

/-!
# Data types of the block coordinator

The types exchanged between the coordinator state machine, the handlers that feed it
and the sinks that consume its output (`types.rs`). Slots, write versions, indexes and
counters are natural numbers: the coordinator only compares slots, takes their minimum
and subtracts with saturation, and its `u64` counters grow by one per event.

The two sort keys are compared field by field in declaration order, as the derived
`Ord` of the source does. Their comparisons are lawful, so they can index ordered maps.
-/

open Std

namespace Shipstern.BlockCoordinator

abbrev Slot := Nat

/-- A 32-byte block hash. -/
abbrev Hash := Vector UInt8 32

/-- Block metadata that always transitions together. -/
structure BlockMetadata where
  parentSlot : Slot
  blockhash : Hash
  expectedTxCount : Nat
deriving DecidableEq

/-- Reason a slot was discarded by the coordinator. -/
inductive DiscardReason
  | dead
  | forked
  | untracked
  | incomplete
deriving DecidableEq

/-- Coordinator invariants and unrecoverable errors. -/
inductive CoordinatorError
  | twoGateInvariantViolation (slot : Slot) (lastFlushed : Option Slot)
  | readySlotMissingMetadata (slot : Slot)
  | instructionOutputChannelClosed (slot : Slot)
  | accountOutputChannelClosed (slot : Slot)
deriving DecidableEq

/-- Categorizes parse outcomes for stats tracking. -/
inductive ParseStatsKind
  | instructionFiltered
  | instructionError
  | accountFiltered
  | accountError
  | transactionStatusFailed
  | transactionStatusSucceeded
deriving DecidableEq

/-- The two kinds that `apply` routes to the account side of the buffer. -/
def ParseStatsKind.isAccountStat : ParseStatsKind → Bool
  | .accountFiltered | .accountError => true
  | _ => false

/-- Sort key for instruction records: transaction index, then instruction path.
Paths are compared lexicographically, so a parent precedes its inner instructions. -/
structure InstructionRecordSortKey where
  txIndex : Nat
  ixPath : List Nat
deriving DecidableEq

instance : Ord InstructionRecordSortKey :=
  ⟨compareLex (compareOn (·.txIndex)) (compareOn (·.ixPath))⟩

instance : TransOrd InstructionRecordSortKey :=
  inferInstanceAs (TransCmp (compareLex (compareOn InstructionRecordSortKey.txIndex)
    (compareOn InstructionRecordSortKey.ixPath)))

instance : LawfulEqOrd InstructionRecordSortKey where
  eq_of_compare := by
    rintro ⟨i, p⟩ ⟨j, q⟩ h
    obtain ⟨hi, hp⟩ := compareLex_eq_eq.mp h
    cases LawfulEqOrd.eq_of_compare (show compare i j = .eq from hi)
    cases LawfulEqOrd.eq_of_compare (show compare p q = .eq from hp)
    rfl

/-- Sort key for account records: write version, then public key. -/
structure AccountRecordSortKey where
  writeVersion : Nat
  pubkey : Vector UInt8 32
deriving DecidableEq

instance : Ord AccountRecordSortKey :=
  ⟨compareLex (compareOn (·.writeVersion)) (compareOn (·.pubkey))⟩

instance : TransOrd AccountRecordSortKey :=
  inferInstanceAs (TransCmp (compareLex (compareOn AccountRecordSortKey.writeVersion)
    (compareOn AccountRecordSortKey.pubkey)))

instance : LawfulEqOrd AccountRecordSortKey where
  eq_of_compare := by
    rintro ⟨v, p⟩ ⟨w, q⟩ h
    obtain ⟨hv, hp⟩ := compareLex_eq_eq.mp h
    cases LawfulEqOrd.eq_of_compare (show compare v w = .eq from hv)
    cases LawfulEqOrd.eq_of_compare (show compare p q = .eq from hp)
    rfl

/-- Account commitment configuration. -/
inductive AccountCommitAt
  | confirmed
  | finalized
deriving DecidableEq

instance : Inhabited AccountCommitAt := ⟨.confirmed⟩

/-- An instruction slot ready for downstream consumption. -/
structure InstructionSlot (R : Type) where
  slot : Slot
  parentSlot : Slot
  blockhash : Hash
  executedTransactionCount : Nat
  records : List R
  filteredInstructionCount : Nat
  failedInstructionCount : Nat
  transactionStatusFailedCount : Nat
  transactionStatusSucceededCount : Nat
deriving DecidableEq

/-- An account slot ready for downstream consumption. -/
structure AccountSlot (R : Type) where
  slot : Slot
  records : List R
  decodedAccountCount : Nat
  filteredAccountCount : Nat
  failedAccountCount : Nat
deriving DecidableEq

end Shipstern.BlockCoordinator
