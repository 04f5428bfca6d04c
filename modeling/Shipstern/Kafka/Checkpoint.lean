import Shipstern.BlockCoordinator.Order
import Shipstern.Kafka.Messages
import Shipstern.Lib.Shuffle

/-!
# The checkpoint accounts for every instruction

Any number of handlers send the messages of their transactions to the coordinator, mixed
with each other and with everything else. Each run of a handler is balanced and ends with
`TransactionParsed`, so the counting of the coordinator closes the gate of the slot behind
the last message of the last handler. The commit event then adds up to the instructions of
all transactions of the slot.
-/

open Std OrderedMap Machine
open Shipstern.Core

namespace Shipstern.Kafka

open BlockCoordinator

/-- A transaction update with the parsers that it meets. Every run has its own, since a
parser may answer differently each time. -/
structure HandlerRun where
  sink : KafkaSink
  update : TransactionUpdate

namespace HandlerRun

def messages (bs58 : Bs58) (r : HandlerRun) : List (CoordinatorEvent PreparedRecord) :=
  handle bs58 r.sink r.update

/-- What the run sends: the statistic of the transaction, a group of messages for each
visited instruction, and the only `TransactionParsed`. -/
structure Sends (bs58 : Bs58) (s : Slot) (r : HandlerRun)
    (groups : List (List (CoordinatorEvent PreparedRecord))) : Prop where
  accounted : List.Forall₂ (fun entry evs => Accounted s (sortKey (txIndex r.update) entry.2) evs)
    (visited bs58 r.update) groups
  messages : r.messages bs58 = status r.update ++ groups.flatten ++ [.transactionParsed s]
  single : ∀ e ∈ status r.update ++ groups.flatten, e.isTransactionParsed s = false

theorem sends (bs58 : Bs58) (r : HandlerRun) : ∃ groups, r.Sends bs58 r.update.slot groups := by
  let send := instructionMessages bs58 r.sink r.update.slot (txIndex r.update)
  have haccounted : List.Forall₂
      (fun entry evs => Accounted r.update.slot (sortKey (txIndex r.update) entry.2) evs)
      (visited bs58 r.update) ((visited bs58 r.update).map send) := by
    rw [List.forall₂_map_right_iff, List.forall₂_same]
    intro entry _
    exact instructionMessages_accounted _ _ entry
  refine ⟨(visited bs58 r.update).map send, haccounted, ?_, ?_⟩
  · rw [HandlerRun.messages, handle_eq, parts, List.flatMap_def]
  · intro e he
    obtain he | he := List.mem_append.mp he
    · rw [status] at he
      cases htransaction : r.update.transaction with
      | none => simp [htransaction] at he
      | some txInfo =>
          rw [htransaction] at he
          cases List.mem_singleton.mp he
          rfl
    · obtain ⟨group, hgroup, he⟩ := List.mem_flatten.mp he
      obtain ⟨entry, -, rfl⟩ := List.mem_map.mp hgroup
      exact (instructionMessages_accounted r.update.slot (txIndex r.update) entry).unfinished e he

/-- Every part of a transaction is followed by its `TransactionParsed`. -/
theorem followed (bs58 : Bs58) (r : HandlerRun) :
    Followed (CoordinatorEvent.isInstructionPart r.update.slot)
      (CoordinatorEvent.isTransactionParsed r.update.slot) (r.messages bs58) := by
  rw [messages, handle_eq]
  exact .concat rfl (by simp [CoordinatorEvent.isTransactionParsed])

theorem countP_transactionParsed (bs58 : Bs58) (r : HandlerRun) :
    (r.messages bs58).countP (·.isTransactionParsed r.update.slot) = 1 := by
  obtain ⟨groups, hsends⟩ := r.sends bs58
  have hnone : (status r.update ++ groups.flatten).countP
      (·.isTransactionParsed r.update.slot) = 0 := by
    rw [List.countP_eq_zero]
    intro e he
    simp [hsends.single e he]
  rw [hsends.messages, List.countP_append, hnone]
  simp [CoordinatorEvent.isTransactionParsed]

end HandlerRun

/-- What the slot can rely on: its updates have distinct transaction indexes and each is
handled once, the messages arrive in any interleaving among any other events, its block
expects as many transactions as there are updates, and it is not discarded. -/
structure Handled (bs58 : Bs58) (s : Slot) (runs : List HandlerRun)
    (ops : List (Op PreparedRecord)) : Prop where
  slots : ∀ r ∈ runs, r.update.slot = s
  distinct : (runs.filterMap fun r => r.update.transaction.map (·.index)).Nodup
  interleaved : Shuffle (runs.map (·.messages bs58))
    ((events ops).filter (·.isInstructionEvent s))
  frozen : ∀ m ∈ (events ops).filterMap (·.metadata? s), m.expectedTxCount = runs.length
  kept : ∀ e ∈ events ops, e.discards s = false

namespace Handled

variable {bs58 : Bs58} {commitAt : AccountCommitAt} {s : Slot} {runs : List HandlerRun}
  {ops : List (Op PreparedRecord)}

theorem perm (h : Handled bs58 s runs ops) :
    ((events ops).filter (·.isInstructionEvent s)).Perm (runs.flatMap (·.messages bs58)) := by
  rw [List.flatMap_def]
  exact h.interleaved.perm

/-- The keys of different runs differ in the transaction index. -/
theorem nodup_recordKeys (h : Handled bs58 s runs ops) :
    (recordKeys s (runs.flatMap (·.messages bs58))).Nodup := by
  rw [recordKeys_flatMap, List.nodup_flatMap]
  constructor
  · intro r hr
    rw [← h.slots r hr]
    exact nodup_recordKeys_handle bs58 r.sink r.update
  · have hdistinct := h.distinct
    rw [List.Nodup, List.pairwise_filterMap] at hdistinct
    refine hdistinct.imp_of_mem ?_
    intro r r' hr hr' hne key hkey hkey'
    rw [← h.slots r hr] at hkey
    rw [← h.slots r' hr'] at hkey'
    exact hne _ (txIndex_of_recordKeys hkey) _ (txIndex_of_recordKeys hkey') rfl

theorem counted (h : Handled bs58 s runs ops) :
    (events ops).countP (·.isTransactionParsed s) = runs.length := by
  have hone : runs.map (fun r => (r.messages bs58).countP (·.isTransactionParsed s)) =
      runs.map fun _ => 1 := by
    refine List.map_congr_left fun r hr => ?_
    rw [← h.slots r hr, r.countP_transactionParsed]
  rw [← filter_isTransactionParsed, h.perm.countP_eq, List.countP_flatMap]
  simp only [Function.comp_def, hone, List.map_const', List.sum_replicate]
  simp

theorem followed (h : Handled bs58 s runs ops) :
    Followed (CoordinatorEvent.isInstructionPart s) (CoordinatorEvent.isTransactionParsed s)
      (events ops) := by
  have hfiltered := h.interleaved.followed (p := CoordinatorEvent.isInstructionPart s)
    (q := CoordinatorEvent.isTransactionParsed s) (by
      rw [List.forall_mem_map]
      intro r hr
      rw [← h.slots r hr]
      exact r.followed bs58)
  refine hfiltered.of_filter ?_
  intro e he
  rw [CoordinatorEvent.isInstructionEvent, he, Bool.true_or]

/-- A slot that is emitted in a run without late gates could rely on its handlers. -/
theorem instructionRun (h : Handled bs58 s runs ops) (hgate : NoStaleInstructionGate commitAt ops)
    (hemitted : s ∈ (instructionSlots commitAt ops).map InstructionSlot.slot) :
    InstructionRun commitAt s ops where
  kept := h.kept
  ahead := by
    intro front hfront hpending
    obtain ⟨back, rfl⟩ := (List.mem_inits _ _).mp hfront
    exact frontier_below_of_emitted hgate hemitted hpending
  framed := by
    intro rest hrest e he hpart
    obtain ⟨front, heq⟩ := (List.mem_tails _ _).mp hrest
    cases rest with
    | nil => cases he
    | cons e' rest =>
        cases he
        exact h.followed front e rest heq.symm hpart
  counted := by
    intro m hm
    rw [h.counted, h.frozen m hm]
  distinct := by
    have hkeys := (h.perm.filterMap (·.instructionRecord? s)).map Prod.fst
    rw [filter_instructionRecord] at hkeys
    exact hkeys.nodup_iff.mpr h.nodup_recordKeys

theorem balanced (h : Handled bs58 s runs ops) :
    Balanced s (runs.map fun r => instructionCount bs58 r.update).sum
      ((events ops).filter (·.isInstructionEvent s)) := by
  have hruns : Balanced s (runs.map fun r => instructionCount bs58 r.update).sum
      (runs.flatMap (·.messages bs58)) := by
    refine .flatMap fun r hr => ?_
    rw [← h.slots r hr]
    exact balanced_handle bs58 r.sink r.update
  exact hruns.perm h.perm.symm

end Handled

/-- A complete output of balanced events is a balanced commit event. -/
theorem commitEvent_of_complete (bs58 : Bs58) {s : Slot} {n : Nat}
    {evs : List (CoordinatorEvent PreparedRecord)} {ix : InstructionSlot PreparedRecord}
    (hcomplete : InstructionComplete s evs ix)
    (hbalanced : Balanced s n (evs.filter (·.isInstructionEvent s))) :
    let event := buildTransactionSlotCommitEvent bs58 ix
    event.decodedInstructionCount + event.decodeFilteredInstructionCount +
        event.decodeErrorInstructionCount = n ∧
      event.fallbackInstructionCount ≤
        event.decodeFilteredInstructionCount + event.decodeErrorInstructionCount := by
  obtain ⟨sorted, hperm, -, hrecords⟩ := hcomplete.records
  have hslot : ix.records.Perm (slotRecords s (evs.filter (·.isInstructionEvent s))) := by
    rw [hrecords, slotRecords, filter_instructionRecord]
    exact hperm.map Prod.snd
  have htotal := hbalanced.total
  have hfallback := hbalanced.fallback
  rw [filter_isParseStat s evs rfl, filter_isParseStat s evs rfl, ← hcomplete.filtered,
    ← hcomplete.failed, ← hslot.countP_eq] at htotal hfallback
  exact ⟨htotal, hfallback⟩

/-- In every run that opens no instruction gate at or behind the instruction frontier the
checkpoint of a slot accounts for each instruction once: every run of a handler ends with
its only `TransactionParsed`, every visited instruction sends a decoded record, a fallback
record with a statistic or the statistic alone, all sort keys are distinct, and the commit
event adds up to the instructions of the successful transactions that can be built. -/
theorem checkpoint_accounts (bs58 : Bs58) (commitAt : AccountCommitAt) (s : Slot)
    (runs : List HandlerRun) (ops : List (Op PreparedRecord)) (h : Handled bs58 s runs ops)
    (hgate : NoStaleInstructionGate commitAt ops) :
    (∀ r ∈ runs, ∃ groups, r.Sends bs58 s groups) ∧
      (recordKeys s (runs.flatMap (·.messages bs58))).Nodup ∧
      ∀ ix ∈ instructionSlots commitAt ops, ix.slot = s →
        let event := buildTransactionSlotCommitEvent bs58 ix
        event.decodedInstructionCount + event.decodeFilteredInstructionCount +
            event.decodeErrorInstructionCount =
          (runs.map fun r => instructionCount bs58 r.update).sum ∧
        event.fallbackInstructionCount ≤
          event.decodeFilteredInstructionCount + event.decodeErrorInstructionCount := by
  refine ⟨?_, h.nodup_recordKeys, ?_⟩
  · intro r hr
    rw [← h.slots r hr]
    exact r.sends bs58
  · rintro ix hix rfl
    have hrun := h.instructionRun hgate (List.mem_map_of_mem hix)
    exact commitEvent_of_complete bs58 (hrun.complete hix rfl).1 h.balanced

/-- A parser of the first program that reads one instruction and leaves another to the
fallback topic. -/
def testParser : DynInstructionParser where
  tryParse ix :=
    match ix.data with
    | [7] => .parsed [1, 2]
    | [8] => .error "unknown".toList
    | _ => .filtered
  topic := "decoded".toList
  programId := .replicate 32 1
  fallbackTopic := some "raw".toList

/-- The transaction with the given index and instructions, all of the first program. -/
def testUpdate (index : Nat) (instructions : List CompiledInstruction)
    (groups : List InnerInstructions) : TransactionUpdate where
  transaction := some
    { signature := []
      isVote := false
      transaction := some
        { message := some
            { header := some ⟨1, 0, 1⟩
              accountKeys := [List.replicate 32 1]
              instructions := instructions } }
      statusMeta := some
        { err := none
          innerInstructions := groups
          logMessages := []
          loadedWritableAddresses := []
          loadedReadonlyAddresses := [] }
      index := index }
  slot := 3

def testRun (update : TransactionUpdate) : HandlerRun := ⟨⟨[testParser], fun _ => none⟩, update⟩

/-- Two transactions of slot 3 and an update without one, interleaved. -/
def threeRuns : List HandlerRun :=
  [testRun (testUpdate 0 [⟨0, [], [7]⟩] [⟨0, [⟨0, [], [8], some 2⟩, ⟨0, [], [9], some 2⟩]⟩]),
    testRun (testUpdate 1 [⟨0, [], [8]⟩] []), testRun ⟨none, 3⟩]

def interleavedMessages : List (CoordinatorEvent PreparedRecord) :=
  match threeRuns.map (·.messages .bitcoin) with
  | [first, second, third] => first.take 2 ++ third ++ second ++ first.drop 2
  | _ => []

def interleavedRun : List (Op PreparedRecord) :=
  .apply (.slotConfirmed 3) :: .apply (.blockFrozen 3 (testMetadata 2 3)) ::
    interleavedMessages.flatMap fun e => [.apply e, .drainInstruction]

theorem checkpoint_accounts_of_interleaved :
    ((instructionSlots .confirmed interleavedRun).map fun ix =>
        let event := buildTransactionSlotCommitEvent .bitcoin ix
        (event.decodedInstructionCount, event.decodeFilteredInstructionCount,
          event.decodeErrorInstructionCount, event.fallbackInstructionCount)) =
          [(1, 1, 2, 2)] ∧
      ∀ ix ∈ instructionSlots .confirmed interleavedRun, ix.slot = 3 →
        let event := buildTransactionSlotCommitEvent .bitcoin ix
        event.decodedInstructionCount + event.decodeFilteredInstructionCount +
          event.decodeErrorInstructionCount = 4 := by
  have h : Handled .bitcoin 3 threeRuns interleavedRun :=
    ⟨by decide +kernel, by decide +kernel, by decide +kernel, by decide +kernel,
      by decide +kernel⟩
  have hsum : (threeRuns.map fun r => instructionCount .bitcoin r.update).sum = 4 := by
    decide +kernel
  refine ⟨by decide +kernel, ?_⟩
  intro ix hix hslot
  rw [← hsum]
  exact ((checkpoint_accounts .bitcoin .confirmed 3 threeRuns interleavedRun h
    (by decide +kernel)).2.2 ix hix hslot).1

/-- The transaction of slot 3 is sent while slot 5 is the frontier. The late slot 1 moves
the frontier back before its `TransactionParsed` arrives. -/
def lateRun : List (Op PreparedRecord) :=
  let sent := (testRun (testUpdate 0 [⟨0, [], [7]⟩] [])).messages .bitcoin
  applyReadySlot 5 4 0 ++ [.drainInstruction] ++ sent.dropLast.map .apply ++
    applyReadySlot 1 0 0 ++ [.drainInstruction] ++ (sent.drop (sent.length - 1)).map .apply ++
    [.apply (.blockFrozen 3 (testMetadata 1 1)), .apply (.slotConfirmed 3), .drainInstruction]

/-- The decoded record was dropped, and slot 3 is emitted without it. -/
theorem checkpoint_loses_late_record :
    Handled .bitcoin 3 [testRun (testUpdate 0 [⟨0, [], [7]⟩] [])] lateRun ∧
      instructionCount .bitcoin (testUpdate 0 [⟨0, [], [7]⟩] []) = 1 ∧
      ∃ ix ∈ instructionSlots .confirmed lateRun, ix.slot = 3 ∧
        let event := buildTransactionSlotCommitEvent .bitcoin ix
        event.decodedInstructionCount + event.decodeFilteredInstructionCount +
          event.decodeErrorInstructionCount = 0 := by
  refine ⟨⟨?_, ?_, ?_, ?_, ?_⟩, ?_, ?_⟩ <;> decide +kernel

end Shipstern.Kafka
