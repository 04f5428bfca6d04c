import Shipstern.BlockCoordinator.State
import Shipstern.Kafka.Record

/-!
# The handler that parses transactions for the Kafka sink

`parse_instruction` of `sink.rs`, `BufferingHandler::handle` of `handler.rs` and the commit
event of `kafka_sink.rs`. A run of the handler is the list of messages that it sends to the
coordinator. The parsers are parameters: each is a function from the instruction to an
outcome.
-/

open Shipstern.Core

namespace Shipstern.Kafka

open BlockCoordinator

/-- Outcome of a single parse attempt. -/
inductive ParseOutcome
  | parsed (data : List UInt8)
  | filtered
  | error (message : Text)

structure DynInstructionParser where
  tryParse : InstructionUpdate → ParseOutcome
  topic : Text
  programId : Pubkey
  fallbackTopic : Option Text

structure KafkaSink where
  instructionParsers : List DynInstructionParser
  schemaIds : SchemaIds

def instructionFeePayer (ix : InstructionUpdate) : Option (List UInt8) :=
  ix.shared.accounts.staticKeys.head?

namespace KafkaSink

/-- The loop over the parsers. An error without a fallback topic leaves the instruction to
the next parser of its program. -/
def parseInstructionLoop (bs58 : Bs58) (sink : KafkaSink) (context : InstructionRecordContext)
    (ix : InstructionUpdate) :
    Bool → List DynInstructionParser → Option PreparedRecord × Bool
  | hadError, [] => (none, hadError)
  | hadError, parser :: parsers =>
      if ix.program ≠ parser.programId then
        sink.parseInstructionLoop bs58 context ix hadError parsers
      else
        match parser.tryParse ix with
        | .parsed data =>
            (some (prepareDecodedInstructionRecord bs58 sink.schemaIds context data parser.topic),
              false)
        | .filtered => sink.parseInstructionLoop bs58 context ix hadError parsers
        | .error message =>
            match parser.fallbackTopic with
            | some fallback =>
                (some (prepareFallbackInstructionRecord bs58 context ix fallback message), true)
            | none => sink.parseInstructionLoop bs58 context ix true parsers

/-- Parse an instruction with the first matching parser; the flag says that one failed. -/
def parseInstruction (bs58 : Bs58) (sink : KafkaSink) (slot txIndex : Nat)
    (signature : List UInt8) (path : Path) (ix : InstructionUpdate) :
    Option PreparedRecord × Bool :=
  let context : InstructionRecordContext :=
    { slot, txIndex, signature, feePayer := instructionFeePayer ix, path }
  sink.parseInstructionLoop bs58 context ix false sink.instructionParsers

end KafkaSink

def sortKey (txIndex : Nat) (path : Path) : InstructionRecordSortKey := ⟨txIndex, path⟩

/-- The statistic of an instruction that was not decoded. -/
def undecodedKind (hadError : Bool) : ParseStatsKind :=
  if hadError then .instructionError else .instructionFiltered

/-- What is sent for one visited instruction. -/
def instructionMessages (bs58 : Bs58) (sink : KafkaSink) (slot txIndex : Nat)
    (visited : InstructionUpdate × Path) : List (CoordinatorEvent PreparedRecord) :=
  let (ix, flatIndex) := visited
  match sink.parseInstruction bs58 slot txIndex ix.shared.signature flatIndex ix with
  | (some record, hadError) =>
      .instructionRecordParsed slot (sortKey txIndex flatIndex) record ::
        if record.isDecoded then [] else [.parseStats slot (undecodedKind hadError)]
  | (none, hadError) => [.parseStats slot (undecodedKind hadError)]

/-- The messages of `BufferingHandler::handle` for a transaction. -/
def handle (bs58 : Bs58) (sink : KafkaSink) (update : TransactionUpdate) :
    List (CoordinatorEvent PreparedRecord) :=
  match update.transaction with
  | none => [.transactionParsed update.slot]
  | some txInfo =>
      if (txInfo.statusMeta.bind (·.err)).isSome then
        [.parseStats update.slot .transactionStatusFailed, .transactionParsed update.slot]
      else
        .parseStats update.slot .transactionStatusSucceeded ::
          match buildFromTxn bs58 update with
          | .error _ => [.transactionParsed update.slot]
          | .ok instructions =>
              (instructions.flatMap fun ix => ix.visitAllWithFlatIndices.flatMap
                (instructionMessages bs58 sink update.slot txInfo.index)) ++
                [.transactionParsed update.slot]

/-- Published when an instruction slot is fully committed. -/
structure TransactionSlotCommitEvent where
  slot : Nat
  blockhash : Text
  transactionCount : Nat
  decodedInstructionCount : Nat
  decodeFilteredInstructionCount : Nat
  decodeErrorInstructionCount : Nat
  fallbackInstructionCount : Nat
  transactionStatusFailedCount : Nat
  transactionStatusSucceededCount : Nat
deriving DecidableEq

def buildTransactionSlotCommitEvent (bs58 : Bs58) (ixSlot : InstructionSlot PreparedRecord) :
    TransactionSlotCommitEvent where
  slot := ixSlot.slot
  blockhash := bs58.encode ixSlot.blockhash.toList
  transactionCount := ixSlot.executedTransactionCount
  decodedInstructionCount :=
    ixSlot.records.countP fun r => r.isDecoded && r.kind = .instruction
  decodeFilteredInstructionCount := ixSlot.filteredInstructionCount
  decodeErrorInstructionCount := ixSlot.failedInstructionCount
  fallbackInstructionCount :=
    ixSlot.records.countP fun r => !r.isDecoded && r.kind = .instruction
  transactionStatusFailedCount := ixSlot.transactionStatusFailedCount
  transactionStatusSucceededCount := ixSlot.transactionStatusSucceededCount

end Shipstern.Kafka
