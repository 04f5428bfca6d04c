import Shipstern.Kafka.Producer

/-!
# The sinks that write slots

`SlotWriteExecutor` and the two sinks of `kafka_sink.rs` that consume slots from the
coordinator. A slot is written as its records followed by its checkpoint; with a
transactional id both are inside one transaction.
-/

open Shipstern.Core

namespace Shipstern.Kafka

open BlockCoordinator

/-! ## Checkpoints -/

/-- A JSON object of members in order. Names and texts need no escapes. -/
def jsonObject (members : List (Text × Text)) : Text :=
  '\x7b' :: [','].intercalate (members.map fun (name, value) => jsonText name ++ ':' :: value) ++
    ['\x7d']

def jsonNumber (n : Nat) : Text := (toString n).toList

/-- `serde_json::to_string`. -/
def TransactionSlotCommitEvent.toJson (event : TransactionSlotCommitEvent) : Text :=
  jsonObject
    [("slot".toList, jsonNumber event.slot), ("blockhash".toList, jsonText event.blockhash),
      ("transaction_count".toList, jsonNumber event.transactionCount),
      ("decoded_instruction_count".toList, jsonNumber event.decodedInstructionCount),
      ("decode_filtered_instruction_count".toList,
        jsonNumber event.decodeFilteredInstructionCount),
      ("decode_error_instruction_count".toList, jsonNumber event.decodeErrorInstructionCount),
      ("fallback_instruction_count".toList, jsonNumber event.fallbackInstructionCount),
      ("transaction_status_failed_count".toList, jsonNumber event.transactionStatusFailedCount),
      ("transaction_status_succeeded_count".toList,
        jsonNumber event.transactionStatusSucceededCount)]

/-- Marker semantics for account slot events. -/
inductive MarkerType
  | completed
  | watermark
deriving DecidableEq

def MarkerType.text : MarkerType → Text
  | .completed => "completed".toList
  | .watermark => "watermark".toList

/-- Commitment scope for account slot markers. -/
inductive CommitScope
  | confirmed
  | finalized
  | stream
deriving DecidableEq

def CommitScope.text : CommitScope → Text
  | .confirmed => "confirmed".toList
  | .finalized => "finalized".toList
  | .stream => "stream".toList

def CommitScope.ofAccountCommitAt : AccountCommitAt → CommitScope
  | .confirmed => .confirmed
  | .finalized => .finalized

/-- Published when an account slot is committed. -/
structure AccountSlotCommitEvent where
  slot : Nat
  markerType : MarkerType
  accountCommitAt : CommitScope
  decodedAccountCount : Option Nat
  decodeFilteredAccountCount : Option Nat
  decodeErrorAccountCount : Option Nat
  fallbackAccountCount : Option Nat
deriving DecidableEq

/-- `serde_json::to_string`; an absent count is skipped. -/
def AccountSlotCommitEvent.toJson (event : AccountSlotCommitEvent) : Text :=
  let count (name : Text) (n : Option Nat) : List (Text × Text) :=
    n.toList.map fun n => (name, jsonNumber n)
  jsonObject <|
    [("slot".toList, jsonNumber event.slot),
      ("marker_type".toList, jsonText event.markerType.text),
      ("account_commit_at".toList, jsonText event.accountCommitAt.text)] ++
    count "decoded_account_count".toList event.decodedAccountCount ++
    count "decode_filtered_account_count".toList event.decodeFilteredAccountCount ++
    count "decode_error_account_count".toList event.decodeErrorAccountCount ++
    count "fallback_account_count".toList event.fallbackAccountCount

def buildAccountSlotCommitEvent (acctSlot : AccountSlot PreparedRecord)
    (accountCommitScope : CommitScope) : AccountSlotCommitEvent where
  slot := acctSlot.slot
  markerType := .completed
  accountCommitAt := accountCommitScope
  decodedAccountCount := some (acctSlot.records.countP fun r => r.isDecoded && r.kind = .account)
  decodeFilteredAccountCount := some acctSlot.filteredAccountCount
  decodeErrorAccountCount := some acctSlot.failedAccountCount
  fallbackAccountCount := some (acctSlot.records.countP fun r => !r.isDecoded && r.kind = .account)

/-! ## Plans -/

structure SlotCheckpointRecord where
  topic : Text
  payload : Text
  errorPrefix : Text

structure SlotWritePlan where
  slot : Nat
  records : List PreparedRecord
  recordErrorPrefix : Text
  checkpoint : SlotCheckpointRecord

def PreparedRecord.toFuture (record : PreparedRecord) : FutureRecord :=
  { topic := record.topic, payload := record.payload, key := record.key, headers := record.headers }

/-- The bytes of an ASCII text. -/
def asciiBytes (text : Text) : List UInt8 := text.map fun c => UInt8.ofNat c.toNat

namespace SlotWritePlan

/-- The checkpoint carries the slot as its key and no headers. -/
def checkpointRecord (plan : SlotWritePlan) : FutureRecord :=
  { topic := plan.checkpoint.topic
    payload := asciiBytes plan.checkpoint.payload
    key := (toString plan.slot).toList
    headers := [] }

/-- What a complete write of the slot makes visible. -/
def messages (plan : SlotWritePlan) : List FutureRecord :=
  plan.records.map PreparedRecord.toFuture ++ [plan.checkpointRecord]

def publishCheckpoint (broker : Broker) (plan : SlotWritePlan) (p : Producer) :
    Except SinkError Unit × Producer :=
  match p.send broker .checkpoint plan.slot plan.checkpointRecord with
  | (none, p) => (.ok (), p)
  | (some err, p) => (.error (kafkaSendError plan.checkpoint.errorPrefix plan.slot err), p)

end SlotWritePlan

/-- `join_all` of the sends: all of them are made, whatever the others answer. -/
def sendAll (broker : Broker) (slot : Nat) :
    List FutureRecord → Producer → List (Option Text) × Producer
  | [], p => ([], p)
  | record :: records, p =>
      let (result, p) := p.send broker .data slot record
      let (results, p) := sendAll broker slot records p
      (result :: results, p)

/-- Send all records, then report the first that failed. -/
def batchPublishRecords (broker : Broker) (slot : Nat) (records : List PreparedRecord)
    (errorPrefix : Text) (p : Producer) : Except SinkError Unit × Producer :=
  let (results, p) := sendAll broker slot (records.map PreparedRecord.toFuture) p
  match results.findSome? id with
  | none => (.ok (), p)
  | some err => (.error (kafkaSendError errorPrefix slot err), p)

/-! ## The executor -/

/-- The settings that the sinks read. -/
structure KafkaSinkConfig where
  transactionalId : Option Text
  kafkaWriteMaxAttempts : Nat
  kafkaTransactionOpMaxAttempts : Nat
  transactionSlotsTopic : Text
  accountSlotsTopic : Text

inductive DeliveryGuarantee
  | nonTransactional
  | transactional (transactionalId : Text)

def DeliveryGuarantee.fromKafkaConfig (config : KafkaSinkConfig) : DeliveryGuarantee :=
  match config.transactionalId with
  | some transactionalId => .transactional transactionalId
  | none => .nonTransactional

structure SlotWriteExecutor where
  delivery : DeliveryGuarantee
  writeMaxAttempts : Nat
  transactionMaxAttempts : Nat
  transactionsInitialized : Bool

namespace SlotWriteExecutor

def fromKafkaConfigWithInitializedTransactions (config : KafkaSinkConfig)
    (transactionsInitialized : Bool) : SlotWriteExecutor where
  delivery := .fromKafkaConfig config
  writeMaxAttempts := max config.kafkaWriteMaxAttempts 1
  transactionMaxAttempts := max config.kafkaTransactionOpMaxAttempts 1
  transactionsInitialized := transactionsInitialized && config.transactionalId.isSome

def fromKafkaConfig (config : KafkaSinkConfig) : SlotWriteExecutor :=
  fromKafkaConfigWithInitializedTransactions config false

variable (broker : Broker) (executor : SlotWriteExecutor)

/-- `initialize`. -/
def initializeTransactions (p : Producer) : Except SinkError Unit × Producer :=
  match executor.delivery with
  | .nonTransactional => (.ok (), p)
  | .transactional _ =>
      if executor.transactionsInitialized then (.ok (), p)
      else
        runTransactionalOp executor.transactionMaxAttempts
          "Failed to initialize Kafka transactions".toList (·.initTransactions broker) p

def publishPlan (plan : SlotWritePlan) (p : Producer) : Except SinkError Unit × Producer :=
  match batchPublishRecords broker plan.slot plan.records plan.recordErrorPrefix p with
  | (.error err, p) => (.error err, p)
  | (.ok (), p) => plan.publishCheckpoint broker p

/-- An abort that fails for good is remembered. -/
def abortTransaction (slot : Nat) (cause : Text) (p : Producer) :
    Except SinkError Unit × Producer :=
  match runTransactionalOp executor.transactionMaxAttempts
      "Failed to abort Kafka transaction".toList (·.abortTransaction broker) p with
  | (.ok (), p) => (.ok (), p)
  | (.error abortErr, p) =>
      (.error (cause ++ " for slot ".toList ++ (toString slot).toList ++
        "; additionally failed to abort Kafka transaction: ".toList ++ abortErr),
        { p with abortFailed := true })

/-- The body of `execute_transactional`. -/
def writeTransaction (plan : SlotWritePlan) (p : Producer) : Except SinkError Unit × Producer :=
  match runTransactionalOp executor.transactionMaxAttempts
      "Failed to begin Kafka transaction".toList (·.beginTransaction broker) p with
  | (.error err, p) => (.error err, p)
  | (.ok (), p) =>
      match publishPlan broker plan p with
      | (.error err, p) =>
          match executor.abortTransaction broker plan.slot
              "Kafka transactional slot write failed".toList p with
          | (.ok (), p) => (.error err, p)
          | (.error abortErr, p) =>
              (.error (err ++ "; additionally failed to abort Kafka transaction: ".toList ++
                abortErr), p)
      | (.ok (), p) =>
          match commitTransactionalOp executor.transactionMaxAttempts
              "Failed to commit Kafka transaction".toList (·.commitTransaction broker) p with
          | (.ok (), p) => (.ok (), p)
          | (.error (.abortRequired err), p) =>
              match executor.abortTransaction broker plan.slot
                  "Kafka transaction commit requires abort".toList p with
              | (.error abortErr, p) => (.error abortErr, p)
              | (.ok (), p) => (.error err, p)
          | (.error (.failed err), p) => (.error err, p)

/-- `execute_transactional`, with a note of how it found and left the producer. -/
def executeTransactional (plan : SlotWritePlan) (p : Producer) :
    Except SinkError Unit × Producer :=
  let (result, p') := executor.writeTransaction broker plan p
  (result, { p' with attempts := p'.attempts ++
    [⟨plan.slot, p.isOpen, p.abortFailed, p'.isOpen, p'.abortFailed⟩] })

def execute (plan : SlotWritePlan) (p : Producer) : Except SinkError Unit × Producer :=
  let p := p.note (.attempt plan.slot)
  match executor.delivery with
  | .nonTransactional => publishPlan broker plan p
  | .transactional _ => executor.executeTransactional broker plan p

/-- The loop of a sink over the slots that it receives, ended by the first slot that cannot
be written. -/
def writeSlots {α : Type} (context : Text) (slot : α → Nat)
    (buildSlotWritePlan : α → Except SinkError SlotWritePlan) :
    List α → Producer → Except SinkError Unit × Producer
  | [], p => (.ok (), p)
  | item :: items, p =>
      match withRetry executor.writeMaxAttempts context (slot item) (fun p =>
          match buildSlotWritePlan item with
          | .error err => (.error err, p)
          | .ok plan => executor.execute broker plan p) p with
      | (.error err, p) => (.error err, p)
      | (.ok (), p) =>
          writeSlots context slot buildSlotWritePlan items (p.note (.completed (slot item)))

/-- Initialize the transactions, then write what the channel holds until it is closed. -/
def run {α : Type} (context : Text) (slot : α → Nat)
    (buildSlotWritePlan : α → Except SinkError SlotWritePlan) (items : List α) (p : Producer) :
    Except SinkError Unit × Producer :=
  match executor.initializeTransactions broker p with
  | (.error err, p) => (.error err, p)
  | (.ok (), p) => executor.writeSlots broker context slot buildSlotWritePlan items p

end SlotWriteExecutor

/-! ## The sinks -/

/-- Consumes instruction slots from the coordinator and writes them to Kafka. -/
structure TransactionSlotSink where
  executor : SlotWriteExecutor
  transactionSlotsTopic : Text

namespace TransactionSlotSink

def new (config : KafkaSinkConfig) : TransactionSlotSink where
  executor := .fromKafkaConfig config
  transactionSlotsTopic := config.transactionSlotsTopic

def newPreinitialized (config : KafkaSinkConfig) : TransactionSlotSink where
  executor := .fromKafkaConfigWithInitializedTransactions config true
  transactionSlotsTopic := config.transactionSlotsTopic

def plan (bs58 : Bs58) (sink : TransactionSlotSink) (ixSlot : InstructionSlot PreparedRecord) :
    SlotWritePlan where
  slot := ixSlot.slot
  records := ixSlot.records
  recordErrorPrefix := "Kafka write failed".toList
  checkpoint :=
    { topic := sink.transactionSlotsTopic
      payload := (buildTransactionSlotCommitEvent bs58 ixSlot).toJson
      errorPrefix := "Failed to publish slot checkpoint".toList }

/-- The event is numbers and base58 text, so its serialization cannot fail. -/
def buildSlotWritePlan (bs58 : Bs58) (sink : TransactionSlotSink)
    (ixSlot : InstructionSlot PreparedRecord) : Except SinkError SlotWritePlan :=
  .ok (sink.plan bs58 ixSlot)

def run (bs58 : Bs58) (broker : Broker) (sink : TransactionSlotSink)
    (slots : List (InstructionSlot PreparedRecord)) (p : Producer) :
    Except SinkError Unit × Producer :=
  sink.executor.run broker "Kafka write".toList (·.slot) (sink.buildSlotWritePlan bs58) slots p

end TransactionSlotSink

/-- Writes buffered account slots to Kafka and publishes account slot checkpoints. -/
structure AccountSlotSink where
  executor : SlotWriteExecutor
  accountSlotsTopic : Text
  accountCommitScope : CommitScope

namespace AccountSlotSink

def new (config : KafkaSinkConfig) (accountCommitAt : AccountCommitAt) : AccountSlotSink where
  executor := .fromKafkaConfig config
  accountSlotsTopic := config.accountSlotsTopic
  accountCommitScope := .ofAccountCommitAt accountCommitAt

def newPreinitialized (config : KafkaSinkConfig) (accountCommitAt : AccountCommitAt) :
    AccountSlotSink where
  executor := .fromKafkaConfigWithInitializedTransactions config true
  accountSlotsTopic := config.accountSlotsTopic
  accountCommitScope := .ofAccountCommitAt accountCommitAt

def plan (sink : AccountSlotSink) (acctSlot : AccountSlot PreparedRecord) : SlotWritePlan where
  slot := acctSlot.slot
  records := acctSlot.records
  recordErrorPrefix := "Account Kafka write failed".toList
  checkpoint :=
    { topic := sink.accountSlotsTopic
      payload := (buildAccountSlotCommitEvent acctSlot sink.accountCommitScope).toJson
      errorPrefix := "Failed to publish account slot checkpoint".toList }

def buildSlotWritePlan (sink : AccountSlotSink) (acctSlot : AccountSlot PreparedRecord) :
    Except SinkError SlotWritePlan :=
  .ok (sink.plan acctSlot)

def run (broker : Broker) (sink : AccountSlotSink) (slots : List (AccountSlot PreparedRecord))
    (p : Producer) : Except SinkError Unit × Producer :=
  sink.executor.run broker "Account slot write".toList (·.slot) sink.buildSlotWritePlan slots p

end AccountSlotSink

end Shipstern.Kafka
