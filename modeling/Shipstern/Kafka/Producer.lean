import Shipstern.Kafka.Handler
import Shipstern.Lib.Retry

/-!
# A transactional Kafka producer

The producer that `kafka_sink.rs` drives, as a machine: a transaction is open or closed, what
is sent inside it is pending until a commit succeeds, and a failed commit or abort leaves it
open. The broker answers every call as it likes; the calls of each kind are numbered. The
retried operations and their error texts are those of the source. Timeouts and the sleep
between attempts only delay, so they are left out.

`abortFailed`, `attempts` and `log` are a record of the past that no operation reads.
-/

namespace Shipstern.Kafka

abbrev SinkError := Text

/-- What the code asks an `RDKafkaError`. -/
structure RDKafkaError where
  text : Text
  code : Text
  isRetriable : Bool
  txnRequiresAbort : Bool
  isFatal : Bool
deriving DecidableEq

inductive KafkaError
  | transaction (txn : RDKafkaError)
  | other (text : Text)
deriving DecidableEq

inductive TransactionCommitError
  | abortRequired (err : SinkError)
  | failed (err : SinkError)
deriving DecidableEq

def kafkaError (context err : Text) : SinkError := context ++ ": ".toList ++ err

def kafkaSendError (context : Text) (slot : Nat) (err : Text) : SinkError :=
  context ++ " for slot ".toList ++ (toString slot).toList ++ ": ".toList ++ err

def transactionErrorContext : KafkaError → Text
  | .transaction txn =>
      txn.text ++ " (code=".toList ++ txn.code ++
        ", retriable=".toList ++ (toString txn.isRetriable).toList ++
        ", abort_required=".toList ++ (toString txn.txnRequiresAbort).toList ++
        ", fatal=".toList ++ (toString txn.isFatal).toList ++ ")".toList
  | .other text => text

namespace KafkaError

/-- A transactional error that may succeed when it is tried again. -/
def isRetriable : KafkaError → Bool
  | .transaction txn => txn.isRetriable
  | .other _ => false

/-- A transactional error after which only an abort is possible. -/
def requiresAbort : KafkaError → Bool
  | .transaction txn => txn.txnRequiresAbort
  | .other _ => false

end KafkaError

/-- A record as it is handed to the producer. -/
structure FutureRecord where
  topic : Text
  payload : List UInt8
  key : Text
  headers : List RecordHeader
deriving DecidableEq

/-- The answer to the n-th call of each kind; no error is a success. A transaction that is
already open is a reason to refuse `begin_transaction`, with any error. -/
structure Broker where
  initTransactions : Nat → Option KafkaError
  beginTransaction : Nat → Option KafkaError
  refuseBegin : Nat → KafkaError
  send : Nat → Option Text
  commitTransaction : Nat → Option KafkaError
  abortTransaction : Nat → Option KafkaError

/-- One return of `execute_transactional`: whether a transaction was open and an abort had
failed for good, when it was called and when it returned. -/
structure Attempt where
  slot : Nat
  openBefore : Bool
  abortFailedBefore : Bool
  openAfter : Bool
  abortFailedAfter : Bool
deriving DecidableEq

/-- What a record is sent as. A watermark is a checkpoint too. -/
inductive Purpose
  | data
  | checkpoint
deriving DecidableEq

/-- What happened, in order: an attempt to write a slot starts, a record of a slot is sent and
acked or not, the write of a slot has succeeded. The sends of one batch are joined before
anything else happens, so their answers may come in any order. -/
inductive LogEntry
  | attempt (slot : Nat)
  | sent (purpose : Purpose) (slot : Nat) (record : FutureRecord) (acked : Bool)
  | completed (slot : Nat)
deriving DecidableEq

structure Producer where
  isOpen : Bool := false
  pending : List FutureRecord := []
  committed : List (List FutureRecord) := []
  inits : Nat := 0
  begins : Nat := 0
  sends : Nat := 0
  commits : Nat := 0
  aborts : Nat := 0
  abortFailed : Bool := false
  attempts : List Attempt := []
  log : List LogEntry := []
deriving DecidableEq

namespace Producer

def note (entry : LogEntry) (p : Producer) : Producer := { p with log := p.log ++ [entry] }

variable (broker : Broker)

def initTransactions (p : Producer) : Option KafkaError × Producer :=
  (broker.initTransactions p.inits, { p with inits := p.inits + 1 })

def beginTransaction (p : Producer) : Option KafkaError × Producer :=
  if p.isOpen then (some (broker.refuseBegin p.begins), { p with begins := p.begins + 1 })
  else
    match broker.beginTransaction p.begins with
    | none => (none, { p with begins := p.begins + 1, isOpen := true, pending := [] })
    | some err => (some err, { p with begins := p.begins + 1 })

/-- Inside a transaction a delivered record is pending; outside it is visible at once. Every
send is logged with its answer; only the log has what the record is sent as. -/
def send (purpose : Purpose) (slot : Nat) (record : FutureRecord) (p : Producer) :
    Option Text × Producer :=
  match broker.send p.sends with
  | none =>
      let p := { p with sends := p.sends + 1 }.note (.sent purpose slot record true)
      if p.isOpen then (none, { p with pending := p.pending ++ [record] })
      else (none, { p with committed := p.committed ++ [[record]] })
  | some err => (some err, { p with sends := p.sends + 1 }.note (.sent purpose slot record false))

def commitTransaction (p : Producer) : Option KafkaError × Producer :=
  match broker.commitTransaction p.commits with
  | none =>
      (none, { p with
        commits := p.commits + 1
        isOpen := false
        pending := []
        committed := p.committed ++ [p.pending] })
  | some err => (some err, { p with commits := p.commits + 1 })

def abortTransaction (p : Producer) : Option KafkaError × Producer :=
  match broker.abortTransaction p.aborts with
  | none => (none, { p with aborts := p.aborts + 1, isOpen := false, pending := [] })
  | some err => (some err, { p with aborts := p.aborts + 1 })

end Producer

/-- The control operations of the producer. -/
abbrev TransactionalOp := Producer → Option KafkaError × Producer

/-- `run_transactional_op`: another attempt after a retriable error only. -/
def runTransactionalOp (maxAttempts : Nat) (context : Text) (op : TransactionalOp)
    (p : Producer) : Except SinkError Unit × Producer :=
  match Retry.retry maxAttempts op (fun outcome => outcome.any (·.isRetriable)) p with
  | (none, p) => (.ok (), p)
  | (some err, p) => (.error (kafkaError context (transactionErrorContext err)), p)

/-- `commit_transactional_op`: an error that requires an abort ends the attempts, even if it
is retriable. -/
def commitTransactionalOp (maxAttempts : Nat) (context : Text) (op : TransactionalOp)
    (p : Producer) : Except TransactionCommitError Unit × Producer :=
  match Retry.retry maxAttempts op
      (fun outcome => outcome.any fun err => !err.requiresAbort && err.isRetriable) p with
  | (none, p) => (.ok (), p)
  | (some err, p) =>
      let text := kafkaError context (transactionErrorContext err)
      (.error (if err.requiresAbort then .abortRequired text else .failed text), p)

/-- `with_retry`: another attempt after every error. The text names the last attempt. -/
def withRetry (maxAttempts : Nat) (context : Text) (slot : Nat)
    (f : Producer → Except SinkError Unit × Producer) (p : Producer) :
    Except SinkError Unit × Producer :=
  match Retry.retry maxAttempts f (fun outcome => !outcome.isOk) p with
  | (.ok (), p) => (.ok (), p)
  | (.error e, p) =>
      (.error (context ++ " for slot ".toList ++ (toString slot).toList ++
        " failed after ".toList ++ (toString (max maxAttempts 1)).toList ++
        " attempts: ".toList ++ e), p)

end Shipstern.Kafka
