import Shipstern.Kafka.SlotSink

/-!
# The passthrough account sink

`AccountPassthroughSink` of `kafka_sink.rs`: account records are produced as they arrive, and
a watermark tells that a slot has been passed.
-/

open Shipstern.Core

namespace Shipstern.Kafka

open BlockCoordinator

/-- Messages from the passthrough account pipeline; there is one kind of them. -/
structure AccountMsg where
  slot : Nat
  record : Option PreparedRecord

/-- Produces account records immediately and advances a monotonic watermark by slot. -/
structure AccountPassthroughSink where
  accountSlotsTopic : Text
  maxAttempts : Nat

namespace AccountPassthroughSink

def new (accountSlotsTopic : Text) (maxAttempts : Nat) : AccountPassthroughSink where
  accountSlotsTopic := accountSlotsTopic
  maxAttempts := max maxAttempts 1

variable (broker : Broker) (sink : AccountPassthroughSink)

def publishPassthroughRecord (slot : Nat) (record : PreparedRecord) (p : Producer) :
    Except SinkError Unit × Producer :=
  match p.send broker .data slot record.toFuture with
  | (none, p) => (.ok (), p)
  | (some err, p) =>
      (.error (kafkaSendError "Passthrough Kafka write failed".toList slot err), p)

/-- A watermark carries no counts. -/
def watermarkEvent (slot : Nat) : AccountSlotCommitEvent where
  slot := slot
  markerType := .watermark
  accountCommitAt := .stream
  decodedAccountCount := none
  decodeFilteredAccountCount := none
  decodeErrorAccountCount := none
  fallbackAccountCount := none

def watermarkRecord (slot : Nat) : FutureRecord where
  topic := sink.accountSlotsTopic
  payload := asciiBytes (watermarkEvent slot).toJson
  key := (toString slot).toList
  headers := []

def emitWatermark (slot : Nat) (p : Producer) : Except SinkError Unit × Producer :=
  match p.send broker .checkpoint slot (sink.watermarkRecord slot) with
  | (none, p) => (.ok (), p)
  | (some err, p) => (.error (kafkaSendError "Failed to emit watermark".toList slot err), p)

def emitWatermarkWithRetry (slot : Nat) (p : Producer) : Except SinkError Unit × Producer :=
  withRetry sink.maxAttempts "Emit account watermark".toList slot (sink.emitWatermark broker slot) p

/-- The write of a message that holds a record. -/
def writeRecord (msg : AccountMsg) (p : Producer) : Except SinkError Unit × Producer :=
  match msg.record with
  | none => (.ok (), p)
  | some record =>
      withRetry sink.maxAttempts "Passthrough account write".toList msg.slot
        (publishPassthroughRecord broker msg.slot record) p

/-- The loop over the messages, with the slot that is the next watermark. It is passed when a
message of a later slot has been written, and when the channel is closed. -/
def runFrom : Option Nat → List AccountMsg → Producer → Except SinkError Unit × Producer
  | none, [], p => (.ok (), p)
  | some slot, [], p => sink.emitWatermarkWithRetry broker slot p
  | currentSlot, msg :: msgs, p =>
      match sink.writeRecord broker msg p with
      | (.error err, p) => (.error err, p)
      | (.ok (), p) =>
          match currentSlot with
          | none => runFrom (some msg.slot) msgs p
          | some prev =>
              if prev < msg.slot then
                match sink.emitWatermarkWithRetry broker prev p with
                | (.error err, p) => (.error err, p)
                | (.ok (), p) => runFrom (some msg.slot) msgs p
              else runFrom (some prev) msgs p

def run (msgs : List AccountMsg) (p : Producer) : Except SinkError Unit × Producer :=
  sink.runFrom broker none msgs p

end AccountPassthroughSink

end Shipstern.Kafka
