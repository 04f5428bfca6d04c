import Shipstern.Core.Build

/-!
# Prepared Kafka records

`PreparedRecord` with the functions of `sink.rs` that make one from an instruction, and the
Confluent wire format of `schema_registry.rs` around a decoded payload. Texts are lists of
characters, as those of the base58 codec. The payload of a fallback record is the JSON of
five fields; their texts are digits, dots and base58, so nothing in them is escaped.
-/

open Std
open Shipstern.Core

namespace Shipstern.Kafka

abbrev Text := List Char

section WireFormat

structure RegisteredSchema where
  schemaId : Int32
  messageIndex : Int32

def magicByte : UInt8 := 0x00

/-- `i32::to_be_bytes`. -/
def toBeBytes (value : Int32) : List UInt8 :=
  let bits := value.toUInt32
  [(bits >>> 24).toUInt8, (bits >>> 16).toUInt8, (bits >>> 8).toUInt8, bits.toUInt8]

/-- `ZigzagIter`: seven bits a byte, the lowest first. -/
def zigzagIter : Nat → UInt64 → List UInt8
  | 0, _ => []
  | fuel + 1, value =>
      let byte := (value &&& 0x7f).toUInt8
      let value := value >>> 7
      if value ≠ 0 then (byte ||| 0x80) :: zigzagIter fuel value else [byte]

/-- Ten bytes are enough for 64 bits. -/
def encodeZigzag (value : Int64) : List UInt8 :=
  zigzagIter 10 ((value <<< 1) ^^^ (value >>> 63)).toUInt64

def encodeIndices (indices : List Int32) : List UInt8 :=
  encodeZigzag (.ofNat indices.length) ++ indices.flatMap fun i => encodeZigzag i.toInt64

def wrapPayloadWithConfluentWireFormat (schemaId : Int32) (messageIndices : List Int32)
    (payload : List UInt8) : List UInt8 :=
  magicByte :: toBeBytes schemaId ++ encodeIndices messageIndices ++ payload

end WireFormat

/-- Whether a record is for an instruction or an account. -/
inductive RecordKind
  | instruction
  | account
deriving DecidableEq

structure RecordHeader where
  key : Text
  value : Text
deriving DecidableEq

/-- A Kafka record ready for publishing. -/
structure PreparedRecord where
  topic : Text
  payload : List UInt8
  key : Text
  headers : List RecordHeader
  isDecoded : Bool
  kind : RecordKind
deriving DecidableEq

/-- What the record of an instruction says about where it comes from. -/
structure InstructionRecordContext where
  slot : Nat
  txIndex : Nat
  signature : List UInt8
  feePayer : Option (List UInt8)
  path : Path

/-- `Debug` of a path: its entries from 1, joined by dots. -/
def showPath (path : Path) : Text :=
  ".".toList.intercalate (path.map fun i => (toString (i + 1)).toList)

def makeInstructionRecordKey (slot : Nat) (signature ixIndex : Text) : Text :=
  (toString slot).toList ++ ':' :: signature ++ ':' :: ixIndex

/-- The key and the headers of every instruction record. -/
def instructionBaseRecord (bs58 : Bs58) (context : InstructionRecordContext) :
    Text × List RecordHeader :=
  let signature := bs58.encode context.signature
  let path := showPath context.path
  let headers : List RecordHeader :=
    [⟨"slot".toList, (toString context.slot).toList⟩, ⟨"signature".toList, signature⟩,
      ⟨"tx_index".toList, (toString context.txIndex).toList⟩, ⟨"ix_index".toList, path⟩]
  let feePayer : List RecordHeader := context.feePayer.toList.map fun key =>
    ⟨"fee_payer".toList, bs58.encode key⟩
  (makeInstructionRecordKey context.slot signature path, headers ++ feePayer)

/-- Published for an instruction that no parser could decode. -/
structure RawInstructionEvent where
  slot : Nat
  signature : Text
  ixIndex : Text
  programId : Text
  data : Text

/-- A JSON text without escapes. -/
def jsonText (text : Text) : Text := '\x22' :: text ++ ['\x22']

/-- `serde_json::to_vec`. -/
def RawInstructionEvent.toVec (event : RawInstructionEvent) : List UInt8 :=
  let members : List (Text × Text) :=
    [("slot".toList, (toString event.slot).toList),
      ("signature".toList, jsonText event.signature), ("ix_index".toList, jsonText event.ixIndex),
      ("program_id".toList, jsonText event.programId), ("data".toList, jsonText event.data)]
  let object := [','].intercalate (members.map fun (name, value) => jsonText name ++ ':' :: value)
  ('\x7b' :: object ++ ['\x7d']).map fun c => UInt8.ofNat c.toNat

/-- The registered schemas by subject. -/
abbrev SchemaIds := Text → Option RegisteredSchema

/-- The subject of the values of a topic is `<topic>-value`. -/
def getSchemaForTopic (schemaIds : SchemaIds) (topic : Text) : Option RegisteredSchema :=
  schemaIds (topic ++ "-value".toList)

/-- Wrap the payload if a schema is registered for the topic. -/
def encodePayloadForTopic (schemaIds : SchemaIds) (topic : Text) (rawData : List UInt8) :
    List UInt8 :=
  match getSchemaForTopic schemaIds topic with
  | some schema =>
      let indices := if schema.messageIndex = 0 then [] else [schema.messageIndex]
      wrapPayloadWithConfluentWireFormat schema.schemaId indices rawData
  | none => rawData

def prepareDecodedInstructionRecord (bs58 : Bs58) (schemaIds : SchemaIds)
    (context : InstructionRecordContext) (parsed : List UInt8) (topic : Text) : PreparedRecord :=
  let (key, headers) := instructionBaseRecord bs58 context
  { topic := topic
    payload := encodePayloadForTopic schemaIds topic parsed
    key := key
    headers := headers
    isDecoded := true
    kind := .instruction }

def prepareFallbackInstructionRecord (bs58 : Bs58) (context : InstructionRecordContext)
    (ix : InstructionUpdate) (fallbackTopic error : Text) : PreparedRecord :=
  let (key, headers) := instructionBaseRecord bs58 context
  let programId := ix.program.display bs58
  let fallbackEvent : RawInstructionEvent :=
    { slot := context.slot
      signature := bs58.encode context.signature
      ixIndex := showPath context.path
      programId := programId
      data := bs58.encode ix.data }
  { topic := fallbackTopic
    payload := fallbackEvent.toVec
    key := key
    headers := headers ++
      [⟨"program_id".toList, programId⟩, ⟨"parse_error".toList, error⟩]
    isDecoded := false
    kind := .instruction }

end Shipstern.Kafka
