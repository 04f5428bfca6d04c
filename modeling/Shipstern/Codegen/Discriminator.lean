import Shipstern.Codama.Nodes
import Shipstern.Core.Instruction
import Shipstern.Lib.Hex

/-!
# Discriminators in the generated parser

How the code generator reads the discriminator of an instruction, account or event and
what the generated code tests. `Gen` is a computation of the generator: its errors are the
panics that stop the build.
-/

namespace Shipstern.Codegen

open Codama

/-- The errors of a generated parser. -/
inductive ParseError
  | filtered
  | discriminatorNotFound (message : List Char)
  | other (message : List Char)
deriving DecidableEq

/-- The places where the code generator panics. -/
inductive Panic
  | numberDiscriminatorType
  | numberDiscriminatorFormat
  | numberDiscriminatorRange
  | discriminatorBytes
  | collisionGroup
  | eventWrapper
deriving DecidableEq

abbrev Gen := Except Panic

/-- The decoders of the `bs58` and `base64` crates. -/
structure BytesCodecs where
  base58 : List Char → Option (List UInt8)
  base64 : List Char → Option (List UInt8)

/-- Decoders that read no text. -/
def noCodecs : BytesCodecs := ⟨fun _ => none, fun _ => none⟩

/-- The bytes of a number, the least significant first. -/
def toLeBytes : Nat → Nat → List UInt8
  | 0, _ => []
  | width + 1, value => UInt8.ofNat (value % 256) :: toLeBytes width (value / 256)

theorem length_toLeBytes (width n : Nat) : (toLeBytes width n).length = width := by
  induction width generalizing n with
  | zero => rfl
  | succ width ih => rw [toLeBytes, List.length_cons, ih]

/-- The width in bytes and whether there is a sign bit, of the formats that a number
discriminator may have. -/
def discriminatorWidth (value : Nat) : NumberFormat → Option (Nat × Bool)
  | .u8 => some (1, false)
  | .i8 => some (1, true)
  | .u16 => some (2, false)
  | .i16 => some (2, true)
  | .u32 => some (4, false)
  | .i32 => some (4, true)
  | .u64 => some (8, false)
  | .i64 => some (8, true)
  | .u128 => some (16, false)
  | .i128 => some (16, true)
  -- a compact u16 below 0x80 is one byte
  | .shortU16 => if value < 0x80 then some (1, false) else none
  | .f32 | .f64 => none

def numberDiscriminatorBytes (type : TypeNode) (value : Nat) : Gen (List UInt8) :=
  match type with
  | .number number =>
      match discriminatorWidth value number.format with
      | none => .error .numberDiscriminatorFormat
      | some (width, signed) =>
          let bits := width * 8 - if signed then 1 else 0
          if bits < 128 ∧ value >>> bits ≠ 0 then .error .numberDiscriminatorRange
          else
            let bytes := toLeBytes width value
            .ok (if number.endian = .be then bytes.reverse else bytes)
  | _ => .error .numberDiscriminatorType

/-- Left-pad a text of odd length. -/
def padHex (hex : List Char) : List Char := if hex.length % 2 = 0 then hex else '0' :: hex

section Codecs

variable (codecs : BytesCodecs)

def decodeDiscriminatorFieldBytes (bytes : BytesValueNode) : Gen (List UInt8) :=
  let decoded :=
    match bytes.encoding with
    | .base16 => Hex.decode (padHex bytes.data)
    | .base58 => codecs.base58 bytes.data
    | .base64 => codecs.base64 bytes.data
    | .utf8 => some (String.ofList bytes.data).toUTF8.toList
  match decoded with
  | none => .error .discriminatorBytes
  | some bytes => .ok bytes

/-- A field that a discriminator names: its type, and the bytes of its default. -/
structure ResolvedFieldDiscriminator where
  type : TypeNode
  bytes : Option (List UInt8)

def resolveIxField (ix : InstructionNode) (name : Name) : Gen (Option ResolvedFieldDiscriminator) :=
  match ix.arguments.find? (·.name = name) with
  | none => .ok none
  | some field =>
      match field.defaultValue with
      | none => .ok none
      | some (.bytesValue bytes) => do
          let bytes ← decodeDiscriminatorFieldBytes codecs bytes
          .ok (some ⟨field.type, some bytes⟩)
      | some (.numberValue (.unsignedInteger value)) => do
          let bytes ← numberDiscriminatorBytes field.type value
          .ok (some ⟨field.type, some bytes⟩)
      | some (.numberValue _) => .ok none
      | some _ => .ok (some ⟨field.type, none⟩)

/-- The struct inside the wrappers of an event's data. -/
def unwrapEventStruct : TypeNode → Gen (List StructFieldTypeNode)
  | .struct fields => .ok fields
  | .hiddenPrefix type _ | .hiddenSuffix type _ | .fixedSize _ type | .sizePrefix type _ =>
      unwrapEventStruct type
  | _ => .error .eventWrapper

def resolveEventField (event : EventNode) (name : Name) :
    Gen (Option ResolvedFieldDiscriminator) := do
  let fields ← unwrapEventStruct event.data
  match fields.find? (·.name = name) with
  | none => .ok none
  | some field =>
      match field.defaultValue with
      | none => .ok none
      | some (.bytes bytes) => do
          let bytes ← decodeDiscriminatorFieldBytes codecs bytes
          .ok (some ⟨field.type, some bytes⟩)
      | some _ => .ok (some ⟨field.type, none⟩)

/-- Whether a default of `len` bytes can match a field of the type on the wire. -/
def fillsWidth (len : Nat) : TypeNode → Bool
  | .fixedSize size _ => size = len
  | .number _ => true
  | _ => false

/-- Offset and bytes of a discriminator that is a byte sequence. -/
def prefixDiscriminator (resolveField : Name → Gen (Option ResolvedFieldDiscriminator)) :
    DiscriminatorNode → Gen (Option (Nat × List UInt8))
  | .constant offset constant =>
      match constant.value with
      | .number (.unsignedInteger value) => do
          let bytes ← numberDiscriminatorBytes constant.type value
          .ok (some (offset, bytes))
      | .number _ => .ok none
      | .bytes bytes => do
          let bytes ← decodeDiscriminatorFieldBytes codecs bytes
          .ok (some (offset, bytes))
      | .other => .ok none
  | .field name offset => do
      match ← resolveField name with
      | some ⟨type, some bytes⟩ =>
          .ok (if fillsWidth bytes.length type then some (offset, bytes) else none)
      | _ => .ok none
  | .size _ => .ok none

/-- Instructions with the same key match the same data. -/
inductive DiscriminatorKey
  | field (offset : Nat) (bytes : List UInt8)
  | size (size : Nat)
deriving DecidableEq

def extractDiscriminatorKey (discriminators : List DiscriminatorNode)
    (resolveField : Name → Gen (Option ResolvedFieldDiscriminator)) :
    Gen (Option DiscriminatorKey) :=
  match discriminators with
  | [] => .ok none
  | .size size :: _ => .ok (some (.size size))
  | discriminator :: _ => do
      let found ← prefixDiscriminator codecs resolveField discriminator
      .ok (found.map fun (offset, bytes) => .field offset bytes)

/-- `slice::get` with a range. -/
def getRange (data : List UInt8) (start stop : Nat) : Option (List UInt8) :=
  if start ≤ stop ∧ stop ≤ data.length then some ((data.take stop).drop start) else none

/-- What the generated code tests, and where it starts to read the arguments. -/
structure DiscriminatorInfo where
  check : List UInt8 → Bool
  argsStart : Nat

def extractDiscriminatorInfo (discriminators : List DiscriminatorNode)
    (resolveField : Name → Gen (Option ResolvedFieldDiscriminator)) :
    Gen (Option DiscriminatorInfo) :=
  match discriminators with
  | [] => .ok none
  | .size size :: _ => .ok (some ⟨fun data => data.length = size, 0⟩)
  | discriminator :: _ => do
      let found ← prefixDiscriminator codecs resolveField discriminator
      .ok (found.map fun (offset, bytes) =>
        ⟨fun data => getRange data offset (offset + bytes.length) == some bytes,
          offset + bytes.length⟩)

def extractIxDiscriminatorKey (ix : InstructionNode) : Gen (Option DiscriminatorKey) :=
  extractDiscriminatorKey codecs ix.discriminators (resolveIxField codecs ix)

def extractIxDiscriminatorInfo (ix : InstructionNode) : Gen (Option DiscriminatorInfo) :=
  extractDiscriminatorInfo codecs ix.discriminators (resolveIxField codecs ix)

/-- Key and test of an event that declares no envelope, as no converted event does. -/
def extractEventDiscriminatorKey (event : EventNode) : Gen (Option DiscriminatorKey) :=
  extractDiscriminatorKey codecs event.discriminators (resolveEventField codecs event)

def extractEventDiscriminatorInfo (event : EventNode) : Gen (Option DiscriminatorInfo) :=
  extractDiscriminatorInfo codecs event.discriminators (resolveEventField codecs event)

end Codecs

/-- A test at offset 0 is a prefix test. -/
theorem getRange_zero_iff {data bytes : List UInt8} :
    getRange data 0 (0 + bytes.length) = some bytes ↔ bytes <+: data := by
  rw [Nat.zero_add]
  constructor
  · intro h
    rw [getRange] at h
    split at h
    · rw [Option.some.injEq, List.drop_zero] at h
      exact h ▸ List.take_prefix _ data
    · cases h
  · intro h
    rw [getRange, if_pos ⟨Nat.zero_le _, h.length_le⟩, List.drop_zero,
      ← List.prefix_iff_eq_take.mp h]

end Shipstern.Codegen
