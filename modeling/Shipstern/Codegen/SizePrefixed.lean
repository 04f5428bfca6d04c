import Shipstern.Codegen.OptionCodecs
import Shipstern.Codegen.ProstImpls
import Shipstern.Codegen.SizePrefixes

/-!
# Size-prefixed payloads

Bytes and text behind a length prefix that Borsh does not write natively: alone, as an option,
as a counted list and as a fixed array. Each of these codecs recovers what it writes, accepts
nothing else, and fails on input that ends early.
-/

namespace Shipstern.Codegen

open Codama CanonicalCode

variable {T : Type}

/-! ## Payloads -/

/-- A `Vec<u8>`. Its length is a `usize`. -/
@[ext] structure ByteVec where
  bytes : List UInt8
  fits : bytes.length < 2 ^ 64

def ByteVec.len (vec : ByteVec) : UInt64 := .ofNat vec.bytes.length

/-- A `String`: bytes that are valid UTF-8. -/
@[ext] structure Utf8 where
  vec : ByteVec
  valid : ByteArray.validateUTF8 ⟨vec.bytes.toArray⟩ = true

/-- `ShipsternSizePrefixed`. -/
structure SizePrefixed (T : Type) where
  fromPrefixedBytes : ByteVec → Except IoError T
  asPrefixedBytes : T → ByteVec

def invalidUtf8 : IoError := ⟨.invalidData, "size-prefixed string is not valid UTF-8".toList⟩

/-- The payloads of the scalars `SizePrefixedBytes` and `SizePrefixedString`. -/
inductive PayloadKind
  | bytes
  | string
deriving DecidableEq

namespace PayloadKind

abbrev Value : PayloadKind → Type
  | .bytes => ByteVec
  | .string => Utf8

def impl : (kind : PayloadKind) → SizePrefixed kind.Value
  | .bytes =>
      { fromPrefixedBytes := .ok
        asPrefixedBytes := id }
  | .string =>
      { fromPrefixedBytes := fun vec =>
          if h : ByteArray.validateUTF8 ⟨vec.bytes.toArray⟩ = true then .ok ⟨vec, h⟩
          else .error invalidUtf8
        asPrefixedBytes := Utf8.vec }

def scalar (number : NumberTypeNode) : PayloadKind → ScalarIr
  | .bytes => .sizePrefixedBytes number
  | .string => .sizePrefixedString number

end PayloadKind

/-! ## The helpers -/

def truncatedSizePrefixedBytes : IoError :=
  ⟨.unexpectedEof, "truncated size-prefixed bytes".toList⟩

/-- `read_to_end` of at most `limit` bytes. -/
def readToEnd (limit : UInt64) : BorshReader ByteVec := fun input =>
  .ok (⟨input.take limit.toNat, (List.length_take_le _ _).trans_lt limit.toNat_lt⟩,
    input.drop limit.toNat)

/-- What is read behind a length. -/
def readPayload (payload : SizePrefixed T) (length : UInt64) : BorshReader T := do
  let bytes ← readToEnd length
  if bytes.len ≠ length then throw truncatedSizePrefixedBytes
  else liftM (payload.fromPrefixedBytes bytes)

def borshDeserializeSizePrefixed (lengths : SizePrefix) (payload : SizePrefixed T) :
    BorshReader T := do
  let length ← lengths.readLength
  readPayload payload length

def borshSerializeSizePrefixed (lengths : SizePrefix) (payload : SizePrefixed T) :
    BorshWriter T := fun value =>
  let bytes := payload.asPrefixedBytes value
  append (lengths.writeLength bytes.len) (writeAll bytes.bytes)

/-- Both of the readers of an option. There is no padding for `None`. -/
def deserializeOptBehind (tag : BorshReader Bool) (lengths : SizePrefix)
    (payload : SizePrefixed T) : BorshReader (Option T) := do
  if ← tag then some <$> borshDeserializeSizePrefixed lengths payload
  else pure none

/-- Both of the writers of an option. -/
def serializeOptBehind (tag : BorshWriter Bool) (lengths : SizePrefix)
    (payload : SizePrefixed T) : BorshWriter (Option T) := fun option =>
  append (tag option.isSome) <|
    match option with
    | some value => borshSerializeSizePrefixed lengths payload value
    | none => .ok []

def borshDeserializeOptSizePrefixed (lengths : SizePrefix) (payload : SizePrefixed T)
    (prefixBytes : Nat) (prefixOne : BitVec 128) (bigEndian : Bool) : BorshReader (Option T) :=
  deserializeOptBehind (borshDeserializeOptionPrefix prefixBytes prefixOne bigEndian) lengths
    payload

def borshSerializeOptSizePrefixed (lengths : SizePrefix) (payload : SizePrefixed T)
    (prefixBytes : Nat) (prefixOne : BitVec 128) (bigEndian : Bool) : BorshWriter (Option T) :=
  serializeOptBehind (borshSerializeOptionPrefix prefixBytes prefixOne bigEndian) lengths payload

def borshDeserializeShortU16OptSizePrefixed (lengths : SizePrefix) (payload : SizePrefixed T) :
    BorshReader (Option T) :=
  deserializeOptBehind borshDeserializeShortU16OptionPrefix lengths payload

def borshSerializeShortU16OptSizePrefixed (lengths : SizePrefix) (payload : SizePrefixed T) :
    BorshWriter (Option T) :=
  serializeOptBehind borshSerializeShortU16OptionPrefix lengths payload

/-- `deserialize_reader` of a `u32`. -/
def readU32 : BorshReader UInt32 := do
  let bytes ← readBuffer unexpectedLengthOfInput 4
  pure (.ofNat (Wire.leNat bytes))

/-- `serialize` of a `u32`. -/
def writeU32 : BorshWriter UInt32 := fun n => writeAll (toLeBytes 4 n.toNat)

def byteArrayCountOverflow : IoError := ⟨.invalidInput, "byte-array count overflow".toList⟩

def borshDeserializeVecSizePrefixed (lengths : SizePrefix) (payload : SizePrefixed T) :
    BorshReader (List T) := do
  let count ← readU32
  readMany (borshDeserializeSizePrefixed lengths payload) count.toNat

def borshSerializeVecSizePrefixed (lengths : SizePrefix) (payload : SizePrefixed T) :
    BorshWriter (List T) := fun values =>
  if values.length < 2 ^ 32 then
    append (writeU32 (.ofNat values.length))
      (writeMany (borshSerializeSizePrefixed lengths payload) values)
  else .error byteArrayCountOverflow

def invalidFixedByteArrayCount : IoError :=
  ⟨.invalidInput, "invalid fixed byte-array count".toList⟩

def borshDeserializeFixedArraySizePrefixed (lengths : SizePrefix) (payload : SizePrefixed T)
    (n : Nat) : BorshReader (List T) :=
  readMany (borshDeserializeSizePrefixed lengths payload) n

def borshSerializeFixedArraySizePrefixed (lengths : SizePrefix) (payload : SizePrefixed T)
    (n : Nat) : BorshWriter (List T) := fun values =>
  if values.length ≠ n then .error invalidFixedByteArrayCount
  else writeMany (borshSerializeSizePrefixed lengths payload) values

/-! ## The hooks of a field -/

/-- `prefix_type`. -/
def prefixType (field : Name) (number : NumberTypeNode) : Except BuildPanic SizePrefix :=
  let bigEndian := decide (number.endian = .be)
  match number.format with
  | .shortU16 =>
      if number.endian = .le then .ok shortU16SizePrefix else .error (.shortU16Endianness field)
  | .u8 => .ok (numberSizePrefix 1 bigEndian)
  | .u16 => .ok (numberSizePrefix 2 bigEndian)
  | .u32 => .ok (numberSizePrefix 4 bigEndian)
  | .u64 => .ok (numberSizePrefix 8 bigEndian)
  | .u128 => .ok (numberSizePrefix 16 bigEndian)
  | _ => .error (.sizePrefix field)

/-- The Rust type of a field. -/
abbrev FieldValue (T : Type) : LabelIr → Type
  | .singular => T
  | .optional _ => Option T
  | .repeated | .fixedArray _ => List T

/-- `attrs`, for a field with a payload. -/
def attrs (kind : PayloadKind) (field : Name) (number : NumberTypeNode) :
    (label : LabelIr) → Except BuildPanic (FieldCodec (FieldValue kind.Value label))
  | .singular => do
      let lengths ← prefixType field number
      pure ⟨borshSerializeSizePrefixed lengths kind.impl,
        borshDeserializeSizePrefixed lengths kind.impl⟩
  | .optional encoding => do
      let lengths ← prefixType field number
      if encoding.nonePadding.isSome then throw (.fixedOption field)
      else
        match encoding.tag with
        | .fixedWidth byteLen oneValue bigEndian =>
            pure ⟨borshSerializeOptSizePrefixed lengths kind.impl byteLen (.ofNat 128 oneValue)
                bigEndian,
              borshDeserializeOptSizePrefixed lengths kind.impl byteLen (.ofNat 128 oneValue)
                bigEndian⟩
        | .shortU16 =>
            pure ⟨borshSerializeShortU16OptSizePrefixed lengths kind.impl,
              borshDeserializeShortU16OptSizePrefixed lengths kind.impl⟩
  | .repeated => do
      let lengths ← prefixType field number
      pure ⟨borshSerializeVecSizePrefixed lengths kind.impl,
        borshDeserializeVecSizePrefixed lengths kind.impl⟩
  | .fixedArray n => do
      let lengths ← prefixType field number
      pure ⟨borshSerializeFixedArraySizePrefixed lengths kind.impl n,
        borshDeserializeFixedArraySizePrefixed lengths kind.impl n⟩

theorem checkPrefix_eq (field : Name) (number : NumberTypeNode) :
    checkPrefix field number = (prefixType field number).map fun _ => () := by
  rw [checkPrefix, prefixType]
  cases number.format
  case shortU16 =>
    show (if number.endian = .le then _ else _) = Except.map _ (if number.endian = .le then _ else _)
    split <;> rfl
  all_goals rfl

/-- The panics of the renderer are those of `attrs`. -/
theorem checkField_eq (kind : PayloadKind) (name : Name) (tag : Nat) (label : LabelIr)
    (number : NumberTypeNode) :
    checkField ⟨name, tag, label, .scalar (kind.scalar number)⟩ =
      (attrs kind name number label).map fun _ => () := by
  have hprefix : sizePrefixOf (.scalar (kind.scalar number)) = some number := by
    cases kind <;> rfl
  rw [checkField, hprefix]
  show (do checkPrefix name number; _) = _
  rw [checkPrefix_eq]
  cases label with
  | optional encoding =>
      rw [attrs]
      cases prefixType name number with
      | error panic => rfl
      | ok lengths =>
          show (if encoding.nonePadding.isSome then _ else _) =
            Except.map _ (if encoding.nonePadding.isSome then _ else _)
          split
          · rfl
          · cases encoding.tag <;> rfl
  | singular | repeated | fixedArray n =>
      rw [attrs]
      cases prefixType name number <;> rfl

/-! ## Payloads are canonical -/

theorem fromPrefixedBytes_ok_iff (kind : PayloadKind) {vec : ByteVec} {value : kind.Value} :
    kind.impl.fromPrefixedBytes vec = .ok value ↔ kind.impl.asPrefixedBytes value = vec := by
  cases kind with
  | bytes =>
      show Except.ok vec = Except.ok value ↔ value = vec
      rw [Except.ok.injEq, eq_comm]
  | string =>
      show (if h : _ then Except.ok (⟨vec, h⟩ : Utf8) else _) = Except.ok value ↔ value.vec = vec
      split
      case isTrue hvalid =>
        rw [Except.ok.injEq, Utf8.ext_iff, eq_comm]
      case isFalse hvalid =>
        refine ⟨nofun, ?_⟩
        rintro rfl
        exact absurd value.valid hvalid

theorem ByteVec.toNat_len (vec : ByteVec) : vec.len.toNat = vec.bytes.length :=
  UInt64.toNat_ofNat_of_lt' vec.fits

theorem readToEnd_append (vec : ByteVec) (rest : List UInt8) :
    readToEnd vec.len (vec.bytes ++ rest) = .ok (vec, rest) := by
  rw [readToEnd]
  refine congrArg Except.ok (Prod.ext (ByteVec.ext ?_) ?_)
  · exact List.take_left' vec.toNat_len.symm
  · exact List.drop_left' vec.toNat_len.symm

/-- What is read in full is the front of the input. -/
theorem eq_append_of_readToEnd {input rest : List UInt8} {vec : ByteVec}
    (h : readToEnd vec.len input = .ok (vec, rest)) : input = vec.bytes ++ rest := by
  rw [readToEnd] at h
  have hboth := Except.ok.inj h
  have hvec : input.take vec.len.toNat = vec.bytes := congrArg (fun p => p.1.bytes) hboth
  have hrest : input.drop vec.len.toNat = rest := congrArg Prod.snd hboth
  rw [← hvec, ← hrest, List.take_append_drop]

theorem readU32_canonical : Canonical (fun _ => True) writeU32 readU32 exact := by
  refine (readBuffer_canonical unexpectedLengthOfInput 4).convert
    (f := fun bytes => .ok (UInt32.ofNat (Wire.leNat bytes)))
    (g := fun n : UInt32 => toLeBytes 4 n.toNat) ?_ ?_
  · intro bytes n hlength hn
    cases hn
    have hlt := leNat_lt bytes
    rw [hlength] at hlt
    refine ⟨trivial, ?_⟩
    rw [UInt32.toNat_ofNat_of_lt' hlt, ← hlength, toLeBytes_leNat]
  · intro n _
    refine ⟨length_toLeBytes _ _, ?_⟩
    rw [leNat_toLeBytes (show n.toNat < 256 ^ 4 from n.toNat_lt), UInt32.ofNat_toNat]

section Payload

variable {payload : SizePrefixed T}
variable (hpayload : ∀ vec value,
  payload.fromPrefixedBytes vec = .ok value ↔ payload.asPrefixedBytes value = vec)

include hpayload

theorem readPayload_ok_iff {length : UInt64} {input rest : List UInt8} {value : T} :
    readPayload payload length input = .ok (value, rest) ↔
      (payload.asPrefixedBytes value).len = length ∧
        input = (payload.asPrefixedBytes value).bytes ++ rest := by
  rw [readPayload, Stateful.bind_ok]
  constructor
  · rintro ⟨vec, mid, hread, h⟩
    split at h
    case isTrue => cases h
    case isFalse hlength =>
      obtain ⟨hvalue, rfl⟩ := Stateful.lift_ok.mp h
      obtain rfl := (hpayload _ _).mp hvalue
      obtain rfl := not_not.mp hlength
      exact ⟨rfl, eq_append_of_readToEnd hread⟩
  · rintro ⟨rfl, rfl⟩
    refine ⟨payload.asPrefixedBytes value, rest, readToEnd_append _ rest, ?_⟩
    rw [if_neg (not_not.mpr rfl)]
    exact Stateful.lift_ok.mpr ⟨(hpayload _ _).mpr rfl, rfl⟩

theorem readPayload_canonical (length : UInt64) :
    Canonical (fun value => True ∧ (payload.asPrefixedBytes value).len = length)
      (fun value => writeAll (payload.asPrefixedBytes value).bytes) (readPayload payload length)
      exact := by
  refine .of_accepts_iff fun input value rest => ?_
  rw [readPayload_ok_iff hpayload]
  constructor
  · rintro ⟨hlength, rfl⟩
    exact ⟨⟨trivial, hlength⟩, _, rfl, rfl⟩
  · rintro ⟨⟨-, hlength⟩, front, hfront, rfl⟩
    cases hfront
    exact ⟨hlength, rfl⟩

variable {lengths : SizePrefix}
variable (hlengths : Canonical (fun _ => True) lengths.writeLength lengths.readLength exact)

include hlengths

theorem sizePrefixed_canonical :
    Canonical (fun _ => True) (borshSerializeSizePrefixed lengths payload)
      (borshDeserializeSizePrefixed lengths payload) exact :=
  hlengths.bind (fun length _ => readPayload_canonical hpayload length) (fun _ _ => trivial)
    fun _ _ _ _ => rfl

theorem optBehind_canonical (number : NumberTypeNode) :
    Canonical (fun _ => True)
      (serializeOptBehind (optionPrefixCodec (optionPrefix number)).serialize lengths payload)
      (deserializeOptBehind (optionPrefixCodec (optionPrefix number)).deserialize lengths payload)
      exact := by
  have hitem := sizePrefixed_canonical hpayload hlengths
  have hbody : ∀ isSome, True →
      Canonical (fun option : Option T => True ∧ option.isSome = isSome)
        (fun option => match option with
          | some value => borshSerializeSizePrefixed lengths payload value
          | none => .ok [])
        (if isSome = true then some <$> borshDeserializeSizePrefixed lengths payload
          else pure none)
        exact := by
    rintro (_ | _) _
    · refine .of_accepts_iff fun input option rest => ?_
      refine Stateful.pure_ok.trans ?_
      constructor
      · rintro ⟨rfl, rfl⟩
        exact ⟨⟨trivial, rfl⟩, [], rfl, rfl⟩
      · rintro ⟨⟨-, hnone⟩, front, hfront, rfl⟩
        obtain rfl := Option.isSome_eq_false_iff.mp hnone |> Option.isNone_iff_eq_none.mp
        cases hfront
        exact ⟨rfl, rfl⟩
    · exact some_canonical hitem (fun _ => rfl) (fun _ => rfl)
  exact (optionPrefix_canonical number).bind hbody (fun _ _ => trivial) fun _ _ _ _ => rfl

theorem vec_canonical :
    Canonical (fun _ => True) (borshSerializeVecSizePrefixed lengths payload)
      (borshDeserializeVecSizePrefixed lengths payload) exact := by
  have hitem := sizePrefixed_canonical hpayload hlengths
  have hitems : ∀ count : UInt32, True →
      Canonical (fun values : List T => values.length < 2 ^ 32 ∧ .ofNat values.length = count)
        (writeMany (borshSerializeSizePrefixed lengths payload))
        (readMany (borshDeserializeSizePrefixed lengths payload) count.toNat) exact := by
    intro count _
    refine (hitem.many count.toNat).congr fun values => ?_
    constructor
    · rintro ⟨hlength, -⟩
      refine ⟨hlength ▸ count.toNat_lt, ?_⟩
      rw [hlength, UInt32.ofNat_toNat]
    · rintro ⟨hlt, rfl⟩
      exact ⟨(UInt32.toNat_ofNat_of_lt' hlt).symm, fun _ _ => trivial⟩
  have hcounted : Canonical (fun values : List T => values.length < 2 ^ 32)
      (fun values => append (writeU32 (.ofNat values.length))
        (writeMany (borshSerializeSizePrefixed lengths payload) values))
      (borshDeserializeVecSizePrefixed lengths payload) exact :=
    readU32_canonical.bind hitems (fun _ _ => trivial) fun _ _ _ _ => rfl
  refine hcounted.refuse (fun _ _ => trivial) fun values symbols _ => ?_
  rw [borshSerializeVecSizePrefixed]
  split
  case isTrue hlt => exact (and_iff_right hlt).symm
  case isFalse hge => exact ⟨nofun, fun h => absurd h.1 hge⟩

theorem fixedArray_canonical (n : Nat) :
    Canonical (fun _ => True) (borshSerializeFixedArraySizePrefixed lengths payload n)
      (borshDeserializeFixedArraySizePrefixed lengths payload n) exact := by
  have hitems := (sizePrefixed_canonical hpayload hlengths).many n
  refine hitems.refuse (fun _ _ => trivial) fun values symbols _ => ?_
  rw [borshSerializeFixedArraySizePrefixed]
  split
  case isTrue hne => exact ⟨nofun, fun h => absurd h.1.1 hne⟩
  case isFalse heq => exact (and_iff_right ⟨not_not.mp heq, fun _ _ => trivial⟩).symm

end Payload

/-! ## What fits -/

/-- The lengths that a prefix can write are below this. -/
def lengthLimit : NumberFormat → Nat
  | .u8 => 2 ^ 8
  | .u16 | .shortU16 => 2 ^ 16
  | .u32 => 2 ^ 32
  | .u64 => 2 ^ 64
  | .u128 => 2 ^ 128
  | _ => 0

/-- A payload whose length fits its prefix. -/
def PayloadKind.Fits (kind : PayloadKind) (number : NumberTypeNode) (value : kind.Value) : Prop :=
  (kind.impl.asPrefixedBytes value).bytes.length < lengthLimit number.format

/-- All payloads fit, there are not too many for the count of a list, and as many as the fixed
array has. -/
def FieldFits (fits : T → Prop) : (label : LabelIr) → FieldValue T label → Prop
  | .singular, value => fits value
  | .optional _, value => OptionFits fits value
  | .repeated, values => values.length < 2 ^ 32 ∧ ∀ value ∈ values, fits value
  | .fixedArray n, values => values.length = n ∧ ∀ value ∈ values, fits value

theorem prefixType_canonical {field : Name} {number : NumberTypeNode} {lengths : SizePrefix}
    (h : prefixType field number = .ok lengths) :
    Canonical (fun _ => True) lengths.writeLength lengths.readLength exact ∧
      ∀ length, Written (lengths.writeLength length) ↔
        length.toNat < lengthLimit number.format := by
  rw [prefixType] at h
  cases hformat : number.format
  case shortU16 =>
    simp only [hformat] at h
    split at h
    case isFalse => cases h
    case isTrue =>
      cases h
      exact ⟨shortU16SizePrefix_canonical, written_shortU16SizePrefix⟩
  case u8 | u16 | u32 | u64 | u128 =>
    simp only [hformat] at h
    cases h
    exact ⟨numberSizePrefix_canonical _ (by decide), written_numberSizePrefix _ (by decide)⟩
  all_goals
    simp only [hformat] at h
    cases h

section Written

variable {payload : SizePrefixed T} {lengths : SizePrefix} {limit : Nat}
variable (hlengths : ∀ length, Written (lengths.writeLength length) ↔ length.toNat < limit)

include hlengths

theorem written_sizePrefixed (value : T) :
    Written (borshSerializeSizePrefixed lengths payload value) ↔
      (payload.asPrefixedBytes value).bytes.length < limit := by
  rw [borshSerializeSizePrefixed, written_append, hlengths, ByteVec.toNat_len]
  exact and_iff_left (written_ok _)

theorem written_optBehind (tag : OptionPrefixIr) (option : Option T) :
    Written (serializeOptBehind (optionPrefixCodec tag).serialize lengths payload option) ↔
      OptionFits (fun value => (payload.asPrefixedBytes value).bytes.length < limit) option := by
  cases option with
  | none =>
      have hnone := written_append.mpr ⟨written_optionPrefix tag false, written_ok []⟩
      exact ⟨fun _ => nofun, fun _ => hnone⟩
  | some value =>
      rw [optionFits_some, serializeOptBehind, written_append,
        and_iff_right (written_optionPrefix _ _)]
      exact written_sizePrefixed hlengths value

theorem written_items (values : List T) :
    Written (writeMany (borshSerializeSizePrefixed lengths payload) values) ↔
      ∀ value ∈ values, (payload.asPrefixedBytes value).bytes.length < limit := by
  rw [written_writeMany]
  exact forall₂_congr fun value _ => written_sizePrefixed hlengths value

theorem written_vec (values : List T) :
    Written (borshSerializeVecSizePrefixed lengths payload values) ↔
      values.length < 2 ^ 32 ∧
        ∀ value ∈ values, (payload.asPrefixedBytes value).bytes.length < limit := by
  rw [borshSerializeVecSizePrefixed, ← written_items hlengths]
  split
  case isTrue hlt =>
    have hcount : Written (writeU32 (.ofNat values.length)) := written_ok _
    rw [written_append, and_iff_right hcount, and_iff_right hlt]
  case isFalse hge => exact iff_of_false (not_written_error _) fun h => hge h.1

theorem written_fixedArray (n : Nat) (values : List T) :
    Written (borshSerializeFixedArraySizePrefixed lengths payload n values) ↔
      values.length = n ∧
        ∀ value ∈ values, (payload.asPrefixedBytes value).bytes.length < limit := by
  rw [borshSerializeFixedArraySizePrefixed, ← written_items hlengths]
  split
  case isTrue hne => exact iff_of_false (not_written_error _) fun h => hne h.1
  case isFalse heq => rw [and_iff_right (not_not.mp heq)]

end Written

/-! ## All fields -/

/-- The prefix of an option is one that the builder makes of a number. -/
def LabelIr.PrefixOfNumber (label : LabelIr) : Prop :=
  ∀ encoding, label = .optional encoding → ∃ number, encoding.tag = optionPrefix number

theorem attrs_faithful {kind : PayloadKind} {field : Name} {number : NumberTypeNode}
    {label : LabelIr} {codec : FieldCodec (FieldValue kind.Value label)}
    (hlabel : label.PrefixOfNumber) (h : attrs kind field number label = .ok codec) :
    Faithful (FieldFits (kind.Fits number) label) codec.serialize codec.deserialize exact := by
  have hpayload : ∀ vec value, kind.impl.fromPrefixedBytes vec = .ok value ↔
      kind.impl.asPrefixedBytes value = vec := fun _ _ => fromPrefixedBytes_ok_iff kind
  cases label with
  | singular =>
      obtain ⟨lengths, hlengths, hpure⟩ := Fallible.bind_eq_ok.mp h
      obtain ⟨hcanonical, hwritten⟩ := prefixType_canonical hlengths
      cases hpure
      exact (sizePrefixed_canonical hpayload hcanonical).faithful (written_sizePrefixed hwritten)
  | optional encoding =>
      obtain ⟨option, hoption⟩ := hlabel encoding rfl
      obtain ⟨lengths, hlengths, hcodec⟩ := Fallible.bind_eq_ok.mp h
      obtain ⟨hcanonical, hwritten⟩ := prefixType_canonical hlengths
      have hcode : codec = ⟨serializeOptBehind (optionPrefixCodec encoding.tag).serialize lengths
          kind.impl, deserializeOptBehind (optionPrefixCodec encoding.tag).deserialize lengths
          kind.impl⟩ := by
        split at hcodec
        case isTrue => cases hcodec
        case isFalse =>
          cases htag : encoding.tag <;> simp only [htag] at hcodec <;> cases hcodec <;> rfl
      rw [hcode, hoption]
      exact (optBehind_canonical hpayload hcanonical option).faithful (written_optBehind hwritten _)
  | repeated =>
      obtain ⟨lengths, hlengths, hpure⟩ := Fallible.bind_eq_ok.mp h
      obtain ⟨hcanonical, hwritten⟩ := prefixType_canonical hlengths
      cases hpure
      exact (vec_canonical hpayload hcanonical).faithful (written_vec hwritten)
  | fixedArray n =>
      obtain ⟨lengths, hlengths, hpure⟩ := Fallible.bind_eq_ok.mp h
      obtain ⟨hcanonical, hwritten⟩ := prefixType_canonical hlengths
      cases hpure
      exact (fixedArray_canonical hpayload hcanonical n).faithful (written_fixedArray hwritten n)

/-- The hooks of all fields with a length prefix or an option prefix. A value that fits is
recovered in front of anything; what does not fit is refused; what is accepted is what is written,
up to the padding of `None`; and input that ends early fails. Of the item of an option, which may
be of any type with Borsh impls, the same is assumed. -/
theorem field_codecs_faithful :
    (∀ (kind : PayloadKind) (field : Name) (number : NumberTypeNode) (label : LabelIr)
        (codec : FieldCodec (FieldValue kind.Value label)), label.PrefixOfNumber →
      attrs kind field number label = .ok codec →
        Faithful (FieldFits (kind.Fits number) label) codec.serialize codec.deserialize exact) ∧
    ∀ (encoding : OptionEncodingIr) (number : NumberTypeNode),
      encoding.tag = optionPrefix number →
        (∀ (α : Type) (item : FieldCodec α) (fits : α → Prop)
            (blank : α → List UInt8 → List UInt8),
          Canonical (fun _ => True) item.serialize item.deserialize blank →
          (∀ value, Written (item.serialize value) ↔ fits value) →
            Faithful (OptionFits fits) (optionBorshPaths encoding item).serialize
              (optionBorshPaths encoding item).deserialize
              (zeroNonePadding encoding.tag.width blank)) ∧
        (∀ size, Faithful (OptionFits fun bytes => bytes.length = size)
          (optionFixedBytesBorshPaths encoding size).serialize
          (optionFixedBytesBorshPaths encoding size).deserialize
          (zeroNonePadding encoding.tag.width exact)) ∧
        Faithful (OptionFits fun _ => True) (optionF32BorshPaths encoding).serialize
          (optionF32BorshPaths encoding).deserialize (zeroNonePadding encoding.tag.width exact) ∧
        Faithful (OptionFits fun _ => True) (optionF64BorshPaths encoding).serialize
          (optionF64BorshPaths encoding).deserialize (zeroNonePadding encoding.tag.width exact) := by
  refine ⟨fun kind field number label codec hlabel h => attrs_faithful hlabel h, ?_⟩
  intro encoding number htag
  have hfloat : ∀ width value, Written (writeFloat width value) ↔ True :=
    fun width value => iff_true_intro (written_ok _)
  refine ⟨fun α item fits blank hitem hfits => optionBorshPaths_faithful htag hitem hfits,
    fun size => ?_, ?_, ?_⟩
  · rw [optionFixedBytesBorshPaths_eq]
    exact optionBorshPaths_faithful htag (writeFixedBytes_canonical size)
      (written_writeFixedBytes size)
  · rw [optionF32BorshPaths_eq]
    exact optionBorshPaths_faithful htag (readFloat_canonical 4) (hfloat 4)
  · rw [optionF64BorshPaths_eq]
    exact optionBorshPaths_faithful htag (readFloat_canonical 8) (hfloat 8)

/-- An optional memo behind a compact length and a big-endian `u16` tag, and a fixed option of a
byte behind a `u32` tag. -/
theorem field_codecs_faithful_memo :
    Faithful (OptionFits (PayloadKind.Fits .bytes ⟨.shortU16, .le⟩))
      (borshSerializeOptSizePrefixed shortU16SizePrefix PayloadKind.bytes.impl 2 1 true)
      (borshDeserializeOptSizePrefixed shortU16SizePrefix PayloadKind.bytes.impl 2 1 true) exact ∧
    Faithful (OptionFits fun _ => True) (borshSerializeOption writeU8 4 1 false 1)
      (borshDeserializeOption readU8 4 1 false 1) (zeroNonePadding 4 exact) := by
  have htag : LabelIr.PrefixOfNumber (.optional ⟨.fixedWidth 2 1 true, none⟩) := by
    intro encoding hencoding
    cases hencoding
    exact ⟨⟨.u16, .be⟩, rfl⟩
  have hbyte := (field_codecs_faithful.2 ⟨.fixedWidth 4 1 false, some 1⟩ ⟨.u32, .le⟩ rfl).1 UInt8
    ⟨writeU8, readU8⟩ (fun _ => True) exact readU8_canonical
    fun _ => iff_true_intro (written_ok _)
  exact ⟨field_codecs_faithful.1 .bytes "memo".toList ⟨.shortU16, .le⟩
    (.optional ⟨.fixedWidth 2 1 true, none⟩) _ htag rfl, hbyte⟩

end Shipstern.Codegen
