import Shipstern.Codegen.BorshReader
import Shipstern.Codegen.Materialize

/-!
# Codecs of options

An option that Borsh does not write natively is a tag and the item. The tag is a number of a fixed
width, zero for `None`, or a compact `u16`. In a fixed option `None` is followed by as many bytes
as the item takes; the reader skips them, whatever they are.
-/

namespace Shipstern.Codegen

open Codama CanonicalCode

variable {α : Type}

/-- The pair of hooks of a field. -/
structure FieldCodec (α : Type) where
  serialize : BorshWriter α
  deserialize : BorshReader α

/-! ## Tags -/

def invalidOptionPrefix : IoError := ⟨.invalidData, "invalid Codama option prefix".toList⟩

def invalidShortU16OptionPrefix : IoError :=
  ⟨.invalidData, "invalid short_u16 Codama option prefix".toList⟩

def isSomeOfPrefix (prefixOne value : BitVec 128) : Except IoError Bool :=
  if value = 0 then .ok false
  else if value = prefixOne then .ok true
  else .error invalidOptionPrefix

def borshDeserializeOptionPrefix (prefixBytes : Nat) (prefixOne : BitVec 128) (bigEndian : Bool) :
    BorshReader Bool := do
  let value ← readUnsigned prefixBytes bigEndian
  liftM (isSomeOfPrefix prefixOne value)

def borshSerializeOptionPrefix (prefixBytes : Nat) (prefixOne : BitVec 128) (bigEndian : Bool) :
    BorshWriter Bool := fun isSome =>
  writeUnsigned prefixBytes bigEndian (if isSome then prefixOne else 0)

def isSomeOfByte (byte : UInt8) : Except IoError Bool :=
  if byte = 0 then .ok false
  else if byte = 1 then .ok true
  else .error invalidShortU16OptionPrefix

def borshDeserializeShortU16OptionPrefix : BorshReader Bool := do
  let byte ← readExact 1
  liftM (isSomeOfByte (byte.headD 0))

def borshSerializeShortU16OptionPrefix : BorshWriter Bool := fun isSome =>
  writeAll [if isSome then 1 else 0]

/-- The helpers for a tag. -/
def optionPrefixCodec : OptionPrefixIr → FieldCodec Bool
  | .fixedWidth byteLen oneValue bigEndian =>
      { serialize := borshSerializeOptionPrefix byteLen (.ofNat 128 oneValue) bigEndian
        deserialize := borshDeserializeOptionPrefix byteLen (.ofNat 128 oneValue) bigEndian }
  | .shortU16 =>
      { serialize := borshSerializeShortU16OptionPrefix
        deserialize := borshDeserializeShortU16OptionPrefix }

/-! ## Options -/

/-- The bytes are skipped: the `COption` of SPL keeps the old value when it is set to `None`. -/
def borshDeserializeOptionNonePadding (nonePadding : Nat) : BorshReader Unit := do
  let _ ← readExact nonePadding
  pure ()

def borshSerializeOptionNonePadding (nonePadding : Nat) : Except IoError (List UInt8) :=
  writeAll (List.replicate nonePadding 0)

/-- All of the readers: the tag, and the item or the padding. -/
def deserializeOptionBehind (tag : BorshReader Bool) (item : BorshReader α) (nonePadding : Nat) :
    BorshReader (Option α) := do
  if ← tag then some <$> item
  else do
    borshDeserializeOptionNonePadding nonePadding
    pure none

/-- What is written behind the tag. -/
def serializeBehindTag (item : BorshWriter α) (nonePadding : Nat) : BorshWriter (Option α)
  | some value => item value
  | none => borshSerializeOptionNonePadding nonePadding

/-- All of the writers. -/
def serializeOptionBehind (tag : BorshWriter Bool) (item : BorshWriter α) (nonePadding : Nat) :
    BorshWriter (Option α) := fun value =>
  append (tag value.isSome) (serializeBehindTag item nonePadding value)

/-- `borsh_deserialize_option`, for the item of a type that implements `BorshDeserialize`. -/
def borshDeserializeOption (item : BorshReader α) (prefixBytes : Nat) (prefixOne : BitVec 128)
    (bigEndian : Bool) (nonePadding : Nat) : BorshReader (Option α) :=
  deserializeOptionBehind (borshDeserializeOptionPrefix prefixBytes prefixOne bigEndian) item
    nonePadding

def borshSerializeOption (item : BorshWriter α) (prefixBytes : Nat) (prefixOne : BitVec 128)
    (bigEndian : Bool) (nonePadding : Nat) : BorshWriter (Option α) :=
  serializeOptionBehind (borshSerializeOptionPrefix prefixBytes prefixOne bigEndian) item
    nonePadding

def borshDeserializeShortU16Option (item : BorshReader α) (nonePadding : Nat) :
    BorshReader (Option α) :=
  deserializeOptionBehind borshDeserializeShortU16OptionPrefix item nonePadding

def borshSerializeShortU16Option (item : BorshWriter α) (nonePadding : Nat) :
    BorshWriter (Option α) :=
  serializeOptionBehind borshSerializeShortU16OptionPrefix item nonePadding

def invalidFixedByteOptionLength : IoError :=
  ⟨.invalidInput, "invalid fixed-byte option length".toList⟩

/-- The item of `borsh_serialize_option_fixed_bytes`. -/
def writeFixedBytes (byteSize : Nat) : BorshWriter (List UInt8) := fun value =>
  if value.length = byteSize then writeAll value else .error invalidFixedByteOptionLength

def borshDeserializeOptionFixedBytes (byteSize prefixBytes : Nat) (prefixOne : BitVec 128)
    (bigEndian : Bool) (nonePadding : Nat) : BorshReader (Option (List UInt8)) :=
  deserializeOptionBehind (borshDeserializeOptionPrefix prefixBytes prefixOne bigEndian)
    (readExact byteSize) nonePadding

def borshSerializeOptionFixedBytes (byteSize prefixBytes : Nat) (prefixOne : BitVec 128)
    (bigEndian : Bool) (nonePadding : Nat) : BorshWriter (Option (List UInt8)) :=
  serializeOptionBehind (borshSerializeOptionPrefix prefixBytes prefixOne bigEndian)
    (writeFixedBytes byteSize) nonePadding

def borshDeserializeShortU16OptionFixedBytes (byteSize nonePadding : Nat) :
    BorshReader (Option (List UInt8)) :=
  deserializeOptionBehind borshDeserializeShortU16OptionPrefix (readExact byteSize) nonePadding

def borshSerializeShortU16OptionFixedBytes (byteSize nonePadding : Nat) :
    BorshWriter (Option (List UInt8)) :=
  serializeOptionBehind borshSerializeShortU16OptionPrefix (writeFixedBytes byteSize) nonePadding

/-- A float is its bits: every pattern is let through, that of a `NaN`, too. -/
abbrev FloatBits (width : Nat) := BitVec (8 * width)

/-- `from_le_bytes` of what `read_exact` gives. -/
def readFloat (width : Nat) : BorshReader (FloatBits width) := do
  let bytes ← readExact width
  pure (.ofNat _ (Wire.leNat bytes))

/-- `write_all` of `to_le_bytes`. -/
def writeFloat (width : Nat) : BorshWriter (FloatBits width) := fun value =>
  writeAll (toLeBytes width value.toNat)

def borshDeserializeOptionF32Permissive (prefixBytes : Nat) (prefixOne : BitVec 128)
    (bigEndian : Bool) (nonePadding : Nat) : BorshReader (Option (FloatBits 4)) :=
  deserializeOptionBehind (borshDeserializeOptionPrefix prefixBytes prefixOne bigEndian)
    (readFloat 4) nonePadding

def borshSerializeOptionF32Permissive (prefixBytes : Nat) (prefixOne : BitVec 128)
    (bigEndian : Bool) (nonePadding : Nat) : BorshWriter (Option (FloatBits 4)) :=
  serializeOptionBehind (borshSerializeOptionPrefix prefixBytes prefixOne bigEndian)
    (writeFloat 4) nonePadding

def borshDeserializeOptionF64Permissive (prefixBytes : Nat) (prefixOne : BitVec 128)
    (bigEndian : Bool) (nonePadding : Nat) : BorshReader (Option (FloatBits 8)) :=
  deserializeOptionBehind (borshDeserializeOptionPrefix prefixBytes prefixOne bigEndian)
    (readFloat 8) nonePadding

def borshSerializeOptionF64Permissive (prefixBytes : Nat) (prefixOne : BitVec 128)
    (bigEndian : Bool) (nonePadding : Nat) : BorshWriter (Option (FloatBits 8)) :=
  serializeOptionBehind (borshSerializeOptionPrefix prefixBytes prefixOne bigEndian)
    (writeFloat 8) nonePadding

def borshDeserializeShortU16OptionF32Permissive (nonePadding : Nat) :
    BorshReader (Option (FloatBits 4)) :=
  deserializeOptionBehind borshDeserializeShortU16OptionPrefix (readFloat 4) nonePadding

def borshSerializeShortU16OptionF32Permissive (nonePadding : Nat) :
    BorshWriter (Option (FloatBits 4)) :=
  serializeOptionBehind borshSerializeShortU16OptionPrefix (writeFloat 4) nonePadding

def borshDeserializeShortU16OptionF64Permissive (nonePadding : Nat) :
    BorshReader (Option (FloatBits 8)) :=
  deserializeOptionBehind borshDeserializeShortU16OptionPrefix (readFloat 8) nonePadding

def borshSerializeShortU16OptionF64Permissive (nonePadding : Nat) :
    BorshWriter (Option (FloatBits 8)) :=
  serializeOptionBehind borshSerializeShortU16OptionPrefix (writeFloat 8) nonePadding

/-! ## The hooks of a field -/

/-- `option_borsh_paths`, for the Borsh impls of the item's type. -/
def optionBorshPaths (encoding : OptionEncodingIr) (item : FieldCodec α) : FieldCodec (Option α) :=
  let padding := encoding.nonePadding.getD 0
  match encoding.tag with
  | .fixedWidth byteLen oneValue bigEndian =>
      { serialize :=
          borshSerializeOption item.serialize byteLen (.ofNat 128 oneValue) bigEndian padding
        deserialize :=
          borshDeserializeOption item.deserialize byteLen (.ofNat 128 oneValue) bigEndian padding }
  | .shortU16 =>
      { serialize := borshSerializeShortU16Option item.serialize padding
        deserialize := borshDeserializeShortU16Option item.deserialize padding }

def optionFixedBytesBorshPaths (encoding : OptionEncodingIr) (size : Nat) :
    FieldCodec (Option (List UInt8)) :=
  let padding := encoding.nonePadding.getD 0
  match encoding.tag with
  | .fixedWidth byteLen oneValue bigEndian =>
      { serialize :=
          borshSerializeOptionFixedBytes size byteLen (.ofNat 128 oneValue) bigEndian padding
        deserialize :=
          borshDeserializeOptionFixedBytes size byteLen (.ofNat 128 oneValue) bigEndian padding }
  | .shortU16 =>
      { serialize := borshSerializeShortU16OptionFixedBytes size padding
        deserialize := borshDeserializeShortU16OptionFixedBytes size padding }

/-- `option_float_borsh_paths` of the suffix `f32`. -/
def optionF32BorshPaths (encoding : OptionEncodingIr) : FieldCodec (Option (FloatBits 4)) :=
  let padding := encoding.nonePadding.getD 0
  match encoding.tag with
  | .fixedWidth byteLen oneValue bigEndian =>
      { serialize :=
          borshSerializeOptionF32Permissive byteLen (.ofNat 128 oneValue) bigEndian padding
        deserialize :=
          borshDeserializeOptionF32Permissive byteLen (.ofNat 128 oneValue) bigEndian padding }
  | .shortU16 =>
      { serialize := borshSerializeShortU16OptionF32Permissive padding
        deserialize := borshDeserializeShortU16OptionF32Permissive padding }

/-- `option_float_borsh_paths` of the suffix `f64`. -/
def optionF64BorshPaths (encoding : OptionEncodingIr) : FieldCodec (Option (FloatBits 8)) :=
  let padding := encoding.nonePadding.getD 0
  match encoding.tag with
  | .fixedWidth byteLen oneValue bigEndian =>
      { serialize :=
          borshSerializeOptionF64Permissive byteLen (.ofNat 128 oneValue) bigEndian padding
        deserialize :=
          borshDeserializeOptionF64Permissive byteLen (.ofNat 128 oneValue) bigEndian padding }
  | .shortU16 =>
      { serialize := borshSerializeShortU16OptionF64Permissive padding
        deserialize := borshDeserializeShortU16OptionF64Permissive padding }

/-! ## Options are canonical -/

/-- Behind the tag of `None`, all bytes as the writer leaves them. -/
def zeroBehindTag (blank : α → List UInt8 → List UInt8) : Option α → List UInt8 → List UInt8
  | some value, bytes => blank value bytes
  | none, bytes => bytes.map fun _ => 0

/-- An option with the padding of `None` set to zero, behind a tag of `tagWidth` bytes. -/
def zeroNonePadding (tagWidth : Nat) (blank : α → List UInt8 → List UInt8) (value : Option α)
    (bytes : List UInt8) : List UInt8 :=
  bytes.take tagWidth ++ zeroBehindTag blank value (bytes.drop tagWidth)

def OptionPrefixIr.width : OptionPrefixIr → Nat
  | .fixedWidth byteLen _ _ => byteLen
  | .shortU16 => 1

theorem optionPrefix_fits {number : NumberTypeNode} {byteLen oneValue : Nat} {bigEndian : Bool}
    (h : optionPrefix number = .fixedWidth byteLen oneValue bigEndian) :
    byteLen ≤ 16 ∧ 0 < oneValue ∧ oneValue < 256 ^ byteLen := by
  obtain ⟨format, endian⟩ := number
  cases format <;> cases h <;> simp [oneValue]

theorem borshOptionPrefix_canonical {prefixBytes : Nat} {prefixOne : BitVec 128}
    (bigEndian : Bool) (hwidth : prefixBytes ≤ 16) (hne : prefixOne ≠ 0)
    (hone : prefixOne.toNat < 256 ^ prefixBytes) :
    Canonical (fun _ => True) (borshSerializeOptionPrefix prefixBytes prefixOne bigEndian)
      (borshDeserializeOptionPrefix prefixBytes prefixOne bigEndian) exact := by
  refine (readUnsigned_canonical bigEndian hwidth).convert (f := isSomeOfPrefix prefixOne)
    (g := fun isSome => if isSome then prefixOne else 0) ?_ ?_
  · intro value isSome _ h
    rw [isSomeOfPrefix] at h
    split at h
    case isTrue hzero =>
      cases h
      exact ⟨trivial, hzero.symm⟩
    case isFalse =>
      split at h
      case isTrue heq =>
        cases h
        exact ⟨trivial, heq.symm⟩
      case isFalse => cases h
  · rintro (_ | _) _
    · exact ⟨Nat.pow_pos (by decide), rfl⟩
    · refine ⟨hone, ?_⟩
      show isSomeOfPrefix prefixOne prefixOne = .ok true
      rw [isSomeOfPrefix, if_neg hne, if_pos rfl]

theorem borshShortU16OptionPrefix_canonical :
    Canonical (fun _ => True) borshSerializeShortU16OptionPrefix
      borshDeserializeShortU16OptionPrefix exact := by
  refine (readBuffer_canonical failedToFillWholeBuffer 1).convert
    (f := fun byte => isSomeOfByte (byte.headD 0)) (g := fun isSome => [if isSome then 1 else 0])
    ?_ ?_
  · intro bytes isSome hlength h
    obtain ⟨byte, rfl⟩ := List.length_eq_one_iff.mp hlength
    rw [isSomeOfByte] at h
    split at h
    case isTrue hzero =>
      cases h
      exact ⟨trivial, congrArg (fun b => [b]) hzero.symm⟩
    case isFalse =>
      split at h
      case isTrue hone =>
        cases h
        exact ⟨trivial, congrArg (fun b => [b]) hone.symm⟩
      case isFalse => cases h
  · rintro (_ | _) _ <;> exact ⟨rfl, rfl⟩

theorem optionPrefix_canonical (number : NumberTypeNode) :
    Canonical (fun _ => True) (optionPrefixCodec (optionPrefix number)).serialize
      (optionPrefixCodec (optionPrefix number)).deserialize exact := by
  cases hprefix : optionPrefix number with
  | shortU16 => exact borshShortU16OptionPrefix_canonical
  | fixedWidth byteLen oneValue bigEndian =>
      obtain ⟨hwidth, hpos, hfits⟩ := optionPrefix_fits hprefix
      have hpow : 256 ^ byteLen ≤ 2 ^ 128 := by
        calc 256 ^ byteLen ≤ 256 ^ 16 := Nat.pow_le_pow_right (by decide) hwidth
          _ = 2 ^ 128 := by decide
      have hvalue : (BitVec.ofNat 128 oneValue).toNat = oneValue :=
        Nat.mod_eq_of_lt (Nat.lt_of_lt_of_le hfits hpow)
      refine borshOptionPrefix_canonical bigEndian hwidth ?_ ?_
      · intro hzero
        rw [hzero] at hvalue
        exact Nat.ne_of_lt hpos hvalue
      · rw [hvalue]
        exact hfits

theorem length_optionPrefix (tag : OptionPrefixIr) {isSome : Bool} {bytes : List UInt8}
    (h : (optionPrefixCodec tag).serialize isSome = .ok bytes) : bytes.length = tag.width := by
  cases tag with
  | shortU16 =>
      cases h
      rfl
  | fixedWidth byteLen oneValue bigEndian =>
      cases h
      show (shiftedBytes byteLen bigEndian _).length = byteLen
      rw [shiftedBytes_eq, length_numberBytes]

theorem reads_nonePadding {nonePadding : Nat} {bytes : List UInt8} (h : bytes.length = nonePadding) :
    Reads (borshDeserializeOptionNonePadding nonePadding) bytes () := by
  intro rest
  have hread := (readBuffer_canonical failedToFillWholeBuffer nonePadding).recovers h rfl rest
  exact Stateful.bind_ok.mpr ⟨bytes, rest, hread, rfl⟩

/-- Behind `None` there are the bytes of the padding, which are skipped. -/
theorem none_canonical (nonePadding : Nat) (write : BorshWriter α)
    (blank : α → List UInt8 → List UInt8) :
    Canonical (fun option : Option α => True ∧ option.isSome = false)
      (serializeBehindTag write nonePadding)
      (do borshDeserializeOptionNonePadding nonePadding; pure none) (zeroBehindTag blank) where
  recovers := by
    rintro (_ | value) symbols ⟨-, hnone⟩ hwrite rest
    · cases hwrite
      have hread := reads_nonePadding (List.length_replicate (n := nonePadding) (a := 0)) rest
      exact Stateful.bind_ok.mpr ⟨(), rest, hread, rfl⟩
    · cases hnone
  accepted := by
    intro input option rest hread
    obtain ⟨⟨⟩, mid, hpadding, hpure⟩ := Stateful.bind_ok.mp hread
    obtain ⟨rfl, rfl⟩ := Stateful.pure_ok.mp hpure
    obtain ⟨bytes, mid', hbytes, hpure⟩ := Stateful.bind_ok.mp hpadding
    obtain ⟨-, rfl⟩ := Stateful.pure_ok.mp hpure
    obtain ⟨hlength, front, hinput, hfront, -⟩ :=
      (readBuffer_canonical failedToFillWholeBuffer nonePadding).accepted hbytes
    obtain rfl : bytes = front := Except.ok.inj hfront
    refine ⟨⟨trivial, rfl⟩, bytes, hinput, ?_, fun tail => ?_⟩
    · show writeAll (List.replicate nonePadding 0) = .ok (bytes.map fun _ => 0)
      rw [List.map_const', hlength]
      rfl
    · exact Stateful.bind_ok.mpr ⟨(), tail, reads_nonePadding hlength tail, rfl⟩

theorem some_canonical {write : BorshWriter α} {read : BorshReader α}
    {blank : α → List UInt8 → List UInt8} (h : Canonical (fun _ => True) write read blank)
    {writeOption : BorshWriter (Option α)} {blankOption : Option α → List UInt8 → List UInt8}
    (hwrite : ∀ value, writeOption (some value) = write value)
    (hblank : ∀ value, blankOption (some value) = blank value) :
    Canonical (fun option : Option α => True ∧ option.isSome = true) writeOption (some <$> read)
      blankOption where
  recovers := by
    rintro (_ | value) symbols ⟨-, hsome⟩ hsymbols
    · cases hsome
    · rw [hwrite] at hsymbols
      exact (h.recovers trivial hsymbols).map some
  accepted := by
    intro input option rest hread
    obtain ⟨value, hvalue, rfl⟩ := Stateful.map_ok.mp hread
    obtain ⟨-, front, hinput, hfront, hreads⟩ := h.accepted hvalue
    refine ⟨⟨trivial, rfl⟩, front, hinput, ?_, hreads.map some⟩
    rw [hwrite, hblank]
    exact hfront

theorem optionBehind_canonical (number : NumberTypeNode) {write : BorshWriter α}
    {read : BorshReader α} {blank : α → List UInt8 → List UInt8}
    (h : Canonical (fun _ => True) write read blank) (nonePadding : Nat) :
    Canonical (fun _ => True)
      (serializeOptionBehind (optionPrefixCodec (optionPrefix number)).serialize write nonePadding)
      (deserializeOptionBehind (optionPrefixCodec (optionPrefix number)).deserialize read
        nonePadding)
      (zeroNonePadding (optionPrefix number).width blank) := by
  have hbody : ∀ isSome, True →
      Canonical (fun option : Option α => True ∧ option.isSome = isSome)
        (serializeBehindTag write nonePadding)
        (if isSome = true then some <$> read
          else do borshDeserializeOptionNonePadding nonePadding; pure none)
        (zeroBehindTag blank) := by
    rintro (_ | _) _
    · exact none_canonical nonePadding write blank
    · exact some_canonical h (fun _ => rfl) (fun _ => rfl)
  refine (optionPrefix_canonical number).bind hbody (fun _ _ => trivial) ?_
  intro value front back hfront
  have hlength := length_optionPrefix _ hfront
  rw [zeroNonePadding, List.take_left' hlength, List.drop_left' hlength]

/-- An item fits into its option as it does alone, and `None` always does. -/
def OptionFits (fits : α → Prop) (option : Option α) : Prop := ∀ value ∈ option, fits value

theorem optionFits_some {fits : α → Prop} {value : α} :
    OptionFits fits (some value) ↔ fits value := by
  simp [OptionFits]

theorem written_optionPrefix (tag : OptionPrefixIr) (isSome : Bool) :
    Written ((optionPrefixCodec tag).serialize isSome) := by
  cases tag <;> exact written_ok _

theorem written_optionBehind (tag : OptionPrefixIr) {write : BorshWriter α} {fits : α → Prop}
    (h : ∀ value, Written (write value) ↔ fits value) (nonePadding : Nat) (option : Option α) :
    Written (serializeOptionBehind (optionPrefixCodec tag).serialize write nonePadding option) ↔
      OptionFits fits option := by
  rw [serializeOptionBehind, written_append, and_iff_right (written_optionPrefix _ _)]
  cases option with
  | none => exact ⟨fun _ => nofun, fun _ => written_ok _⟩
  | some value =>
      rw [optionFits_some, ← h]
      rfl

/-- The paths choose the helpers of the tag. -/
theorem optionBorshPaths_eq (encoding : OptionEncodingIr) (item : FieldCodec α) :
    optionBorshPaths encoding item =
      { serialize := serializeOptionBehind (optionPrefixCodec encoding.tag).serialize
          item.serialize (encoding.nonePadding.getD 0)
        deserialize := deserializeOptionBehind (optionPrefixCodec encoding.tag).deserialize
          item.deserialize (encoding.nonePadding.getD 0) } := by
  rw [optionBorshPaths]
  cases encoding.tag <;> rfl

theorem optionFixedBytesBorshPaths_eq (encoding : OptionEncodingIr) (size : Nat) :
    optionFixedBytesBorshPaths encoding size =
      optionBorshPaths encoding ⟨writeFixedBytes size, readExact size⟩ := by
  rw [optionFixedBytesBorshPaths, optionBorshPaths]
  cases encoding.tag <;> rfl

theorem optionF32BorshPaths_eq (encoding : OptionEncodingIr) :
    optionF32BorshPaths encoding = optionBorshPaths encoding ⟨writeFloat 4, readFloat 4⟩ := by
  rw [optionF32BorshPaths, optionBorshPaths]
  cases encoding.tag <;> rfl

theorem optionF64BorshPaths_eq (encoding : OptionEncodingIr) :
    optionF64BorshPaths encoding = optionBorshPaths encoding ⟨writeFloat 8, readFloat 8⟩ := by
  rw [optionF64BorshPaths, optionBorshPaths]
  cases encoding.tag <;> rfl

/-- Where the item's impls are a canonical code, the option's hooks are one, up to the padding of
`None`. -/
theorem optionBorshPaths_faithful {encoding : OptionEncodingIr} {number : NumberTypeNode}
    (htag : encoding.tag = optionPrefix number) {item : FieldCodec α} {fits : α → Prop}
    {blank : α → List UInt8 → List UInt8}
    (hitem : Canonical (fun _ => True) item.serialize item.deserialize blank)
    (hfits : ∀ value, Written (item.serialize value) ↔ fits value) :
    Faithful (OptionFits fits) (optionBorshPaths encoding item).serialize
      (optionBorshPaths encoding item).deserialize (zeroNonePadding encoding.tag.width blank) := by
  rw [optionBorshPaths_eq, htag]
  exact (optionBehind_canonical number hitem _).faithful (written_optionBehind _ hfits _)

theorem writeFixedBytes_canonical (size : Nat) :
    Canonical (fun _ => True) (writeFixedBytes size) (readExact size) exact := by
  refine (readBuffer_canonical failedToFillWholeBuffer size).refuse (fun _ _ => trivial) ?_
  intro value symbols _
  rw [writeFixedBytes]
  split
  case isTrue hlength => exact (and_iff_right hlength).symm
  case isFalse hlength => exact ⟨nofun, fun h => absurd h.1 hlength⟩

theorem written_writeFixedBytes (size : Nat) (value : List UInt8) :
    Written (writeFixedBytes size value) ↔ value.length = size := by
  rw [writeFixedBytes]
  split
  case isTrue hlength => exact ⟨fun _ => hlength, fun _ => written_ok _⟩
  case isFalse hlength => exact ⟨fun h => absurd h (not_written_error _), fun h => absurd h hlength⟩

theorem readFloat_canonical (width : Nat) :
    Canonical (fun _ => True) (writeFloat width) (readFloat width) exact := by
  refine (readBuffer_canonical failedToFillWholeBuffer width).convert
    (f := fun bytes => .ok (BitVec.ofNat _ (Wire.leNat bytes)))
    (g := fun value : FloatBits width => toLeBytes width value.toNat) ?_ ?_
  · intro bytes value hlength hvalue
    cases hvalue
    have hlt : Wire.leNat bytes < 2 ^ (8 * width) := by
      have h := leNat_lt bytes
      rwa [hlength, show 256 = 2 ^ 8 from rfl, ← Nat.pow_mul] at h
    refine ⟨trivial, ?_⟩
    rw [BitVec.toNat_ofNat, Nat.mod_eq_of_lt hlt, ← hlength, toLeBytes_leNat]
  · intro value _
    have hlt : value.toNat < 256 ^ width := by
      have hbits := value.isLt
      rwa [Nat.pow_mul] at hbits
    refine ⟨length_toLeBytes _ _, ?_⟩
    rw [leNat_toLeBytes hlt, BitVec.ofNat_toNat, BitVec.setWidth_eq]

end Shipstern.Codegen
