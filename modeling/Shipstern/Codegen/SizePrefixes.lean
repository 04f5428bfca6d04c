import Mathlib
import Shipstern.Codegen.BorshReader
import Shipstern.Lib.Leb128

/-!
# Length prefixes

The length of a payload is written as an unsigned number of a fixed width in either byte order, or
as a compact `u16` of one to three bytes, which must be as short as possible.
-/

namespace Shipstern.Codegen

open CanonicalCode

/-- `ShipsternSizePrefix`. Lengths are of type `usize` where they are written and of type `u64`
where they are read. -/
structure SizePrefix where
  readLength : BorshReader UInt64
  writeLength : BorshWriter UInt64

def byteLengthOverflow : IoError := ⟨.invalidInput, "byte length overflow".toList⟩

/-! ## Numbers -/

def byteLengthExceedsU64 : IoError := ⟨.invalidData, "byte length exceeds u64".toList⟩

/-- `u64::try_from`. -/
def u64TryFrom (length : BitVec 128) : Except IoError UInt64 :=
  if length.toNat < 2 ^ 64 then .ok (.ofNat length.toNat) else .error byteLengthExceedsU64

/-- `ShipsternNumberSizePrefix`. -/
def numberSizePrefix (prefixBytes : Nat) (bigEndian : Bool) : SizePrefix where
  readLength := do
    let length ← readUnsigned prefixBytes bigEndian
    liftM (u64TryFrom length)
  writeLength length :=
    let length := length.toBitVec.setWidth 128
    if prefixBytes < 16 ∧ length >>> (prefixBytes * 8) ≠ 0 then .error byteLengthOverflow
    else writeUnsigned prefixBytes bigEndian length

/-! ## Compact numbers -/

def invalidShortU16ByteLength : IoError :=
  ⟨.invalidData, "invalid short_u16 byte length".toList⟩

/-- `deserialize_reader` of a `u8`. -/
def readU8 : BorshReader UInt8 := do
  let bytes ← readBuffer unexpectedLengthOfInput 1
  pure (bytes.headD 0)

/-- `serialize` of a `u8`. -/
def writeU8 : BorshWriter UInt8 := fun byte => writeAll [byte]

/-- The loop over the indices that are left. -/
def readShortU16 : List Nat → UInt16 → BorshReader UInt16
  | [], length => pure length
  | index :: indices, length => do
      let byte ← readU8
      if (index = 2 ∧ 3 < byte) ∨ (0 < index ∧ byte = 0) then throw invalidShortU16ByteLength
      else
        let length := length ||| (byte &&& 0x7f).toUInt16 <<< .ofNat (index * 7)
        if byte &&& 0x80 = 0 then pure length else readShortU16 indices length

theorem toNat_shiftRight_seven (length : UInt16) : (length >>> 7).toNat = length.toNat / 128 := by
  rw [UInt16.toNat_shiftRight]
  exact Nat.shiftRight_eq_div_pow _ 7

def writeShortU16 (length : UInt16) : List UInt8 :=
  let byte := (length &&& 0x7f).toUInt8
  if length >>> 7 = 0 then [byte] else (byte ||| 0x80) :: writeShortU16 (length >>> 7)
termination_by length.toNat
decreasing_by
  rename_i hne
  have hpos : (length >>> 7).toNat ≠ 0 := fun h => hne (UInt16.toNat_inj.mp h)
  rw [toNat_shiftRight_seven] at hpos ⊢
  omega

/-- `ShipsternShortU16SizePrefix`. -/
def shortU16SizePrefix : SizePrefix where
  readLength := do
    let length ← readShortU16 [0, 1, 2] 0
    pure length.toUInt64
  writeLength length :=
    if length.toNat < 2 ^ 16 then writeAll (writeShortU16 length.toUInt16)
    else .error byteLengthOverflow

/-! ## Numbers are canonical -/

theorem readU8_canonical : Canonical (fun _ => True) writeU8 readU8 exact := by
  refine (readBuffer_canonical unexpectedLengthOfInput 1).convert
    (f := fun bytes => .ok (bytes.headD 0)) (g := fun byte => [byte]) ?_ ?_
  · intro bytes byte hlength hbyte
    cases hbyte
    obtain ⟨byte, rfl⟩ := List.length_eq_one_iff.mp hlength
    exact ⟨trivial, rfl⟩
  · intro byte _
    exact ⟨rfl, rfl⟩

theorem toNat_setWidth_length (length : UInt64) :
    (length.toBitVec.setWidth 128).toNat = length.toNat := by
  rw [BitVec.toNat_setWidth]
  exact Nat.mod_eq_of_lt (Nat.lt_trans length.toNat_lt (by decide))

theorem lengthOverflows_iff {prefixBytes : Nat} (hwidth : prefixBytes ≤ 16) (length : UInt64) :
    (prefixBytes < 16 ∧ length.toBitVec.setWidth 128 >>> (prefixBytes * 8) ≠ 0) ↔
      ¬ length.toNat < 256 ^ prefixBytes := by
  have hpow : 2 ^ (prefixBytes * 8) = 256 ^ prefixBytes := by rw [Nat.mul_comm, Nat.pow_mul]
  have hshift : (length.toBitVec.setWidth 128 >>> (prefixBytes * 8)).toNat =
      length.toNat / 256 ^ prefixBytes := by
    rw [BitVec.toNat_ushiftRight, Nat.shiftRight_eq_div_pow, hpow, toNat_setWidth_length]
  have hzero : length.toBitVec.setWidth 128 >>> (prefixBytes * 8) = 0 ↔
      length.toNat < 256 ^ prefixBytes := by
    rw [← BitVec.toNat_inj, hshift]
    exact Nat.div_eq_zero_iff_lt (Nat.pow_pos (by decide))
  rw [Ne, hzero, and_iff_right_iff_imp]
  intro hlarge
  by_contra hnot
  obtain rfl : prefixBytes = 16 := by omega
  exact hlarge (Nat.lt_trans length.toNat_lt (by decide))

theorem written_numberSizePrefix {prefixBytes : Nat} (bigEndian : Bool)
    (hwidth : prefixBytes ≤ 16) (length : UInt64) :
    Written ((numberSizePrefix prefixBytes bigEndian).writeLength length) ↔
      length.toNat < 256 ^ prefixBytes := by
  have hoverflow := lengthOverflows_iff hwidth length
  show Written (if _ then _ else _) ↔ _
  split
  case isTrue h => exact iff_of_false (not_written_error _) (hoverflow.mp h)
  case isFalse h => exact iff_of_true (written_ok _) (not_not.mp fun hnot => h (hoverflow.mpr hnot))

theorem numberSizePrefix_canonical {prefixBytes : Nat} (bigEndian : Bool)
    (hwidth : prefixBytes ≤ 16) :
    Canonical (fun _ => True) (numberSizePrefix prefixBytes bigEndian).writeLength
      (numberSizePrefix prefixBytes bigEndian).readLength exact := by
  have hread : Canonical (fun length : UInt64 => length.toNat < 256 ^ prefixBytes)
      (fun length => writeUnsigned prefixBytes bigEndian (length.toBitVec.setWidth 128))
      (numberSizePrefix prefixBytes bigEndian).readLength exact := by
    refine (readUnsigned_canonical bigEndian hwidth).convert (f := u64TryFrom)
      (g := fun length : UInt64 => length.toBitVec.setWidth 128) ?_ ?_
    · intro value length hvalue h
      rw [u64TryFrom] at h
      split at h
      case isFalse => cases h
      case isTrue hlt =>
        cases h
        have hnat : (UInt64.ofNat value.toNat).toNat = value.toNat := UInt64.toNat_ofNat_of_lt' hlt
        refine ⟨by rw [hnat]; exact hvalue, BitVec.eq_of_toNat_eq ?_⟩
        rw [toNat_setWidth_length, hnat]
    · intro length hlength
      rw [u64TryFrom, toNat_setWidth_length, if_pos length.toNat_lt, UInt64.ofNat_toNat]
      exact ⟨hlength, rfl⟩
  refine hread.refuse (fun _ _ => trivial) fun length symbols _ => ?_
  have hoverflow := lengthOverflows_iff hwidth length
  show (if _ then _ else _) = _ ↔ _
  split
  case isTrue h => exact ⟨nofun, fun hboth => absurd hboth.1 (hoverflow.mp h)⟩
  case isFalse h =>
    exact (and_iff_right (not_not.mp fun hnot => h (hoverflow.mpr hnot))).symm

/-! ## Compact numbers are canonical -/

theorem toNat_low_seven (byte : UInt8) : (byte &&& 0x7f).toNat = byte.toNat % 128 := by
  rw [UInt8.toNat_and]
  exact Nat.and_two_pow_sub_one_eq_mod _ 7

theorem high_bit_eq_zero_iff (byte : UInt8) : byte &&& 0x80 = 0 ↔ byte.toNat < 128 := by
  have hbyte : byte.toNat < 256 := byte.toNat_lt
  rw [← UInt8.toNat_inj, UInt8.toNat_and]
  show byte.toNat &&& 2 ^ 7 = 0 ↔ _
  rw [Nat.and_two_pow, Nat.testBit_eq_decide_div_mod_eq]
  by_cases hlow : byte.toNat < 128
  · simp [Nat.div_eq_of_lt hlow, hlow]
  · have hdiv : byte.toNat / 128 = 1 := by omega
    simp [hdiv, hlow]

theorem toNat_low_seven_word (length : UInt16) :
    (length &&& 0x7f).toUInt8.toNat = length.toNat % 128 := by
  have hmask : (length &&& 0x7f).toNat = length.toNat % 128 := by
    rw [UInt16.toNat_and]
    exact Nat.and_two_pow_sub_one_eq_mod _ 7
  rw [UInt16.toNat_toUInt8, hmask]
  omega

theorem toNat_set_high_bit {byte : UInt8} (h : byte.toNat < 128) :
    (byte ||| 0x80).toNat = byte.toNat + 128 := by
  have hor := Nat.two_pow_add_eq_or_of_lt (i := 7) h 1
  rw [UInt8.toNat_or, Nat.or_comm, Nat.add_comm]
  exact hor.symm

theorem writeShortU16_eq (length : UInt16) : writeShortU16 length = Leb128.encode length.toNat := by
  induction length using writeShortU16.induct with
  | case1 length hlast =>
      have hlt : length.toNat < 128 := by
        have hzero := congrArg UInt16.toNat hlast
        rw [toNat_shiftRight_seven] at hzero
        exact (Nat.div_eq_zero_iff_lt (by decide)).mp hzero
      have hbyte : (length &&& 0x7f).toUInt8 = .ofNat length.toNat := by
        apply UInt8.toNat_inj.mp
        rw [toNat_low_seven_word, UInt8.toNat_ofNat']
        omega
      rw [writeShortU16, if_pos hlast, Leb128.encode_of_lt hlt, hbyte]
  | case2 length hmore ih =>
      have hle : 128 ≤ length.toNat := by
        by_contra hlt
        refine hmore (UInt16.toNat_inj.mp ?_)
        rw [toNat_shiftRight_seven]
        exact Nat.div_eq_of_lt (Nat.not_le.mp hlt)
      have hbyte : (length &&& 0x7f).toUInt8 ||| 0x80 = .ofNat (length.toNat % 128 + 128) := by
        have hlow := toNat_low_seven_word length
        apply UInt8.toNat_inj.mp
        rw [toNat_set_high_bit (by omega), hlow, UInt8.toNat_ofNat']
        omega
      rw [writeShortU16, if_neg hmore, Leb128.encode_of_le hle, hbyte, ih, toNat_shiftRight_seven]

/-- The byte at an index adds its low seven bits above those read so far. -/
theorem toNat_nextLength {index : Nat} {length : UInt16} {byte : UInt8} (hindex : index ≤ 2)
    (hlength : length.toNat < 128 ^ index) (hthird : index = 2 → byte.toNat ≤ 3) :
    (length ||| (byte &&& 0x7f).toUInt16 <<< .ofNat (index * 7)).toNat =
      length.toNat + 128 ^ index * (byte.toNat % 128) := by
  have hpow : 128 ^ index = 2 ^ (index * 7) := by rw [Nat.mul_comm, Nat.pow_mul]
  have hshift : (UInt16.ofNat (index * 7)).toNat % 16 = index * 7 := by
    rw [UInt16.toNat_ofNat']
    omega
  have hfits : byte.toNat % 128 * 2 ^ (index * 7) < 2 ^ 16 := by
    obtain rfl | rfl | rfl : index = 0 ∨ index = 1 ∨ index = 2 := by omega
    · omega
    · omega
    · have := hthird rfl
      omega
  have hbyte : ((byte &&& 0x7f).toUInt16 <<< UInt16.ofNat (index * 7)).toNat =
      2 ^ (index * 7) * (byte.toNat % 128) := by
    rw [UInt16.toNat_shiftLeft, hshift, UInt8.toNat_toUInt16, toNat_low_seven, Nat.shiftLeft_eq,
      Nat.mod_eq_of_lt hfits, Nat.mul_comm]
  rw [hpow] at hlength
  rw [UInt16.toNat_or, hbyte, Nat.or_comm, ← Nat.two_pow_add_eq_or_of_lt hlength, hpow,
    Nat.add_comm]

/-- From an index on, the loop accepts what is left of a compact number, as short as it gets. -/
def ReadsCompactFrom (index : Nat) (indices : List Nat) : Prop :=
  ∀ (length : UInt16) (bytes : List UInt8) (value : UInt16) (rest : List UInt8),
    length.toNat < 128 ^ index →
      (readShortU16 indices length bytes = .ok (value, rest) ↔
        ∃ high, (0 < index → 0 < high) ∧ value.toNat = length.toNat + 128 ^ index * high ∧
          bytes = Leb128.encode high ++ rest)

/-- One byte of the loop: it ends the number, or the loop goes on with what it adds. -/
theorem readShortU16_cons_ok_iff {index : Nat} {indices : List Nat} {length value : UInt16}
    {byte : UInt8} {bytes rest : List UInt8} (hindex : index ≤ 2)
    (hlength : length.toNat < 128 ^ index) :
    readShortU16 (index :: indices) length (byte :: bytes) = .ok (value, rest) ↔
      (index = 2 → byte.toNat ≤ 3) ∧ (0 < index → 0 < byte.toNat) ∧
        ((byte.toNat < 128 ∧ value.toNat = length.toNat + 128 ^ index * byte.toNat ∧
            bytes = rest) ∨
          (128 ≤ byte.toNat ∧ ∃ next : UInt16,
            next.toNat = length.toNat + 128 ^ index * (byte.toNat - 128) ∧
              readShortU16 indices next bytes = .ok (value, rest))) := by
  have hbyte : byte.toNat < 256 := byte.toNat_lt
  have hzero : byte = 0 ↔ byte.toNat = 0 := by
    rw [← UInt8.toNat_inj]
    rfl
  have hthree : 3 < byte ↔ 3 < byte.toNat := UInt8.lt_iff_toNat_lt
  have hlast := high_bit_eq_zero_iff byte
  show (if (index = 2 ∧ 3 < byte) ∨ (0 < index ∧ byte = 0) then throw _
    else if byte &&& 0x80 = 0 then pure _ else _ : BorshReader UInt16) bytes = _ ↔ _
  split
  case isTrue hrefused =>
    rw [hthree, hzero] at hrefused
    refine ⟨nofun, ?_⟩
    rintro ⟨hthird, hpos, -⟩
    omega
  case isFalse hkept =>
    rw [hthree, hzero] at hkept
    have hthird : index = 2 → byte.toNat ≤ 3 := by omega
    have hpos : 0 < index → 0 < byte.toNat := by omega
    have hnext := toNat_nextLength hindex hlength hthird
    rw [and_iff_right hthird, and_iff_right hpos]
    split
    case isTrue hends =>
      have hlow := hlast.mp hends
      rw [Nat.mod_eq_of_lt hlow] at hnext
      rw [Stateful.pure_ok, ← UInt16.toNat_inj]
      constructor
      · rintro ⟨hvalue, rfl⟩
        exact .inl ⟨hlow, hvalue.symm.trans hnext, rfl⟩
      · rintro (⟨-, hvalue, rfl⟩ | ⟨hhigh, -⟩)
        · exact ⟨hnext.trans hvalue.symm, rfl⟩
        · omega
    case isFalse hmore =>
      have hhigh : 128 ≤ byte.toNat := Nat.not_lt.mp fun hlow => hmore (hlast.mpr hlow)
      have hlow : byte.toNat % 128 = byte.toNat - 128 := by omega
      rw [hlow] at hnext
      constructor
      · intro h
        exact .inr ⟨hhigh, _, hnext, h⟩
      · rintro (⟨hlow, -⟩ | ⟨-, next, hnat, h⟩)
        · omega
        · obtain rfl := UInt16.toNat_inj.mp (hnat.trans hnext.symm)
          exact h

theorem readsCompactFrom_nil (index : Nat) (indices : List Nat) (length value : UInt16)
    (rest : List UInt8) :
    readShortU16 (index :: indices) length [] = .ok (value, rest) ↔
      ∃ high, (0 < index → 0 < high) ∧ value.toNat = length.toNat + 128 ^ index * high ∧
        [] = Leb128.encode high ++ rest := by
  refine ⟨nofun, ?_⟩
  rintro ⟨high, -, -, hnil⟩
  exact absurd (List.append_eq_nil_iff.mp hnil.symm).1 (Leb128.encode_ne_nil high)

/-- The third byte is the last, and has no high bit. -/
theorem readsCompactFrom_third : ReadsCompactFrom 2 [2] := by
  intro length bytes value rest hlength
  cases bytes with
  | nil => exact readsCompactFrom_nil 2 [] length value rest
  | cons byte bytes =>
      have hvalue := value.toNat_lt
      rw [readShortU16_cons_ok_iff (Nat.le_refl 2) hlength]
      constructor
      · rintro ⟨hthird, hpos, ⟨hlow, hnat, rfl⟩ | ⟨hhigh, -⟩⟩
        · exact ⟨byte.toNat, hpos, hnat, Leb128.encode_append_eq_cons.mpr (.inl ⟨hlow, rfl, rfl⟩)⟩
        · have := hthird rfl
          omega
      · rintro ⟨high, hpos, hnat, hbytes⟩
        obtain ⟨hlow, rfl, rfl⟩ | ⟨-, hle, -⟩ := Leb128.encode_append_eq_cons.mp hbytes
        · exact ⟨fun _ => by omega, hpos, .inl ⟨hlow, hnat, rfl⟩⟩
        · omega

/-- A byte with the high bit stands in front of a number that is not zero. -/
theorem readsCompactFrom_step {index : Nat} {indices : List Nat} (hindex : index ≤ 1)
    (h : ReadsCompactFrom (index + 1) indices) : ReadsCompactFrom index (index :: indices) := by
  intro length bytes value rest hlength
  cases bytes with
  | nil => exact readsCompactFrom_nil index indices length value rest
  | cons byte bytes =>
      have hbyte : byte.toNat < 256 := byte.toNat_lt
      have hnext : ∀ next : UInt16,
          next.toNat = length.toNat + 128 ^ index * (byte.toNat - 128) →
            next.toNat < 128 ^ (index + 1) := by
        intro next hnat
        have hle : 128 ^ index * (byte.toNat - 128) ≤ 128 ^ index * 127 :=
          Nat.mul_le_mul_left _ (by omega)
        rw [Nat.pow_succ]
        omega
      have hsplit : ∀ high, 128 ^ index * (byte.toNat - 128) + 128 ^ (index + 1) * high =
          128 ^ index * (byte.toNat - 128 + 128 * high) := by
        intro high
        rw [Nat.mul_add, Nat.pow_succ, Nat.mul_assoc]
      rw [readShortU16_cons_ok_iff (by omega) hlength]
      constructor
      · rintro ⟨-, hpos, ⟨hlow, hnat, rfl⟩ | ⟨hhigh, next, hnat, hread⟩⟩
        · exact ⟨byte.toNat, hpos, hnat, Leb128.encode_append_eq_cons.mpr (.inl ⟨hlow, rfl, rfl⟩)⟩
        · obtain ⟨high, hpos', hvalue, rfl⟩ := (h next bytes value rest (hnext next hnat)).mp hread
          have hhigh' := hpos' (Nat.succ_pos index)
          refine ⟨byte.toNat - 128 + 128 * high, fun _ => by omega, ?_, ?_⟩
          · rw [hvalue, hnat, Nat.add_assoc, hsplit]
          · refine Leb128.encode_append_eq_cons.mpr (.inr ⟨hhigh, by omega, by omega, ?_⟩)
            have hdiv : (byte.toNat - 128 + 128 * high) / 128 = high := by omega
            rw [hdiv]
      · rintro ⟨high, hpos, hnat, hbytes⟩
        refine ⟨fun _ => by omega, ?_⟩
        obtain ⟨hlow, rfl, rfl⟩ | ⟨hhigh, hle, hmod, rfl⟩ := Leb128.encode_append_eq_cons.mp hbytes
        · exact ⟨hpos, .inl ⟨hlow, hnat, rfl⟩⟩
        · refine ⟨fun _ => by omega, .inr ⟨hhigh, ?_⟩⟩
          have hparts : high = byte.toNat - 128 + 128 * (high / 128) := by omega
          have hlt : length.toNat + 128 ^ index * (byte.toNat - 128) < 2 ^ 16 := by
            have hvalue := value.toNat_lt
            rw [hnat, hparts, ← hsplit] at hvalue
            omega
          have hnat' := UInt16.toNat_ofNat_of_lt' hlt
          refine ⟨_, hnat', (h _ _ value rest (hnext _ hnat')).mpr ⟨high / 128, ?_, ?_, rfl⟩⟩
          · omega
          · rw [hnat', Nat.add_assoc, hsplit, ← hparts]
            exact hnat

theorem readShortU16_ok_iff {bytes rest : List UInt8} {value : UInt16} :
    readShortU16 [0, 1, 2] 0 bytes = .ok (value, rest) ↔
      bytes = Leb128.encode value.toNat ++ rest := by
  have hfirst : ReadsCompactFrom 0 [0, 1, 2] :=
    readsCompactFrom_step (by decide) (readsCompactFrom_step (by decide) readsCompactFrom_third)
  rw [hfirst 0 bytes value rest Nat.one_pos]
  constructor
  · rintro ⟨high, -, hnat, rfl⟩
    have hhigh : value.toNat = high := by
      rw [hnat, Nat.pow_zero, Nat.one_mul]
      exact Nat.zero_add high
    rw [hhigh]
  · intro hbytes
    refine ⟨value.toNat, nofun, ?_, hbytes⟩
    rw [Nat.pow_zero, Nat.one_mul]
    exact (Nat.zero_add _).symm

/-- Two bytes where one is enough. -/
example : readShortU16 [0, 1, 2] 0 [0x80, 0x00] = .error invalidShortU16ByteLength := by
  decide +kernel

theorem written_shortU16SizePrefix (length : UInt64) :
    Written (shortU16SizePrefix.writeLength length) ↔ length.toNat < 2 ^ 16 := by
  show Written (if _ then _ else _) ↔ _
  split
  case isTrue h => exact iff_of_true (written_ok _) h
  case isFalse h => exact iff_of_false (not_written_error _) h

theorem shortU16SizePrefix_canonical :
    Canonical (fun _ => True) shortU16SizePrefix.writeLength shortU16SizePrefix.readLength
      exact := by
  refine .of_accepts_iff fun input length rest => ?_
  have hread : shortU16SizePrefix.readLength input = .ok (length, rest) ↔
      ∃ value : UInt16, input = Leb128.encode value.toNat ++ rest ∧ value.toUInt64 = length := by
    show (readShortU16 [0, 1, 2] 0 >>= fun value => pure value.toUInt64) input = _ ↔ _
    rw [Stateful.bind_ok]
    constructor
    · rintro ⟨value, mid, hvalue, hpure⟩
      obtain ⟨rfl, rfl⟩ := Stateful.pure_ok.mp hpure
      exact ⟨value, readShortU16_ok_iff.mp hvalue, rfl⟩
    · rintro ⟨value, hinput, rfl⟩
      exact ⟨value, rest, readShortU16_ok_iff.mpr hinput, rfl⟩
  have hwritten : shortU16SizePrefix.writeLength length =
      if length.toNat < 2 ^ 16 then writeAll (writeShortU16 length.toUInt16)
      else .error byteLengthOverflow := rfl
  rw [hread, and_iff_right trivial, hwritten]
  constructor
  · rintro ⟨value, hinput, rfl⟩
    have hlt : value.toUInt64.toNat < 2 ^ 16 := by
      rw [UInt16.toNat_toUInt64]
      exact value.toNat_lt
    refine ⟨Leb128.encode value.toNat, ?_, hinput⟩
    rw [if_pos hlt, writeShortU16_eq, UInt16.toUInt16_toUInt64]
    rfl
  · rintro ⟨front, hwrite, rfl⟩
    split at hwrite
    case isFalse => cases hwrite
    case isTrue hlt =>
      cases hwrite
      refine ⟨length.toUInt16, by rw [writeShortU16_eq], ?_⟩
      apply UInt64.toNat_inj.mp
      rw [UInt16.toNat_toUInt64, UInt64.toNat_toUInt16, Nat.mod_eq_of_lt hlt]

end Shipstern.Codegen
