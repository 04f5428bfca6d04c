import Mathlib
import Shipstern.Codegen.BorshTags
import Shipstern.Lib.CanonicalCode

/-!
# Readers and writers of the Borsh helpers

A reader takes bytes off the front of its input or fails with an error of `borsh::io`; a writer
gives the bytes that it appends. The helpers of a generated module put unsigned numbers of a fixed
width together with shifts, in either byte order. The shifts mean the number that the bytes stand
for.
-/

namespace Shipstern.Codegen

open CanonicalCode

inductive ErrorKind
  | unexpectedEof
  | invalidData
  | invalidInput
deriving DecidableEq

/-- `borsh::io::Error`. -/
structure IoError where
  kind : ErrorKind
  message : List Char
deriving DecidableEq

abbrev BorshReader (α : Type) := Reader IoError UInt8 α

abbrev BorshWriter (α : Type) := Writer IoError UInt8 α

def failedToFillWholeBuffer : IoError :=
  ⟨.unexpectedEof, "failed to fill whole buffer".toList⟩

def unexpectedLengthOfInput : IoError := ⟨.invalidData, "Unexpected length of input".toList⟩

/-- `read_exact` of a buffer, with the error for an input that is too short. -/
def readBuffer (tooShort : IoError) (n : Nat) : BorshReader (List UInt8) := fun bytes =>
  match Wire.takeBytes n bytes with
  | some read => .ok read
  | none => .error tooShort

def readExact (n : Nat) : BorshReader (List UInt8) := readBuffer failedToFillWholeBuffer n

/-- `write_all`. -/
def writeAll : BorshWriter (List UInt8) := .ok

/-! ## Unsigned numbers -/

/-- The shift of the byte at an index. -/
def byteShift (width : Nat) (bigEndian : Bool) (index : Nat) : Nat :=
  if bigEndian then (width - index - 1) * 8 else index * 8

/-- The loop over the bytes from an index on. -/
def orBytes (width : Nat) (bigEndian : Bool) : Nat → BitVec 128 → List UInt8 → BitVec 128
  | _, value, [] => value
  | index, value, byte :: bytes =>
      orBytes width bigEndian (index + 1)
        (value ||| byte.toBitVec.setWidth 128 <<< byteShift width bigEndian index) bytes

/-- The bytes of a value at their shifts. -/
def shiftedBytes (width : Nat) (bigEndian : Bool) (value : BitVec 128) : List UInt8 :=
  (List.range width).map fun index =>
    .ofBitVec ((value >>> byteShift width bigEndian index &&& 0xff#128).setWidth 8)

def readUnsigned (width : Nat) (bigEndian : Bool) : BorshReader (BitVec 128) := do
  let bytes ← readExact width
  pure (orBytes width bigEndian 0 0 bytes)

def writeUnsigned (width : Nat) (bigEndian : Bool) : BorshWriter (BitVec 128) := fun value =>
  writeAll (shiftedBytes width bigEndian value)

/-! ## Positions -/

/-- The bytes of a number in the byte order. -/
def numberBytes (width : Nat) (bigEndian : Bool) (n : Nat) : List UInt8 :=
  if bigEndian then (toLeBytes width n).reverse else toLeBytes width n

theorem leNat_append (front back : List UInt8) :
    Wire.leNat (front ++ back) = Wire.leNat front + 256 ^ front.length * Wire.leNat back := by
  induction front with
  | nil => simp [Wire.leNat]
  | cons byte front ih =>
      rw [List.cons_append, Wire.leNat, ih, Wire.leNat, List.length_cons, Nat.pow_succ]
      ring

theorem leNat_lt (bytes : List UInt8) : Wire.leNat bytes < 256 ^ bytes.length := by
  induction bytes with
  | nil => exact Nat.one_pos
  | cons byte bytes ih =>
      have hbyte : byte.toNat < 256 := byte.toNat_lt
      rw [Wire.leNat, List.length_cons, Nat.pow_succ]
      omega

theorem toLeBytes_leNat (bytes : List UInt8) : toLeBytes bytes.length (Wire.leNat bytes) = bytes := by
  induction bytes with
  | nil => rfl
  | cons byte bytes ih =>
      have hbyte : byte.toNat < 256 := byte.toNat_lt
      have hlow : (byte.toNat + 256 * Wire.leNat bytes) % 256 = byte.toNat := by omega
      have hhigh : (byte.toNat + 256 * Wire.leNat bytes) / 256 = Wire.leNat bytes := by omega
      rw [List.length_cons, Wire.leNat, toLeBytes, hlow, hhigh, ih, UInt8.ofNat_toNat]

theorem length_numberBytes (width : Nat) (bigEndian : Bool) (n : Nat) :
    (numberBytes width bigEndian n).length = width := by
  cases bigEndian
  · exact length_toLeBytes width n
  · show (toLeBytes width n).reverse.length = width
    rw [List.length_reverse, length_toLeBytes]

theorem natOf_lt {bigEndian : Bool} (bytes : List UInt8) :
    Wire.natOf bigEndian bytes < 256 ^ bytes.length := by
  cases bigEndian
  · exact leNat_lt bytes
  · have h := leNat_lt bytes.reverse
    rwa [List.length_reverse] at h

theorem natOf_numberBytes {width n : Nat} (bigEndian : Bool) (h : n < 256 ^ width) :
    Wire.natOf bigEndian (numberBytes width bigEndian n) = n := by
  cases bigEndian
  · exact leNat_toLeBytes h
  · show Wire.leNat (toLeBytes width n).reverse.reverse = n
    rw [List.reverse_reverse, leNat_toLeBytes h]

theorem numberBytes_natOf {width : Nat} (bigEndian : Bool) {bytes : List UInt8}
    (h : bytes.length = width) : numberBytes width bigEndian (Wire.natOf bigEndian bytes) = bytes := by
  subst h
  cases bigEndian
  · exact toLeBytes_leNat bytes
  · have hreverse := toLeBytes_leNat bytes.reverse
    rw [List.length_reverse] at hreverse
    show (toLeBytes bytes.length (Wire.leNat bytes.reverse)).reverse = bytes
    rw [hreverse, List.reverse_reverse]

/-! ## What the shifts mean -/

theorem toLeBytes_eq_map (width n : Nat) :
    toLeBytes width n = (List.range width).map fun index => .ofNat (n / 256 ^ index % 256) := by
  induction width generalizing n with
  | zero => rfl
  | succ width ih =>
      rw [toLeBytes, ih, List.range_succ_eq_map, List.map_cons, List.map_map, Nat.pow_zero,
        Nat.div_one]
      refine congrArg _ (List.map_congr_left fun index _ => ?_)
      rw [Function.comp_apply, Nat.pow_succ', Nat.div_div_eq_div_mul]

theorem shiftedByte_eq (value : BitVec 128) (k : Nat) :
    (UInt8.ofBitVec ((value >>> (k * 8) &&& 0xff#128).setWidth 8)) =
      .ofNat (value.toNat / 256 ^ k % 256) := by
  have hmask : (value >>> (k * 8) &&& 0xff#128).toNat = value.toNat / 256 ^ k % 256 := by
    rw [BitVec.toNat_and, BitVec.toNat_ushiftRight, Nat.shiftRight_eq_div_pow, Nat.mul_comm k,
      Nat.pow_mul]
    exact Nat.and_two_pow_sub_one_eq_mod _ 8
  apply UInt8.toNat_inj.mp
  rw [UInt8.toNat_ofBitVec, BitVec.toNat_setWidth, hmask, UInt8.toNat_ofNat']

theorem shiftedBytes_eq (width : Nat) (bigEndian : Bool) (value : BitVec 128) :
    shiftedBytes width bigEndian value = numberBytes width bigEndian value.toNat := by
  cases bigEndian
  · show _ = toLeBytes width value.toNat
    rw [toLeBytes_eq_map]
    exact List.map_congr_left fun index _ => shiftedByte_eq value index
  · show _ = (toLeBytes width value.toNat).reverse
    have hrange : (List.range width).reverse = (List.range width).map (width - · - 1) := by
      rw [List.range_eq_range', List.reverse_range', ← List.range_eq_range']
      exact List.map_congr_left fun index _ => by omega
    rw [toLeBytes_eq_map, ← List.map_reverse, hrange, List.map_map]
    exact List.map_congr_left fun index _ => shiftedByte_eq value (width - index - 1)

theorem toNat_shiftedByte (byte : UInt8) {k : Nat} (hk : k < 16) :
    (byte.toBitVec.setWidth 128 <<< (k * 8)).toNat = 2 ^ (8 * k) * byte.toNat := by
  have hbyte : byte.toNat < 2 ^ 8 := byte.toNat_lt
  have hfits : byte.toNat * 2 ^ (8 * k) < 2 ^ 128 := by
    calc byte.toNat * 2 ^ (8 * k) < 2 ^ 8 * 2 ^ (8 * k) :=
          Nat.mul_lt_mul_of_pos_right hbyte (Nat.two_pow_pos _)
      _ = 2 ^ (8 * (k + 1)) := by rw [← Nat.pow_add, Nat.mul_succ, Nat.add_comm]
      _ ≤ 2 ^ 128 := Nat.pow_le_pow_right (by decide) (by omega)
  have hwide : (byte.toBitVec.setWidth 128).toNat = byte.toNat := by
    rw [BitVec.toNat_setWidth]
    exact Nat.mod_eq_of_lt (Nat.lt_trans hbyte (by decide))
  rw [BitVec.toNat_shiftLeft, hwide, Nat.shiftLeft_eq, Nat.mul_comm k, Nat.mod_eq_of_lt hfits,
    Nat.mul_comm]

/-- Little endian, the bytes so far are below the next shift. -/
theorem toNat_orBytes_le (width : Nat) (bytes : List UInt8) :
    ∀ (index : Nat) (value : BitVec 128), index + bytes.length ≤ 16 →
      value.toNat < 256 ^ index →
        (orBytes width false index value bytes).toNat =
          value.toNat + 256 ^ index * Wire.leNat bytes := by
  induction bytes with
  | nil =>
      intro index value _ _
      simp [orBytes, Wire.leNat]
  | cons byte bytes ih =>
      intro index value hindex hvalue
      rw [List.length_cons] at hindex
      have hbyte : byte.toNat < 256 := byte.toNat_lt
      have hpow : 256 ^ index = 2 ^ (8 * index) := by rw [Nat.pow_mul]
      have hor : (value ||| byte.toBitVec.setWidth 128 <<< (index * 8)).toNat =
          value.toNat + 256 ^ index * byte.toNat := by
        rw [hpow] at hvalue
        rw [BitVec.toNat_or, toNat_shiftedByte byte (by omega), Nat.or_comm,
          ← Nat.two_pow_add_eq_or_of_lt hvalue, hpow, Nat.add_comm]
      have hlt : (value ||| byte.toBitVec.setWidth 128 <<< (index * 8)).toNat <
          256 ^ (index + 1) := by
        rw [hor, Nat.pow_succ]
        have hle : 256 ^ index * byte.toNat ≤ 256 ^ index * 255 :=
          Nat.mul_le_mul_left _ (by omega)
        omega
      show (orBytes width false (index + 1)
        (value ||| byte.toBitVec.setWidth 128 <<< (index * 8)) bytes).toNat = _
      rw [ih (index + 1) _ (by omega) hlt, hor, Wire.leNat, Nat.pow_succ]
      ring

/-- Big endian, the bytes so far are above the shifts to come. -/
theorem toNat_orBytes_be (width : Nat) (bytes : List UInt8) :
    ∀ (index : Nat) (value : BitVec 128), index + bytes.length = width → width ≤ 16 →
      256 ^ bytes.length ∣ value.toNat →
        (orBytes width true index value bytes).toNat =
          value.toNat + Wire.leNat bytes.reverse := by
  induction bytes with
  | nil =>
      intro index value _ _ _
      simp [orBytes, Wire.leNat]
  | cons byte bytes ih =>
      intro index value hindex hwidth hvalue
      rw [List.length_cons] at hindex hvalue
      obtain ⟨high, hhigh⟩ := hvalue
      have hbyte : byte.toNat < 256 := byte.toNat_lt
      have hshift : width - index - 1 = bytes.length := by omega
      have hpow : ∀ k, 256 ^ k = 2 ^ (8 * k) := fun k => by rw [Nat.pow_mul]
      have hor : (value ||| byte.toBitVec.setWidth 128 <<< (bytes.length * 8)).toNat =
          value.toNat + 256 ^ bytes.length * byte.toNat := by
        have hlow : 2 ^ (8 * bytes.length) * byte.toNat < 2 ^ (8 * (bytes.length + 1)) := by
          rw [Nat.mul_succ, Nat.pow_add]
          exact Nat.mul_lt_mul_of_pos_left hbyte (Nat.two_pow_pos _)
        rw [BitVec.toNat_or, toNat_shiftedByte byte (by omega), hhigh, hpow, hpow,
          ← Nat.two_pow_add_eq_or_of_lt hlow]
      show (orBytes width true (index + 1)
        (value ||| byte.toBitVec.setWidth 128 <<< ((width - index - 1) * 8)) bytes).toNat = _
      rw [hshift, ih (index + 1) _ (by omega) hwidth, hor, List.reverse_cons, leNat_append,
        List.length_reverse, Wire.leNat, Wire.leNat]
      · ring
      · rw [hor, hhigh, Nat.pow_succ, Nat.mul_assoc, ← Nat.mul_add]
        exact Nat.dvd_mul_right _ _

theorem toNat_orBytes {width : Nat} (bigEndian : Bool) {bytes : List UInt8} (hwidth : width ≤ 16)
    (h : bytes.length = width) :
    (orBytes width bigEndian 0 0 bytes).toNat = Wire.natOf bigEndian bytes := by
  cases bigEndian
  · have hloop := toNat_orBytes_le width bytes 0 0 (by omega) Nat.one_pos
    rw [hloop, Nat.pow_zero, Nat.one_mul]
    exact Nat.zero_add _
  · have hloop := toNat_orBytes_be width bytes 0 0 (by omega) hwidth (Nat.dvd_zero _)
    rw [hloop]
    exact Nat.zero_add _

/-! ## Canonical codes -/

theorem readBuffer_canonical (tooShort : IoError) (n : Nat) :
    Canonical (fun bytes => bytes.length = n) writeAll (readBuffer tooShort n) exact where
  recovers := by
    intro bytes symbols hlength hwrite rest
    cases hwrite
    rw [readBuffer, Wire.takeBytes_append hlength]
  accepted := by
    intro input bytes rest hread
    rw [readBuffer, Wire.takeBytes] at hread
    split at hread
    case h_2 => cases hread
    case h_1 read htake =>
      split at htake
      case isFalse => cases htake
      case isTrue hle =>
        cases htake
        cases hread
        have hlength : (input.take n).length = n := List.length_take_of_le hle
        refine ⟨hlength, input.take n, (List.take_append_drop n input).symm, rfl, fun tail => ?_⟩
        rw [readBuffer, Wire.takeBytes_append hlength]

theorem readUnsigned_canonical {width : Nat} (bigEndian : Bool) (hwidth : width ≤ 16) :
    Canonical (fun value : BitVec 128 => value.toNat < 256 ^ width)
      (writeUnsigned width bigEndian) (readUnsigned width bigEndian) exact := by
  refine (readBuffer_canonical failedToFillWholeBuffer width).convert
    (f := fun bytes => .ok (orBytes width bigEndian 0 0 bytes)) (g := shiftedBytes width bigEndian)
    ?_ ?_
  · rintro bytes value hlength hvalue
    cases hvalue
    have hnat := toNat_orBytes bigEndian hwidth hlength
    refine ⟨?_, ?_⟩
    · rw [hnat, ← hlength]
      exact natOf_lt bytes
    · rw [shiftedBytes_eq, hnat, numberBytes_natOf bigEndian hlength]
  · intro value hlt
    have hlength : (shiftedBytes width bigEndian value).length = width := by
      rw [shiftedBytes_eq, length_numberBytes]
    refine ⟨hlength, congrArg Except.ok (BitVec.eq_of_toNat_eq ?_)⟩
    rw [toNat_orBytes bigEndian hwidth hlength, shiftedBytes_eq, natOf_numberBytes bigEndian hlt]

end Shipstern.Codegen
