import Mathlib
import Shipstern.Kafka.Record
import Shipstern.Lib.ByteReader
import Shipstern.Lib.Leb128

/-!
# Reading the Confluent wire format

A consumer reads the magic byte, the schema id, the count of the message indices and the indices
themselves, and takes what is left as the payload. `encode_zigzag` is LEB128 of the zigzag number,
so the reader recovers every record.
-/

namespace Shipstern.Kafka

open PrefixCode (Recovers)

section Zigzag

/-- The iterator writes LEB128 when its fuel covers the number. -/
theorem zigzagIter_eq_encode {fuel : Nat} {value : UInt64} (hfuel : 0 < fuel)
    (h : value.toNat < 128 ^ fuel) : zigzagIter fuel value = Leb128.encode value.toNat := by
  induction fuel generalizing value with
  | zero => omega
  | succ fuel ih =>
      have hshift : (value >>> 7).toNat = value.toNat / 128 := by
        rw [UInt64.toNat_shiftRight]
        exact Nat.shiftRight_eq_div_pow value.toNat 7
      have hlow : (value &&& 0x7f).toUInt8.toNat = value.toNat % 128 := by
        have hand : value.toNat &&& 127 = value.toNat % 128 :=
          Nat.and_two_pow_sub_one_eq_mod value.toNat 7
        rw [UInt64.toNat_toUInt8, UInt64.toNat_and]
        show (value.toNat &&& 127) % 256 = _
        omega
      rw [zigzagIter]
      rcases Nat.lt_or_ge value.toNat 128 with hv | hv
      · have hzero : value >>> 7 = 0 := UInt64.toNat_inj.mp (by rw [hshift]; exact Nat.div_eq_of_lt hv)
        have hbyte : (value &&& 0x7f).toUInt8 = .ofNat value.toNat := by
          apply UInt8.toNat_inj.mp
          rw [hlow, Nat.mod_eq_of_lt hv]
          exact (UInt8.toNat_ofNat_of_lt' (Nat.lt_trans hv (by decide))).symm
        simp only [hzero, ne_eq, not_true_eq_false, if_false, hbyte, Leb128.encode_of_lt hv]
      · have hne : value >>> 7 ≠ 0 := by
          intro hzero
          have hdiv := hshift
          rw [hzero] at hdiv
          have hpos : 0 < value.toNat / 128 := Nat.div_pos hv (by decide)
          exact absurd hdiv (Nat.ne_of_lt hpos)
        have hpos : 0 < fuel := by
          rcases Nat.eq_zero_or_pos fuel with rfl | hpos
          · omega
          · exact hpos
        have hrest : (value >>> 7).toNat < 128 ^ fuel := by
          rw [hshift, Nat.div_lt_iff_lt_mul (by decide), ← Nat.pow_succ]
          exact h
        have hbyte : (value &&& 0x7f).toUInt8 ||| 0x80 = .ofNat (value.toNat % 128 + 128) := by
          apply UInt8.toNat_inj.mp
          have hor : value.toNat % 128 ||| 128 = value.toNat % 128 + 128 := by
            have hadd := Nat.two_pow_add_eq_or_of_lt (Nat.mod_lt value.toNat (by decide : 128 > 0)) 1
              (i := 7)
            rw [Nat.or_comm, Nat.add_comm]
            exact hadd.symm
          rw [UInt8.toNat_or, hlow]
          show value.toNat % 128 ||| 128 = _
          rw [hor]
          exact (UInt8.toNat_ofNat_of_lt' (show value.toNat % 128 + 128 < 256 by omega)).symm
        simp only [hne, ne_eq, not_false_eq_true, if_true, hbyte, ih hpos hrest, hshift,
          Leb128.encode_of_le hv]

/-- `(value << 1) ^ (value >> 63)` as an unsigned number. -/
def zigzag (value : Int64) : UInt64 := ((value <<< 1) ^^^ (value >>> 63)).toUInt64

/-- The other way: drop the lowest bit and flip all others if it was set. -/
def unzigzag (bits : UInt64) : Int64 := (bits >>> 1).toInt64 ^^^ -(bits &&& 1).toInt64

theorem encodeZigzag_eq_encode (value : Int64) :
    encodeZigzag value = Leb128.encode (zigzag value).toNat :=
  zigzagIter_eq_encode (by decide) (Nat.lt_trans (zigzag value).toNat_lt (by decide))

theorem getElem_shiftLeft_ushiftRight (x : BitVec 64) (i : Nat) (hi : i < 64) :
    ((x <<< 1) >>> 1)[i] = (x[i] && decide (i ≠ 63)) := by
  rw [BitVec.getElem_ushiftRight, BitVec.getLsbD_shiftLeft, Nat.add_comm 1 i]
  rcases Nat.lt_or_ge (i + 1) 64 with h | h
  · have hne : i ≠ 63 := by omega
    simp [h, hi, hne]
  · have heq : i = 63 := by omega
    simp [heq]

/-- Shifting by 63 spreads the sign over all bits. -/
theorem sshiftRight_eq (x : BitVec 64) :
    x.sshiftRight 63 = if x.msb then BitVec.allOnes 64 else 0#64 := by
  ext i hi
  have hsign : (x.sshiftRight 63)[i] = x.msb := by
    rw [BitVec.getElem_sshiftRight]
    split
    · obtain rfl : i = 0 := by omega
      rw [BitVec.msb_eq_getLsbD_last]
      exact (BitVec.getLsbD_eq_getElem _).symm
    · rfl
  rw [hsign]
  cases x.msb <;> simp [-BitVec.reduceAllOnes]

theorem unzigzag_zigzag (value : Int64) : unzigzag (zigzag value) = value := by
  apply Int64.toBitVec_inj.mp
  generalize hx : value.toBitVec = x
  have hbits : (zigzag value).toBitVec = x <<< 1 ^^^ x.sshiftRight 63 := by
    rw [← hx]
    rfl
  show (zigzag value).toBitVec >>> 1 ^^^ -((zigzag value).toBitVec &&& 1#64) = x
  rw [hbits, sshiftRight_eq]
  cases hmsb : x.msb with
  | false =>
      have hlow : (x <<< 1 ^^^ 0#64) &&& 1#64 = 0#64 := by
        ext i hi
        cases i <;> simp
      show (x <<< 1 ^^^ 0#64) >>> 1 ^^^ -((x <<< 1 ^^^ 0#64) &&& 1#64) = x
      rw [hlow, BitVec.neg_zero, BitVec.xor_zero, BitVec.xor_zero]
      ext i hi
      rw [getElem_shiftLeft_ushiftRight]
      rcases eq_or_ne i 63 with rfl | hne
      · rw [BitVec.msb_eq_getLsbD_last] at hmsb
        simpa using hmsb.symm
      · simp [hne]
  | true =>
      have hlow : (x <<< 1 ^^^ BitVec.allOnes 64) &&& 1#64 = 1#64 := by
        ext i hi
        cases i <;> simp
      have hneg : -(1#64) = BitVec.allOnes 64 := rfl
      show (x <<< 1 ^^^ BitVec.allOnes 64) >>> 1 ^^^
        -((x <<< 1 ^^^ BitVec.allOnes 64) &&& 1#64) = x
      rw [hlow, hneg]
      ext i hi
      rw [BitVec.getElem_xor, BitVec.getElem_allOnes, BitVec.ushiftRight_xor_distrib,
        BitVec.getElem_xor, getElem_shiftLeft_ushiftRight, BitVec.getElem_ushiftRight,
        BitVec.getLsbD_allOnes]
      rcases eq_or_ne i 63 with rfl | hne
      · rw [BitVec.msb_eq_getLsbD_last] at hmsb
        simpa using hmsb.symm
      · have hlt : 1 + i < 64 := by omega
        simp [hne, hlt]

/-- A zigzag LEB128 number of 64 bits. -/
def decodeZigzag : List UInt8 → Option (Int64 × List UInt8) :=
  PrefixCode.convert Leb128.decode fun n =>
    if n < 2 ^ 64 then some (unzigzag (.ofNat n)) else none

theorem decodeZigzag_recovers (value : Int64) : Recovers decodeZigzag encodeZigzag value := by
  have hlt : (zigzag value).toNat < 2 ^ 64 := (zigzag value).toNat_lt
  have hconvert : (if (zigzag value).toNat < 2 ^ 64 then
      some (unzigzag (.ofNat (zigzag value).toNat)) else none) = some value := by
    rw [if_pos hlt, UInt64.ofNat_toNat, unzigzag_zigzag]
  intro rest
  rw [encodeZigzag_eq_encode]
  exact (Leb128.recovers _).convert (g := fun v => (zigzag v).toNat) hconvert rest

theorem length_encodeZigzag (value : Int64) :
    1 ≤ (encodeZigzag value).length ∧ (encodeZigzag value).length ≤ 10 := by
  rw [encodeZigzag_eq_encode]
  constructor
  · exact List.length_pos_of_ne_nil (Leb128.encode_ne_nil _)
  · exact Leb128.length_encode_le (by decide) (Nat.lt_trans (zigzag value).toNat_lt (by decide))

end Zigzag

section Decode

/-- `i32::from_be_bytes` of the first four bytes. -/
def decodeSchemaId (bytes : List UInt8) : Option (Int32 × List UInt8) :=
  (Wire.readNat 4 true bytes).map fun (n, rest) => ((UInt32.ofNat n).toInt32, rest)

/-- A zigzag LEB128 number that fits into 32 bits. -/
def decodeIndex : List UInt8 → Option (Int32 × List UInt8) :=
  PrefixCode.convert decodeZigzag fun value =>
    if value.toInt32.toInt64 = value then some value.toInt32 else none

/-- The indices behind their count. -/
def decodeIndices (bytes : List UInt8) : Option (List Int32 × List UInt8) := do
  let (count, bytes) ← decodeZigzag bytes
  if count < 0 then none else PrefixCode.many decodeIndex count.toNatClampNeg bytes

/-- Schema id, message indices and payload. -/
def decodeWireFormat : List UInt8 → Option (Int32 × List Int32 × List UInt8)
  | [] => none
  | magic :: bytes =>
      if magic ≠ magicByte then none
      else do
        let (schemaId, bytes) ← decodeSchemaId bytes
        let (indices, payload) ← decodeIndices bytes
        some (schemaId, indices, payload)

theorem decodeSchemaId_recovers (schemaId : Int32) :
    Recovers decodeSchemaId toBeBytes schemaId := by
  intro rest
  generalize hbits : schemaId.toUInt32 = bits
  have hbyte : ∀ k, ((bits >>> k).toUInt8).toNat = bits.toNat / 2 ^ (k.toNat % 32) % 256 := by
    intro k
    rw [UInt32.toNat_toUInt8, UInt32.toNat_shiftRight, Nat.shiftRight_eq_div_pow]
  have hnat : Wire.natOf true (toBeBytes schemaId) = bits.toNat := by
    have h24 := hbyte 24
    have h16 := hbyte 16
    have h8 := hbyte 8
    have hlt : bits.toNat < 2 ^ 32 := bits.toNat_lt
    have hlow : bits.toUInt8.toNat = bits.toNat % 256 := UInt32.toNat_toUInt8 bits
    have hlist : Wire.natOf true (toBeBytes schemaId) = bits.toUInt8.toNat +
        256 * ((bits >>> 8).toUInt8.toNat + 256 * ((bits >>> 16).toUInt8.toNat +
          256 * ((bits >>> 24).toUInt8.toNat + 256 * 0))) := by
      rw [← hbits]
      rfl
    rw [hlist, h24, h16, h8, hlow]
    show bits.toNat % 256 + 256 * (bits.toNat / 256 % 256 + 256 * (bits.toNat / 65536 % 256 +
      256 * (bits.toNat / 16777216 % 256 + 256 * 0))) = bits.toNat
    omega
  have hread : Wire.readNat 4 true (toBeBytes schemaId ++ rest) = some (bits.toNat, rest) := by
    rw [← hnat]
    exact Wire.readNat_append rfl
  rw [decodeSchemaId, hread]
  show some ((UInt32.ofNat bits.toNat).toInt32, rest) = _
  rw [UInt32.ofNat_toNat, ← hbits]
  rfl

theorem decodeIndex_recovers (index : Int32) :
    Recovers decodeIndex (fun i => encodeZigzag i.toInt64) index :=
  (decodeZigzag_recovers index.toInt64).convert (by simp)

/-- A slice has fewer than `2 ^ 63` elements, so its length is no negative `i64`. -/
theorem decodeIndices_recovers {indices : List Int32} (hlength : indices.length < 2 ^ 63) :
    Recovers decodeIndices encodeIndices indices := by
  intro rest
  have hcount : (Int64.ofNat indices.length).toInt = indices.length :=
    Int64.toInt_ofNat_of_lt hlength
  have hnonneg : ¬ Int64.ofNat indices.length < 0 := by
    rw [Int64.lt_iff_toInt_lt, hcount]
    exact Int.not_lt.mpr (Int.natCast_nonneg _)
  have hnat : (Int64.ofNat indices.length).toNatClampNeg = indices.length := by
    rw [← Int64.toNat_toInt, hcount]
    exact Int.toNat_natCast _
  have hcodes : ∀ i ∈ indices, Recovers decodeIndex (fun i => encodeZigzag i.toInt64) i :=
    fun i _ => decodeIndex_recovers i
  rw [decodeIndices, encodeIndices, List.append_assoc, decodeZigzag_recovers]
  show (if Int64.ofNat indices.length < 0 then none else _) = _
  rw [if_neg hnonneg, hnat]
  exact Recovers.many hcodes rest

def maxVarintSize : Nat := 10

def schemaIdSize : Nat := 4

def wireFormatMaxCapacity (indicesCount payloadLen : Nat) : Nat :=
  let maxIndicesBytes := (1 + indicesCount) * maxVarintSize
  1 + schemaIdSize + maxIndicesBytes + payloadLen

theorem wrapPayload_decodes (schemaId : Int32) {indices : List Int32}
    (hlength : indices.length < 2 ^ 63) (payload : List UInt8) :
    decodeWireFormat (wrapPayloadWithConfluentWireFormat schemaId indices payload) =
      some (schemaId, indices, payload) := by
  rw [wrapPayloadWithConfluentWireFormat, List.cons_append, List.cons_append, decodeWireFormat,
    if_neg (not_not_intro rfl), List.append_assoc, decodeSchemaId_recovers]
  show (do
    let (indices, payload) ← decodeIndices (encodeIndices indices ++ payload)
    some (schemaId, indices, payload)) = _
  rw [decodeIndices_recovers hlength]
  rfl

theorem length_wrapPayload_le (schemaId : Int32) (indices : List Int32) (payload : List UInt8) :
    (wrapPayloadWithConfluentWireFormat schemaId indices payload).length ≤
      wireFormatMaxCapacity indices.length payload.length := by
  have hcodes : (indices.flatMap fun i => encodeZigzag i.toInt64).length ≤ indices.length * 10 := by
    induction indices with
    | nil => exact Nat.le_refl 0
    | cons i indices ih =>
        have hhead := (length_encodeZigzag i.toInt64).2
        rw [List.flatMap_cons, List.length_append, List.length_cons]
        omega
  have hcount := (length_encodeZigzag (.ofNat indices.length)).2
  have hid : (toBeBytes schemaId).length = 4 := rfl
  simp only [wrapPayloadWithConfluentWireFormat, encodeIndices, List.length_append,
    List.length_cons, wireFormatMaxCapacity, maxVarintSize, schemaIdSize, hid]
  omega

/-- A record with a registered schema is read back under the schema's id; its indices are the
schema's message index, left out for the first message. -/
theorem encodePayloadForTopic_decodes {schemaIds : SchemaIds} {topic : Text}
    {schema : RegisteredSchema} (hschema : getSchemaForTopic schemaIds topic = some schema)
    (rawData : List UInt8) :
    decodeWireFormat (encodePayloadForTopic schemaIds topic rawData) = some (schema.schemaId,
      if schema.messageIndex = 0 then [] else [schema.messageIndex], rawData) := by
  have hlength : (if schema.messageIndex = 0 then [] else [schema.messageIndex]).length < 2 ^ 63 := by
    split
    · exact (by decide : 0 < 2 ^ 63)
    · exact (by decide : 1 < 2 ^ 63)
  rw [encodePayloadForTopic, hschema]
  exact wrapPayload_decodes schema.schemaId hlength rawData

/-- The wire format is uniquely decodable: a record gives its schema id, its indices and its
payload back within the capacity reserved for it, and the codes of the indices take one to ten
bytes and none begins another. A slice has fewer than `2 ^ 63` elements. -/
theorem wireFormat_uniquely_decodable :
    (∀ (schemaId : Int32) (indices : List Int32) (payload : List UInt8),
      indices.length < 2 ^ 63 →
        decodeWireFormat (wrapPayloadWithConfluentWireFormat schemaId indices payload) =
          some (schemaId, indices, payload)) ∧
      (∀ value : Int64, 1 ≤ (encodeZigzag value).length ∧ (encodeZigzag value).length ≤ 10 ∧
        ∀ rest, decodeZigzag (encodeZigzag value ++ rest) = some (value, rest)) ∧
      (∀ value value' : Int64, encodeZigzag value <+: encodeZigzag value' → value = value') ∧
      ∀ (schemaId : Int32) (indices : List Int32) (payload : List UInt8),
        (wrapPayloadWithConfluentWireFormat schemaId indices payload).length ≤
          wireFormatMaxCapacity indices.length payload.length := by
  refine ⟨fun schemaId indices payload hlength => wrapPayload_decodes schemaId hlength payload,
    fun value => ⟨(length_encodeZigzag value).1, (length_encodeZigzag value).2,
      decodeZigzag_recovers value⟩, ?_, length_wrapPayload_le⟩
  intro value value' hbegins
  exact (decodeZigzag_recovers value).eq_of_begins (decodeZigzag_recovers value') hbegins

theorem wireFormat_uniquely_decodable_example :
    decodeWireFormat (wrapPayloadWithConfluentWireFormat 7 [-1, 300] [9]) =
        some (7, [-1, 300], [9]) ∧
      decodeZigzag (encodeZigzag Int64.minValue) = some (Int64.minValue, []) := by
  have h := wireFormat_uniquely_decodable
  refine ⟨h.1 7 [-1, 300] [9] (by decide), ?_⟩
  simpa only [List.append_nil] using (h.2.1 Int64.minValue).2.2 []

end Decode

end Shipstern.Kafka
