import Shipstern.Codegen.Prost
import Shipstern.Codegen.BorshTags
import Shipstern.Lib.Leb128

/-!
# The wire format of `prost`

A `Prost` for the wire format itself: varints of at most ten bytes, floats in little-endian order,
text and bytes behind their length, and messages read field by field down to their end. The context
is the number of levels that are left of a hundred. Groups, which no generated type writes, are
refused.
-/

namespace Shipstern.Codegen

open Codama CanonicalCode TaggedFields Prost

namespace ProstWire

/-! ## Pieces of the format -/

def decodeVarint : Decode Nat := fun bytes =>
  match Leb128.decode bytes with
  | some (n, rest) =>
      if bytes.length - rest.length ≤ 10 ∧ n < 2 ^ 64 then .ok (n, rest)
      else .error (decodeError "invalid varint".toList)
  | none => .error (decodeError "invalid varint".toList)

def takeBytes (n : Nat) : Decode (List UInt8) := fun bytes =>
  if n ≤ bytes.length then .ok (bytes.take n, bytes.drop n)
  else .error (decodeError "buffer underflow".toList)

def delimited (bytes : List UInt8) : List UInt8 := Leb128.encode bytes.length ++ bytes

def readDelimited : Decode (List UInt8) := do
  let len ← decodeVarint
  takeBytes len

def wireTypeCode : WireType → Nat
  | .varint => 0
  | .sixtyFourBit => 1
  | .lengthDelimited => 2
  | .startGroup => 3
  | .endGroup => 4
  | .thirtyTwoBit => 5

def wireTypeOfCode : Nat → Option WireType
  | 0 => some .varint
  | 1 => some .sixtyFourBit
  | 2 => some .lengthDelimited
  | 3 => some .startGroup
  | 4 => some .endGroup
  | 5 => some .thirtyTwoBit
  | _ => none

def encodeKey (key : FieldKey) : List UInt8 :=
  Leb128.encode (key.tag * 8 + wireTypeCode key.wireType)

def decodeKey : Decode FieldKey := do
  let key ← decodeVarint
  if 2 ^ 32 ≤ key then throw (decodeError "invalid key value".toList)
  else
    match wireTypeOfCode (key % 8) with
    | none => throw (decodeError "invalid wire type value".toList)
    | some wireType =>
        if key / 8 = 0 then throw (decodeError "invalid tag value: 0".toList)
        else pure ⟨key / 8, wireType⟩

def checkWireType (expected actual : WireType) : Decode Unit :=
  if expected = actual then pure () else throw (decodeError "invalid wire type".toList)

def limitReached (ctx : Nat) : Decode Unit :=
  if ctx = 0 then throw (decodeError "recursion limit reached".toList) else pure ()

def skipBody : WireType → Decode Unit
  | .varint => (fun _ => ()) <$> decodeVarint
  | .sixtyFourBit => (fun _ => ()) <$> takeBytes 8
  | .lengthDelimited => (fun _ => ()) <$> readDelimited
  | .thirtyTwoBit => (fun _ => ()) <$> takeBytes 4
  | .startGroup => throw (decodeError "unsupported group".toList)
  | .endGroup => throw (decodeError "unexpected end group tag".toList)

def skipField (ctx : Nat) (key : FieldKey) : Decode Unit := do
  limitReached ctx
  skipBody key.wireType

/-! ## Scalars -/

def body : (w : WireScalar) → w.Value → List UInt8
  | .bool, (b : Bool) => Leb128.encode b.toNat
  | .int32, (v : BitVec 32) => Leb128.encode (v.signExtend 64).toNat
  | .uint32, (v : BitVec 32) => Leb128.encode v.toNat
  | .uint64, (v : BitVec 64) | .int64, (v : BitVec 64) => Leb128.encode v.toNat
  | .float, (v : BitVec 32) => toLeBytes 4 v.toNat
  | .double, (v : BitVec 64) => toLeBytes 8 v.toNat
  | .string, (s : String) => delimited s.toByteArray.data.toList
  | .bytes, (value : List UInt8) => delimited value

def readText : Decode String := do
  let bytes ← readDelimited
  match String.fromUTF8? ⟨bytes.toArray⟩ with
  | some s => pure s
  | none => throw (decodeError "invalid string value: data is not UTF-8 encoded".toList)

def readBody : (w : WireScalar) → Decode w.Value
  | .bool => (fun n => n != 0) <$> decodeVarint
  | .int32 | .uint32 => BitVec.ofNat 32 <$> decodeVarint
  | .uint64 | .int64 => BitVec.ofNat 64 <$> decodeVarint
  | .float => (fun bytes => BitVec.ofNat 32 (Wire.leNat bytes)) <$> takeBytes 4
  | .double => (fun bytes => BitVec.ofNat 64 (Wire.leNat bytes)) <$> takeBytes 8
  | .string => readText
  | .bytes => readDelimited

def merge (w : WireScalar) (wireType : WireType) : Decode w.Value := do
  checkWireType w.wireType wireType
  readBody w

/-! ## Loops -/

def overrun : DecodeFailure := decodeError "delimited length exceeded".toList

/-- Merge what the length in front says. -/
def mergeDelimited {τ α : Type} (readKey : Decode τ) (merge : τ → α → Decode α) (a : α) :
    Decode α := do
  let len ← decodeVarint
  let input ← get
  if input.length < len then throw (decodeError "buffer underflow".toList)
  else mergeLoop readKey merge overrun (input.length - len) (len + 1) a

def mergeRepeated (w : WireScalar) (wireType : WireType) (values : List w.Value) :
    Decode (List w.Value) :=
  if wireType = .lengthDelimited ∧ w.wireType ≠ .lengthDelimited then
    mergeDelimited (readBody w) (fun value values => pure (values ++ [value])) values
  else (fun value => values ++ [value]) <$> merge w wireType

def messageMerge {V : Type} (mergeField : Nat → FieldKey → V → Decode V) (ctx : Nat)
    (wireType : WireType) (v : V) : Decode V := do
  checkWireType .lengthDelimited wireType
  limitReached ctx
  mergeDelimited decodeKey (mergeField (ctx - 1)) v

def mergeAll {V : Type} (mergeField : Nat → FieldKey → V → Decode V) (v : V)
    (bytes : List UInt8) : Except DecodeFailure V :=
  Prod.fst <$> mergeLoop decodeKey (mergeField 100) overrun 0 (bytes.length + 1) v bytes

def encode (w : WireScalar) (tag : Nat) (value : w.Value) : List UInt8 :=
  encodeKey ⟨tag, w.wireType⟩ ++ body w value

def encodePacked (w : WireScalar) (tag : Nat) (values : List w.Value) : List UInt8 :=
  if values.isEmpty then []
  else encodeKey ⟨tag, .lengthDelimited⟩ ++ delimited (values.flatMap (body w))

end ProstWire

/-- `prost::encoding` and the wrapper, but for the unions that the derive builds on them. -/
def prostEncoding : Prost where
  Ctx := Nat
  defaultCtx := 100
  enterRecursion ctx := if ctx = 0 then none else some (ctx - 1)
  encodeKey := ProstWire.encodeKey
  keyLen tag := (Leb128.encode (tag * 8)).length
  encodeVarint := Leb128.encode
  encodedLenVarint n := (Leb128.encode n).length
  skipField := ProstWire.skipField
  encode := ProstWire.encode
  encodedLen w tag value := (ProstWire.encode w tag value).length
  merge w _ wireType _ := ProstWire.merge w wireType
  mergeRepeated w _ := ProstWire.mergeRepeated w
  encodedLenRepeated w tag values := (values.map fun value => (ProstWire.encode w tag value).length).sum
  encodePacked := ProstWire.encodePacked
  encodedLenPacked w tag values := (ProstWire.encodePacked w tag values).length
  messageEncode tag len raw :=
    ProstWire.encodeKey ⟨tag, .lengthDelimited⟩ ++ (Leb128.encode len ++ raw)
  messageEncodedLen tag len :=
    (Leb128.encode (tag * 8)).length + (Leb128.encode len).length + len
  messageEncodedLenRepeated tag lens :=
    (lens.map fun len => (Leb128.encode (tag * 8)).length + (Leb128.encode len).length + len).sum
  messageMerge := ProstWire.messageMerge
  messageMergeRepeated default mergeField ctx wireType values :=
    (fun value => values ++ [value]) <$> ProstWire.messageMerge mergeField ctx wireType default
  mergeAll := ProstWire.mergeAll
  derivedOneof _ _ := ⟨fun _ => [], fun _ _ field => pure field, fun _ => 0⟩
  wrapperEncodeRaw value := if value = [] then [] else ProstWire.encode .bytes 1 value
  wrapperEncodedLen value := if value = [] then 0 else (ProstWire.encode .bytes 1 value).length
  wrapperMergeField ctx key value :=
    if key.tag = 1 then
      (ProstWire.merge .bytes key.wireType).mapErr
        (·.push "PublicKeyProtoWrapper".toList "value".toList)
    else (fun () => value) <$> ProstWire.skipField ctx key

def prostWire : Prost :=
  { prostEncoding with
    derivedOneof := fun name variants =>
      ⟨prostEncoding.oneofEncode variants, prostEncoding.oneofMerge name variants,
        prostEncoding.oneofEncodedLen variants⟩ }

namespace ProstWire

/-! ## What is written is read back -/

theorem decodeVarint_reads {n : Nat} (h : n < 2 ^ 64) : Reads decodeVarint (Leb128.encode n) n := by
  intro rest
  have hlen : (Leb128.encode n).length ≤ 10 :=
    Leb128.length_encode_le (by decide) (Nat.lt_trans h (by decide))
  have hdecode : Leb128.decode (Leb128.encode n ++ rest) = some (n, rest) := Leb128.recovers n rest
  have hfits : (Leb128.encode n ++ rest).length - rest.length ≤ 10 ∧ n < 2 ^ 64 := by
    rw [List.length_append, Nat.add_sub_cancel]
    exact ⟨hlen, h⟩
  simp only [decodeVarint, hdecode, if_pos hfits]

theorem takeBytes_reads (front : List UInt8) : Reads (takeBytes front.length) front front := by
  intro rest
  have hle : front.length ≤ (front ++ rest).length := by
    rw [List.length_append]
    exact Nat.le_add_right _ _
  rw [takeBytes, if_pos hle, List.take_left, List.drop_left]

theorem readDelimited_reads {bytes : List UInt8} (h : Fits (delimited bytes)) :
    Reads readDelimited (delimited bytes) bytes :=
  (decodeVarint_reads h.of_append_right).bind (takeBytes_reads bytes)

theorem readText_reads {s : String} (h : Fits (delimited s.toByteArray.data.toList)) :
    Reads readText (delimited s.toByteArray.data.toList) s := by
  refine reads_bind (readDelimited_reads h) fun rest => ?_
  have hvalid : String.fromUTF8? ⟨s.toByteArray.data.toList.toArray⟩ = some s :=
    dif_pos s.isValidUTF8
  rw [hvalid]
  rfl

theorem ofNat_reads {width : Nat} (hwidth : width ≤ 64) (v : BitVec width) :
    Reads (BitVec.ofNat width <$> decodeVarint) (Leb128.encode v.toNat) v := by
  have hread := (decodeVarint_reads (Nat.lt_of_lt_of_le v.isLt
    (Nat.pow_le_pow_right (by decide) hwidth))).map (BitVec.ofNat width)
  rwa [BitVec.ofNat_toNat, BitVec.setWidth_eq] at hread

/-- An `int32` is widened with its sign, so a negative one takes ten bytes. -/
theorem signed_reads (v : BitVec 32) :
    Reads (BitVec.ofNat 32 <$> decodeVarint) (Leb128.encode (v.signExtend 64).toNat) v := by
  have hread := (decodeVarint_reads (v.signExtend 64).isLt).map (BitVec.ofNat 32)
  rwa [BitVec.ofNat_toNat, setWidth_signExtend (by decide)] at hread

theorem bits_reads (width : Nat) (v : BitVec (8 * width)) :
    Reads ((fun bytes => BitVec.ofNat (8 * width) (Wire.leNat bytes)) <$> takeBytes width)
      (toLeBytes width v.toNat) v := by
  have hread := (takeBytes_reads (toLeBytes width v.toNat)).map
    fun bytes => BitVec.ofNat (8 * width) (Wire.leNat bytes)
  have hlt : v.toNat < 256 ^ width := by
    have hbits := v.isLt
    rwa [Nat.pow_mul] at hbits
  rwa [length_toLeBytes, leNat_toLeBytes hlt, BitVec.ofNat_toNat, BitVec.setWidth_eq] at hread

theorem bool_reads (b : Bool) :
    Reads ((fun n => n != 0) <$> decodeVarint) (Leb128.encode b.toNat) b := by
  have hread := (decodeVarint_reads (Nat.lt_trans b.toNat_lt (by decide))).map fun n => n != 0
  cases b <;> exact hread

theorem readBody_reads {w : WireScalar} {value : w.Value} (h : Fits (body w value)) :
    Reads (readBody w) (body w value) value := by
  cases w with
  | bool => exact bool_reads value
  | uint32 => exact ofNat_reads (by decide) value
  | int32 => exact signed_reads value
  | uint64 | int64 => exact ofNat_reads (by decide) value
  | float => exact bits_reads 4 value
  | double => exact bits_reads 8 value
  | string => exact readText_reads h
  | bytes => exact readDelimited_reads h

/-- What is read as a value is skipped as well. -/
theorem skipBody_reads {w : WireScalar} {value : w.Value} (h : Fits (body w value)) :
    Reads (skipBody w.wireType) (body w value) () := by
  cases w with
  | bool => exact (decodeVarint_reads (Nat.lt_trans (Bool.toNat_lt value) (by decide))).map _
  | uint32 =>
      exact (decodeVarint_reads (Nat.lt_trans (BitVec.isLt (w := 32) value) (by decide))).map _
  | int32 => exact (decodeVarint_reads (BitVec.isLt _)).map _
  | uint64 | int64 => exact (decodeVarint_reads (BitVec.isLt (w := 64) value)).map _
  | float =>
      have hread := (takeBytes_reads (body .float value)).map fun _ => ()
      rwa [show (body .float value).length = 4 from length_toLeBytes 4 _] at hread
  | double =>
      have hread := (takeBytes_reads (body .double value)).map fun _ => ()
      rwa [show (body .double value).length = 8 from length_toLeBytes 8 _] at hread
  | string | bytes => exact (readDelimited_reads h).map _

theorem skipField_reads {ctx : Nat} {key : FieldKey} {bytes : List UInt8} (hctx : ctx ≠ 0)
    (h : Reads (skipBody key.wireType) bytes ()) : Reads (skipField ctx key) bytes () := by
  rw [skipField, limitReached, if_neg hctx]
  exact (Reads.pure ()).bind h

theorem code_lt (wireType : WireType) : wireTypeCode wireType < 8 := by
  cases wireType <;> decide

theorem ofCode_code (wireType : WireType) :
    wireTypeOfCode (wireTypeCode wireType) = some wireType := by
  cases wireType <;> rfl

theorem encodeKey_ne_nil (key : FieldKey) : encodeKey key ≠ [] := Leb128.encode_ne_nil _

theorem decodeKey_reads {key : FieldKey} (h : ValidTag key.tag) :
    Reads decodeKey (encodeKey key) key := by
  obtain ⟨tag, wireType⟩ := key
  have hcode := code_lt wireType
  have hpos : 1 ≤ tag := h.1
  have hlt : tag < 2 ^ 29 := h.2
  have hmod : (tag * 8 + wireTypeCode wireType) % 8 = wireTypeCode wireType := by omega
  have hdiv : (tag * 8 + wireTypeCode wireType) / 8 = tag := by omega
  have hbound : tag * 8 + wireTypeCode wireType < 2 ^ 32 := by omega
  refine reads_bind (decodeVarint_reads (Nat.lt_trans hbound (by decide))) fun rest => ?_
  rw [if_neg (Nat.not_le.mpr hbound), hmod, ofCode_code, hdiv]
  show (if tag = 0 then _ else _ : Decode FieldKey) rest = _
  rw [if_neg (by omega)]
  rfl

theorem mergeDelimited_reads {τ α : Type} {readKey : Decode τ} {merge : τ → α → Decode α}
    {key : τ → List UInt8} (hkey : ∀ k, key k ≠ []) {a b : α} {fields : List (Field UInt8 τ)}
    (h : Absorbs merge a fields b) (hread : ∀ field ∈ fields, Reads readKey (key field.1) field.1)
    (hfits : Fits (symbols key fields)) :
    Reads (mergeDelimited readKey merge a)
      (Leb128.encode (symbols key fields).length ++ symbols key fields) b := by
  refine (decodeVarint_reads hfits).bind fun rest => ?_
  have hlength : (symbols key fields ++ rest).length - (symbols key fields).length = rest.length := by
    rw [List.length_append, Nat.add_sub_cancel_left]
  have hle : ¬ (symbols key fields ++ rest).length < (symbols key fields).length := by
    rw [List.length_append]
    omega
  refine (bind_of_ok rfl).trans ?_
  rw [if_neg hle, hlength]
  exact mergeLoop_reads hkey h hread (Nat.lt_succ_of_le (length_le_symbols key hkey fields))

theorem messageMerge_reads {V : Type} {mergeField : Nat → FieldKey → V → Decode V} {ctx : Nat}
    (hctx : ctx ≠ 0) {a b : V} {fields : List (Field UInt8 FieldKey)}
    (h : Absorbs (mergeField (ctx - 1)) a fields b) (hvalid : ∀ field ∈ fields, ValidTag field.1.tag)
    (hfits : Fits (symbols encodeKey fields)) :
    Reads (messageMerge mergeField ctx .lengthDelimited a)
      (Leb128.encode (symbols encodeKey fields).length ++ symbols encodeKey fields) b := by
  rw [messageMerge, checkWireType, if_pos rfl, limitReached, if_neg hctx]
  exact (Reads.pure ()).bind ((Reads.pure ()).bind (mergeDelimited_reads encodeKey_ne_nil h
    (fun field hfield => decodeKey_reads (hvalid field hfield)) hfits))

theorem mergeAll_eq {V : Type} {mergeField : Nat → FieldKey → V → Decode V} {a b : V}
    {fields : List (Field UInt8 FieldKey)} (h : Absorbs (mergeField 100) a fields b)
    (hvalid : ∀ field ∈ fields, ValidTag field.1.tag) :
    mergeAll mergeField a (symbols encodeKey fields) = .ok b := by
  have hloop : mergeLoop decodeKey (mergeField 100) overrun 0
      ((symbols encodeKey fields).length + 1) a (symbols encodeKey fields ++ []) = .ok (b, []) :=
    mergeLoop_reads encodeKey_ne_nil h (fun field hfield => decodeKey_reads (hvalid field hfield))
      (Nat.lt_succ_of_le (length_le_symbols encodeKey encodeKey_ne_nil fields))
  rw [List.append_nil] at hloop
  rw [mergeAll]
  exact congrArg (Prod.fst <$> ·) hloop

theorem body_ne_nil {w : WireScalar} (value : w.Value) : body w value ≠ [] := by
  have hbits (width n : Nat) (h : 0 < width) : toLeBytes width n ≠ [] :=
    List.ne_nil_of_length_pos (by rwa [length_toLeBytes])
  cases w with
  | bool | uint32 | int32 | uint64 | int64 => exact Leb128.encode_ne_nil _
  | float => exact hbits 4 _ (by decide)
  | double => exact hbits 8 _ (by decide)
  | string | bytes => exact List.append_ne_nil_of_left_ne_nil (Leb128.encode_ne_nil _) _

theorem absorbs_pushed {α : Type} (old values : List α) :
    Absorbs (fun value values => (pure (values ++ [value]) : Decode (List α))) old
      (values.map fun value => (value, [])) (old ++ values) := by
  induction values generalizing old with
  | nil =>
      rw [List.append_nil]
      exact .nil old
  | cons value values ih =>
      have hrest := ih (old ++ [value])
      rw [List.append_assoc, List.singleton_append] at hrest
      exact .cons (Reads.pure _) hrest

/-- The key of a packed item is the item, and nothing comes behind it. -/
theorem mergePacked_reads {w : WireScalar} (hnumeric : w.IsNumeric) (old values : List w.Value)
    (hfits : Fits (delimited (values.flatMap (body w)))) :
    Reads (mergeRepeated w .lengthDelimited old) (delimited (values.flatMap (body w)))
      (old ++ values) := by
  have hsymbols : symbols (body w) (values.map fun value => (value, [])) = values.flatMap (body w) := by
    rw [symbols, List.flatMap_map]
    exact List.flatMap_congr fun value _ => List.append_nil _
  have hpacked := hfits.of_append_right
  have hread : ∀ field ∈ values.map fun value => (value, ([] : List UInt8)),
      Reads (readBody w) (body w field.1) field.1 := by
    intro field hfield
    obtain ⟨value, hvalue, rfl⟩ := List.mem_map.mp hfield
    exact readBody_reads (hpacked.of_flatMap hvalue)
  have hloop := mergeDelimited_reads body_ne_nil (absorbs_pushed old values) hread
    (by rwa [hsymbols])
  rw [hsymbols] at hloop
  rw [mergeRepeated, if_pos ⟨rfl, hnumeric⟩]
  exact hloop

theorem merge_reads {w : WireScalar} {value : w.Value} (h : Fits (body w value)) :
    Reads (merge w w.wireType) (body w value) value := by
  rw [merge, checkWireType, if_pos rfl]
  exact (Reads.pure ()).bind (readBody_reads h)

theorem ne_zero_of_allows {ctx : Nat} (h : prostWire.Allows 1 ctx) : ctx ≠ 0 := by
  rintro rfl
  obtain ⟨inner, henter, -⟩ := h
  cases henter

theorem ne_zero_of_enter {ctx inner : Nat} (h : prostWire.enterRecursion ctx = some inner) :
    ctx ≠ 0 ∧ inner = ctx - 1 := by
  have henter : (if ctx = 0 then none else some (ctx - 1)) = some inner := h
  split at henter
  · cases henter
  · exact ⟨‹_›, (Option.some.inj henter).symm⟩

theorem oneofArms_eq (name : Name) (variants : Variants Nat) (ctx : Nat) (key : FieldKey)
    (field : Option (OneofValue variants)) :
    prostEncoding.oneofArms name variants ctx key field =
      prostWire.oneofArms name variants ctx key field := by
  induction variants with
  | nil => rfl
  | cons variant variants ih =>
      obtain ⟨tag, m⟩ := variant
      by_cases htag : key.tag = tag
      · exact (if_pos htag).trans (if_pos htag).symm
      · exact (if_neg htag).trans
          ((congrArg (Sum.inr <$> ·) (ih (field.bind Sum.getRight?))).trans (if_neg htag).symm)

theorem oneofEncode_eq (variants : Variants Nat) (v : OneofValue variants) :
    prostEncoding.oneofEncode variants v = prostWire.oneofEncode variants v := by
  induction variants with
  | nil => exact v.elim
  | cons variant variants ih =>
      cases v with
      | inl v => rfl
      | inr later => exact ih later

theorem oneofEncodedLen_eq (variants : Variants Nat) (v : OneofValue variants) :
    prostEncoding.oneofEncodedLen variants v = prostWire.oneofEncodedLen variants v := by
  induction variants with
  | nil => exact v.elim
  | cons variant variants ih =>
      cases v with
      | inl v => rfl
      | inr later => exact ih later

theorem derivedOneof_eq (name : Name) (variants : Variants Nat) :
    prostWire.derivedOneof name variants = ⟨prostWire.oneofEncode variants,
      prostWire.oneofMerge name variants, prostWire.oneofEncodedLen variants⟩ := by
  have hmerge : prostEncoding.oneofMerge name variants = prostWire.oneofMerge name variants := by
    funext ctx key field
    exact congrArg (some <$> ·) (oneofArms_eq name variants ctx key field)
  show (⟨_, _, _⟩ : OneofImpl (OneofValue variants) Nat) = _
  rw [hmerge, funext (oneofEncode_eq variants), funext (oneofEncodedLen_eq variants)]
  rfl

/-- The wire format does what is known of `prost`. -/
theorem prostWire_lawful : prostWire.Lawful where
  keyLen_eq {tag} wireType _ := by
    have hcode := code_lt wireType
    exact Leb128.length_encode_congr (show tag * 8 / 8 = (tag * 8 + wireTypeCode wireType) / 8 by omega)
  encodedLenVarint_eq _ := rfl
  encodedLen_eq _ _ := rfl
  scalar w := by
    refine ⟨body w, fun _ _ => rfl, fun _ _ _ h => merge_reads h, fun hnumeric _ values value h => ?_,
      fun value _ hallows h => skipField_reads (ne_zero_of_allows hallows) (skipBody_reads h)⟩
    show Reads (mergeRepeated w w.wireType values) _ _
    rw [mergeRepeated, if_neg fun h => hnumeric h.2]
    exact (merge_reads h).map _
  encodedLenRepeated_eq _ _ := rfl
  encodePacked_nil _ := rfl
  packed {w tag values} hnumeric _ hne := by
    refine ⟨delimited (values.flatMap (body w)), ?_, fun _ old h => mergePacked_reads hnumeric old values h,
      fun ctx hallows h => skipField_reads (ne_zero_of_allows hallows) ((readDelimited_reads h).map _)⟩
    exact if_neg (by rwa [List.isEmpty_iff])
  encodedLenPacked_eq _ _ _ := rfl
  messageEncode_eq _ _ := rfl
  messageEncodedLen_eq _ _ := rfl
  messageEncodedLenRepeated_eq _ _ := rfl
  messageMerge_reads henter h hvalid hfits := by
    obtain ⟨hctx, rfl⟩ := ne_zero_of_enter henter
    exact messageMerge_reads hctx h hvalid hfits
  messageMergeRepeated_eq _ _ _ _ _ := rfl
  skipMessage_reads raw _ hallows h :=
    skipField_reads (ne_zero_of_allows hallows)
      (((decodeVarint_reads h).bind (takeBytes_reads raw)).map _)
  mergeAll_eq := ProstWire.mergeAll_eq
  derivedOneof_eq := ProstWire.derivedOneof_eq
  wrapperEncodeRaw_eq _ := rfl
  wrapperEncodedLen_eq _ := rfl
  wrapperMergeField_eq _ _ _ := rfl

end ProstWire

namespace ProstWire

/-! ## Failures are errors -/

theorem isError_decodeError (description : List Char) : (decodeError description).IsError := ⟨_, rfl⟩

theorem decodeVarint_failsOnly : FailsOnly DecodeFailure.IsError decodeVarint := by
  intro bytes failure h
  rw [decodeVarint] at h
  split at h
  · split at h
    · cases h
    · cases h
      exact isError_decodeError _
  · cases h
    exact isError_decodeError _

theorem takeBytes_failsOnly (n : Nat) : FailsOnly DecodeFailure.IsError (takeBytes n) := by
  intro bytes failure h
  rw [takeBytes] at h
  split at h
  · cases h
  · cases h
    exact isError_decodeError _

theorem readDelimited_failsOnly : FailsOnly DecodeFailure.IsError readDelimited :=
  decodeVarint_failsOnly.bind fun len _ _ _ => takeBytes_failsOnly len

theorem readText_failsOnly : FailsOnly DecodeFailure.IsError readText := by
  refine readDelimited_failsOnly.bind fun bytes _ _ _ => ?_
  cases String.fromUTF8? ⟨bytes.toArray⟩ with
  | some s => exact .pure s
  | none => exact .throw (isError_decodeError _)

theorem readBody_failsOnly (w : WireScalar) : FailsOnly DecodeFailure.IsError (readBody w) := by
  cases w with
  | bool | uint32 | int32 | uint64 | int64 => exact decodeVarint_failsOnly.map _
  | float => exact (takeBytes_failsOnly 4).map _
  | double => exact (takeBytes_failsOnly 8).map _
  | string => exact readText_failsOnly
  | bytes => exact readDelimited_failsOnly

theorem checkWireType_failsOnly (expected actual : WireType) :
    FailsOnly DecodeFailure.IsError (checkWireType expected actual) := by
  rw [checkWireType]
  split
  · exact .pure _
  · exact .throw (isError_decodeError _)

theorem limitReached_failsOnly (ctx : Nat) : FailsOnly DecodeFailure.IsError (limitReached ctx) := by
  rw [limitReached]
  split
  · exact .throw (isError_decodeError _)
  · exact .pure _

theorem merge_failsOnly (w : WireScalar) (wireType : WireType) :
    FailsOnly DecodeFailure.IsError (merge w wireType) :=
  (checkWireType_failsOnly _ _).bind fun _ _ _ _ => readBody_failsOnly w

theorem skipBody_failsOnly (wireType : WireType) :
    FailsOnly DecodeFailure.IsError (skipBody wireType) := by
  cases wireType with
  | varint => exact decodeVarint_failsOnly.map _
  | sixtyFourBit => exact (takeBytes_failsOnly 8).map _
  | lengthDelimited => exact readDelimited_failsOnly.map _
  | thirtyTwoBit => exact (takeBytes_failsOnly 4).map _
  | startGroup | endGroup => exact .throw (isError_decodeError _)

theorem skipField_failsOnly (ctx : Nat) (key : FieldKey) :
    FailsOnly DecodeFailure.IsError (skipField ctx key) :=
  (limitReached_failsOnly ctx).bind fun _ _ _ _ => skipBody_failsOnly _

theorem decodeKey_failsOnly : FailsOnly DecodeFailure.IsError decodeKey := by
  refine decodeVarint_failsOnly.bind fun key _ _ _ => ?_
  split
  · exact .throw (isError_decodeError _)
  · cases wireTypeOfCode (key % 8) with
    | none => exact .throw (isError_decodeError _)
    | some wireType =>
        show FailsOnly _ (if _ then _ else _)
        split
        · exact .throw (isError_decodeError _)
        · exact .pure _

/-- A key that is read has a valid tag. -/
theorem validTag_of_decodeKey {input rest : List UInt8} {key : FieldKey}
    (h : decodeKey input = .ok (key, rest)) : ValidTag key.tag := by
  obtain ⟨n, mid, -, h⟩ := Stateful.bind_ok.mp h
  by_cases hlarge : 2 ^ 32 ≤ n
  · rw [if_pos hlarge] at h
    exact (Stateful.throw_ok.mp h).elim
  · rw [if_neg hlarge] at h
    cases hcode : wireTypeOfCode (n % 8) with
    | none =>
        rw [hcode] at h
        exact (Stateful.throw_ok.mp h).elim
    | some wireType =>
        rw [hcode] at h
        by_cases hzero : n / 8 = 0
        · have hthrow := (congrFun (if_pos hzero) mid).symm.trans h
          exact (Stateful.throw_ok.mp hthrow).elim
        · have hpure := (congrFun (if_neg hzero) mid).symm.trans h
          obtain ⟨rfl, -⟩ := Stateful.pure_ok.mp hpure
          exact ⟨Nat.pos_of_ne_zero hzero, show n / 8 < 2 ^ 29 by omega⟩

theorem mergeDelimited_failsOnly {τ α : Type} {readKey : Decode τ} {merge : τ → α → Decode α}
    {valid : τ → Prop} (hread : FailsOnly DecodeFailure.IsError readKey)
    (hvalid : ∀ input k rest, readKey input = .ok (k, rest) → valid k)
    (hmerge : ∀ k, valid k → ∀ a, FailsOnly DecodeFailure.IsError (merge k a)) (a : α) :
    FailsOnly DecodeFailure.IsError (mergeDelimited readKey merge a) := by
  refine decodeVarint_failsOnly.bind fun len _ _ _ => .bind .get fun input _ _ _ => ?_
  split
  · exact .throw (isError_decodeError _)
  · exact mergeLoop_failsOnly (isError_decodeError _) hread hvalid hmerge _ _ a

theorem mergeRepeated_failsOnly (w : WireScalar) (wireType : WireType) (values : List w.Value) :
    FailsOnly DecodeFailure.IsError (mergeRepeated w wireType values) := by
  rw [mergeRepeated]
  split
  · exact mergeDelimited_failsOnly (readBody_failsOnly w)
      (fun _ _ _ (_ : readBody w _ = .ok (_, _)) => True.intro) (fun _ _ _ => .pure _) values
  · exact (merge_failsOnly w wireType).map _

theorem le_of_allows {n ctx : Nat} (h : prostWire.Allows n ctx) : n ≤ ctx := by
  induction n generalizing ctx with
  | zero => exact Nat.zero_le ctx
  | succ n ih =>
      obtain ⟨inner, henter, hinner⟩ := h
      obtain ⟨hctx, rfl⟩ := ne_zero_of_enter henter
      have hle := ih hinner
      omega

theorem messageMerge_panics {V : Type} {mergeField : Nat → FieldKey → V → Decode V} {ctx : Nat}
    (hctx : ctx ≠ 0) {key : FieldKey} (hkey : ValidTag key.tag) {body rest : List UInt8} {v : V}
    {message : List Char} (hfits : Fits (encodeKey key ++ body))
    (h : mergeField (ctx - 1) key v (body ++ rest) = .error (.panic message)) :
    messageMerge mergeField ctx .lengthDelimited v
      (Leb128.encode (encodeKey key ++ body).length ++ (encodeKey key ++ body) ++ rest) =
        .error (.panic message) := by
  have hpos := List.length_pos_iff.mpr (encodeKey_ne_nil key)
  have hle : ¬ (encodeKey key ++ body ++ rest).length < (encodeKey key ++ body).length := by
    simp only [List.length_append]
    omega
  have hlength : (encodeKey key ++ body ++ rest).length - (encodeKey key ++ body).length =
      rest.length := by
    simp only [List.length_append]
    omega
  rw [messageMerge, checkWireType, if_pos rfl, limitReached, if_neg hctx]
  show mergeDelimited decodeKey (mergeField (ctx - 1)) v _ = _
  rw [mergeDelimited, List.append_assoc, bind_of_ok (decodeVarint_reads hfits _)]
  refine (bind_of_ok rfl).trans ?_
  rw [if_neg hle, hlength, List.append_assoc]
  refine mergeLoop_error (decodeKey_reads hkey) h ?_
  rw [List.length_append, List.length_append]
  omega

theorem mergeAll_panics {V : Type} {mergeField : Nat → FieldKey → V → Decode V} {key : FieldKey}
    (hkey : ValidTag key.tag) {body : List UInt8} {v : V} {message : List Char}
    (h : mergeField 100 key v body = .error (.panic message)) :
    mergeAll mergeField v (encodeKey key ++ body) = .error (.panic message) := by
  have hpos := List.length_pos_iff.mpr (encodeKey_ne_nil key)
  have hbody : mergeField 100 key v (body ++ []) = .error (.panic message) := by
    rwa [List.append_nil]
  have hloop : mergeLoop decodeKey (mergeField 100) overrun 0
      ((encodeKey key ++ (body ++ [])).length + 1) v (encodeKey key ++ (body ++ [])) =
        .error (.panic message) := by
    refine mergeLoop_error (decodeKey_reads hkey) hbody ?_
    rw [List.length_append]
    omega
  rw [List.append_nil] at hloop
  exact congrArg (Prod.fst <$> ·) hloop

theorem messageMerge_failsOnly {V : Type} {mergeField : Nat → FieldKey → V → Decode V} {ctx : Nat}
    (h : ctx ≠ 0 → ∀ key, ValidTag key.tag →
      ∀ v, FailsOnly DecodeFailure.IsError (mergeField (ctx - 1) key v)) (wireType : WireType) (v : V) :
    FailsOnly DecodeFailure.IsError (messageMerge mergeField ctx wireType v) := by
  refine (checkWireType_failsOnly _ _).bind fun _ _ _ _ => ?_
  refine (limitReached_failsOnly ctx).bind fun _ _ _ hlimit => ?_
  have hctx : ctx ≠ 0 := by
    rintro rfl
    cases hlimit
  exact mergeDelimited_failsOnly decodeKey_failsOnly (fun _ _ _ => validTag_of_decodeKey) (h hctx) v

theorem mergeAll_isError {V : Type} {mergeField : Nat → FieldKey → V → Decode V}
    (h : ∀ key, ValidTag key.tag → ∀ v, FailsOnly DecodeFailure.IsError (mergeField 100 key v))
    (start : V) (bytes : List UInt8) {failure : DecodeFailure}
    (hfail : mergeAll mergeField start bytes = .error failure) : failure.IsError := by
  have hover : DecodeFailure.IsError overrun := isError_decodeError _
  have hloop := mergeLoop_failsOnly hover decodeKey_failsOnly
    (fun _ _ _ => validTag_of_decodeKey) h 0 (bytes.length + 1) start bytes
  rw [mergeAll] at hfail
  cases hrun : mergeLoop decodeKey (mergeField 100) overrun 0 (bytes.length + 1) start bytes with
  | ok p =>
      rw [hrun] at hfail
      cases hfail
  | error inner =>
      rw [hrun] at hfail
      cases hfail
      exact hloop _ hrun

/-- The wire format panics only where a message does. -/
theorem prostWire_panicFree : prostWire.PanicFree where
  merge w _ wireType _ := merge_failsOnly w wireType
  mergeRepeated w _ := mergeRepeated_failsOnly w
  skipField := skipField_failsOnly
  messageMerge {V mergeField ctx} h wireType v :=
    messageMerge_failsOnly (fun hctx => h (Nat.sub ctx 1) (if_neg hctx)) wireType v
  mergeAll h start bytes failure hfail := mergeAll_isError h start bytes hfail
  messageMerge_panics henter hkey hfits h := by
    obtain ⟨hctx, rfl⟩ := ne_zero_of_enter henter
    exact messageMerge_panics hctx hkey hfits h
  mergeAll_panics hkey h := mergeAll_panics hkey h
  limit h := Nat.not_succ_le_self 100 (le_of_allows h)
  length_encodeKey_le key h := by
    have hcode := code_lt key.wireType
    have hlt : key.tag < 2 ^ 29 := h.2
    have hbound : key.tag * 8 + wireTypeCode key.wireType < 128 ^ 5 := by omega
    exact Leb128.length_encode_le (by decide) hbound
  length_encodeVarint_le h := Leb128.length_encode_le (by decide) (Nat.lt_trans h (by decide))

/-! ## One merge for all messages -/

theorem mergeDelimited_map {τ α β : Type} {readKey : Decode τ} {merge : τ → α → Decode α}
    {merge' : τ → β → Decode β} {φ : α → β} (h : ∀ key a, merge' key (φ a) = φ <$> merge key a)
    (a : α) : mergeDelimited readKey merge' (φ a) = φ <$> mergeDelimited readKey merge a := by
  rw [mergeDelimited, mergeDelimited, map_bind]
  refine bind_congr fun len => ?_
  rw [map_bind]
  refine bind_congr fun input => ?_
  split
  · rfl
  · exact mergeLoop_map h _ _ a

section

variable {V V' : Type} {mergeField : Nat → FieldKey → V → Decode V}
  {mergeField' : Nat → FieldKey → V' → Decode V'} {φ : V → V'} {ctx : Nat}

theorem messageMerge_map (h : ∀ inner, prostWire.enterRecursion ctx = some inner →
      ∀ key v, mergeField' inner key (φ v) = φ <$> mergeField inner key v)
    (wireType : WireType) (v : V) :
    messageMerge mergeField' ctx wireType (φ v) = φ <$> messageMerge mergeField ctx wireType v := by
  rw [messageMerge, messageMerge, map_bind]
  refine bind_congr fun _ => ?_
  rw [map_bind]
  by_cases hctx : ctx = 0
  · rw [limitReached, if_pos hctx]
    rfl
  · have henter : prostWire.enterRecursion ctx = some (ctx - 1) := if_neg hctx
    exact bind_congr fun _ => mergeDelimited_map (h (ctx - 1) henter) v

theorem mergeAll_map (h : ∀ key v, mergeField' 100 key (φ v) = φ <$> mergeField 100 key v)
    (start : V) (bytes : List UInt8) :
    mergeAll mergeField' (φ start) bytes = φ <$> mergeAll mergeField start bytes := by
  rw [mergeAll, mergeAll, mergeLoop_map h]
  show Prod.fst <$> (mergeLoop decodeKey (mergeField 100) overrun 0 _ start bytes >>= _) = _
  cases mergeLoop decodeKey (mergeField 100) overrun 0 (bytes.length + 1) start bytes with
  | error failure => rfl
  | ok result => rfl

end

theorem prostWire_uniform : prostWire.Uniform where
  messageMerge := messageMerge_map
  mergeAll := mergeAll_map

end ProstWire

end Shipstern.Codegen
