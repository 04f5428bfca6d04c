import Shipstern.Codegen.Discriminator
import Shipstern.Codegen.ProstImpls
import Shipstern.Lib.ByteReader
import Shipstern.Lib.TaggedCode

/-!
# Borsh impls of the generated unions

The `Instructions` and `Events` wrappers and the enums of a program are written as the index of
the variant and the payload, and are read by matching the index. A dispatch wrapper narrows the
index with `as u8`; an enum writes it as a literal of its tag type, in the byte order of the tag.
-/

namespace Shipstern.Codegen

open Codama TaggedCode
open PrefixCode (Recovers)

/-- The message of a variant with its Borsh impls. -/
abbrev VariantCodec := Payload UInt8

/-! ## Dispatch wrappers -/

/-- `BorshDeserialize` of a `u8`. -/
def readByte : List UInt8 → Option (UInt8 × List UInt8)
  | [] => none
  | b :: rest => some (b, rest)

/-- `let disc = i as u8`, in the arms of both impls. -/
def dispatchTag : Tag UInt8 UInt8 where
  literal i := .ofNat i
  write disc := [disc]
  read := readByte

/-- `serialize` of an `Instructions` or `Events` wrapper. -/
def serializeDispatch {variants : List VariantCodec} (value : Choice variants) :
    Option (List UInt8) :=
  serialize dispatchTag value

/-- `deserialize_reader` of an `Instructions` or `Events` wrapper. -/
def deserializeDispatch (variants : List VariantCodec) (bytes : List UInt8) :
    Option (Choice variants × List UInt8) :=
  deserialize dispatchTag bytes

/-! ## Enums -/

/-- The Rust integers: width in bytes, and whether they have a sign. -/
structure IntType where
  width : Nat
  signed : Bool
deriving DecidableEq

/-- `enum_tag_type`. -/
def enumTagInt (oneof : OneofIr) (number : NumberTypeNode) : Except BuildPanic IntType :=
  match number.format with
  | .u8 => .ok ⟨1, false⟩
  | .u16 => .ok ⟨2, false⟩
  | .u32 => .ok ⟨4, false⟩
  | .u64 => .ok ⟨8, false⟩
  | .u128 => .ok ⟨16, false⟩
  | .i8 => .ok ⟨1, true⟩
  | .i16 => .ok ⟨2, true⟩
  | .i32 => .ok ⟨4, true⟩
  | .i64 => .ok ⟨8, true⟩
  | .i128 => .ok ⟨16, true⟩
  | .shortU16 =>
      if oneof.variants.length ≤ 128 then .ok ⟨1, false⟩
      else .error (.shortU16Tag oneof.parentMessage)
  | .f32 | .f64 => .error (.enumTag oneof.parentMessage)

/-- The panics of the renderer are those of `enum_tag_type`. -/
theorem enumTagType_eq (oneof : OneofIr) (number : NumberTypeNode) :
    enumTagType oneof number = (enumTagInt oneof number).map fun _ => () := by
  rw [enumTagType, enumTagInt]
  cases number.format
  case shortU16 =>
    show (if oneof.variants.length ≤ 128 then _ else _) =
      Except.map _ (if oneof.variants.length ≤ 128 then _ else _)
    split <;> rfl
  all_goals rfl

/-- `let disc: int = i`, and the arms `i =>`. Rust refuses a literal that does not fit (the lint
`overflowing_literals`); where that lint is off, as in the expansion of a foreign macro, the
literal wraps. -/
def enumTag (int : IntType) (endian : Endianness) : Tag UInt8 (BitVec (8 * int.width)) where
  literal i := .ofNat _ i
  write disc :=
    let bytes := toLeBytes int.width disc.toNat
    if endian = .be then bytes.reverse else bytes
  read bytes := (Wire.readNat int.width (endian = .be) bytes).map fun (n, rest) =>
    (.ofNat _ n, rest)

/-- All literals of the arms fit into the integer. -/
def LiteralsFit (int : IntType) (variantCount : Nat) : Prop :=
  variantCount ≤ if int.signed then 2 ^ (8 * int.width - 1) else 2 ^ (8 * int.width)

/-- `serialize` of an enum. -/
def serializeEnum (int : IntType) (endian : Endianness) {variants : List VariantCodec}
    (value : Choice variants) : Option (List UInt8) :=
  serialize (enumTag int endian) value

/-- `deserialize_reader` of an enum. -/
def deserializeEnum (int : IntType) (endian : Endianness) (variants : List VariantCodec)
    (bytes : List UInt8) : Option (Choice variants × List UInt8) :=
  deserialize (enumTag int endian) bytes

/-! ## What comes back -/

theorem dispatchTag_recovers (disc : UInt8) : Recovers dispatchTag.read dispatchTag.write disc :=
  fun _ => rfl

theorem dispatchTag_literal (i j : Nat) :
    dispatchTag.literal i = dispatchTag.literal j ↔ i % 256 = j % 256 := by
  rw [← UInt8.toNat_inj]
  show (UInt8.ofNat i).toNat = (UInt8.ofNat j).toNat ↔ _
  rw [UInt8.toNat_ofNat', UInt8.toNat_ofNat']

theorem leNat_toLeBytes {width n : Nat} (h : n < 256 ^ width) :
    Wire.leNat (toLeBytes width n) = n := by
  induction width generalizing n with
  | zero =>
      rw [Nat.pow_zero, Nat.lt_one_iff] at h
      rw [h]
      rfl
  | succ width ih =>
      have hdiv : n / 256 < 256 ^ width := by
        rw [Nat.div_lt_iff_lt_mul (by decide), ← Nat.pow_succ]
        exact h
      have hbyte : (UInt8.ofNat (n % 256)).toNat = n % 256 :=
        UInt8.toNat_ofNat_of_lt' (Nat.mod_lt n (by decide))
      rw [toLeBytes, Wire.leNat, ih hdiv, hbyte]
      exact Nat.mod_add_div n 256

theorem enumTag_recovers (int : IntType) (endian : Endianness) (disc : BitVec (8 * int.width)) :
    Recovers (enumTag int endian).read (enumTag int endian).write disc := by
  intro rest
  have hlt : disc.toNat < 256 ^ int.width := by
    have hbits := disc.isLt
    rwa [Nat.pow_mul] at hbits
  have hlength : ((enumTag int endian).write disc).length = int.width := by
    show (if endian = .be then _ else _ : List UInt8).length = _
    split
    · rw [List.length_reverse, length_toLeBytes]
    · exact length_toLeBytes _ _
  have hnat : Wire.natOf (endian = .be) ((enumTag int endian).write disc) = disc.toNat := by
    show Wire.leNat _ = _
    cases endian with
    | be =>
        show Wire.leNat (toLeBytes int.width disc.toNat).reverse.reverse = _
        rw [List.reverse_reverse, leNat_toLeBytes hlt]
    | le => exact leNat_toLeBytes hlt
  show (Wire.readNat int.width _ _).map _ = _
  rw [Wire.readNat_append hlength, hnat]
  show some (BitVec.ofNat _ disc.toNat, rest) = _
  rw [BitVec.ofNat_toNat, BitVec.setWidth_eq]

theorem enumTag_literal (int : IntType) (endian : Endianness) (i j : Nat) :
    (enumTag int endian).literal i = (enumTag int endian).literal j ↔
      i % 2 ^ (8 * int.width) = j % 2 ^ (8 * int.width) := by
  rw [← BitVec.toNat_inj]
  show (BitVec.ofNat _ i).toNat = (BitVec.ofNat _ j).toNat ↔ _
  rw [BitVec.toNat_ofNat, BitVec.toNat_ofNat]

theorem LiteralsFit.le {int : IntType} {variantCount : Nat} (h : LiteralsFit int variantCount) :
    variantCount ≤ 2 ^ (8 * int.width) := by
  rw [LiteralsFit] at h
  split at h
  · exact h.trans (Nat.pow_le_pow_right (by decide) (Nat.sub_le _ 1))
  · exact h

theorem dispatch_roundTrips_iff {variants : List VariantCodec}
    (hvariants : ∀ i, (variants.get i).Lawful) :
    (∀ value : Choice variants, RoundTrips dispatchTag value) ↔ variants.length ≤ 256 := by
  rw [roundTrips_iff dispatchTag_recovers hvariants]
  exact literals_injective_iff (by decide) dispatchTag_literal

theorem enum_roundTrips_iff (int : IntType) (endian : Endianness) {variants : List VariantCodec}
    (hvariants : ∀ i, (variants.get i).Lawful) :
    (∀ value : Choice variants, RoundTrips (enumTag int endian) value) ↔
      variants.length ≤ 2 ^ (8 * int.width) := by
  rw [roundTrips_iff (enumTag_recovers int endian) hvariants]
  exact literals_injective_iff (Nat.two_pow_pos _) (enumTag_literal int endian)

/-- The wrappers of a program are read back up to 256 variants, and no further. An enum is read
back up to the number of values of its tag type, so always when its literals fit. -/
theorem borsh_unions_read_back_iff {variants : List VariantCodec}
    (hvariants : ∀ i, (variants.get i).Lawful) :
    ((∀ (value : Choice variants) (bytes : List UInt8), serializeDispatch value = some bytes →
        ∀ rest, deserializeDispatch variants (bytes ++ rest) = some (value, rest)) ↔
      variants.length ≤ 256) ∧
    ∀ (oneof : OneofIr) (number : NumberTypeNode) (int : IntType),
      oneof.variants.length = variants.length → enumTagInt oneof number = .ok int →
        ((∀ (value : Choice variants) (bytes : List UInt8),
            serializeEnum int number.endian value = some bytes → ∀ rest,
              deserializeEnum int number.endian variants (bytes ++ rest) = some (value, rest)) ↔
          variants.length ≤ 2 ^ (8 * int.width)) ∧
        (LiteralsFit int oneof.variants.length →
          ∀ (value : Choice variants) (bytes : List UInt8),
            serializeEnum int number.endian value = some bytes → ∀ rest,
              deserializeEnum int number.endian variants (bytes ++ rest) = some (value, rest)) := by
  refine ⟨dispatch_roundTrips_iff hvariants, fun oneof number int hlength _ => ⟨?_, ?_⟩⟩
  · exact enum_roundTrips_iff int number.endian hvariants
  · intro hfit
    exact (enum_roundTrips_iff int number.endian hvariants).mpr (hlength ▸ hfit.le)

/-- A message without fields. -/
def emptyMessage : VariantCodec where
  Value := Unit
  write _ := some []
  read bytes := some ((), bytes)

theorem emptyMessage_lawful : emptyMessage.Lawful where
  recovers := by
    rintro ⟨⟩ symbols hwrite rest
    cases hwrite
    rfl
  inhabited := ⟨(), [], rfl⟩

theorem emptyMessages_lawful (n : Nat) (i : Fin (List.replicate n emptyMessage).length) :
    ((List.replicate n emptyMessage).get i).Lawful := by
  rw [List.eq_of_mem_replicate (List.get_mem _ i)]
  exact emptyMessage_lawful

/-- A message of one `u64`. -/
def amountMessage : VariantCodec where
  Value := BitVec (8 * 8)
  write amount := some ((enumTag ⟨8, false⟩ .le).write amount)
  read := (enumTag ⟨8, false⟩ .le).read

theorem amountMessage_lawful : amountMessage.Lawful where
  recovers amount bytes hwrite rest := by
    cases hwrite
    exact enumTag_recovers ⟨8, false⟩ .le amount rest
  inhabited := ⟨0#64, _, rfl⟩

def readMemo : List UInt8 → Option (List UInt8 × List UInt8)
  | [] => none
  | len :: rest =>
      if len.toNat ≤ rest.length then some (rest.take len.toNat, rest.drop len.toNat) else none

theorem readMemo_append {memo : List UInt8} (h : memo.length < 256) (rest : List UInt8) :
    readMemo (UInt8.ofNat memo.length :: (memo ++ rest)) = some (memo, rest) := by
  have hlen : (UInt8.ofNat memo.length).toNat = memo.length := UInt8.toNat_ofNat_of_lt' h
  rw [readMemo, hlen, if_pos (by simp), List.take_left, List.drop_left]

/-- A message of bytes behind their number, which has to fit into one byte. -/
def memoMessage : VariantCodec where
  Value := List UInt8
  write memo := if memo.length < 256 then some (UInt8.ofNat memo.length :: memo) else none
  read := readMemo

theorem memoMessage_lawful : memoMessage.Lawful where
  recovers memo bytes hwrite rest := by
    obtain ⟨hshort, hbytes⟩ := Option.ite_none_right_eq_some.mp hwrite
    obtain rfl := Option.some.inj hbytes
    exact readMemo_append hshort rest
  inhabited := ⟨[], _, rfl⟩

/-- A transfer with an amount, or a note. -/
def transferOrNote : List VariantCodec := [amountMessage, memoMessage]

theorem transferOrNote_lawful (i : Fin transferOrNote.length) : (transferOrNote.get i).Lawful := by
  obtain ⟨i, hi⟩ := i
  match i with
  | 0 => exact amountMessage_lawful
  | 1 => exact memoMessage_lawful

/-- The transfer of 5. -/
def transferFive : Choice transferOrNote := ⟨⟨0, by decide⟩, 5#64⟩

/-- The note "FG". -/
def noteFG : Choice transferOrNote := ⟨⟨1, by decide⟩, ([70, 71] : List UInt8)⟩

def transferOrNoteIr : OneofIr where
  parentMessage := "Action".toList
  fieldName := "kind".toList
  variants :=
    [⟨1, "Transfer".toList, "ActionTransfer".toList⟩, ⟨2, "Note".toList, "ActionNote".toList⟩]
  kind := .enum ⟨.i16, .be⟩

theorem borsh_unions_read_back_iff_transferOrNote :
    deserializeDispatch transferOrNote [1, 2, 70, 71, 9] = some (noteFG, [9]) ∧
      deserializeEnum ⟨2, true⟩ .be transferOrNote [0, 0, 5, 0, 0, 0, 0, 0, 0, 0] =
        some (transferFive, []) ∧
      ∀ (value : Choice transferOrNote) (bytes : List UInt8),
        serializeEnum ⟨2, true⟩ .be value = some bytes →
          ∀ rest, deserializeEnum ⟨2, true⟩ .be _ (bytes ++ rest) = some (value, rest) := by
  obtain ⟨hdispatch, henum⟩ := borsh_unions_read_back_iff transferOrNote_lawful
  have hback := (henum transferOrNoteIr ⟨.i16, .be⟩ ⟨2, true⟩ rfl rfl).2 (by decide : 2 ≤ 2 ^ 15)
  exact ⟨hdispatch.mpr (by decide) noteFG [1, 2, 70, 71] rfl [9],
    hback transferFive [0, 0, 5, 0, 0, 0, 0, 0, 0, 0] rfl [], hback⟩

/-- With 257 variants the last one is written like the first. -/
theorem dispatch_of_257_variants_not_read_back :
    ¬ ∀ (value : Choice (List.replicate 257 emptyMessage)) (bytes : List UInt8),
      serializeDispatch value = some bytes →
        deserializeDispatch (List.replicate 257 emptyMessage) bytes = some (value, []) := by
  intro h
  have hlength : (List.replicate 257 emptyMessage).length = 257 := List.length_replicate
  have heq := eq_of_literal_eq dispatchTag_recovers (emptyMessages_lawful 257) h
    ⟨0, by omega⟩ ⟨256, by omega⟩ ((dispatchTag_literal 0 256).mpr rfl)
  cases congrArg Fin.val heq

end Shipstern.Codegen
