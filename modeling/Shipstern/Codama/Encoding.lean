import Shipstern.Codama.Nodes
import Shipstern.Lib.ByteReader

/-!
# The bytes that a type node declares

Every type node stands for a wire format: the numbers in their declared width and byte order,
counts, prefixes and tags in their declared number type, and links to named types. Byte strings
are sequences of `u8`. A vector of items that hold nothing is refused, as Borsh refuses it.

Wrapped number types, explicit discriminators that differ from the position of their variant, and
the kinds of node that have no rendering are read nowhere, so they are given no bytes.
-/

namespace Shipstern.Codama

open Wire

/-- The values of a format without parts. -/
inductive Atom
  | int (value : Int)
  | float (bits : Nat)
  | bool (value : Bool)
  | text (bytes : Bytes)
  | constant
deriving DecidableEq

/-- The formats without parts. -/
inductive Prim
  | number (number : NumberTypeNode)
  | boolean (size : NumberTypeNode)
  /-- UTF-8 text behind its number of bytes. -/
  | text (number : NumberTypeNode)
  /-- UTF-8 text up to the end. -/
  | remainder
  | constant (value : ValueNode) (number : Option NumberTypeNode)

inductive Count
  | const (n : Nat)
  | number (number : NumberTypeNode)
  /-- Zero or one. -/
  | flag (number : NumberTypeNode)
  | tag (number : NumberTypeNode)

abbrev Encoding := Format Prim Count Name

namespace NumberFormat

/-- The number of bytes of a number, except of a compact one. -/
def width : NumberFormat → Option Nat
  | .u8 | .i8 => some 1
  | .u16 | .i16 => some 2
  | .u32 | .i32 | .f32 => some 4
  | .u64 | .i64 | .f64 => some 8
  | .u128 | .i128 => some 16
  | .shortU16 => none

/-- The number that bits stand for. -/
def value (bits : Nat) : NumberFormat → Atom
  | .u8 | .u16 | .u32 | .u64 | .u128 | .shortU16 => .int bits
  | .i8 => .int (toSigned 1 bits)
  | .i16 => .int (toSigned 2 bits)
  | .i32 => .int (toSigned 4 bits)
  | .i64 => .int (toSigned 8 bits)
  | .i128 => .int (toSigned 16 bits)
  | .f32 | .f64 => .float bits

/-- The bits of the number one. -/
def one : NumberFormat → Nat
  | .f32 => 0x3f800000
  | .f64 => 0x3ff0000000000000
  | _ => 1

end NumberFormat

namespace NumberTypeNode

def readBits (number : NumberTypeNode) (bs : Bytes) : Option (Nat × Bytes) :=
  match number.format.width with
  | some width => readNat width (number.endian = .be) bs
  | none => readCompactU16 bs

def readFlag (number : NumberTypeNode) (bs : Bytes) : Option (Nat × Bytes) := do
  let (bits, rest) ← number.readBits bs
  if bits = 0 then some (0, rest) else if bits = number.format.one then some (1, rest) else none

/-- A number that is not negative. -/
def readTag (number : NumberTypeNode) (bs : Bytes) : Option (Nat × Bytes) := do
  let (bits, rest) ← number.readBits bs
  match number.format.value bits with
  | .int (.ofNat n) => some (n, rest)
  | _ => none

/-- A number of items. One above `u64` counts more than any input holds. -/
def readCount (number : NumberTypeNode) (bs : Bytes) : Option (Nat × Bytes) := do
  let (n, rest) ← number.readTag bs
  if n < 2 ^ 64 then some (n, rest) else none

/-- The number of bytes of a flag: zero and one take one byte of a compact number. -/
def flagSize (number : NumberTypeNode) : Nat := number.format.width.getD 1

end NumberTypeNode

/-- The bytes of the constants in hidden prefixes and suffixes. -/
abbrev ConstantBytes := ValueNode → Option NumberTypeNode → Option Bytes

/-- How the primitives of type nodes are read. -/
def codec (constants : ConstantBytes) : Codec Atom Prim Count where
  atom
    | .number number, bs => do
        let (bits, rest) ← number.readBits bs
        some (number.format.value bits, rest)
    | .boolean size, bs => do
        let (flag, rest) ← size.readFlag bs
        some (.bool (flag = 1), rest)
    | .text number, bs => do
        let (n, rest) ← number.readCount bs
        let (text, rest) ← readText n rest
        some (.text text, rest)
    | .remainder, bs => do
        let (text, rest) ← readText bs.length bs
        some (.text text, rest)
    | .constant value number, bs => do
        let bytes ← constants value number
        if bytes <+: bs then some (.constant, bs.drop bytes.length) else none
  count
    | .const n, bs => some (n, bs)
    | .number number, bs => number.readCount bs
    | .flag number, bs => number.readFlag bs
    | .tag number, bs => number.readTag bs
  atomSize
    | .number number => number.format.width
    | .boolean size => size.format.width
    | .text _ | .remainder => none
    | .constant value number => (constants value number).map List.length
  countSize
    | .const _ => some 0
    | .number number | .tag number => number.format.width
    | .flag number => some number.flagSize
  static
    | .const n => some n
    | _ => none
  solid
    | .number _ => true
    | _ => false

def NestedTypeNode.plain {α : Type} : NestedTypeNode α → Option α
  | .value node => some node
  | .wrapped _ _ => none

/-- A format that no bytes have. -/
def Encoding.never : Encoding := .tagged (.const 0) []

def Encoding.byte : Encoding := .atom (.number (.littleEndian .u8))

def Encoding.bytes (c : Count) : Encoding := .counted c Encoding.byte

/-- A format made from a number type that is not wrapped. -/
def Encoding.withNumber (number : NestedTypeNode NumberTypeNode) (make : NumberTypeNode → Encoding) :
    Encoding :=
  match number.plain with
  | some number => make number
  | none => .never

def CountNode.encoding (item : Encoding) : CountNode → Encoding
  | .fixed n => .counted (.const n) item
  | .prefixed number => .withNumber number fun number => .counted (.number number) item
  | .remainder => .remainder item

/-- The text or bytes behind a number of bytes. -/
def sizePrefixedText : BytesEncoding → NumberTypeNode → Encoding
  | .utf8, number => .atom (.text number)
  | _, number => .bytes (.number number)

def ConstantValue.encoding (constant : ConstantValueNode) : Encoding :=
  .atom (.constant constant.value
    (match constant.type with
    | .number number => some number
    | _ => none))

def optionPadding (fixed : Option Bool) : Padding :=
  if fixed.getD false then .size else .bytes 0

/-- No variant has a discriminator other than its position. -/
def positional (variants : List EnumVariantTypeNode) : Bool :=
  variants.zipIdx.all fun (variant, i) => variant.discriminator.all (· = i)

mutual

def TypeNode.encoding : TypeNode → Encoding
  | .boolean size => .withNumber size fun number => .atom (.boolean number)
  | .publicKey => .bytes (.const 32)
  | .number number => .atom (.number number)
  | .string .utf8 => .atom .remainder
  | .string _ | .bytes => .remainder Encoding.byte
  | .fixedSize size .bytes | .fixedSize size (.string _) => .bytes (.const size)
  | .fixedSize size type => .framed (.const size) type.encoding
  | .sizePrefix .bytes number => .withNumber number fun number => .bytes (.number number)
  | .sizePrefix (.string encoding) number => .withNumber number (sizePrefixedText encoding)
  | .sizePrefix type number =>
      let inner := type.encoding
      .withNumber number fun number => .framed (.number number) inner
  | .hiddenPrefix type constants =>
      .tuple (constants.map ConstantValue.encoding ++ [type.encoding])
  | .hiddenSuffix type constants => .tuple (type.encoding :: constants.map ConstantValue.encoding)
  | .struct fields => .tuple (fieldEncodings fields)
  | .tuple items => .tuple (itemEncodings items)
  | .array item count => count.encoding item.encoding
  | .map key value count => count.encoding (.tuple [key.encoding, value.encoding])
  | .set item count => count.encoding item.encoding
  | .option fixed item number =>
      let inner := item.encoding
      .withNumber number fun number => .option (.flag number) (optionPadding fixed) inner
  | .enum variants size =>
      let payloads := variantEncodings variants
      .withNumber size fun number =>
        if positional variants then .tagged (.tag number) payloads else .never
  | .link name => .link name
  | .unsupported _ => .never

def itemEncodings : List TypeNode → List Encoding
  | [] => []
  | item :: items => item.encoding :: itemEncodings items

def fieldEncodings : List StructFieldTypeNode → List Encoding
  | [] => []
  | ⟨_, _, type, _⟩ :: fields => type.encoding :: fieldEncodings fields

def variantEncodings : List EnumVariantTypeNode → List Encoding
  | [] => []
  | ⟨_, _, payload⟩ :: variants => payloadEncoding payload :: variantEncodings variants

def payloadEncoding : VariantPayload TypeNode → Encoding
  | .empty => .tuple []
  | .struct fields => .tuple (fieldEncodings fields)
  | .tuple items => .tuple (itemEncodings items)
  | .wrapped _ => .never

end

theorem itemEncodings_eq (items : List TypeNode) :
    itemEncodings items = items.map TypeNode.encoding := by
  induction items with
  | nil => rfl
  | cons item items ih => rw [itemEncodings, ih, List.map_cons]

theorem fieldEncodings_eq (fields : List StructFieldTypeNode) :
    fieldEncodings fields = fields.map fun field => field.type.encoding := by
  induction fields with
  | nil => rfl
  | cons field fields ih =>
      cases field
      rw [fieldEncodings, ih, List.map_cons]

theorem variantEncodings_eq (variants : List EnumVariantTypeNode) :
    variantEncodings variants = variants.map fun variant => payloadEncoding variant.payload := by
  induction variants with
  | nil => rfl
  | cons variant variants ih =>
      cases variant
      rw [variantEncodings, ih, List.map_cons]

end Shipstern.Codama
