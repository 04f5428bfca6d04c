import Shipstern.Codegen.BorshTags
import Shipstern.Codegen.Prost

/-!
# The generated message codecs

`manual_prost.rs`: what the manual impls of `prost::Message` write, merge and count, for each label
and type of a field, for structs, for the unions of the enums and for the wrappers of
instructions, events and accounts. A type deeper than the given number of levels is cut off to a
message without fields, so a type that mentions itself has a codec as well.
-/

namespace Shipstern.Codegen

open Codama CanonicalCode

/-- One field of a struct: its type, what the statements of the impls do with it, and its tag. -/
structure ProstField (Ctx : Type) where
  tag : Nat
  Value : Type
  default : Value
  encode : Value → List UInt8
  merge : Ctx → WireType → Value → Decode Value
  encodedLen : Value → Nat
  depth : Value → Nat
  sent : Value → Value

/-! ## Scalars -/

namespace WireScalar

/-- The default of the Rust type. -/
def default : (w : WireScalar) → w.Value
  | .bool => false
  | .uint32 | .int32 | .float => (0 : BitVec 32)
  | .uint64 | .int64 | .double => (0 : BitVec 64)
  | .string => ""
  | .bytes => ([] : List UInt8)

/-- The default check of a singular field. A float is compared as a float, so that a negative
zero is left out, too. -/
def isWritten : (w : WireScalar) → w.Value → Bool
  | .bool, (b : Bool) => b != false
  | .uint32, (v : BitVec 32) | .int32, (v : BitVec 32) => v != 0
  | .uint64, (v : BitVec 64) | .int64, (v : BitVec 64) => v != 0
  | .float, (v : BitVec 32) => v != 0 && v != 0x80000000#32
  | .double, (v : BitVec 64) => v != 0 && v != 0x8000000000000000#64
  | .string, (s : String) => !s.isEmpty
  | .bytes, (value : List UInt8) => !value.isEmpty

end WireScalar

/-- A small integer and the type that it is widened to. -/
structure Widening (width : Nat) where
  wire : WireScalar
  widen : BitVec width → wire.Value
  narrow : wire.Value → BitVec width
  narrow_widen : ∀ v, narrow (widen v) = v

def Widening.unsigned (width : Nat) (h : width ≤ 32) : Widening width where
  wire := .uint32
  widen := BitVec.setWidth 32
  narrow := BitVec.setWidth width
  narrow_widen v := by
    rw [BitVec.setWidth_setWidth_of_le _ h, BitVec.setWidth_eq]

def Widening.signed (width : Nat) (h : width ≤ 32) : Widening width where
  wire := .int32
  widen := BitVec.signExtend 32
  narrow := BitVec.setWidth width
  narrow_widen := setWidth_signExtend h

/-- A scalar that is sent as another type, always merged into a fresh one. -/
structure Converted (Ctx : Type) where
  Native : Type
  encode : Nat → Native → List UInt8
  encodedLen : Nat → Native → Nat
  merge : Ctx → WireType → Decode Native
  depth : Nat

section Converted

variable (prost : Prost) (structName field : Name)

/-- A key travels inside of its wrapper message. -/
def pubkeyConversion : Converted prost.Ctx where
  Native := Core.Pubkey
  encode tag key :=
    prost.messageEncode tag (prost.wrapperEncodedLen key.toList)
      (prost.wrapperEncodeRaw key.toList)
  encodedLen tag key := prost.messageEncodedLen tag (prost.wrapperEncodedLen key.toList)
  merge ctx wireType := do
    let value ← (prost.messageMerge prost.wrapperMergeField ctx wireType []).mapErr
      (·.push structName field)
    match Core.Pubkey.tryFrom value with
    | some key => pure key
    | none => throw (decodeError "expected exactly 32 bytes for Pubkey".toList)
  depth := 1

/-- A 128-bit integer travels as its bytes, the lowest first. -/
def bytesConversion (nativeType : List Char) : Converted prost.Ctx where
  Native := BitVec 128
  encode tag v := prost.encode .bytes tag (toLeBytes 16 v.toNat)
  encodedLen tag v := prost.encodedLen .bytes tag (toLeBytes 16 v.toNat)
  merge ctx wireType := do
    let bytes ← (prost.merge .bytes ctx wireType []).mapErr (·.push structName field)
    if List.length bytes = 16 then pure (BitVec.ofNat 128 (Wire.leNat bytes))
    else throw (decodeError ("expected exactly 16 bytes for ".toList ++ nativeType))
  depth := 0

end Converted

/-! ## Fields -/

section Fields

variable (prost : Prost) (structName field : Name) (tag : Nat)

/-- The largest depth in a list. -/
def deepest {α : Type} (depth : α → Nat) (values : List α) : Nat :=
  (values.map depth).foldr max 0

section Message

variable (m : Message prost.Ctx)

def singularMessage : ProstField prost.Ctx where
  tag
  Value := m.Value
  default := m.default
  encode v := prost.messageEncode tag (m.encodedLen v) (m.encodeRaw v)
  merge ctx wireType v :=
    (prost.messageMerge m.mergeField ctx wireType v).mapErr (·.push structName field)
  encodedLen v := prost.messageEncodedLen tag (m.encodedLen v)
  depth v := m.depth v + 1
  sent := m.sent

def optionalMessage : ProstField prost.Ctx where
  tag
  Value := Option m.Value
  default := none
  encode
    | some v => prost.messageEncode tag (m.encodedLen v) (m.encodeRaw v)
    | none => []
  merge ctx wireType v :=
    some <$> (prost.messageMerge m.mergeField ctx wireType (v.getD m.default)).mapErr
      (·.push structName field)
  encodedLen v := v.elim 0 fun v => prost.messageEncodedLen tag (m.encodedLen v)
  depth v := v.elim 0 fun v => m.depth v + 1
  sent := Option.map m.sent

def repeatedMessage : ProstField prost.Ctx where
  tag
  Value := List m.Value
  default := []
  encode vs := vs.flatMap fun v => prost.messageEncode tag (m.encodedLen v) (m.encodeRaw v)
  merge ctx wireType vs :=
    (prost.messageMergeRepeated m.default m.mergeField ctx wireType vs).mapErr
      (·.push structName field)
  encodedLen vs := prost.messageEncodedLenRepeated tag (vs.map m.encodedLen)
  depth vs := deepest (m.depth · + 1) vs
  sent := List.map m.sent

end Message

section Conversion

variable (conversion : Converted prost.Ctx)

/-- `written` is the default check; a key is always written. -/
def singularConverted (default : conversion.Native) (written : conversion.Native → Bool) :
    ProstField prost.Ctx where
  tag
  Value := conversion.Native
  default
  encode v := if written v then conversion.encode tag v else []
  merge ctx wireType _ := conversion.merge ctx wireType
  encodedLen v := if written v then conversion.encodedLen tag v else 0
  depth _ := conversion.depth
  sent := id

def optionalConverted : ProstField prost.Ctx where
  tag
  Value := Option conversion.Native
  default := none
  encode
    | some v => conversion.encode tag v
    | none => []
  merge ctx wireType _ := some <$> conversion.merge ctx wireType
  encodedLen v := v.elim 0 (conversion.encodedLen tag)
  depth v := v.elim 0 fun _ => conversion.depth
  sent := id

def repeatedConverted : ProstField prost.Ctx where
  tag
  Value := List conversion.Native
  default := []
  encode vs := vs.flatMap (conversion.encode tag)
  merge ctx wireType vs := (fun v => vs ++ [v]) <$> conversion.merge ctx wireType
  encodedLen vs := (vs.map (conversion.encodedLen tag)).sum
  depth vs := deepest (fun _ => conversion.depth) vs
  sent := id

end Conversion

section Widened

variable {width : Nat} (widening : Widening width)

def singularWidened : ProstField prost.Ctx where
  tag
  Value := BitVec width
  default := 0
  encode v := if v ≠ 0 then prost.encode widening.wire tag (widening.widen v) else []
  merge ctx wireType v :=
    widening.narrow <$> (prost.merge widening.wire ctx wireType (widening.widen v)).mapErr
      (·.push structName field)
  encodedLen v := if v ≠ 0 then prost.encodedLen widening.wire tag (widening.widen v) else 0
  depth _ := 0
  sent := id

def optionalWidened : ProstField prost.Ctx where
  tag
  Value := Option (BitVec width)
  default := none
  encode
    | some v => prost.encode widening.wire tag (widening.widen v)
    | none => []
  merge ctx wireType v :=
    (some ∘ widening.narrow) <$>
      (prost.merge widening.wire ctx wireType (widening.widen (v.getD 0))).mapErr
        (·.push structName field)
  encodedLen v := v.elim 0 fun v => prost.encodedLen widening.wire tag (widening.widen v)
  depth _ := 0
  sent := id

def repeatedWidened : ProstField prost.Ctx where
  tag
  Value := List (BitVec width)
  default := []
  encode vs := prost.encodePacked widening.wire tag (vs.map widening.widen)
  merge ctx wireType vs :=
    List.map widening.narrow <$>
      (prost.mergeRepeated widening.wire ctx wireType (vs.map widening.widen)).mapErr
        (·.push structName field)
  encodedLen vs := prost.encodedLenPacked widening.wire tag (vs.map widening.widen)
  depth _ := 0
  sent := id

end Widened

section Plain

variable (w : WireScalar)

def singularScalar : ProstField prost.Ctx where
  tag
  Value := w.Value
  default := w.default
  encode v := if w.isWritten v then prost.encode w tag v else []
  merge ctx wireType v := (prost.merge w ctx wireType v).mapErr (·.push structName field)
  encodedLen v := if w.isWritten v then prost.encodedLen w tag v else 0
  depth _ := 0
  sent v := if w.isWritten v then v else w.default

def optionalScalar : ProstField prost.Ctx where
  tag
  Value := Option w.Value
  default := none
  encode
    | some v => prost.encode w tag v
    | none => []
  merge ctx wireType v :=
    some <$> (prost.merge w ctx wireType (v.getD w.default)).mapErr (·.push structName field)
  encodedLen v := v.elim 0 (prost.encodedLen w tag)
  depth _ := 0
  sent := id

/-- Strings and bytes come one by one, numbers are packed. -/
def repeatedScalar (isLengthDelimited : Bool) : ProstField prost.Ctx where
  tag
  Value := List w.Value
  default := []
  encode vs :=
    if isLengthDelimited then vs.flatMap (prost.encode w tag) else prost.encodePacked w tag vs
  merge ctx wireType vs :=
    (prost.mergeRepeated w ctx wireType vs).mapErr (·.push structName field)
  encodedLen vs :=
    if isLengthDelimited then prost.encodedLenRepeated w tag vs
    else prost.encodedLenPacked w tag vs
  depth _ := 0
  sent := id

end Plain

/-! ## The field of a struct -/

/-- The codec for the label. -/
def LabelIr.select {α : Type _} (singular optional repeated : α) : LabelIr → α
  | .singular => singular
  | .optional _ => optional
  | .repeated | .fixedArray _ => repeated

def widenedField {width : Nat} (widening : Widening width) : LabelIr → ProstField prost.Ctx :=
  LabelIr.select (singularWidened prost structName field tag widening)
    (optionalWidened prost structName field tag widening)
    (repeatedWidened prost structName field tag widening)

def convertedField (conversion : Converted prost.Ctx) (default : conversion.Native)
    (written : conversion.Native → Bool) : LabelIr → ProstField prost.Ctx :=
  LabelIr.select (singularConverted prost tag conversion default written)
    (optionalConverted prost tag conversion) (repeatedConverted prost tag conversion)

def plainField (w : WireScalar) (isLengthDelimited : Bool) : LabelIr → ProstField prost.Ctx :=
  LabelIr.select (singularScalar prost structName field tag w)
    (optionalScalar prost structName field tag w)
    (repeatedScalar prost structName field tag w isLengthDelimited)

def scalarField (scalar : ScalarIr) : LabelIr → ProstField prost.Ctx :=
  let plain (w : WireScalar) := plainField prost structName field tag w (isLengthDelimited scalar)
  match scalar with
  | .publicKey =>
      convertedField prost tag (pubkeyConversion prost structName field) (Vector.replicate 32 0)
        fun _ => true
  | .u8 => widenedField prost structName field tag (.unsigned 8 (by decide))
  | .u16 | .shortU16 => widenedField prost structName field tag (.unsigned 16 (by decide))
  | .i8 => widenedField prost structName field tag (.signed 8 (by decide))
  | .i16 => widenedField prost structName field tag (.signed 16 (by decide))
  | .u128 =>
      convertedField prost tag (bytesConversion prost structName field "u128".toList) (0 : BitVec 128)
        fun v : BitVec 128 => v != 0
  | .i128 =>
      convertedField prost tag (bytesConversion prost structName field "i128".toList) (0 : BitVec 128)
        fun v : BitVec 128 => v != 0
  | .bool => plain .bool
  | .uint32 => plain .uint32
  | .uint64 => plain .uint64
  | .int32 => plain .int32
  | .int64 => plain .int64
  | .float => plain .float
  | .double => plain .double
  | .string | .sizePrefixedString _ => plain .string
  | .bytes | .sizePrefixedBytes _ | .fixedBytes _ => plain .bytes

def messageField (m : Message prost.Ctx) : LabelIr → ProstField prost.Ctx :=
  LabelIr.select (singularMessage prost structName field tag m)
    (optionalMessage prost structName field tag m) (repeatedMessage prost structName field tag m)

end Fields

/-- `emit_prost_field_codegen`. -/
def emitProstFieldCodegen (prost : Prost) (message : Name → Message prost.Ctx) (structName : Name)
    (f : FieldIr) : ProstField prost.Ctx :=
  match f.fieldType with
  | .message msg => messageField prost structName f.name f.tag (message msg) f.label
  | .scalar s => scalarField prost structName f.name f.tag s f.label

/-! ## Structs -/

namespace ProstField

variable {Ctx : Type}

/-- The values of a struct, field by field. -/
def Values : List (ProstField Ctx) → Type
  | [] => Unit
  | f :: fields => f.Value × Values fields

def defaults : (fields : List (ProstField Ctx)) → Values fields
  | [] => ()
  | f :: fields => (f.default, defaults fields)

def encodeAll : (fields : List (ProstField Ctx)) → Values fields → List UInt8
  | [], () => []
  | f :: fields, (v, rest) => f.encode v ++ encodeAll fields rest

def encodedLenAll : (fields : List (ProstField Ctx)) → Values fields → Nat
  | [], () => 0
  | f :: fields, (v, rest) => f.encodedLen v + encodedLenAll fields rest

/-- The arms of the match on the tag. Other tags are skipped. -/
def mergeArms (skipField : Ctx → FieldKey → Decode Unit) :
    (fields : List (ProstField Ctx)) → Ctx → FieldKey → Values fields → Decode (Values fields)
  | [], ctx, key, () => skipField ctx key
  | f :: fields, ctx, key, (v, rest) =>
      if key.tag = f.tag then (fun v => (v, rest)) <$> f.merge ctx key.wireType v
      else (fun rest => (v, rest)) <$> mergeArms skipField fields ctx key rest

def depthAll : (fields : List (ProstField Ctx)) → Values fields → Nat
  | [], () => 0
  | f :: fields, (v, rest) => max (f.depth v) (depthAll fields rest)

def sentAll : (fields : List (ProstField Ctx)) → Values fields → Values fields
  | [], () => ()
  | f :: fields, (v, rest) => (f.sent v, sentAll fields rest)

end ProstField

/-- A struct of these fields. -/
def structMessage (prost : Prost) (fields : List (ProstField prost.Ctx)) : Message prost.Ctx where
  Value := ProstField.Values fields
  default := ProstField.defaults fields
  encodeRaw := ProstField.encodeAll fields
  encodedLen := ProstField.encodedLenAll fields
  mergeField := ProstField.mergeArms prost.skipField fields
  depth := ProstField.depthAll fields
  sent := ProstField.sentAll fields

/-- `manual_prost_struct_impl`. -/
def manualProstStructImpl (prost : Prost) (message : RustPath → Message prost.Ctx) (scope : Scope)
    (t : TypeIr) : Message prost.Ctx :=
  structMessage prost
    (t.fields.map (emitProstFieldCodegen prost (fun msg => message (scope.resolveMsg msg)) t.name))

/-! ## Unions -/

section Unions

variable (prost : Prost)

def choiceDepth : (variants : Variants prost.Ctx) → OneofValue variants → Nat
  | (_, m) :: _, .inl v => m.depth v + 1
  | _ :: variants, .inr later => choiceDepth variants later

def choiceSent : (variants : Variants prost.Ctx) → OneofValue variants → OneofValue variants
  | (_, m) :: _, .inl v => .inl (m.sent v)
  | _ :: variants, .inr later => .inr (choiceSent variants later)

/-- `manual_prost_message_impl`: a struct around the union, which is merged as an option. -/
def manualProstMessageImpl {V : Type} (oneof : OneofImpl V prost.Ctx) (depth : V → Nat)
    (sent : V → V) : MessageImpl prost.Ctx where
  Value := V
  encodeRaw := oneof.encode
  encodedLen := oneof.encodedLen
  mergeField ctx key v := do
    match ← oneof.merge ctx key (some v) with
    | some merged => pure merged
    | none => pure v
  depth
  sent

variable (message : RustPath → Message prost.Ctx)

def unionVariants (variants : List (Nat × Name)) : Variants prost.Ctx :=
  variants.map fun v => (v.1, message (.topLevel v.2))

/-- The union of an enum of the program. The default is its first variant. -/
def renderEnumMessage (first : OneofVariantIr) (rest : List OneofVariantIr) : Message prost.Ctx :=
  let variants := unionVariants prost message
    ((first :: rest).map fun v => (v.tag, v.messageType))
  let payload := message (.topLevel first.messageType)
  { manualProstMessageImpl prost (prost.derivedOneof "Kind".toList variants)
      (choiceDepth prost variants) (choiceSent prost variants) with
    default := Sum.inl payload.default }

/-- The tags of the accounts are their positions. -/
def numbered (names : List Name) : List (Nat × Name) := names.mapIdx fun i name => (i + 1, name)

/-- The union of the accounts, which has no default. -/
def renderAccountMessage (names : List Name) : MessageImpl prost.Ctx :=
  let variants := unionVariants prost message (numbered names)
  manualProstMessageImpl prost (prost.derivedOneof "Account".toList variants)
    (choiceDepth prost variants) (choiceSent prost variants)

/-! ## The dispatch -/

variable (scope : Scope)

/-- The struct behind a variant of the dispatch: its accounts and its arguments. -/
def dispatchPayload (v : OneofVariantIr) : Message prost.Ctx :=
  manualProstStructImpl prost message scope
    ⟨v.messageType, payloadFields v.messageType, .instruction⟩

def dispatchMessages (variants : List OneofVariantIr) : Variants prost.Ctx :=
  variants.map fun v => (v.tag, dispatchPayload prost message scope v)

def accountsMessage (v : OneofVariantIr) : Message prost.Ctx :=
  message (scope.resolveMsg (accountsName v.messageType))

def argsMessage (v : OneofVariantIr) : Message prost.Ctx :=
  message (scope.resolveMsg (argsName v.messageType))

/-- The length of the body of a variant, and the fields themselves: both are always written. -/
def dispatchBodyLen (v : OneofVariantIr) (accounts : (accountsMessage prost message scope v).Value)
    (args : (argsMessage prost message scope v).Value) : Nat :=
  prost.messageEncodedLen 1 ((accountsMessage prost message scope v).encodedLen accounts) +
    prost.messageEncodedLen 2 ((argsMessage prost message scope v).encodedLen args)

def dispatchEncode : (variants : List OneofVariantIr) →
    OneofValue (dispatchMessages prost message scope variants) → List UInt8
  | v :: _, .inl (accounts, args, ()) =>
      prost.encodeKey ⟨v.tag, .lengthDelimited⟩ ++
        prost.encodeVarint (dispatchBodyLen prost message scope v accounts args) ++
        prost.messageEncode 1 ((accountsMessage prost message scope v).encodedLen accounts)
          ((accountsMessage prost message scope v).encodeRaw accounts) ++
        prost.messageEncode 2 ((argsMessage prost message scope v).encodedLen args)
          ((argsMessage prost message scope v).encodeRaw args)
  | _ :: variants, .inr later => dispatchEncode variants later

def dispatchEncodedLen : (variants : List OneofVariantIr) →
    OneofValue (dispatchMessages prost message scope variants) → Nat
  | v :: _, .inl (accounts, args, ()) =>
      prost.keyLen v.tag +
        prost.encodedLenVarint (dispatchBodyLen prost message scope v accounts args) +
        dispatchBodyLen prost message scope v accounts args
  | _ :: variants, .inr later => dispatchEncodedLen variants later

/-- `manual_prost_oneof_impl`. -/
def manualProstOneofImpl (name : Name) (variants : List OneofVariantIr) :
    OneofImpl (OneofValue (dispatchMessages prost message scope variants)) prost.Ctx where
  encode := dispatchEncode prost message scope variants
  merge := prost.oneofMerge name (dispatchMessages prost message scope variants)
  encodedLen := dispatchEncodedLen prost message scope variants

def renderDispatchMessage (name : Name) (variants : List OneofVariantIr) : MessageImpl prost.Ctx :=
  let payloads := dispatchMessages prost message scope variants
  manualProstMessageImpl prost (manualProstOneofImpl prost message scope name variants)
    (choiceDepth prost payloads) (choiceSent prost payloads)

end Unions

/-! ## The messages of a program -/

/-- A generated type that has a default. -/
inductive MessageDecl
  | struct (scope : Scope) (t : TypeIr)
  | enum (first : OneofVariantIr) (rest : List OneofVariantIr)

/-- A wrapper without a default. -/
inductive WrapperDecl
  | dispatch (scope : Scope) (name : Name) (variants : List OneofVariantIr)
  | account (names : List Name)

/-- What the paths of the generated code stand for. -/
abbrev Crate := RustPath → MessageDecl

def MessageDecl.message (prost : Prost) (message : RustPath → Message prost.Ctx) :
    MessageDecl → Message prost.Ctx
  | .struct scope t => manualProstStructImpl prost message scope t
  | .enum first rest => renderEnumMessage prost message first rest

def WrapperDecl.message (prost : Prost) (message : RustPath → Message prost.Ctx) :
    WrapperDecl → MessageImpl prost.Ctx
  | .dispatch scope name variants => renderDispatchMessage prost message scope name variants
  | .account names => renderAccountMessage prost message names

/-- The message at a path, with the types that are fewer than the given levels below. -/
def Crate.message (crate : Crate) (prost : Prost) : Nat → RustPath → Message prost.Ctx
  | 0, _ => structMessage prost []
  | levels + 1, path => (crate path).message prost (crate.message prost levels)

end Shipstern.Codegen
