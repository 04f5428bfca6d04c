import Mathlib

/-!
# Codama nodes

The part of the Codama tree that the Anchor converter writes and the code generator reads.
Names are character lists; documentation and display hints are left out. The kinds of type
node that the generator refuses are one constructor.

`children` lists the types directly below a type, and `TypeNode.induction` is induction
along it.
-/

namespace Shipstern.Codama

/-- A `CamelCaseString`, or the text it was made from. -/
abbrev Name := List Char

-- The definitions that look a name up share this instance.
scoped instance : LawfulBEq Name := inferInstance

inductive NumberFormat
  | u8
  | u16
  | u32
  | u64
  | u128
  | i8
  | i16
  | i32
  | i64
  | i128
  | f32
  | f64
  | shortU16
deriving DecidableEq

inductive Endianness
  | be
  | le
deriving DecidableEq

structure NumberTypeNode where
  format : NumberFormat
  endian : Endianness
deriving DecidableEq

def NumberTypeNode.littleEndian (format : NumberFormat) : NumberTypeNode := ⟨format, .le⟩

inductive BytesEncoding
  | base16
  | base58
  | base64
  | utf8
deriving DecidableEq

/-- The wrappers of a nested type node. What they hold is read nowhere. -/
inductive Wrapper
  | fixedSize
  | hiddenPrefix
  | hiddenSuffix
  | sizePrefix
  | postOffset
  | preOffset
  | sentinel
deriving DecidableEq

inductive NestedTypeNode (α : Type)
  | value (node : α)
  | wrapped (wrapper : Wrapper) (inner : NestedTypeNode α)
deriving DecidableEq

def NestedTypeNode.getNestedTypeNode {α : Type} : NestedTypeNode α → α
  | .value node => node
  | .wrapped _ inner => inner.getNestedTypeNode

/-- The number of items of an array, map or set. -/
inductive CountNode
  | fixed (value : Nat)
  | prefixed (number : NestedTypeNode NumberTypeNode)
  | remainder
deriving DecidableEq

inductive Number
  | unsignedInteger (value : Nat)
  | signedInteger (value : Int)
  | float
deriving DecidableEq

structure BytesValueNode where
  data : List Char
  encoding : BytesEncoding
deriving DecidableEq

/-- A constant. Of the kinds that are read nowhere only their presence is kept. -/
inductive ValueNode
  | number (number : Number)
  | bytes (bytes : BytesValueNode)
  | other
deriving DecidableEq

inductive DefaultValueStrategy
  | omitted
  | optional
deriving DecidableEq

/-- A field of a struct over the type `T` of type nodes. -/
structure StructField (T : Type) where
  name : Name
  defaultValueStrategy : Option DefaultValueStrategy
  type : T
  defaultValue : Option ValueNode

/-- The payload of an enum variant. Of a wrapped one only the types directly in it are kept: links
are looked for in them. -/
inductive VariantPayload (T : Type)
  | empty
  | struct (fields : List (StructField T))
  | tuple (items : List T)
  | wrapped (types : List T)

structure EnumVariant (T : Type) where
  name : Name
  discriminator : Option Nat
  payload : VariantPayload T

/-- A constant with its type. -/
structure ConstantValue (T : Type) where
  type : T
  value : ValueNode

/-- Kinds of type that the code generator has no rendering for. -/
inductive UnsupportedKind
  | amount
  | dateTime
  | postOffset
  | preOffset
  | remainderOption
  | sentinel
  | solAmount
  | zeroableOption
deriving DecidableEq

inductive TypeNode
  | boolean (size : NestedTypeNode NumberTypeNode)
  | publicKey
  | number (node : NumberTypeNode)
  | string (encoding : BytesEncoding)
  | bytes
  | fixedSize (size : Nat) (type : TypeNode)
  | sizePrefix (type : TypeNode) (number : NestedTypeNode NumberTypeNode)
  | hiddenPrefix (type : TypeNode) (constants : List (ConstantValue TypeNode))
  | hiddenSuffix (type : TypeNode) (constants : List (ConstantValue TypeNode))
  | struct (fields : List (StructField TypeNode))
  | tuple (items : List TypeNode)
  | array (item : TypeNode) (count : CountNode)
  | map (key value : TypeNode) (count : CountNode)
  | set (item : TypeNode) (count : CountNode)
  | option (fixed : Option Bool) (item : TypeNode) (number : NestedTypeNode NumberTypeNode)
  | enum (variants : List (EnumVariant TypeNode)) (size : NestedTypeNode NumberTypeNode)
  | link (name : Name)
  | unsupported (kind : UnsupportedKind)

abbrev StructFieldTypeNode := StructField TypeNode
abbrev EnumVariantTypeNode := EnumVariant TypeNode
abbrev ConstantValueNode := ConstantValue TypeNode

/-- The types directly in the payload of a variant. -/
def VariantPayload.types {T : Type} : VariantPayload T → List T
  | .empty => []
  | .struct fields => fields.map StructField.type
  | .tuple items => items
  | .wrapped types => types

namespace TypeNode

/-- The types directly below a type. -/
def children : TypeNode → List TypeNode
  | .boolean _ | .publicKey | .number _ | .string _ | .bytes | .link _ | .unsupported _ => []
  | .fixedSize _ type | .sizePrefix type _ => [type]
  | .hiddenPrefix type constants | .hiddenSuffix type constants =>
      type :: constants.map ConstantValue.type
  | .struct fields => fields.map StructField.type
  | .tuple items => items
  | .array item _ | .set item _ | .option _ item _ => [item]
  | .map key value _ => [key, value]
  | .enum variants _ => variants.flatMap fun variant => variant.payload.types

theorem sizeOf_lt_of_mem_types {payload : VariantPayload TypeNode} {type : TypeNode}
    (h : type ∈ payload.types) : sizeOf type < sizeOf payload := by
  cases payload with
  | empty => cases h
  | tuple items | wrapped items =>
      have hlt : sizeOf type < sizeOf items := List.sizeOf_lt_of_mem h
      simp only [VariantPayload.tuple.sizeOf_spec, VariantPayload.wrapped.sizeOf_spec]
      omega
  | struct fields =>
      obtain ⟨⟨name, strategy, type, default⟩, hfield, rfl⟩ := List.mem_map.mp h
      have hlt := List.sizeOf_lt_of_mem hfield
      simp only [StructField.mk.sizeOf_spec, VariantPayload.struct.sizeOf_spec] at hlt ⊢
      omega

theorem sizeOf_lt_of_mem_constants {constants : List ConstantValueNode} {type : TypeNode}
    (h : type ∈ constants.map ConstantValue.type) : sizeOf type < sizeOf constants := by
  obtain ⟨⟨type, value⟩, hconstant, rfl⟩ := List.mem_map.mp h
  have hlt := List.sizeOf_lt_of_mem hconstant
  simp only [ConstantValue.mk.sizeOf_spec] at hlt ⊢
  omega

theorem sizeOf_lt_of_mem_children {type child : TypeNode} (h : child ∈ type.children) :
    sizeOf child < sizeOf type := by
  cases type with
  | boolean | publicKey | number | string | bytes | link | unsupported => cases h
  | fixedSize | sizePrefix | array | set | option =>
      obtain rfl := List.mem_singleton.mp h
      simp only [fixedSize.sizeOf_spec, sizePrefix.sizeOf_spec, array.sizeOf_spec,
        set.sizeOf_spec, option.sizeOf_spec]
      omega
  | hiddenPrefix type constants | hiddenSuffix type constants =>
      simp only [hiddenPrefix.sizeOf_spec, hiddenSuffix.sizeOf_spec]
      obtain rfl | hconstant := List.mem_cons.mp h
      · omega
      · have hlt := sizeOf_lt_of_mem_constants hconstant
        omega
  | struct fields =>
      have hlt := sizeOf_lt_of_mem_types (show child ∈ (VariantPayload.struct fields).types from h)
      simp only [VariantPayload.struct.sizeOf_spec, struct.sizeOf_spec] at hlt ⊢
      omega
  | tuple items =>
      have hlt : sizeOf child < sizeOf items := List.sizeOf_lt_of_mem h
      simp only [tuple.sizeOf_spec]
      omega
  | map key value count =>
      simp only [map.sizeOf_spec]
      obtain rfl | hvalue := List.mem_cons.mp h
      · omega
      · obtain rfl := List.mem_singleton.mp hvalue
        omega
  | enum variants size =>
      obtain ⟨⟨name, discriminator, payload⟩, hvariant, hmem⟩ := List.mem_flatMap.mp h
      have hlt := List.sizeOf_lt_of_mem hvariant
      have htype := sizeOf_lt_of_mem_types hmem
      simp only [EnumVariant.mk.sizeOf_spec, enum.sizeOf_spec] at hlt htype ⊢
      omega

/-- Induction on a type: a property of all types directly below passes to the type. -/
theorem induction {P : TypeNode → Prop}
    (step : ∀ type, (∀ child ∈ type.children, P child) → P type) (type : TypeNode) : P type := by
  induction hsize : sizeOf type using Nat.strongRecOn generalizing type with
  | _ n ih =>
      refine step type fun child hchild => ?_
      exact ih (sizeOf child) (hsize ▸ sizeOf_lt_of_mem_children hchild) child rfl

end TypeNode

inductive PdaSeedNode
  | variable (name : Name) (type : TypeNode)
  | constant (type : TypeNode) (value : BytesValueNode)

structure PdaNode where
  name : Name
  programId : Option Name
  seeds : List PdaSeedNode

/-- The kinds of default value that are read nowhere are one constructor; so is a PDA that is
not written in place. -/
inductive InstructionInputValueNode
  | publicKeyValue (publicKey : Name) (identifier : Option Name)
  | bytesValue (bytes : BytesValueNode)
  | numberValue (number : Number)
  | pdaValue (pda : PdaNode)
  | other

structure InstructionArgumentNode where
  name : Name
  defaultValueStrategy : Option DefaultValueStrategy
  type : TypeNode
  defaultValue : Option InstructionInputValueNode

structure InstructionAccountNode where
  name : Name
  isOptional : Option Bool
  defaultValue : Option InstructionInputValueNode

inductive DiscriminatorNode
  | constant (offset : Nat) (constant : ConstantValueNode)
  | field (name : Name) (offset : Nat)
  | size (size : Nat)

structure InstructionNode where
  name : Name
  accounts : List InstructionAccountNode
  arguments : List InstructionArgumentNode
  discriminators : List DiscriminatorNode

structure AccountNode where
  name : Name
  data : NestedTypeNode (List StructFieldTypeNode)
  discriminators : List DiscriminatorNode

structure EventNode where
  name : Name
  data : TypeNode
  discriminators : List DiscriminatorNode

structure DefinedTypeNode where
  name : Name
  type : TypeNode

structure ConstantNode where
  name : Name
  type : TypeNode

structure ProgramNode where
  publicKey : Name
  accounts : List AccountNode
  instructions : List InstructionNode
  definedTypes : List DefinedTypeNode
  events : List EventNode
  constants : List ConstantNode

end Shipstern.Codama
