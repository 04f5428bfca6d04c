import Shipstern.Codama.Nodes

/-!
# The intermediate representation of a schema

Messages with labelled fields, the unions of the enums, and the tables that the builders keep:
aliases, defined types, reserved names. `Build` is a computation of the builders. Its errors are
the panics that stop the build.
-/

namespace Shipstern.Codegen

open Codama

def toSnakeFrom (previous : Option Char) : List Char → List Char
  | [] => []
  | c :: rest =>
      let nextLower := rest.head?.any Char.isLower
      let separated := c.isUpper && previous.any fun p => !p.isUpper || nextLower
      (if separated then ['_'] else []) ++ c.toLower :: toSnakeFrom (some c) rest

def toSnakeCase (input : Name) : Name := toSnakeFrom none input

def toPascalFrom (capitalizeNext : Bool) : List Char → List Char
  | [] => []
  | '_' :: rest => toPascalFrom true rest
  | c :: rest => (if capitalizeNext then c.toUpper else c) :: toPascalFrom false rest

def toPascalCase (input : Name) : Name := toPascalFrom true input

inductive TypeKindIr
  | definedType
  | account
  | instruction
  | event
  | helper
deriving DecidableEq

inductive OptionPrefixIr
  | fixedWidth (byteLen oneValue : Nat) (bigEndian : Bool)
  | shortU16
deriving DecidableEq

structure OptionEncodingIr where
  tag : OptionPrefixIr
  nonePadding : Option Nat
deriving DecidableEq

/-- The option of Borsh itself. -/
def OptionEncodingIr.native : OptionEncodingIr := ⟨.fixedWidth 1 1 false, none⟩

inductive LabelIr
  | singular
  | optional (encoding : OptionEncodingIr)
  | repeated
  | fixedArray (n : Nat)
deriving DecidableEq

inductive ScalarIr
  | bool
  | u8
  | u16
  | shortU16
  | uint32
  | uint64
  | i8
  | i16
  | int32
  | int64
  | u128
  | i128
  | float
  | double
  | string
  | bytes
  | sizePrefixedBytes (number : NumberTypeNode)
  | sizePrefixedString (number : NumberTypeNode)
  | fixedBytes (n : Nat)
  | publicKey
deriving DecidableEq

inductive FieldTypeIr
  | scalar (scalar : ScalarIr)
  | message (name : Name)
deriving DecidableEq

structure FieldIr where
  name : Name
  tag : Nat
  label : LabelIr
  fieldType : FieldTypeIr
deriving DecidableEq

structure TypeIr where
  name : Name
  fields : List FieldIr
  kind : TypeKindIr
deriving DecidableEq

/-- What a field is: its label and its type. -/
structure TypeAliasIr where
  label : LabelIr
  fieldType : FieldTypeIr
deriving DecidableEq

structure TypeAliasDefinitionIr where
  typeNode : TypeNode
  baseName : Name

inductive OneofKindIr
  | instructionDispatch
  | eventDispatch
  | enum (number : NumberTypeNode)
deriving DecidableEq

structure OneofVariantIr where
  tag : Nat
  variantName : Name
  messageType : Name
deriving DecidableEq

structure OneofIr where
  parentMessage : Name
  fieldName : Name
  variants : List OneofVariantIr
  kind : OneofKindIr
deriving DecidableEq

structure SchemaIr where
  types : List TypeIr
  oneofs : List OneofIr
  typeAliases : List (Name × TypeAliasIr)
  typeAliasDefinitions : List (Name × TypeAliasDefinitionIr)
  definedTypeNodes : List (Name × TypeNode)
  reservedTypeNames : List Name
  materializingTypeAliases : List Name

def SchemaIr.default : SchemaIr := ⟨[], [], [], [], [], [], []⟩

/-- The panics of the builders and of the renderer. -/
inductive BuildPanic
  | cyclicAlias (name : Name)
  | unknownAlias (name : Name)
  | variableSizeOption (name : Name)
  | mapType
  | enumDiscriminator (name : Name) (variant : Nat)
  | enumTagSize (name : Name)
  | enumPayload
  | accountWrapper
  | eventWrapper
  | shortU16Endianness (field : Name)
  | sizePrefix (field : Name)
  | fixedOption (field : Name)
  | shortU16Tag (name : Name)
  | enumTag (name : Name)
  /-- The first variant is looked up. -/
  | emptyEnum (name : Name)
  /-- A name search or a chain of aliases that would not end. -/
  | endless
deriving DecidableEq

abbrev Build := StateT SchemaIr (Except BuildPanic)

namespace SchemaIr

def registerDefinedType (ir : SchemaIr) (name : Name) (node : TypeNode) : SchemaIr :=
  { ir with definedTypeNodes := (name, node) :: ir.definedTypeNodes }

def reserveTypeNames (ir : SchemaIr) (names : List Name) : SchemaIr :=
  { ir with reservedTypeNames := ir.reservedTypeNames ++ names }

def registerTypeAlias (ir : SchemaIr) (name : Name) (node : TypeNode) (baseName : Name) :
    SchemaIr :=
  { ir with typeAliasDefinitions := (name, ⟨node, baseName⟩) :: ir.typeAliasDefinitions }

def hasTypeAliasDefinition (ir : SchemaIr) (name : Name) : Bool :=
  (ir.typeAliasDefinitions.lookup name).isSome

def push (ir : SchemaIr) (type : TypeIr) : SchemaIr := { ir with types := ir.types ++ [type] }

def findType (ir : SchemaIr) (name : Name) : Option TypeIr := ir.types.find? (·.name = name)

/-- The names that `push_unique_type` tries, in order. -/
def candidate (base : Name) : Nat → Name
  | 0 => base
  | n + 1 => base ++ Nat.toDigits 10 (n + 2)

/-- A helper may take the name: it is not reserved, and a type of that name is the helper itself. -/
def usable (ir : SchemaIr) (msg : TypeIr) (name : Name) : Bool :=
  !ir.reservedTypeNames.contains name &&
    match ir.findType name with
    | some existing => existing = { msg with name }
    | none => (ir.typeAliases.lookup name).isNone

/-- The number of names that can stop the search. -/
def takenNames (ir : SchemaIr) : Nat :=
  ir.reservedTypeNames.length + ir.types.length + ir.typeAliases.length

def uniqueName (ir : SchemaIr) (msg : TypeIr) : Option Name :=
  ((List.range (ir.takenNames + 1)).map (candidate msg.name)).find? (ir.usable msg)

end SchemaIr

/-- Insert a helper, under a name with a number when the name is taken. -/
def pushUniqueType (msg : TypeIr) : Build Name := do
  let ir ← get
  match ir.uniqueName msg with
  | none => throw .endless
  | some name => do
      if (ir.findType name).isNone then set (ir.push { msg with name })
      pure name

/-- Follow aliases of a message, at most once each. -/
def resolveFrom (aliases : List (Name × TypeAliasIr)) :
    Nat → List Name → FieldTypeIr → LabelIr × FieldTypeIr
  | _, _, .scalar scalar => (.singular, .scalar scalar)
  | 0, _, .message name => (.singular, .message name)
  | room + 1, seen, .message name =>
      match aliases.lookup name with
      | none => (.singular, .message name)
      | some alias' =>
          if seen.contains name then (.singular, .message name)
          else if alias'.label ≠ .singular then (alias'.label, alias'.fieldType)
          else resolveFrom aliases room (name :: seen) alias'.fieldType

/-- A field of a type that is no wrapper. -/
def SchemaIr.resolveField (ir : SchemaIr) (fieldType : FieldTypeIr) : LabelIr × FieldTypeIr :=
  resolveFrom ir.typeAliases (ir.typeAliases.length + 1) [] fieldType

/-! ## Fixed sizes -/

def numberWireSize : NumberFormat → Option Nat
  | .u8 | .i8 => some 1
  | .u16 | .i16 => some 2
  | .u32 | .i32 | .f32 => some 4
  | .u64 | .i64 | .f64 => some 8
  | .u128 | .i128 => some 16
  | .shortU16 => none

def optionPrefixWireSize : NumberFormat → Option Nat
  | .shortU16 => some 1
  | format => numberWireSize format

/-- A `usize`, when it fits. -/
def checkedUsize (n : Nat) : Option Nat := if n < 2 ^ 64 then some n else none

section FixedSize

variable (link : Name → Option Nat)

mutual

/-- The size of a type, given the sizes of links. -/
def fixedSizeWith : TypeNode → Option Nat
  | .boolean _ => some 1
  | .publicKey => some 32
  | .number number => numberWireSize number.format
  | .fixedSize size _ => some size
  | .struct fields => fixedSizeFields 0 fields
  | .tuple items => fixedSizeItems 0 items
  | .array item (.fixed count) => do checkedUsize ((← fixedSizeWith item) * count)
  | .option fixed item number =>
      if fixed.getD false then do
        let tag ← optionPrefixWireSize number.getNestedTypeNode.format
        checkedUsize (tag + (← fixedSizeWith item))
      else none
  | .link name => link (toPascalCase name)
  | _ => none

def fixedSizeItems (size : Nat) : List TypeNode → Option Nat
  | [] => some size
  | item :: items => do fixedSizeItems (← checkedUsize (size + (← fixedSizeWith item))) items

def fixedSizeFields (size : Nat) : List StructFieldTypeNode → Option Nat
  | [] => some size
  | ⟨_, strategy, type, _⟩ :: fields =>
      if strategy = some .omitted then fixedSizeFields size fields
      else do fixedSizeFields (← checkedUsize (size + (← fixedSizeWith type))) fields

end

end FixedSize

/-- The size of a type. A link that is being visited has none. -/
def fixedSizeAt (defs : List (Name × TypeNode)) : Nat → List Name → TypeNode → Option Nat
  | 0, _, _ => none
  | room + 1, visiting, node =>
      fixedSizeWith
        (fun name =>
          if visiting.contains name then none
          else (defs.lookup name).bind (fixedSizeAt defs room (name :: visiting)))
        node

/-- Every link that is visited is another defined type. -/
def SchemaIr.fixedSizeOfType (ir : SchemaIr) (node : TypeNode) : Option Nat :=
  fixedSizeAt ir.definedTypeNodes (ir.definedTypeNodes.length + 1) [] node

end Shipstern.Codegen
