import Shipstern.Codegen.ProtoSchema

/-!
# What the generated code encodes

`rust_types_from_ir` and `manual_prost`: the Rust types that get a manual `prost::Message` impl,
and the fields that the impl encodes. A name in a field is local to the module of the type or
means a type outside of the modules.
-/

namespace Shipstern.Codegen

open Codama

/-- A type of the generated code: outside of modules, in one of the two modules, or the wrapper
of a dispatch, with the name of its message. -/
inductive RustPath
  | topLevel (name : Name)
  | instruction (name : Name)
  | event (name : Name)
  | dispatch (parentMessage : Name)
deriving DecidableEq

/-- Where a type is rendered. -/
structure Scope where
  path : Name → RustPath
  locals : List Name

def Scope.outside : Scope := ⟨.topLevel, []⟩

def Scope.resolveMsg (scope : Scope) (msg : Name) : RustPath :=
  if scope.locals.contains msg then scope.path msg else .topLevel msg

inductive ImplLabel
  | singular
  | optional
  | repeated
  | packed
deriving DecidableEq

inductive ImplType
  | scalar (encoding : WireScalar)
  /-- The wrapper message of a key. -/
  | publicKey
  | message (path : RustPath)
deriving DecidableEq

structure ImplField where
  tag : Nat
  label : ImplLabel
  type : ImplType
deriving DecidableEq

structure DispatchVariant where
  tag : Nat
  accounts : RustPath
  args : RustPath
deriving DecidableEq

inductive ImplBody
  | fields (fields : List ImplField)
  | oneof (variants : List (Nat × RustPath))
  | dispatch (variants : List DispatchVariant)
deriving DecidableEq

structure ProstImpl where
  type : RustPath
  body : ImplBody
deriving DecidableEq

/-! ## Fields -/

def needsWidening : ScalarIr → Bool
  | .u8 | .u16 | .shortU16 | .i8 | .i16 => true
  | _ => false

def needsBytesConversion : ScalarIr → Bool
  | .u128 | .i128 => true
  | _ => false

def isLengthDelimited : ScalarIr → Bool
  | .string | .sizePrefixedString _ | .bytes | .sizePrefixedBytes _ | .fixedBytes _ => true
  | _ => false

def prostEncodingMod : ScalarIr → ImplType
  | .bool => .scalar .bool
  | .u8 | .u16 | .shortU16 | .uint32 => .scalar .uint32
  | .uint64 => .scalar .uint64
  | .i8 | .i16 | .int32 => .scalar .int32
  | .int64 => .scalar .int64
  | .float => .scalar .float
  | .double => .scalar .double
  | .string | .sizePrefixedString _ => .scalar .string
  | .bytes | .sizePrefixedBytes _ | .fixedBytes _ | .u128 | .i128 => .scalar .bytes
  | .publicKey => .publicKey

def repeatedLabel : FieldTypeIr → ImplLabel
  | .message _ | .scalar .publicKey => .repeated
  | .scalar s =>
      if needsWidening s then .packed
      else if needsBytesConversion s then .repeated
      else if isLengthDelimited s then .repeated
      else .packed

def implLabel (fieldType : FieldTypeIr) : LabelIr → ImplLabel
  | .singular => .singular
  | .optional _ => .optional
  | .repeated | .fixedArray _ => repeatedLabel fieldType

def emitProstField (scope : Scope) (field : FieldIr) : ImplField :=
  { tag := field.tag
    label := implLabel field.fieldType field.label
    type :=
      match field.fieldType with
      | .message msg => .message (scope.resolveMsg msg)
      | .scalar s => prostEncodingMod s }

def sizePrefixOf : FieldTypeIr → Option NumberTypeNode
  | .scalar (.sizePrefixedBytes number) | .scalar (.sizePrefixedString number) => some number
  | _ => none

/-- The length prefixes that there is a reader for. -/
def checkPrefix (field : Name) (number : NumberTypeNode) : Except BuildPanic Unit :=
  match number.format with
  | .shortU16 => if number.endian = .le then .ok () else .error (.shortU16Endianness field)
  | .u8 | .u16 | .u32 | .u64 | .u128 => .ok ()
  | _ => .error (.sizePrefix field)

/-- The Borsh attributes of a field, of which only the panics are kept. -/
def checkField (field : FieldIr) : Except BuildPanic Unit :=
  match sizePrefixOf field.fieldType with
  | none => .ok ()
  | some number => do
      checkPrefix field.name number
      match field.label with
      | .optional encoding =>
          if encoding.nonePadding.isSome then .error (.fixedOption field.name) else .ok ()
      | _ => .ok ()

/-! ## Types -/

def prostStructImpl (scope : Scope) (t : TypeIr) : ProstImpl :=
  ⟨scope.path t.name, .fields (t.fields.map (emitProstField scope))⟩

def renderStructType (scope : Scope) (t : TypeIr) : Except BuildPanic ProstImpl := do
  t.fields.forM checkField
  pure (prostStructImpl scope t)

/-- Inside of a module, only the messages of the dispatch mean local types where a top-level type
has the name, too. -/
def dispatchScope (path : Name → RustPath) (localNames collisions wrapperNames : List Name)
    (t : TypeIr) : Scope :=
  ⟨path, if wrapperNames.contains t.name then localNames
    else localNames.filter (!collisions.contains ·)⟩

/-- The arguments may be a re-exported type of the top level. -/
def dispatchVariant (path : Name → RustPath) (localNames : List Name) (v : OneofVariantIr) :
    DispatchVariant :=
  { tag := v.tag
    accounts := path (accountsName v.messageType)
    args :=
      if localNames.contains (argsName v.messageType) then path (argsName v.messageType)
      else .topLevel (argsName v.messageType) }

def renderDispatch (oneof : OneofIr) (path : Name → RustPath) (payloadTypes : List TypeIr)
    (localNames collisions : List Name) : Except BuildPanic (List ProstImpl) := do
  let wrapperNames := oneof.variants.map (·.messageType)
  let types ← payloadTypes.mapM fun t =>
    renderStructType (dispatchScope path localNames collisions wrapperNames t) t
  pure (types ++ [⟨.dispatch oneof.parentMessage,
    .dispatch (oneof.variants.map (dispatchVariant path localNames))⟩])

/-- The Rust integer of a tag, of which only the panics are kept. -/
def enumTagType (oneof : OneofIr) (number : NumberTypeNode) : Except BuildPanic Unit :=
  match number.format with
  | .shortU16 =>
      if oneof.variants.length ≤ 128 then .ok () else .error (.shortU16Tag oneof.parentMessage)
  | .f32 | .f64 => .error (.enumTag oneof.parentMessage)
  | _ => .ok ()

def renderEnumOneof (oneof : OneofIr) (number : NumberTypeNode) :
    Except BuildPanic (List ProstImpl) := do
  enumTagType oneof number
  match oneof.variants with
  | [] => .error (.emptyEnum oneof.parentMessage)
  | variants =>
      pure [⟨.topLevel oneof.parentMessage,
        .oneof (variants.map fun v => (v.tag, .topLevel v.messageType))⟩]

namespace SchemaIr

variable (ir : SchemaIr)

def dispatchOneofParents : List Name :=
  (ir.oneofs.filter fun oneof =>
    oneof.kind = .instructionDispatch ∨ oneof.kind = .eventDispatch).map (·.parentMessage)

/-- Types outside of the modules: not the unions, and no defined type that an account shadows. -/
def isRenderedOutside (t : TypeIr) : Bool :=
  !ir.oneofParents.contains t.name && t.kind.isTopLevel &&
    !(t.kind = .definedType && ir.accountNames.contains t.name)

def payloadTypes (kind : TypeKindIr → Bool) : List TypeIr :=
  (ir.types.filter (kind ·.kind)).filter (!ir.dispatchOneofParents.contains ·.name)

end SchemaIr

def renderOneof (ir : SchemaIr) (oneof : OneofIr) : Except BuildPanic (List ProstImpl) :=
  match oneof.kind with
  | .instructionDispatch =>
      renderDispatch oneof .instruction (ir.payloadTypes TypeKindIr.isInstruction)
        ir.instructionNames ir.collidingNames
  | .eventDispatch =>
      renderDispatch oneof .event (ir.payloadTypes TypeKindIr.isEvent) ir.eventNames
        ir.collidingNames
  | .enum number => renderEnumOneof oneof number

def rustTypesFromIr (ir : SchemaIr) : Except BuildPanic (List ProstImpl) := do
  let types ← (ir.types.filter ir.isRenderedOutside).mapM (renderStructType .outside)
  let oneofs ← ir.oneofs.mapM (renderOneof ir)
  pure (types ++ oneofs.flatten)

/-! ## The parsers -/

/-- The wrapper of the accounts, when there are any. -/
def accountParserImpls (programName : Name) (accounts : List AccountNode) : List ProstImpl :=
  let names := accounts.map (toPascalCase ·.name)
  if names.isEmpty then []
  else [⟨.topLevel (accountWrapperName programName names),
    .oneof (names.mapIdx fun i name => (i + 1, .topLevel name))⟩]

/-- An instruction with the events that it reports. -/
def programEventOutputImpl (hasInstructions : Bool) : ProstImpl :=
  let instruction : List ImplField :=
    if hasInstructions then [⟨1, .optional, .message (.dispatch "Instructions".toList)⟩] else []
  ⟨.topLevel "ProgramEventOutput".toList,
    .fields (instruction ++ [⟨2, .repeated, .message (.dispatch "ProgramEvents".toList)⟩])⟩

structure Expansion where
  schemaIr : SchemaIr
  impls : List ProstImpl
  proto : ProtoSchemaOutput

/-- What the macro makes of a program, as far as messages go. -/
def expand (programEvents : Bool) (name : Name) (program : ProgramNode) (events : List EventNode) :
    Except BuildPanic Expansion := do
  let programName := toPascalCase name
  let ((), ir) ← (buildSchemaIr programEvents program events programName).run .default
  let types ← rustTypesFromIr ir
  let accounts := accountParserImpls programName program.accounts
  let output :=
    if hasEvents programEvents events then [programEventOutputImpl !program.instructions.isEmpty]
    else []
  pure
    { schemaIr := ir
      impls := types ++ accounts ++ output
      proto := protoSchemaString ir (toSnakeCase name) programName }

end Shipstern.Codegen
