import Shipstern.Codegen.SchemaBuild

/-!
# The proto schema

`proto_schema_string`: the messages of a schema in one flat namespace, their text, and the
positions of the dispatch messages.
-/

namespace Shipstern.Codegen

open Codama

/-- The scalar types of proto3. The encodings of prost have the same names. -/
inductive WireScalar
  | bool
  | uint32
  | uint64
  | int32
  | int64
  | float
  | double
  | string
  | bytes
deriving DecidableEq

inductive ProtoLabel
  | singular
  | optional
  | repeated
deriving DecidableEq

inductive ProtoType
  | scalar (scalar : WireScalar)
  | message (name : Name)
deriving DecidableEq

structure ProtoField where
  label : ProtoLabel
  type : ProtoType
  name : Name
  tag : Nat
deriving DecidableEq

/-- A member of a union. -/
structure ProtoMember where
  type : Name
  name : Name
  tag : Nat
deriving DecidableEq

inductive ProtoBody
  | fields (fields : List ProtoField)
  | oneof (name : Name) (members : List ProtoMember)
deriving DecidableEq

structure ProtoMessage where
  name : Name
  body : ProtoBody
deriving DecidableEq

/-! ## Text -/

def WireScalar.text : WireScalar → List Char
  | .bool => "bool".toList
  | .uint32 => "uint32".toList
  | .uint64 => "uint64".toList
  | .int32 => "int32".toList
  | .int64 => "int64".toList
  | .float => "float".toList
  | .double => "double".toList
  | .string => "string".toList
  | .bytes => "bytes".toList

def ProtoLabel.text : ProtoLabel → List Char
  | .singular => []
  | .optional => "optional ".toList
  | .repeated => "repeated ".toList

def ProtoType.text : ProtoType → List Char
  | .scalar s => s.text
  | .message name => name

/-- The end of a declaration: its name and its tag. -/
def declaredAs (name : Name) (tag : Nat) : List Char :=
  ' ' :: name ++ " = ".toList ++ Nat.toDigits 10 tag ++ ";\n".toList

def ProtoField.text (field : ProtoField) : List Char :=
  "  ".toList ++ field.label.text ++ field.type.text ++ declaredAs field.name field.tag

def ProtoMember.text (member : ProtoMember) : List Char :=
  "    ".toList ++ member.type ++ declaredAs member.name member.tag

def ProtoBody.text : ProtoBody → List Char
  | .fields fs => fs.flatMap ProtoField.text
  | .oneof name members =>
      "  oneof ".toList ++ name ++ " \x7b\n".toList ++ members.flatMap ProtoMember.text ++
        "  \x7d\n".toList

def ProtoMessage.text (message : ProtoMessage) : List Char :=
  "message ".toList ++ message.name ++ " \x7b\n".toList ++ message.body.text ++ "\x7d\n".toList

/-- Messages of the schema's own types have a line of blanks behind them. -/
def ProtoMessage.spacedText (message : ProtoMessage) : List Char :=
  message.text ++ "    \n".toList

def headerText (package : Name) : List Char :=
  "syntax = \"proto3\";\n\n".toList ++
    if package.isEmpty then [] else "package ".toList ++ package ++ ";\n\n".toList

/-! ## Names -/

namespace SchemaIr

variable (ir : SchemaIr)

def namesOf (kind : TypeKindIr → Bool) : List Name :=
  (ir.types.filter (kind ·.kind)).map (·.name)

end SchemaIr

namespace TypeKindIr

def isAccount (kind : TypeKindIr) : Bool := kind = .account
def isInstruction (kind : TypeKindIr) : Bool := kind = .instruction
def isEvent (kind : TypeKindIr) : Bool := kind = .event

/-- The Rust types outside of the modules of instructions and events. -/
def isTopLevel (kind : TypeKindIr) : Bool := !kind.isInstruction && !kind.isEvent

end TypeKindIr

namespace SchemaIr

variable (ir : SchemaIr)

def topLevelNames : List Name := ir.namesOf TypeKindIr.isTopLevel
def accountNames : List Name := ir.namesOf TypeKindIr.isAccount
def instructionNames : List Name := ir.namesOf TypeKindIr.isInstruction
def eventNames : List Name := ir.namesOf TypeKindIr.isEvent

/-- Names of instruction and event types that a top-level type has, too. -/
def collidingNames : List Name :=
  (ir.namesOf fun kind => !kind.isTopLevel).filter (ir.topLevelNames.contains ·)

/-- The messages of a dispatch. -/
def dispatchWrappers (kind : OneofKindIr) : List Name :=
  (ir.oneofs.filter (·.kind = kind)).flatMap fun oneof => oneof.variants.map (·.messageType)

def oneofParents : List Name := ir.oneofs.map (·.parentMessage)

end SchemaIr

/-- Names and what they are replaced by. -/
abbrev RenameMap := List (Name × Name)

def resolveProtoName (name : Name) (rename : RenameMap) : Name := (rename.lookup name).getD name

/-- A type of an event that has the name of another type gets a prefix. -/
def buildEventRenameMap (ir : SchemaIr) : RenameMap :=
  let nonEventNames := ir.namesOf fun kind => !kind.isEvent
  (ir.eventNames.filter (nonEventNames.contains ·)).map fun name => (name, "Evt".toList ++ name)

/-- So does a type of an instruction that has the name of a top-level type. -/
def buildInstructionRenameMap (ir : SchemaIr) : RenameMap :=
  (ir.instructionNames.filter (ir.collidingNames.contains ·)).map fun name =>
    (name, "Ix".toList ++ name)

/-! ## Messages -/

def scalarToProto : ScalarIr → ProtoType
  | .bool => .scalar .bool
  | .u8 | .u16 | .shortU16 | .uint32 => .scalar .uint32
  | .uint64 => .scalar .uint64
  | .i8 | .i16 | .int32 => .scalar .int32
  | .int64 => .scalar .int64
  | .float => .scalar .float
  | .double => .scalar .double
  | .string | .sizePrefixedString _ => .scalar .string
  | .bytes | .sizePrefixedBytes _ | .fixedBytes _ | .u128 | .i128 => .scalar .bytes
  | .publicKey => .message "PublicKey".toList

def protoLabel : LabelIr → ProtoLabel
  | .singular => .singular
  | .optional _ => .optional
  | .repeated | .fixedArray _ => .repeated

def protoField (rename : RenameMap) (field : FieldIr) : ProtoField :=
  { label := protoLabel field.label
    type :=
      match field.fieldType with
      | .scalar scalar => scalarToProto scalar
      | .message name => .message (resolveProtoName name rename)
    name := field.name
    tag := field.tag }

/-- The name of a type in the proto namespace. -/
def protoTypeName (ir : SchemaIr) (t : TypeIr) : Name :=
  match t.kind with
  | .event => resolveProtoName t.name (buildEventRenameMap ir)
  | .instruction => resolveProtoName t.name (buildInstructionRenameMap ir)
  | _ => t.name

/-- Only the messages of a dispatch point to other messages of the same kind. -/
def fieldRename (ir : SchemaIr) (t : TypeIr) : RenameMap :=
  match t.kind with
  | .event =>
      if (ir.dispatchWrappers .eventDispatch).contains t.name then buildEventRenameMap ir else []
  | .instruction =>
      if (ir.dispatchWrappers .instructionDispatch).contains t.name then
        buildInstructionRenameMap ir
      else []
  | _ => []

def renderType (ir : SchemaIr) (t : TypeIr) : ProtoMessage :=
  ⟨protoTypeName ir t, .fields (t.fields.map (protoField (fieldRename ir t)))⟩

/-- The messages of types: those of unions are left to the unions, and a name is taken once. -/
def typeMessages (ir : SchemaIr) : List Name → List TypeIr → List ProtoMessage
  | _, [] => []
  | seen, t :: types =>
      let name := protoTypeName ir t
      if ir.oneofParents.contains name then typeMessages ir seen types
      else if seen.contains name then typeMessages ir seen types
      else renderType ir t :: typeMessages ir (name :: seen) types

def publicKeyMessage : ProtoMessage :=
  ⟨"PublicKey".toList, .fields [⟨.singular, .scalar .bytes, "value".toList, 1⟩]⟩

def accountDispatchMessage (programName : Name) (accounts : List Name) : ProtoMessage :=
  ⟨accountWrapperName programName accounts,
    .oneof "account".toList (accounts.mapIdx fun i name => ⟨name, toSnakeCase name, i + 1⟩)⟩

def oneofRename (ir : SchemaIr) : OneofKindIr → RenameMap
  | .instructionDispatch => buildInstructionRenameMap ir
  | .eventDispatch => buildEventRenameMap ir
  | .enum _ => []

def renderOneofParent (ir : SchemaIr) (oneof : OneofIr) : ProtoMessage :=
  ⟨oneof.parentMessage,
    .oneof oneof.fieldName (oneof.variants.map fun v =>
      ⟨resolveProtoName v.messageType (oneofRename ir oneof.kind), toSnakeCase v.variantName,
        v.tag⟩)⟩

/-- What the loop over the unions leaves behind. -/
structure OneofScan where
  messages : List ProtoMessage
  instructionDispatchIndex : Option Nat
  hasEventDispatch : Bool

/-- The loop over the unions, when `scan.messages` come behind `count` messages. -/
def scanOneof (ir : SchemaIr) (count : Nat) (scan : OneofScan) (oneof : OneofIr) : OneofScan :=
  if oneof.variants.isEmpty then scan
  else
    { messages := scan.messages ++ [renderOneofParent ir oneof]
      instructionDispatchIndex :=
        if oneof.kind = .instructionDispatch then some (count + scan.messages.length)
        else scan.instructionDispatchIndex
      hasEventDispatch := scan.hasEventDispatch || oneof.kind = .eventDispatch }

def scanOneofs (ir : SchemaIr) (count : Nat) : OneofScan :=
  ir.oneofs.foldl (scanOneof ir count) ⟨[], none, false⟩

def programEventOutputMessage : ProtoMessage :=
  ⟨"ProgramEventOutput".toList, .fields
    [⟨.optional, .message "Instructions".toList, "instruction".toList, 1⟩,
      ⟨.repeated, .message "ProgramEvents".toList, "program_events".toList, 2⟩]⟩

structure ProtoSchemaOutput where
  messages : List ProtoMessage
  schema : List Char
  accountDispatchIndex : Option Nat
  instructionDispatchIndex : Option Nat
  programEventOutputIndex : Option Nat

def protoSchemaString (ir : SchemaIr) (package programName : Name) : ProtoSchemaOutput :=
  let types := publicKeyMessage :: typeMessages ir [] ir.types
  let accounts :=
    if ir.accountNames.isEmpty then [] else [accountDispatchMessage programName ir.accountNames]
  let scan := scanOneofs ir (types.length + accounts.length)
  let hasOutput := scan.hasEventDispatch && scan.instructionDispatchIndex.isSome
  let dispatches := accounts ++ scan.messages ++ if hasOutput then [programEventOutputMessage] else []
  { messages := types ++ dispatches
    schema := headerText package ++ types.flatMap ProtoMessage.spacedText ++
      dispatches.flatMap ProtoMessage.text
    accountDispatchIndex := if ir.accountNames.isEmpty then none else some types.length
    instructionDispatchIndex := scan.instructionDispatchIndex
    programEventOutputIndex :=
      if hasOutput then some (types.length + accounts.length + scan.messages.length) else none }

end Shipstern.Codegen
