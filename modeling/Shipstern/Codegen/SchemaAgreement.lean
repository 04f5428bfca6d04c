import Shipstern.Codegen.ProstImpls
import Shipstern.Codegen.SchemaInvariants
import Shipstern.Lib.Fallible
import Shipstern.Lib.Firsts

/-!
# The schema describes what the generated code encodes

`SchemaMatches`: the messages have distinct names, every message that one refers to is there, and
what an impl encodes are the fields of its message. `NamesApart` is the condition on the schema of
the program under which this holds.
-/

namespace Shipstern.Codegen

open Codama

/-! ## What a field is on the wire -/

structure FieldShape where
  tag : Nat
  label : ProtoLabel
  packed : Bool
  type : ProtoType
deriving DecidableEq

/-- Repeated numbers are packed in proto3. -/
def ProtoType.isPackable : ProtoType → Bool
  | .scalar .string | .scalar .bytes | .message _ => false
  | .scalar _ => true

def ProtoField.shape (field : ProtoField) : FieldShape :=
  ⟨field.tag, field.label, field.label = .repeated && field.type.isPackable, field.type⟩

def ImplLabel.toProto : ImplLabel → ProtoLabel
  | .singular => .singular
  | .optional => .optional
  | .repeated | .packed => .repeated

/-- The name of the message of a Rust type. -/
def protoNameOf (ir : SchemaIr) : RustPath → Name
  | .topLevel name | .dispatch name => name
  | .instruction name => resolveProtoName name (buildInstructionRenameMap ir)
  | .event name => resolveProtoName name (buildEventRenameMap ir)

def ImplField.shape (ir : SchemaIr) (field : ImplField) : FieldShape :=
  { tag := field.tag
    label := field.label.toProto
    packed := field.label = .packed
    type :=
      match field.type with
      | .scalar s => .scalar s
      | .publicKey => .message "PublicKey".toList
      | .message path => .message (protoNameOf ir path) }

/-- The message inside of a variant of a dispatch. -/
def DispatchVariant.shapes (ir : SchemaIr) (v : DispatchVariant) : List FieldShape :=
  [⟨1, .singular, false, .message (protoNameOf ir v.accounts)⟩,
    ⟨2, .singular, false, .message (protoNameOf ir v.args)⟩]

def ProtoBody.shapes : ProtoBody → Option (List FieldShape)
  | .fields fs => some (fs.map ProtoField.shape)
  | .oneof _ _ => none

def ProtoBody.variants : ProtoBody → Option (List (Nat × Name))
  | .fields _ => none
  | .oneof _ members => some (members.map fun member => (member.tag, member.type))

def ProtoType.reference : ProtoType → Option Name
  | .scalar _ => none
  | .message name => some name

/-- The message types that a message refers to. -/
def ProtoMessage.references (message : ProtoMessage) : List Name :=
  match message.body with
  | .fields fs => fs.filterMap (·.type.reference)
  | .oneof _ members => members.map (·.type)

/-! ## The property -/

def HasFields (messages : List ProtoMessage) (name : Name) (shapes : List FieldShape) : Prop :=
  ∃ m ∈ messages, m.name = name ∧ m.body.shapes = some shapes

def HasVariants (messages : List ProtoMessage) (name : Name) (variants : List (Nat × Name)) :
    Prop :=
  ∃ m ∈ messages, m.name = name ∧ m.body.variants = some variants

/-- The message of an impl has what the impl encodes. -/
def ProstImpl.Described (ir : SchemaIr) (messages : List ProtoMessage) (impl : ProstImpl) : Prop :=
  match impl.body with
  | .fields fields => HasFields messages (protoNameOf ir impl.type) (fields.map (·.shape ir))
  | .oneof variants =>
      HasVariants messages (protoNameOf ir impl.type)
        (variants.map fun v => (v.1, protoNameOf ir v.2))
  | .dispatch variants =>
      ∃ types, HasVariants messages (protoNameOf ir impl.type)
          ((variants.map (·.tag)).zip types) ∧
        List.Forall₂ (fun v type => HasFields messages type (v.shapes ir)) variants types

def positionOf (messages : List ProtoMessage) (name : Name) : Option Nat :=
  messages.findIdx? (·.name = name)

section

variable (programEvents : Bool) (name : Name) (program : ProgramNode) (events : List EventNode)

/-- Names are distinct, what is referred to is there, every impl encodes its message, and the
indexes are the positions of their messages. -/
structure SchemaMatches (e : Expansion) : Prop where
  distinct : (e.proto.messages.map (·.name)).Nodup
  declared : ∀ m ∈ e.proto.messages, ∀ ref ∈ m.references, ref ∈ e.proto.messages.map (·.name)
  described : ∀ impl ∈ e.impls, impl.Described e.schemaIr e.proto.messages
  accountIndex : e.proto.accountDispatchIndex =
    if program.accounts.isEmpty then none
    else positionOf e.proto.messages
      (accountWrapperName (toPascalCase name) (program.accounts.map (toPascalCase ·.name)))
  instructionIndex : e.proto.instructionDispatchIndex =
    if program.instructions.isEmpty then none
    else positionOf e.proto.messages "Instructions".toList
  outputIndex : e.proto.programEventOutputIndex =
    if program.instructions.isEmpty || !hasEvents programEvents events then none
    else positionOf e.proto.messages "ProgramEventOutput".toList

end

/-! ## The condition -/

def FieldTypeIr.reference : FieldTypeIr → Option Name
  | .scalar _ => none
  | .message name => some name

/-- The message types that the fields of a type name. -/
def TypeIr.references (t : TypeIr) : List Name := t.fields.filterMap (·.fieldType.reference)

namespace SchemaIr

variable (programName : Name) (ir : SchemaIr)

def hasDispatch (kind : OneofKindIr) : Bool := ir.oneofs.any (·.kind = kind)

/-- The union of the accounts, when there are any. -/
def accountWrappers : List Name :=
  if ir.accountNames.isEmpty then [] else [accountWrapperName programName ir.accountNames]

/-- An instruction with its events has a message when there are both. -/
def outputNames : List Name :=
  if ir.hasDispatch .eventDispatch && ir.hasDispatch .instructionDispatch then
    ["ProgramEventOutput".toList]
  else []

/-- The names of the messages that are not those of types. -/
def fixedNames : List Name :=
  "PublicKey".toList :: (ir.accountWrappers programName ++ ir.oneofParents ++ ir.outputNames)

def messageNames : List Name := ir.fixedNames programName ++ ir.types.map (protoTypeName ir)

/-- The scope of the Rust type of a schema type. -/
def scopeOf (t : TypeIr) : Scope :=
  match t.kind with
  | .instruction =>
      dispatchScope .instruction ir.instructionNames ir.collidingNames
        (ir.dispatchWrappers .instructionDispatch) t
  | .event =>
      dispatchScope .event ir.eventNames ir.collidingNames (ir.dispatchWrappers .eventDispatch) t
  | _ => .outside

/-- The type has an impl, or is the message around the accounts and arguments of one. -/
def isEncoded (t : TypeIr) : Bool := !t.kind.isTopLevel || ir.isRenderedOutside t

/-- The fields of a type, with the names that the schema has for messages. -/
def renderedShapes (t : TypeIr) : List FieldShape :=
  t.fields.map fun field => (protoField (fieldRename ir t) field).shape

/-- The fields of a type, with the names of the messages that the code encodes. -/
def encodedShapes (t : TypeIr) : List FieldShape :=
  t.fields.map fun field => (emitProstField (ir.scopeOf t) field).shape ir

/-- The first type of the same name in the proto namespace. -/
def firstOf (t : TypeIr) : Option TypeIr :=
  ir.types.find? fun u => protoTypeName ir u = protoTypeName ir t

/-- The message of the name of the type is that of the type. -/
def isRendered (t : TypeIr) : Bool :=
  !ir.oneofParents.contains (protoTypeName ir t) && ir.firstOf t = some t

/-- Names of types of events and of instructions, and of no top-level type. -/
def twinNames : List Name :=
  ir.eventNames.filter fun name =>
    ir.instructionNames.contains name && !ir.topLevelNames.contains name

/-- What a type refers to, in the proto namespace. -/
def protoReferences (t : TypeIr) : List Name :=
  t.references.map fun name => resolveProtoName name (fieldRename ir t)

end SchemaIr

/-- No message of a type has the name of another message, but that of the union of an enum. -/
structure NamesApart (programName : Name) (ir : SchemaIr) : Prop where
  fixed : (ir.fixedNames programName).Nodup
  outside : ∀ t ∈ ir.types, t.kind = .definedType ∨ t.kind = .account →
    t.name ∈ ir.fixedNames programName → t.name ∈ ir.oneofParents
  inside : ∀ t ∈ ir.types, t.kind.isTopLevel = false →
    protoTypeName ir t ∉ ir.fixedNames programName

/-- What a schema must be like for its text to fit the code. -/
structure Consistent (programName : Name) (ir : SchemaIr) : Prop where
  names : NamesApart programName ir
  /-- Types that share a name have the same fields. -/
  shared : ∀ t ∈ ir.types, ir.isEncoded t = true → ∀ u ∈ ir.types, ir.firstOf t = some u → u ≠ t →
    ir.renderedShapes u = ir.encodedShapes t
  /-- The arguments of an event name no message of an event that an instruction has, too. -/
  payloads : ∀ t ∈ ir.types, ir.isRendered t = true → t.kind = .event →
    t.name ∉ ir.dispatchWrappers .eventDispatch → ∀ name ∈ t.references, name ∉ ir.twinNames
  linked : ∀ t ∈ ir.types, ir.isRendered t = true →
    ∀ name ∈ ir.protoReferences t, name ∈ ir.messageNames programName
  output : ir.hasDispatch .eventDispatch = true → ir.hasDispatch .instructionDispatch = true

instance (programName : Name) (ir : SchemaIr) : Decidable (NamesApart programName ir) :=
  decidable_of_iff
    ((ir.fixedNames programName).Nodup ∧
      (∀ t ∈ ir.types, t.kind = .definedType ∨ t.kind = .account →
        t.name ∈ ir.fixedNames programName → t.name ∈ ir.oneofParents) ∧
      (∀ t ∈ ir.types, t.kind.isTopLevel = false →
        protoTypeName ir t ∉ ir.fixedNames programName))
    ⟨fun ⟨fixed, outside, inside⟩ => ⟨fixed, outside, inside⟩,
      fun ⟨fixed, outside, inside⟩ => ⟨fixed, outside, inside⟩⟩

-- five quantified parts make a large instance
set_option synthInstance.maxSize 512 in
instance (programName : Name) (ir : SchemaIr) : Decidable (Consistent programName ir) :=
  decidable_of_iff
    (NamesApart programName ir ∧
      (∀ t ∈ ir.types, ir.isEncoded t = true → ∀ u ∈ ir.types, ir.firstOf t = some u → u ≠ t →
        ir.renderedShapes u = ir.encodedShapes t) ∧
      (∀ t ∈ ir.types, ir.isRendered t = true → t.kind = .event →
        t.name ∉ ir.dispatchWrappers .eventDispatch → ∀ name ∈ t.references, name ∉ ir.twinNames) ∧
      (∀ t ∈ ir.types, ir.isRendered t = true →
        ∀ name ∈ ir.protoReferences t, name ∈ ir.messageNames programName) ∧
      (ir.hasDispatch .eventDispatch = true → ir.hasDispatch .instructionDispatch = true))
    ⟨fun ⟨names, shared, payloads, linked, output⟩ => ⟨names, shared, payloads, linked, output⟩,
      fun ⟨names, shared, payloads, linked, output⟩ => ⟨names, shared, payloads, linked, output⟩⟩

end Shipstern.Codegen
