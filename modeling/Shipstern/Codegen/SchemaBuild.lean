import Shipstern.Codegen.Discriminator
import Shipstern.Codegen.Materialize

/-!
# From a program to its schema

`build_schema_ir` and the builders of defined types, accounts, instructions and events. The names
of the messages that these builders write down directly are reserved first, so that no helper
takes one of them. Text is ASCII. The feature `program-events` is a parameter.
-/

namespace Shipstern.Codegen

open Codama

def pushType (type : TypeIr) : Build Unit := modify (·.push type)

def SchemaIr.withOneof (ir : SchemaIr) (oneof : OneofIr) : SchemaIr :=
  { ir with oneofs := ir.oneofs ++ [oneof] }

def pushOneof (oneof : OneofIr) : Build Unit := modify (·.withOneof oneof)

/-! ## Defined types -/

/-- Structs, enums and tuples of other than one item keep their names. -/
def isConcrete : TypeNode → Bool
  | .struct _ | .enum _ _ => true
  | .tuple items => items.length ≠ 1
  | _ => false

/-- A tuple of one item stands for its item. -/
def aliasDefinition (name : Name) : TypeNode → Option TypeAliasDefinitionIr
  | .tuple [item] => some ⟨item, name ++ "Item0".toList⟩
  | .tuple _ | .struct _ | .enum _ _ => none
  | node => some ⟨node, name⟩

def registerDefined (ir : SchemaIr) (definedType : DefinedTypeNode) : SchemaIr :=
  ir.registerDefinedType (toPascalCase definedType.name) definedType.type

def registerAlias (ir : SchemaIr) (definedType : DefinedTypeNode) : SchemaIr :=
  let name := toPascalCase definedType.name
  match aliasDefinition name definedType.type with
  | some definition => ir.registerTypeAlias name definition.typeNode definition.baseName
  | none => ir

def aliasNames (definedTypes : List DefinedTypeNode) : List Name :=
  definedTypes.filterMap fun definedType =>
    let name := toPascalCase definedType.name
    (aliasDefinition name definedType.type).map fun _ => name

def concreteNames (definedTypes : List DefinedTypeNode) : List Name :=
  (definedTypes.filter (isConcrete ·.type)).map (toPascalCase ·.name)

def buildDefinedTypeStruct (name : Name) (fields : List StructFieldTypeNode) : Build Unit := do
  let fields ← buildFieldsIr name fields
  pushType ⟨name, fields, .definedType⟩

def definedItemBase (name : Name) (i : Nat) : Name := name ++ "Item".toList ++ Nat.toDigits 10 i

def buildDefinedTypeTuple (name : Name) (items : List TypeNode) : Build Unit := do
  let fields ← materializeItems aliasField (definedItemBase name) 0 items
  pushType ⟨name, fields, .definedType⟩

/-- The fields of the message of a variant. -/
def buildEnumVariantPayload (payloadName : Name) :
    VariantPayload TypeNode → Build (List FieldIr)
  | .empty => pure []
  | .tuple items => materializeItems aliasField (tupleItemBase payloadName) 0 items
  | .struct fields => buildFieldsIr payloadName fields
  | .wrapped _ => throw .enumPayload

/-- The variants of an enum, from a position on. -/
def buildEnumVariants (enumName : Name) (i : Nat) :
    List EnumVariantTypeNode → Build (List OneofVariantIr)
  | [] => pure []
  | ⟨name, discriminator, payload⟩ :: variants => do
      if discriminator.any (· ≠ i) then throw (.enumDiscriminator enumName i)
      let payloadName := enumName ++ toPascalCase name
      let fields ← buildEnumVariantPayload payloadName payload
      let messageType ← pushUniqueType ⟨payloadName, fields, .helper⟩
      let variants ← buildEnumVariants enumName (i + 1) variants
      pure (⟨i + 1, toPascalCase name, messageType⟩ :: variants)

def buildDefinedTypeEnum (enumName : Name) (variants : List EnumVariantTypeNode)
    (size : NestedTypeNode NumberTypeNode) : Build Unit := do
  let variants ← buildEnumVariants enumName 0 variants
  pushType ⟨enumName, [], .definedType⟩
  match size with
  | .value number => pushOneof ⟨enumName, "kind".toList, variants, .enum number⟩
  | .wrapped _ _ => throw (.enumTagSize enumName)

def buildDefinedType (definedType : DefinedTypeNode) : Build Unit :=
  let name := toPascalCase definedType.name
  match definedType.type with
  | .struct fields => buildDefinedTypeStruct name fields
  | .enum variants size => buildDefinedTypeEnum name variants size
  | .tuple [_] => pure ()
  | .tuple items => buildDefinedTypeTuple name items
  | _ => pure ()

def buildDefinedTypes (definedTypes : List DefinedTypeNode) : Build Unit := do
  modify fun ir => definedTypes.foldl registerDefined ir
  modify (·.reserveTypeNames (concreteNames definedTypes))
  modify fun ir => definedTypes.foldl registerAlias ir
  (aliasNames definedTypes).forM fun name => discard (aliasField name)
  definedTypes.forM buildDefinedType

/-! ## Accounts -/

def unwrapNestedStruct :
    NestedTypeNode (List StructFieldTypeNode) → Except BuildPanic (List StructFieldTypeNode)
  | .value fields => .ok fields
  | .wrapped .fixedSize inner | .wrapped .hiddenPrefix inner | .wrapped .hiddenSuffix inner
  | .wrapped .sizePrefix inner => unwrapNestedStruct inner
  | .wrapped _ _ => .error .accountWrapper

def buildAccount (account : AccountNode) : Build Unit := do
  let name := toPascalCase account.name
  let struct ← unwrapNestedStruct account.data
  let fields ← buildFieldsIr name struct
  pushType ⟨name, fields, .account⟩

def buildAccounts (accounts : List AccountNode) : Build Unit := accounts.forM buildAccount

/-! ## Instructions and events -/

def accountsName (name : Name) : Name := name ++ "Accounts".toList
def argsName (name : Name) : Name := name ++ "Args".toList

def remainingAccounts (tag : Nat) : FieldIr :=
  ⟨"remaining_accounts".toList, tag, .repeated, .scalar .publicKey⟩

def accountField (i : Nat) (account : InstructionAccountNode) : FieldIr :=
  ⟨toSnakeCase account.name, i + 1,
    if account.isOptional.getD false then .optional .native else .singular, .scalar .publicKey⟩

/-- The remaining accounts come last, unless the instruction has such an account itself. -/
def accountFields (accounts : List InstructionAccountNode) : List FieldIr :=
  let declared := accounts.mapIdx accountField
  if declared.any (·.name = "remaining_accounts".toList) then declared
  else declared ++ [remainingAccounts (declared.length + 1)]

/-- The fields of the message that holds the accounts and the arguments. -/
def payloadFields (name : Name) : List FieldIr :=
  [⟨"accounts".toList, 1, .singular, .message (accountsName name)⟩,
    ⟨"args".toList, 2, .singular, .message (argsName name)⟩]

def argumentField (argument : InstructionArgumentNode) : StructFieldTypeNode :=
  ⟨argument.name, argument.defaultValueStrategy, argument.type, none⟩

/-- A defined type takes the place of arguments of the same name. -/
def collidesWithDefinedType (ir : SchemaIr) (name : Name) : Bool :=
  ir.types.any fun t => t.name = name ∧ t.kind = .definedType

def buildInstructionMessages (ix : InstructionNode) : Build Unit := do
  let name := toPascalCase ix.name
  pushType ⟨accountsName name, accountFields ix.accounts, .instruction⟩
  let argFields ← buildFieldsIr (argsName name) (ix.arguments.map argumentField)
  let ir ← get
  if collidesWithDefinedType ir (argsName name) then pure ()
  else pushType ⟨argsName name, argFields, .instruction⟩
  pushType ⟨name, payloadFields name, .instruction⟩

/-- The variants of a dispatch: one for each name, in order. -/
def dispatchVariants (names : List Name) : List OneofVariantIr :=
  names.mapIdx fun i name => ⟨i + 1, toPascalCase name, toPascalCase name⟩

def buildInstructionDispatchOneof (instructions : List InstructionNode) : Build Unit :=
  if instructions.isEmpty then pure ()
  else pushOneof ⟨"Instructions".toList, "instruction".toList,
    dispatchVariants (instructions.map (·.name)), .instructionDispatch⟩

def buildInstructionsSchema (instructions : List InstructionNode) : Build Unit := do
  instructions.forM buildInstructionMessages
  buildInstructionDispatchOneof instructions

/-- The struct inside the data wrappers of an event, if there is one. -/
def eventStruct (data : TypeNode) : Option (List StructFieldTypeNode) :=
  (unwrapEventStruct data).toOption

/-- The fields of the data of an event. -/
def eventFields (ev : EventNode) : Except BuildPanic (List StructFieldTypeNode) :=
  match eventStruct ev.data with
  | some fields => .ok fields
  | none => .error .eventWrapper

def buildEventMessages (ev : EventNode) : Build Unit := do
  let name := toPascalCase ev.name
  pushType ⟨accountsName name, [remainingAccounts 1], .event⟩
  let struct ← eventFields ev
  let argFields ← buildFieldsIr (argsName name) struct
  pushType ⟨argsName name, argFields, .event⟩
  pushType ⟨name, payloadFields name, .event⟩

def buildEventDispatchOneof (events : List EventNode) : Build Unit :=
  pushOneof ⟨"ProgramEvents".toList, "event".toList, dispatchVariants (events.map (·.name)),
    .eventDispatch⟩

def buildEventsSchema (events : List EventNode) : Build Unit := do
  events.forM buildEventMessages
  buildEventDispatchOneof events

/-! ## Event payloads that are linked to -/

mutual

/-- The type names that a type links to. -/
def collectLinks : TypeNode → List Name
  | .link name => [toPascalCase name]
  | .struct fields => collectFieldLinks fields
  | .tuple items => collectItemLinks items
  | .enum variants _ => collectVariantLinks variants
  | .map key value _ => collectLinks key ++ collectLinks value
  | .option _ item _ | .array item _ | .set item _ => collectLinks item
  | .hiddenPrefix type _ | .hiddenSuffix type _ | .fixedSize _ type | .sizePrefix type _ =>
      collectLinks type
  | _ => []

def collectFieldLinks : List StructFieldTypeNode → List Name
  | [] => []
  | ⟨_, _, type, _⟩ :: fields => collectLinks type ++ collectFieldLinks fields

def collectItemLinks : List TypeNode → List Name
  | [] => []
  | item :: items => collectLinks item ++ collectItemLinks items

def collectVariantLinks : List EnumVariantTypeNode → List Name
  | [] => []
  | ⟨_, _, payload⟩ :: variants => collectPayloadLinks payload ++ collectVariantLinks variants

def collectPayloadLinks : VariantPayload TypeNode → List Name
  | .empty => []
  | .struct fields => collectFieldLinks fields
  | .tuple items | .wrapped items => collectItemLinks items

end

/-- Rounds over the events that may be scanned, until each of them is. A round scans an event of
another name, so there is room for one round for each event and a last one. -/
def scanEvents (scannable : List Name → EventNode → Bool) (events : List EventNode) :
    Nat → List Name → List Name → List Name
  | 0, _, links => links
  | room + 1, scanned, links =>
      match events.filter fun event => scannable links event && !scanned.contains event.name with
      | [] => links
      | pending =>
          scanEvents scannable events room (scanned ++ pending.map (·.name))
            (links ++ pending.flatMap (collectLinks ·.data))

section

variable (programEvents : Bool) (program : ProgramNode) (events : List EventNode)

def rootLinks : List Name :=
  collectItemLinks (program.definedTypes.map (·.type) ++
    program.accounts.flatMap (fun account => account.data.getNestedTypeNode.map (·.type)) ++
    program.instructions.flatMap (fun ix => ix.arguments.map (·.type)))

/-- Converters keep the payloads of events out of the defined types, so a link to one would
dangle. -/
def linkedEventPayloads : List DefinedTypeNode :=
  let defined := program.definedTypes.map (toPascalCase ·.name)
  let isLinked (links : List Name) (event : EventNode) : Bool :=
    links.contains (toPascalCase event.name) && !defined.contains (toPascalCase event.name)
  let links := scanEvents (fun links event => programEvents || isLinked links event) events
    (events.length + 1) [] (rootLinks program)
  (events.filter (isLinked links)).filterMap fun event =>
    (eventStruct event.data).map fun payload => ⟨event.name, .struct payload⟩

/-! ## The schema -/

/-- The union of the accounts, under another name when an account has this one. -/
def accountWrapperName (programName : Name) (accounts : List Name) : Name :=
  if programName ++ "Account".toList ∈ accounts then programName ++ "AccountOutput".toList
  else programName ++ "Account".toList

/-- The three messages of an instruction or an event. -/
def tripleNames (name : Name) : List Name := [name, accountsName name, argsName name]

def hasEvents : Bool := programEvents && !events.isEmpty

/-- The names that the builders of accounts, instructions and events write down. -/
def directMessageNames (programName : Name) : List Name :=
  let accounts := program.accounts.map (toPascalCase ·.name)
  ["PublicKey".toList] ++ accounts ++
    (if accounts.isEmpty then [] else [accountWrapperName programName accounts]) ++
    program.instructions.flatMap (fun ix => tripleNames (toPascalCase ix.name)) ++
    (if program.instructions.isEmpty then [] else ["Instructions".toList]) ++
    (if hasEvents programEvents events then
      events.flatMap (fun ev => tripleNames (toPascalCase ev.name)) ++ ["ProgramEvents".toList] ++
        (if program.instructions.isEmpty then [] else ["ProgramEventOutput".toList])
    else [])

/-- The schema of a program. The events are those of the program, with their envelopes read. -/
def buildSchemaIr (programName : Name) : Build Unit := do
  modify (·.reserveTypeNames (directMessageNames programEvents program events programName))
  buildDefinedTypes (program.definedTypes ++ linkedEventPayloads programEvents program events)
  buildAccounts program.accounts
  buildInstructionsSchema program.instructions
  if hasEvents programEvents events then buildEventsSchema events else pure ()

end

end Shipstern.Codegen
