import Shipstern.Anchor.FixedSizes
import Shipstern.Lib.SortedKeys

/-!
# The passes over a converted program

`passes::run` sets the well-known addresses of accounts, writes a struct in place of the one link
to it, flattens struct arguments, and writes `[u8; n]` as bytes. Links are counted by the walker
that `check_renderable` uses, and types are rewritten by its mutable version.

A walk that replaces links does not follow a structure that gets smaller, so walks have room for
so many levels and give nothing beyond it.
-/

namespace Shipstern.Anchor

open Codama

/-! ## Addresses of accounts -/

/-- The names of each rule in camel case, its address, and the identifier of the address. -/
def addressRules : List (List String × String × Option String) :=
  [ (["systemProgram", "splSystemProgram"], "11111111111111111111111111111111", some "splSystem"),
    (["tokenProgram", "splTokenProgram"], "TokenkegQfeZyiNwAJbNbGKPFXCWuBvf9Ss623VQ5DA",
      some "splToken"),
    (["ataProgram", "splAtaProgram"], "ATokenGPvbdGVxr1b2hvZbsiqW5xWH25efTNsLJA8knL",
      some "splAssociatedToken"),
    (["tokenMetadataProgram", "mplTokenMetadataProgram"],
      "metaqbxxUerdq28cj1RbAWkYQm3ybzjb6a8bt518x1s", some "mplTokenMetadata"),
    (["tokenAuthRulesProgram", "mplTokenAuthRulesProgram", "authorizationRulesProgram",
        "mplAuthorizationRulesProgram", "authRulesProgram", "mplAuthRulesProgram"],
      "auth9SigNpDKz4sJJ1DfCTuZrZNSAgh9sFD3rboVmgg", some "mplTokenAuthRules"),
    (["candyMachineProgram", "mplCandyMachineProgram"],
      "CndyV3LdqHUfDLmE5naZjVN8rBZz4tqhdefbAnjHG3JR", some "mplCandyMachine"),
    (["candyGuardProgram", "mplCandyGuardProgram"],
      "Guard1JwRhJkVH6XZhzoYxeBVQe872VH6QggF4BWmS9g", some "mplCandyGuard"),
    (["clockSysvar", "sysvarClock"], "SysvarC1ock11111111111111111111111111111111", none),
    (["epochScheduleSysvar", "sysvarEpochSchedule"],
      "SysvarEpochSchedu1e111111111111111111111111", none),
    (["instructionSysvar", "instructionsSysvar", "sysvarInstruction", "sysvarInstructions",
        "instructionSysvarAccount", "instructionsSysvarAccount", "sysvarInstructionAccount",
        "sysvarInstructionsAccount"],
      "Sysvar1nstructions1111111111111111111111111", none),
    (["recentBlockhashesSysvar", "sysvarRecentBlockhashes"],
      "SysvarRecentB1ockHashes11111111111111111111", none),
    (["rent", "rentSysvar", "sysvarRent"], "SysvarRent111111111111111111111111111111111", none),
    (["rewardsSysvar", "sysvarRewards"], "SysvarRewards111111111111111111111111111111", none),
    (["slotHashesSysvar", "sysvarSlotHashes"], "SysvarS1otHashes111111111111111111111111111",
      none),
    (["slotHistorySysvar", "sysvarSlotHistory"],
      "SysvarS1otHistory11111111111111111111111111", none),
    (["stakeHistorySysvar", "sysvarStakeHistory"],
      "SysvarStakeHistory1111111111111111111111111", none),
    (["mplCoreProgram"], "CoREENxT6tW1HoK8ypY1SxRMZTcVPm7R94rH4PZNhX7d", some "mplCore") ]

/-- The first rule that matches the name. -/
def commonAccountAddress (name : Name) : Option (Name × Option Name) :=
  (addressRules.find? fun rule => rule.1.any (·.toList = name)).map fun rule =>
    (rule.2.1.toList, rule.2.2.map String.toList)

/-- An optional account and one with a default value stay as they are. -/
def setAccountDefaultValue (account : InstructionAccountNode) : InstructionAccountNode :=
  if account.isOptional.getD false || account.defaultValue.isSome then account
  else
    match commonAccountAddress account.name with
    | none => account
    | some (publicKey, identifier) =>
        { account with
          defaultValue := some (.publicKeyValue publicKey (identifier.map camelCase)) }

def setInstructionAccountDefaultValues (program : ProgramNode) : ProgramNode :=
  { program with
    instructions := program.instructions.map fun ix =>
      { ix with accounts := ix.accounts.map setAccountDefaultValue } }

/-! ## The mutable walker -/

section Walker

variable (f : TypeNode → Option TypeNode)

def structChildrenMut (fields : List StructFieldTypeNode) : Option (List StructFieldTypeNode) :=
  fields.mapM fun field => (f field.type).map fun type => { field with type }

def constantChildrenMut (constants : List ConstantValueNode) : Option (List ConstantValueNode) :=
  constants.mapM fun constant => (f constant.type).map fun type => { constant with type }

def payloadChildrenMut : VariantPayload TypeNode → Option (VariantPayload TypeNode)
  | .struct fields => (structChildrenMut f fields).map .struct
  | .tuple items => (items.mapM f).map .tuple
  | .empty => some .empty
  | .wrapped types => some (.wrapped types)

def variantChildrenMut (variants : List EnumVariantTypeNode) : Option (List EnumVariantTypeNode) :=
  variants.mapM fun variant =>
    (payloadChildrenMut f variant.payload).map fun payload => { variant with payload }

/-- `for_each_child_mut`: the type, with every type that the walker finds in it replaced. -/
def forEachChildMut : TypeNode → Option TypeNode
  | .array item count => (f item).map (.array · count)
  | .fixedSize size type => (f type).map (.fixedSize size)
  | .sizePrefix type number => (f type).map (.sizePrefix · number)
  | .option fixed item number => (f item).map (.option fixed · number)
  | .hiddenPrefix type constants => do
      let type ← f type
      let constants ← constantChildrenMut f constants
      some (.hiddenPrefix type constants)
  | .struct fields => (structChildrenMut f fields).map .struct
  | .tuple items => (items.mapM f).map .tuple
  | .enum variants size => (variantChildrenMut f variants).map (.enum · size)
  | type => some type

def seedTypeMut : PdaSeedNode → Option PdaSeedNode
  | .variable name type => (f type).map (.variable name)
  | .constant type value => (f type).map (.constant · value)

/-- The seeds of a PDA that is the default value of the account. -/
def seedTypesMut (account : InstructionAccountNode) : Option InstructionAccountNode :=
  match account.defaultValue with
  | some (.pdaValue pda) => do
      let seeds ← pda.seeds.mapM (seedTypeMut f)
      some { account with defaultValue := some (.pdaValue { pda with seeds }) }
  | _ => some account

def instructionTypesMut (ix : InstructionNode) : Option InstructionNode := do
  let arguments ← ix.arguments.mapM fun arg => (f arg.type).map fun type => { arg with type }
  let accounts ← ix.accounts.mapM (seedTypesMut f)
  some { ix with arguments, accounts }

end Walker

/-! ## Structs in place of links -/

def seedType : PdaSeedNode → TypeNode
  | .variable _ type | .constant type _ => type

def inPlacePda (account : InstructionAccountNode) : Option PdaNode :=
  match account.defaultValue with
  | some (.pdaValue pda) => some pda
  | _ => none

/-- An empty id counts as this program. -/
def ownedPda (publicKey : Name) (pda : PdaNode) : Bool :=
  pda.programId.all fun id => id.isEmpty || id = publicKey

/-- The types of the variable seeds of a PDA. -/
def variableSeedTypes (pda : PdaNode) : List TypeNode :=
  pda.seeds.filterMap fun
    | .variable _ type => some type
    | .constant _ _ => none

def directLink (arg : InstructionArgumentNode) : Option Name :=
  match arg.type with
  | .link name => some name
  | _ => none

/-- The types that `count_links` is called for. -/
def countedTypes (program : ProgramNode) : List TypeNode :=
  program.accounts.flatMap dataTypes ++
  program.events.map (·.data) ++
  program.definedTypes.map (·.type) ++
  program.constants.map (·.type) ++
  (program.instructions.flatMap fun ix =>
    ((ix.accounts.filterMap inPlacePda).filter
      (ownedPda program.publicKey)).flatMap variableSeedTypes) ++
  (program.instructions.flatMap fun ix =>
    (ix.arguments.filter fun arg => (directLink arg).isNone).map (·.type))

/-- The links that are the type of an argument. -/
def directLinks (program : ProgramNode) : List Name :=
  program.instructions.flatMap fun ix => ix.arguments.filterMap directLink

structure Uses where
  total : Nat
  directArg : Nat

def uses (program : ProgramNode) (name : Name) : Uses :=
  let directArg := (directLinks program).count name
  ⟨((countedTypes program).flatMap collectLinks).count name + directArg, directArg⟩

def isEnumType : TypeNode → Bool
  | .enum _ _ => true
  | _ => false

/-- A type that is linked once, as an argument. -/
def isInlined (program : ProgramNode) (ty : DefinedTypeNode) : Bool :=
  let u := uses program ty.name
  u.total = 1 && u.directArg = 1 && !isEnumType ty.type

/-- The body in place of a link to it. -/
def replaceLink (inline : Defs) : TypeNode → TypeNode
  | .link name => (inline.lookup name).getD (.link name)
  | type => type

def inlineLinks (inline : Defs) : Nat → TypeNode → Option TypeNode
  | 0, _ => none
  | room + 1, ty => forEachChildMut (inlineLinks inline room) (replaceLink inline ty)

def unwrapInstructionArgsDefinedTypes (room : Nat) (program : ProgramNode) :
    Option ProgramNode :=
  let (inlined, kept) := program.definedTypes.partition (isInlined program)
  if inlined.isEmpty then some { program with definedTypes := kept }
  else do
    let instructions ←
      program.instructions.mapM (instructionTypesMut (inlineLinks (defsOf inlined) room))
    some { program with definedTypes := kept, instructions }

/-! ## Arguments of struct type -/

def inputValue : ValueNode → InstructionInputValueNode
  | .number number => .numberValue number
  | .bytes bytes => .bytesValue bytes
  | .other => .other

def flattenedField (field : StructFieldTypeNode) : Except Error InstructionArgumentNode := do
  let name ← ident field.name
  .ok
    { name
      defaultValueStrategy := field.defaultValueStrategy
      type := field.type
      defaultValue := field.defaultValue.map inputValue }

def flattenedArgument (arg : InstructionArgumentNode) :
    Except Error (List InstructionArgumentNode) :=
  match arg.type with
  | .struct fields => fields.mapM flattenedField
  | _ => .ok [arg]

/-- The names that come after one that is equal. -/
def repeatedNames : List Name → List Name → List Name
  | _, [] => []
  | seen, name :: names =>
      if name ∈ seen then name :: repeatedNames seen names
      else repeatedNames (name :: seen) names

def flattenInstruction (ix : InstructionNode) : Except Error InstructionNode := do
  let flattened ← ix.arguments.mapM flattenedArgument
  let arguments := flattened.flatten
  let duplicates := repeatedNames [] (arguments.map (·.name))
  if duplicates.isEmpty then .ok { ix with arguments }
  else
    .error (.at .instruction ix.name
      (.conflictingFlattenedArguments (SortedKeys.normalize duplicates)))

def flattenInstructionDataArguments (program : ProgramNode) : Except Error ProgramNode := do
  let instructions ← program.instructions.mapM flattenInstruction
  .ok { program with instructions }

/-! ## Arrays of bytes -/

def u8ArrayToBytes : TypeNode → TypeNode
  | .array (.number item) (.fixed count) =>
      if item.format = .u8 then fixedBytes count else .array (.number item) (.fixed count)
  | type => type

def u8ArraysToBytes : Nat → TypeNode → Option TypeNode
  | 0, _ => none
  | room + 1, ty => (forEachChildMut (u8ArraysToBytes room) ty).map u8ArrayToBytes

def accountTypesMut (f : TypeNode → Option TypeNode) (account : AccountNode) :
    Option AccountNode :=
  match account.data with
  | .value fields => (structChildrenMut f fields).map fun fields =>
      { account with data := .value fields }
  | .wrapped _ _ => some account

def transformU8ArraysToBytes (room : Nat) (program : ProgramNode) : Option ProgramNode := do
  let toBytes := u8ArraysToBytes room
  let accounts ← program.accounts.mapM (accountTypesMut toBytes)
  let instructions ← program.instructions.mapM (instructionTypesMut toBytes)
  let definedTypes ← program.definedTypes.mapM fun ty =>
    (toBytes ty.type).map fun type => { ty with type }
  let events ← program.events.mapM fun event =>
    (toBytes event.data).map fun data => { event with data }
  let constants ← program.constants.mapM fun constant =>
    (toBytes constant.type).map fun type => { constant with type }
  some { program with accounts, instructions, definedTypes, events, constants }

/-- `passes::run`. -/
def run (room : Nat) (program : ProgramNode) : Option (Except Error ProgramNode) := do
  let program := setInstructionAccountDefaultValues program
  let program ← unwrapInstructionArgsDefinedTypes room program
  match flattenInstructionDataArguments program with
  | .error e => some (.error e)
  | .ok program => (transformU8ArraysToBytes room program).map .ok

end Shipstern.Anchor
