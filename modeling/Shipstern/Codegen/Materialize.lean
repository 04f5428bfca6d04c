import Shipstern.Codegen.Ir

/-!
# From type nodes to fields

A type becomes a label and a scalar or message. What a label cannot say becomes a helper message.
Aliases are written out at each use: `materializeWith` is given what an alias stands for, and
`materializeAt` ties the knot with the number of aliases that may still be entered.
-/

namespace Shipstern.Codegen

open Codama

/-- The bits of the number one. -/
def oneValue : NumberFormat → Nat
  | .f32 => 0x3f800000
  | .f64 => 0x3ff0000000000000
  | _ => 1

def optionPrefix (number : NumberTypeNode) : OptionPrefixIr :=
  let fixedWidth (byteLen : Nat) : OptionPrefixIr :=
    .fixedWidth byteLen (oneValue number.format) (number.endian = .be)
  match number.format with
  | .shortU16 => .shortU16
  | .u8 | .i8 => .fixedWidth 1 1 false
  | .u16 | .i16 => fixedWidth 2
  | .u32 | .i32 | .f32 => fixedWidth 4
  | .u64 | .i64 | .f64 => fixedWidth 8
  | .u128 | .i128 => fixedWidth 16

def optionEncoding (base : Name) (fixed : Option Bool) (item : TypeNode)
    (number : NestedTypeNode NumberTypeNode) : Build OptionEncodingIr := do
  let ir ← get
  let tag := optionPrefix number.getNestedTypeNode
  if fixed.getD false then
    match ir.fixedSizeOfType item with
    | some size => pure ⟨tag, some size⟩
    | none => throw (.variableSizeOption base)
  else pure ⟨tag, none⟩

/-- Borsh writes bytes and text behind a little-endian `u32`. -/
def isNativePrefix (number : NumberTypeNode) : Bool := number.format = .u32 ∧ number.endian = .le

def mapNumber : NumberFormat → ScalarIr
  | .u8 => .u8
  | .u16 => .u16
  | .shortU16 => .shortU16
  | .u32 => .uint32
  | .u64 => .uint64
  | .i8 => .i8
  | .i16 => .i16
  | .i32 => .int32
  | .i64 => .int64
  | .f32 => .float
  | .f64 => .double
  | .u128 => .u128
  | .i128 => .i128

def mapSizePrefix (isBytes : Bool) (number : NumberTypeNode) : ScalarIr :=
  match isBytes, isNativePrefix number with
  | true, true => .bytes
  | true, false => .sizePrefixedBytes number
  | false, true => .string
  | false, false => .sizePrefixedString number

/-- The scalar or message of a type that is no wrapper. -/
def mapType : TypeNode → Except BuildPanic FieldTypeIr
  | .string _ => .ok (.scalar .string)
  | .sizePrefix .bytes number => .ok (.scalar (mapSizePrefix true number.getNestedTypeNode))
  | .sizePrefix _ number => .ok (.scalar (mapSizePrefix false number.getNestedTypeNode))
  | .bytes => .ok (.scalar .bytes)
  | .publicKey => .ok (.scalar .publicKey)
  | .boolean _ => .ok (.scalar .bool)
  | .number number => .ok (.scalar (mapNumber number.format))
  | .link name => .ok (.message (toPascalCase name))
  | .fixedSize size .bytes | .fixedSize size (.string _) => .ok (.scalar (.fixedBytes size))
  | .option _ item _ => mapType item
  | .array item _ => mapType item
  | _ => .error .mapType

def arrayLabel : CountNode → LabelIr
  | .fixed n => .fixedArray n
  | _ => .repeated

/-- A struct inside a wrapper takes the name of the wrapper. -/
def innerBase (base suffix : Name) : TypeNode → Name
  | .struct _ => base
  | _ => base ++ suffix

/-- A field in a helper message of its own, unless it has no label. -/
def wrapField (wrapper field : Name) (inner : LabelIr × FieldTypeIr) : Build FieldTypeIr :=
  if inner.1 = .singular then pure inner.2
  else do
    let name ← pushUniqueType ⟨wrapper, [⟨field, 1, inner.1, inner.2⟩], .helper⟩
    pure (.message name)

/-- The name of a field after the fields of the given names. -/
def uniqueFieldName (seen : List Name) (base : Name) : Name :=
  if base ∈ seen then base ++ '_' :: Nat.toDigits 10 (seen.count base + 1) else base

def itemName (i : Nat) : Name := "item_".toList ++ Nat.toDigits 10 i

def tupleItemBase (parent : Name) (i : Nat) : Name := parent ++ toPascalCase (itemName i)

section

variable (aliasField : Name → Build (LabelIr × FieldTypeIr))

mutual

/-- Label and type of a field, given those of aliases. -/
def materializeWith (base : Name) : TypeNode → Build (LabelIr × FieldTypeIr)
  | .struct fields => do
      let fields ← materializeFields base [] fields
      let name ← pushUniqueType ⟨base, fields, .helper⟩
      pure (.singular, .message name)
  | .tuple items => do
      let base := base ++ "Tuple".toList
      let fields ← materializeItems (tupleItemBase base) 0 items
      let name ← pushUniqueType ⟨base, fields, .helper⟩
      pure (.singular, .message name)
  | .option fixed item number => do
      let encoding ← optionEncoding base fixed item number
      let inner ← materializeWith (innerBase base "Value".toList item) item
      let fieldType ← wrapField (base ++ "Option".toList) "value".toList inner
      pure (.optional encoding, fieldType)
  | .array item count | .set item count => do
      let inner ← materializeWith (innerBase base "Item".toList item) item
      let fieldType ← wrapField (base ++ "Inner".toList) "items".toList inner
      pure (arrayLabel count, fieldType)
  -- an array of entries
  | .map key value count => do
      let entry := base ++ "Entry".toList
      let (keyLabel, keyType) ← materializeWith (entry ++ "Key".toList) key
      let (valueLabel, valueType) ← materializeWith (entry ++ "Value".toList) value
      let name ← pushUniqueType
        ⟨entry, [⟨"key".toList, 1, keyLabel, keyType⟩, ⟨"value".toList, 2, valueLabel, valueType⟩],
          .helper⟩
      pure (arrayLabel count, .message name)
  | .link name => do
      let ir ← get
      if ir.hasTypeAliasDefinition (toPascalCase name) then aliasField (toPascalCase name)
      else pure (ir.resolveField (.message (toPascalCase name)))
  | node => do
      let fieldType ← mapType node
      let ir ← get
      pure (ir.resolveField fieldType)

/-- The fields of a message, except those that are omitted, after fields of the given names. -/
def materializeFields (parent : Name) (seen : List Name) :
    List StructFieldTypeNode → Build (List FieldIr)
  | [] => pure []
  | ⟨name, strategy, type, _⟩ :: fields =>
      if strategy = some .omitted then materializeFields parent seen fields
      else do
        let fieldName := uniqueFieldName seen (toSnakeCase name)
        let (label, fieldType) ← materializeWith (parent ++ toPascalCase fieldName) type
        let fields ← materializeFields parent (seen ++ [toSnakeCase name]) fields
        pure (⟨fieldName, seen.length + 1, label, fieldType⟩ :: fields)

/-- The items of a tuple, from a position on. -/
def materializeItems (itemBase : Nat → Name) (i : Nat) : List TypeNode → Build (List FieldIr)
  | [] => pure []
  | item :: items => do
      let (label, fieldType) ← materializeWith (itemBase i) item
      let fields ← materializeItems itemBase (i + 1) items
      pure (⟨itemName i, i + 1, label, fieldType⟩ :: fields)

end

end

/-- Label and type of an alias, from the table or by materializing its definition. -/
def materializeTypeAlias (materialize : Name → TypeNode → Build (LabelIr × FieldTypeIr))
    (name : Name) : Build (LabelIr × FieldTypeIr) := do
  let ir ← get
  match ir.typeAliases.lookup name with
  | some found => pure (found.label, found.fieldType)
  | none =>
      if ir.materializingTypeAliases.contains name then throw (.cyclicAlias name)
      else
        match ir.typeAliasDefinitions.lookup name with
        | none => throw (.unknownAlias name)
        | some definition => do
            set { ir with materializingTypeAliases := name :: ir.materializingTypeAliases }
            let (label, fieldType) ← materialize definition.baseName definition.typeNode
            modify fun ir =>
              { ir with
                materializingTypeAliases := ir.materializingTypeAliases.filter (· ≠ name)
                typeAliases := (name, ⟨label, fieldType⟩) :: ir.typeAliases }
            pure (label, fieldType)

/-- Materialize with room for the given number of nested aliases. -/
def materializeAt : Nat → Name → TypeNode → Build (LabelIr × FieldTypeIr)
  | 0, _, _ => throw .endless
  | room + 1, base, node =>
      materializeWith (materializeTypeAlias (materializeAt room)) base node

/-- What an alias stands for. No alias is entered twice, so there is room for all of them. -/
def aliasField (name : Name) : Build (LabelIr × FieldTypeIr) := do
  let ir ← get
  materializeTypeAlias (materializeAt ir.typeAliasDefinitions.length) name

def materializeType (base : Name) (node : TypeNode) : Build (LabelIr × FieldTypeIr) :=
  materializeWith aliasField base node

def buildFieldsIr (parent : Name) (fields : List StructFieldTypeNode) : Build (List FieldIr) :=
  materializeFields aliasField parent [] fields

end Shipstern.Codegen
