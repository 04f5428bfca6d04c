import Shipstern.Anchor.Items
import Shipstern.Anchor.Json
import Shipstern.Core.LogMessages
import Shipstern.Lib.Budget

/-!
# Conversion of Anchor types

`typeNode` converts the JSON of a type to a type node. A use of a generic type is expanded in
place: its arguments are resolved in the scope of the use, and the body is converted in a
scope that binds the parameters to them. Each visited value is paid for from one budget, and
the nesting is limited, so `room` counts the levels that are left.
-/

open Shipstern.Core

namespace Shipstern.Anchor

open Codama Budgeted

def nestingLimit : Nat := 128

def typeNodeLimit : Nat := 100000

/-! ## Type definitions -/

structure GenericParam where
  kind : Name
  name : Name
deriving DecidableEq

def GenericParam.isConst (param : GenericParam) : Bool := param.kind == "const".toList

structure ReprModifier where
  packed : Bool
  align : Option Nat
deriving DecidableEq

inductive Repr
  | rust (modifier : ReprModifier)
  | c (modifier : ReprModifier)
  | transparent
deriving DecidableEq

structure TypeDef where
  name : Name
  generics : Option (List GenericParam)
  serialization : Option Value
  repr : Option Repr
  ty : Option Value

namespace TypeDef

def params (t : TypeDef) : List GenericParam := t.generics.getD []

def isGeneric (t : TypeDef) : Bool := !t.params.isEmpty

def isEnum (t : TypeDef) : Bool :=
  (t.ty.bind fun ty => (ty.get .kind).bind Value.asStr) == some "enum".toList

end TypeDef

theorem mem_of_lookup {β : Type} {entries : List (Name × β)} {name : Name} {value : β}
    (h : entries.lookup name = some value) : (name, value) ∈ entries := by
  obtain ⟨before, after, rfl, -⟩ := List.lookup_eq_some_iff.mp h
  simp

theorem lookup_of_mem {β : Type} {entries : List (Name × β)} {name : Name} {value : β}
    (hnodup : (entries.map (·.1)).Nodup) (h : (name, value) ∈ entries) :
    entries.lookup name = some value := by
  obtain ⟨before, after, rfl⟩ := List.append_of_mem h
  refine List.lookup_eq_some_iff.mpr ⟨before, after, rfl, fun entry hentry => ?_⟩
  rw [List.map_append, List.nodup_append] at hnodup
  have hne := hnodup.2.2 entry.1 (List.mem_map_of_mem hentry) name (by simp)
  simpa using hne.symm

/-- What a name is bound to does not depend on the order of the bindings. -/
theorem lookup_perm {β : Type} {entries entries' : List (Name × β)} (h : entries.Perm entries')
    (hnodup : (entries.map (·.1)).Nodup) (name : Name) :
    entries.lookup name = entries'.lookup name := by
  have hnodup' : (entries'.map (·.1)).Nodup := (h.map _).nodup hnodup
  refine Option.ext fun value => ⟨fun hvalue => ?_, fun hvalue => ?_⟩
  · exact lookup_of_mem hnodup' (h.mem_iff.mp (mem_of_lookup hvalue))
  · exact lookup_of_mem hnodup (h.mem_iff.mpr (mem_of_lookup hvalue))

/-! ## Scopes -/

abbrev Convert := Budgeted Error

/-- The type definitions and the arguments bound to the parameters of the type that is
expanded. -/
structure Generics where
  types : List TypeDef
  constArgs : List (Name × Value)
  typeArgs : List (Name × Value)

namespace Generics

/-- The scope outside of every generic type. -/
def extract (types : List TypeDef) : Generics := ⟨types, [], []⟩

/-- The generic definition of a name; the map of definitions keeps the last one. -/
def genericDef (g : Generics) (name : Name) : Option TypeDef :=
  g.types.reverse.find? fun t => t.isGeneric && t.name == name

def isPlain (g : Generics) (name : Name) : Bool :=
  g.types.any fun t => !t.isGeneric && t.name == name

end Generics

/-- The text of the value in the error is cut after 200 characters. -/
def unrecognized (ty : Value) : Error :=
  .unrecognizedType (if ty.text.length ≤ 200 then ty.text else ty.text.take 200 ++ "...".toList)

def digitOf (radix : Nat) (c : Char) : Option Nat :=
  let digit :=
    if c.isDigit then some (c.toNat - '0'.toNat)
    else if 'a' ≤ c ∧ c ≤ 'f' then some (c.toNat - 'a'.toNat + 10)
    else if 'A' ≤ c ∧ c ≤ 'F' then some (c.toNat - 'A'.toNat + 10)
    else none
  digit.filter (· < radix)

/-- `u64::from_str_radix` on the leading run of digits. -/
def leadingNumber (radix : Nat) (text : Name) : Option Nat :=
  let digits := (text.takeWhile fun c => (digitOf radix c).isSome).filterMap (digitOf radix)
  let number := digits.foldl (fun number digit => number * radix + digit) 0
  if digits ≠ [] ∧ number < 2 ^ 64 then some number else none

/-- JS `parseInt` of the text of a const argument. -/
def constNumber (raw : Name) : Option Nat :=
  let unsigned := raw.dropWhile isWhitespace
  let unsigned := (stripPrefix "+".toList unsigned).getD unsigned
  match (stripPrefix "0x".toList unsigned).or (stripPrefix "0X".toList unsigned) with
  | some hex => leadingNumber 16 hex
  | none => leadingNumber 10 unsigned

def constValue (arg : Value) : Except Error Nat :=
  match (arg.get .type).bind Value.asU64 with
  | some len => .ok len
  | none =>
      match (arg.get .value).bind Value.asStr with
      | none => .error (.invalidArrayLength arg.text)
      | some raw =>
          match constNumber raw with
          | some number => .ok number
          | none => .error (.invalidArrayLength raw)

namespace Generics

/-- A bound argument is copied whole, so the copy costs its size. -/
def spendOn : Nat → Value → Convert Unit
  | 0, _ => fail .recursionLimit
  | room + 1, value => do
      spend .tooLarge
      match value with
      | .object entries => entries.forM fun entry => spendOn room entry.snd
      | .array items => items.forM (spendOn room)
      | _ => pure ()

/-- The name in a reference to a parameter. -/
def genericName (entries : List (Key × Value)) : Option Name :=
  (entries.lookup .generic).bind Value.asStr

variable (g : Generics)

/-- The argument that a const parameter of the scope is bound to. -/
def constArg (name : Name) : Option Value := g.constArgs.lookup name

/-- What a const argument is bound to that names a const parameter of the scope. -/
def boundConst (entries : List (Key × Value)) : Option Value :=
  if (entries.lookup .kind).bind Value.asStr = some "const".toList then
    ((entries.lookup .value).bind Value.asStr).bind g.constArg
  else none

/-- The type that a type parameter of the scope is bound to. -/
def boundType (name : Name) : Option Value := (g.typeArgs.lookup name).bind (Value.get .type)

/-- The argument with the references to parameters of the scope replaced by what they are
bound to. -/
def resolve : Nat → Value → Convert Value
  | 0, _ => fail .recursionLimit
  | room + 1, arg => do
      spend .tooLarge
      match arg with
      | .object entries =>
          match genericName entries with
          | some name =>
              match g.boundType name with
              | some ty =>
                  spendOn (room + 1) ty
                  pure ty
              | none =>
                  match g.constArg name with
                  | some len => do
                      let number ← free (constValue len)
                      pure (.number number)
                  -- passed through, a parameter of the callee would capture it
                  | none => fail (.genericArgMissing name)
          | none =>
              match g.boundConst entries with
              | some bound =>
                  spendOn (room + 1) bound
                  pure bound
              | none => do
                  let entries ← entries.mapM fun entry => do
                    let value ← resolve room entry.snd
                    pure (entry.fst, value)
                  pure (.object entries)
      | .array items => do
          let items ← items.mapM (resolve room)
          pure (.array items)
      | other => pure other

theorem spendOn_frugal (room : Nat) (value : Value) : Frugal (spendOn room value) := by
  induction room generalizing value with
  | zero => exact .fail
  | succ room ih =>
      refine .bind .spend fun _ => ?_
      cases value with
      | object entries => exact .forM (fun entry => ih entry.snd) entries
      | array items => exact .forM ih items
      | null | bool | number | otherNumber | string => exact .pure

theorem resolve_frugal (room : Nat) (arg : Value) : Frugal (g.resolve room arg) := by
  induction room generalizing arg with
  | zero => exact .fail
  | succ room ih =>
      refine .bind .spend fun _ => ?_
      cases arg with
      | null | bool | number | otherNumber | string => exact .pure
      | array items => exact .bind (.mapM ih items) fun _ => .pure
      | object entries =>
          simp only
          split
          · split
            · exact .bind (spendOn_frugal _ _) fun _ => .pure
            · split
              · exact .bind .free fun _ => .pure
              · exact .fail
          · split
            · exact .bind (spendOn_frugal _ _) fun _ => .pure
            · exact .bind (.mapM (fun entry => (ih entry.snd).bind fun _ => .pure) entries)
                fun _ => .pure

end Generics

/-! ## Types -/

def u32Number : NestedTypeNode NumberTypeNode := .value (.littleEndian .u32)

def sizePrefixed (inner : TypeNode) : TypeNode := .sizePrefix inner u32Number

/-- The types that are written as a string. -/
def leafTypes : List (Name × TypeNode) :=
  let number (format : NumberFormat) : TypeNode := .number (.littleEndian format)
  [("bool".toList, .boolean (.value (.littleEndian .u8))),
    ("pubkey".toList, .publicKey),
    ("string".toList, sizePrefixed (.string .utf8)),
    ("bytes".toList, sizePrefixed .bytes),
    ("u8".toList, number .u8),
    ("u16".toList, number .u16),
    ("u32".toList, number .u32),
    ("u64".toList, number .u64),
    ("u128".toList, number .u128),
    ("i8".toList, number .i8),
    ("i16".toList, number .i16),
    ("i32".toList, number .i32),
    ("i64".toList, number .i64),
    ("i128".toList, number .i128),
    ("f32".toList, number .f32),
    ("f64".toList, number .f64),
    ("shortU16".toList, number .shortU16)]

def leafTypeNode (leaf : Name) : Option TypeNode := leafTypes.lookup leaf

/-- The target of an alias, as Anchor or as JS writes it. -/
def aliasTarget (ty : Value) : Option Value :=
  match (ty.get .kind).bind Value.asStr with
  | some kind =>
      if kind = "type".toList then ty.get .alias
      else if kind = "alias".toList then ty.get .value
      else none
  | none => none

/-- Solana's `MAX_PERMITTED_DATA_LENGTH`. -/
def maxArrayLen : Nat := 10 * 1024 * 1024

/-- A length that is written as a number or names a const parameter. -/
def writtenLen (g : Generics) (len : Value) : Except Error Nat :=
  match len.asU64 with
  | some n => .ok n
  | none =>
      match ((len.get .generic).bind Value.asStr).bind g.constArg with
      | some arg => constValue arg
      | none => .error (.invalidArrayLength len.text)

def arrayLen (g : Generics) (len : Value) : Except Error Nat := do
  let n ← writtenLen g len
  if n > maxArrayLen then .error (.invalidArrayLength (Nat.toDigits 10 n)) else .ok n

def isNamedField (field : Value) : Bool := (field.get .name).isSome && (field.get .type).isSome

/-- The fields of a struct or variant: none when the key is missing or null. -/
def fieldList (ty : Value) : Except Error (List Value) :=
  match ty.get .fields with
  | some (.array fields) => .ok fields
  | none | some .null => .ok []
  | some _ => .error (unrecognized ty)

/-- Docs are null, a line or a list of lines. -/
def checkDocs : Option Value → Except Error Unit
  | none | some .null | some (.string _) => .ok ()
  | some (.array lines) => if lines.all fun line => line.asStr.isSome then .ok () else .error .json
  | some _ => .error .json

def emptyStruct : Value := .object [(.kind, .string "struct".toList), (.fields, .array [])]

section Step

/-! One level of the conversion. The levels below are `recurse`. -/

variable (recurse : Generics → Value → Convert TypeNode) (g : Generics)

def structField (field : Value) : Convert StructFieldTypeNode :=
  match (field.get .name).bind Value.asStr, field.get .type with
  | some name, some ty => do
      free (checkDocs (field.get .docs))
      let name ← free (ident name)
      let type ← recurse g ty
      pure ⟨name, none, type, none⟩
  | _, _ => fail (unrecognized field)

def structType (fields : List Value) : Convert (List StructFieldTypeNode) :=
  fields.mapM (structField recurse g)

def tupleType (items : List Value) : Convert (List TypeNode) := items.mapM (recurse g)

def variantType (variant : Value) : Convert EnumVariantTypeNode :=
  match (variant.get .name).bind Value.asStr with
  | none => fail (unrecognized variant)
  | some name => do
      let name ← free (ident name)
      let fields ← free (fieldList variant)
      match fields with
      | [] => pure ⟨name, none, .empty⟩
      -- only the first field decides
      | first :: _ =>
          if isNamedField first then do
            let fields ← structType recurse g fields
            pure ⟨name, none, .struct fields⟩
          else do
            let items ← tupleType recurse g fields
            pure ⟨name, none, .tuple items⟩

def enumType (variants : Value) : Convert TypeNode :=
  match variants.asArray with
  | none => fail (unrecognized variants)
  | some variants => do
      let variants ← variants.mapM (variantType recurse g)
      pure (.enum variants (.value (.littleEndian .u8)))

/-- `coption` is a fixed-size option with a `u32` tag; `option` has a `u8` tag. -/
def option (item : Value) (isCoption : Bool) : Convert TypeNode := do
  let item ← recurse g item
  pure (.option (some isCoption) item
    (.value (.littleEndian (if isCoption then .u32 else .u8))))

/-- The scope of a generic type whose parameters are bound to resolved arguments; later
parameters replace earlier ones of the same name. -/
def Generics.bind (bound : List (GenericParam × Value)) : Generics where
  types := g.types
  constArgs := (bound.reverse.filter fun (param, _) => param.isConst).map fun (param, arg) =>
    (param.name, arg)
  typeArgs := (bound.reverse.filter fun (param, _) => !param.isConst).map fun (param, arg) =>
    (param.name, arg)

/-- The argument for the parameter of a position, null when there is none. -/
def Generics.resolveArg (args : List Value) (entry : GenericParam × Nat) :
    Convert (GenericParam × Value) :=
  match args[entry.2]? with
  | some arg => do
      let arg ← g.resolve (nestingLimit + 1) arg
      pure (entry.1, arg)
  | none => pure (entry.1, .null)

def Generics.resolveArgs (params : List GenericParam) (args : List Value) :
    Convert (List (GenericParam × Value)) :=
  params.zipIdx.mapM (g.resolveArg args)

theorem Generics.resolveArgs_frugal (params : List GenericParam) (args : List Value) :
    Frugal (g.resolveArgs params args) := by
  refine .mapM (fun entry => ?_) params.zipIdx
  rw [Generics.resolveArg]
  cases args[entry.2]? with
  | none => exact .pure
  | some arg => exact (g.resolve_frugal _ arg).bind fun _ => .pure

def definedType (defined : Value) : Convert TypeNode :=
  match (defined.get .name).bind Value.asStr with
  | none => fail (unrecognized defined)
  | some name =>
      match (defined.get .generics).bind Value.asArray with
      | none | some [] => do
          if (g.genericDef name).isSome then fail (.genericArgsMissing name)
          else if !g.isPlain name then fail (.undefinedType name)
          else do
            let name ← free (ident name)
            pure (.link name)
      | some args =>
          match g.genericDef name with
          | none => fail (.genericTypeMissing name)
          | some t =>
              if t.isEnum then fail (.genericEnum name)
              else do
                let bound ← g.resolveArgs t.params args
                recurse (g.bind bound) (t.ty.getD emptyStruct)

/-- A struct whose fields are all named, or all types. -/
def structOrTuple (ty : Value) : Convert TypeNode := do
  let fields ← free (fieldList ty)
  if fields.all isNamedField then do
    let fields ← structType recurse g fields
    pure (.struct fields)
  else if !fields.any isNamedField then do
    let items ← tupleType recurse g fields
    pure (.tuple items)
  else fail (unrecognized ty)

def typeNodeStep (ty : Value) : Convert TypeNode :=
  match ty with
  | .string leaf =>
      match leafTypeNode leaf with
      | some node => pure node
      | none => fail (unrecognized ty)
  | .object obj =>
      let kind := (obj.lookup .kind).bind Value.asStr
      if let some (.array [item, len]) := obj.lookup .array then do
        let item ← recurse g item
        let count ← free (arrayLen g len)
        pure (.array item (.fixed count))
      else if let some item := obj.lookup .vec then do
        let item ← recurse g item
        pure (.array item (.prefixed u32Number))
      else if let some (.object defined) := obj.lookup .defined then
        definedType recurse g (.object defined)
      else if let some name := obj.lookup .generic then
        match name.asStr.bind g.boundType with
        | some arg => recurse g arg
        | none => fail (.genericArgMissing name.text)
      else if let (true, some variants) := (kind == some "enum".toList, obj.lookup .variants) then
        enumType recurse g variants
      else if let some target := aliasTarget ty then
        recurse g target
      else if let some item := obj.lookup .option then
        option recurse g item false
      else if let some item := obj.lookup .coption then
        option recurse g item true
      else if kind == some "struct".toList then
        structOrTuple recurse g ty
      else fail (unrecognized ty)
  | _ => fail (unrecognized ty)

end Step

def typeNodeAt : Nat → Generics → Value → Convert TypeNode
  | 0, _, _ => fail .recursionLimit
  | room + 1, g, ty => do
      spend .tooLarge
      typeNodeStep (typeNodeAt room) g ty

def typeNode (g : Generics) (ty : Value) : Convert TypeNode := typeNodeAt nestingLimit g ty

end Shipstern.Anchor
