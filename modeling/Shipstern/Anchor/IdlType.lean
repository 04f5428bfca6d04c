import Shipstern.Anchor.Types

/-!
# Types of an Anchor IDL and their expansion

The grammar of the types that an IDL writes, with their JSON, and what the expansion of
generic types is for: `expand` replaces a use of a generic type by the body of its definition,
in which `subst` replaces all parameters by the arguments of the use at once. What a
substitution puts in is not substituted again, so no parameter captures a name in it.
-/

namespace Shipstern.Anchor

open Codama

/-- An alias is written in one way by Anchor and in another one by JS. -/
inductive AliasForm
  | anchor
  | js
deriving DecidableEq

structure IdlField (T : Type) where
  name : Name
  docs : Option (List Name)
  ty : T

/-- The fields of a struct or of a variant. -/
inductive IdlFields (T : Type)
  | none
  | named (fields : List (IdlField T))
  | tuple (items : List T)

structure IdlVariant (T : Type) where
  name : Name
  fields : IdlFields T

/-- The argument of a use. A parameter without an argument is bound to `missing`. -/
inductive GenericArg (T : Type)
  | type (ty : T)
  | const (value : Name)
  | missing

/-- A number stands for the length of an array, and for a const parameter that is passed on
as a type. -/
inductive IdlType
  | leaf (name : Name)
  | number (n : Nat)
  | array (item len : IdlType)
  | vec (item : IdlType)
  | option (item : IdlType)
  | coption (item : IdlType)
  | defined (name : Name) (args : List (GenericArg IdlType))
  | generic (name : Name)
  | aliasOf (form : AliasForm) (target : IdlType)
  | struct (fields : IdlFields IdlType)
  | enum (variants : List (IdlVariant IdlType))

section Containers

variable {T U : Type} (f : T → U)

def IdlField.map (field : IdlField T) : IdlField U := ⟨field.name, field.docs, f field.ty⟩

def IdlFields.map : IdlFields T → IdlFields U
  | .none => .none
  | .named fields => .named (fields.map (IdlField.map f))
  | .tuple items => .tuple (items.map f)

def IdlFields.types : IdlFields T → List T
  | .none => []
  | .named fields => fields.map IdlField.ty
  | .tuple items => items

def IdlVariant.map (variant : IdlVariant T) : IdlVariant U := ⟨variant.name, variant.fields.map f⟩

def GenericArg.type? : GenericArg T → Option T
  | .type ty => some ty
  | _ => Option.none

end Containers

namespace IdlType

/-- The types directly below a type. -/
def children : IdlType → List IdlType
  | .leaf _ | .number _ | .generic _ => []
  | .array item len => [item, len]
  | .vec item | .option item | .coption item | .aliasOf _ item => [item]
  | .defined _ args => args.filterMap GenericArg.type?
  | .struct fields => fields.types
  | .enum variants => variants.flatMap fun variant => variant.fields.types

theorem sizeOf_lt_of_mem_fields {fields : IdlFields IdlType} {ty : IdlType}
    (h : ty ∈ fields.types) : sizeOf ty < sizeOf fields := by
  cases fields with
  | none => cases h
  | tuple items =>
      have hlt : sizeOf ty < sizeOf items := List.sizeOf_lt_of_mem h
      simp only [IdlFields.tuple.sizeOf_spec]
      omega
  | named fields =>
      obtain ⟨⟨name, docs, ty⟩, hfield, rfl⟩ := List.mem_map.mp h
      have hlt := List.sizeOf_lt_of_mem hfield
      simp only [IdlField.mk.sizeOf_spec, IdlFields.named.sizeOf_spec] at hlt ⊢
      omega

theorem sizeOf_lt_of_mem_children {ty child : IdlType} (h : child ∈ ty.children) :
    sizeOf child < sizeOf ty := by
  cases ty with
  | leaf | number | generic => cases h
  | array item len =>
      simp only [array.sizeOf_spec]
      obtain rfl | hlen := List.mem_cons.mp h
      · omega
      · obtain rfl := List.mem_singleton.mp hlen
        omega
  | vec | option | coption | aliasOf =>
      obtain rfl := List.mem_singleton.mp h
      simp only [vec.sizeOf_spec, option.sizeOf_spec, coption.sizeOf_spec,
        aliasOf.sizeOf_spec]
      omega
  | defined name args =>
      obtain ⟨arg, harg, htype⟩ := List.mem_filterMap.mp h
      cases arg with
      | type ty =>
          cases htype
          have hlt := List.sizeOf_lt_of_mem harg
          simp only [GenericArg.type.sizeOf_spec, defined.sizeOf_spec] at hlt ⊢
          omega
      | const value => cases htype
      | missing => cases htype
  | struct fields =>
      have hlt := sizeOf_lt_of_mem_fields h
      simp only [struct.sizeOf_spec]
      omega
  | enum variants =>
      obtain ⟨⟨name, fields⟩, hvariant, hmem⟩ := List.mem_flatMap.mp h
      have hlt := List.sizeOf_lt_of_mem hvariant
      have hfields := sizeOf_lt_of_mem_fields hmem
      simp only [IdlVariant.mk.sizeOf_spec, enum.sizeOf_spec] at hlt hfields ⊢
      omega

/-- Induction on a type: a property of all types directly below passes to the type. -/
theorem induction {P : IdlType → Prop} (step : ∀ ty, (∀ child ∈ ty.children, P child) → P ty)
    (ty : IdlType) : P ty := by
  induction hsize : sizeOf ty using Nat.strongRecOn generalizing ty with
  | _ n ih =>
      refine step ty fun child hchild => ?_
      exact ih (sizeOf child) (hsize ▸ sizeOf_lt_of_mem_children hchild) child rfl

/-- A property of a type and of all types below it. -/
inductive Everywhere (P : IdlType → Prop) : IdlType → Prop
  | intro {ty : IdlType} (here : P ty) (below : ∀ child ∈ ty.children, Everywhere P child) :
      Everywhere P ty

theorem Everywhere.here {P : IdlType → Prop} {ty : IdlType} (h : Everywhere P ty) : P ty := by
  cases h with
  | intro here below => exact here

theorem Everywhere.child {P : IdlType → Prop} {ty child : IdlType} (h : Everywhere P ty)
    (hchild : child ∈ ty.children) : Everywhere P child := by
  cases h with
  | intro here below => exact below child hchild

theorem Everywhere.imp {P Q : IdlType → Prop} {ty : IdlType} (h : Everywhere P ty)
    (hPQ : ∀ ty, P ty → Q ty) : Everywhere Q ty := by
  induction h with
  | intro here below ih => exact ⟨hPQ _ here, ih⟩

/-! ## The JSON of a type -/

/-- The entry for docs, when there are any. -/
def docsJson : Option (List Name) → List (Key × Value)
  | none => []
  | some lines => [(.docs, .array (lines.map .string))]

mutual

def toJson : IdlType → Value
  | .leaf name => .string name
  | .number n => .number n
  | .array item len => .object [(.array, .array [toJson item, toJson len])]
  | .vec item => .object [(.vec, toJson item)]
  | .option item => .object [(.option, toJson item)]
  | .coption item => .object [(.coption, toJson item)]
  | .defined name [] => .object [(.defined, .object [(.name, .string name)])]
  | .defined name (arg :: args) =>
      .object [(.defined,
        .object [(.name, .string name), (.generics, .array (argJson arg :: argsJson args))])]
  | .generic name => .object [(.generic, .string name)]
  | .aliasOf .anchor target =>
      .object [(.kind, .string "type".toList), (.alias, toJson target)]
  | .aliasOf .js target => .object [(.kind, .string "alias".toList), (.value, toJson target)]
  | .struct fields => .object ((.kind, .string "struct".toList) :: fieldsJson fields)
  | .enum variants =>
      .object [(.kind, .string "enum".toList), (.variants, .array (variantsJson variants))]

def fieldsJson : IdlFields IdlType → List (Key × Value)
  | .none => []
  | .named fields => [(.fields, .array (namedJson fields))]
  | .tuple items => [(.fields, .array (itemsJson items))]

def namedJson : List (IdlField IdlType) → List Value
  | [] => []
  | ⟨name, docs, ty⟩ :: fields =>
      .object ((.name, .string name) :: (.type, toJson ty) :: docsJson docs) :: namedJson fields

def itemsJson : List IdlType → List Value
  | [] => []
  | item :: items => toJson item :: itemsJson items

def argJson : GenericArg IdlType → Value
  | .type ty => .object [(.kind, .string "type".toList), (.type, toJson ty)]
  | .const value => .object [(.kind, .string "const".toList), (.value, .string value)]
  | .missing => .null

def argsJson : List (GenericArg IdlType) → List Value
  | [] => []
  | arg :: args => argJson arg :: argsJson args

def variantsJson : List (IdlVariant IdlType) → List Value
  | [] => []
  | ⟨name, fields⟩ :: variants =>
      .object ((.name, .string name) :: fieldsJson fields) :: variantsJson variants

end

def fieldJson (field : IdlField IdlType) : Value :=
  .object ((.name, .string field.name) :: (.type, toJson field.ty) :: docsJson field.docs)

def variantJson (variant : IdlVariant IdlType) : Value :=
  .object ((.name, .string variant.name) :: fieldsJson variant.fields)

theorem namedJson_eq (fields : List (IdlField IdlType)) :
    namedJson fields = fields.map fieldJson := by
  induction fields with
  | nil => rfl
  | cons field fields ih => rw [namedJson, ih, List.map_cons, fieldJson]

theorem itemsJson_eq (items : List IdlType) : itemsJson items = items.map toJson := by
  induction items with
  | nil => rfl
  | cons item items ih => rw [itemsJson, ih, List.map_cons]

theorem argsJson_eq (args : List (GenericArg IdlType)) : argsJson args = args.map argJson := by
  induction args with
  | nil => rfl
  | cons arg args ih => rw [argsJson, ih, List.map_cons]

theorem variantsJson_eq (variants : List (IdlVariant IdlType)) :
    variantsJson variants = variants.map variantJson := by
  induction variants with
  | nil => rfl
  | cons variant variants ih => rw [variantsJson, ih, List.map_cons, variantJson]

end IdlType

/-! ## Substitution -/

/-- The number that a const argument stands for. -/
def GenericArg.number? : GenericArg IdlType → Option Nat
  | .type (.number n) => some n
  | .const raw => constNumber raw
  | _ => none

/-- The arguments of the parameters of a definition. -/
structure Scope where
  constArgs : List (Name × GenericArg IdlType)
  typeArgs : List (Name × GenericArg IdlType)

namespace Scope

def empty : Scope := ⟨[], []⟩

variable (σ : Scope)

def typeOf (name : Name) : Option IdlType := (σ.typeArgs.lookup name).bind GenericArg.type?

def numberOf (name : Name) : Option Nat := (σ.constArgs.lookup name).bind GenericArg.number?

/-- The argument of a parameter, as a type or a number. -/
def substName (name : Name) : IdlType :=
  match σ.typeOf name with
  | some ty => ty
  | none =>
      match σ.numberOf name with
      | some n => .number n
      | none => .generic name

/-- A const argument that is no number names a const parameter. -/
def substConst (value : Name) : GenericArg IdlType :=
  if (constNumber value).isSome then .const value
  else (σ.constArgs.lookup value).getD (.const value)

end Scope

namespace IdlType

variable (σ : Scope)

mutual

/-- The type with all parameters of the scope replaced by their arguments at once. -/
def subst : IdlType → IdlType
  | .leaf name => .leaf name
  | .number n => .number n
  | .array item len => .array (subst item) (subst len)
  | .vec item => .vec (subst item)
  | .option item => .option (subst item)
  | .coption item => .coption (subst item)
  | .defined name args => .defined name (substArgs args)
  | .generic name => σ.substName name
  | .aliasOf form target => .aliasOf form (subst target)
  | .struct fields => .struct (substFields fields)
  | .enum variants => .enum (substVariants variants)

def substFields : IdlFields IdlType → IdlFields IdlType
  | .none => .none
  | .named fields => .named (substNamed fields)
  | .tuple items => .tuple (substItems items)

def substNamed : List (IdlField IdlType) → List (IdlField IdlType)
  | [] => []
  | ⟨name, docs, ty⟩ :: fields => ⟨name, docs, subst ty⟩ :: substNamed fields

def substItems : List IdlType → List IdlType
  | [] => []
  | item :: items => subst item :: substItems items

def substArg : GenericArg IdlType → GenericArg IdlType
  | .type ty => .type (subst ty)
  | .const value => σ.substConst value
  | .missing => .missing

def substArgs : List (GenericArg IdlType) → List (GenericArg IdlType)
  | [] => []
  | arg :: args => substArg arg :: substArgs args

def substVariants : List (IdlVariant IdlType) → List (IdlVariant IdlType)
  | [] => []
  | ⟨name, fields⟩ :: variants => ⟨name, substFields fields⟩ :: substVariants variants

end

theorem substNamed_eq (fields : List (IdlField IdlType)) :
    substNamed σ fields = fields.map (IdlField.map (subst σ)) := by
  induction fields with
  | nil => rfl
  | cons field fields ih => rw [substNamed, ih, List.map_cons, IdlField.map]

theorem substItems_eq (items : List IdlType) : substItems σ items = items.map (subst σ) := by
  induction items with
  | nil => rfl
  | cons item items ih => rw [substItems, ih, List.map_cons]

theorem substFields_eq (fields : IdlFields IdlType) :
    substFields σ fields = fields.map (subst σ) := by
  cases fields with
  | none => rfl
  | named fields => rw [substFields, substNamed_eq, IdlFields.map]
  | tuple items => rw [substFields, substItems_eq, IdlFields.map]

theorem substArgs_eq (args : List (GenericArg IdlType)) :
    substArgs σ args = args.map (substArg σ) := by
  induction args with
  | nil => rfl
  | cons arg args ih => rw [substArgs, ih, List.map_cons]

theorem substVariants_eq (variants : List (IdlVariant IdlType)) :
    substVariants σ variants = variants.map (IdlVariant.map (subst σ)) := by
  induction variants with
  | nil => rfl
  | cons variant variants ih =>
      rw [substVariants, ih, List.map_cons, IdlVariant.map, substFields_eq]

end IdlType

/-! ## Expansion -/

structure IdlTypeDef where
  name : Name
  generics : Option (List GenericParam)
  serialization : Option Value
  repr : Option Repr
  ty : Option IdlType

namespace IdlTypeDef

def toTypeDef (t : IdlTypeDef) : TypeDef where
  name := t.name
  generics := t.generics
  serialization := t.serialization
  repr := t.repr
  ty := t.ty.map IdlType.toJson

def params (t : IdlTypeDef) : List GenericParam := t.generics.getD []

def isGeneric (t : IdlTypeDef) : Bool := !t.params.isEmpty

/-- A definition without a type is an empty struct. -/
def body (t : IdlTypeDef) : IdlType := t.ty.getD (.struct (.named []))

end IdlTypeDef

/-- The parameters with their arguments. -/
def bindArgs (params : List GenericParam) (args : List (GenericArg IdlType)) :
    List (GenericParam × GenericArg IdlType) :=
  params.zipIdx.map fun (param, i) => (param, args[i]?.getD .missing)

def Scope.bind (bound : List (GenericParam × GenericArg IdlType)) : Scope where
  constArgs := (bound.reverse.filter fun (param, _) => param.isConst).map fun (param, arg) =>
    (param.name, arg)
  typeArgs := (bound.reverse.filter fun (param, _) => !param.isConst).map fun (param, arg) =>
    (param.name, arg)

section Expand

variable (types : List IdlTypeDef)

def genericDef (name : Name) : Option IdlTypeDef :=
  types.reverse.find? fun t => t.isGeneric && t.name == name

def IdlField.expand (recurse : IdlType → Option IdlType) (field : IdlField IdlType) :
    Option (IdlField IdlType) := do
  let ty ← recurse field.ty
  some ⟨field.name, field.docs, ty⟩

def IdlFields.expand (recurse : IdlType → Option IdlType) :
    IdlFields IdlType → Option (IdlFields IdlType)
  | .none => some .none
  | .named fields => (fields.mapM (IdlField.expand recurse)).map .named
  | .tuple items => (items.mapM recurse).map .tuple

def IdlVariant.expand (recurse : IdlType → Option IdlType) (variant : IdlVariant IdlType) :
    Option (IdlVariant IdlType) := do
  let fields ← variant.fields.expand recurse
  some ⟨variant.name, fields⟩

/-- The type in which every use of a generic type is replaced by the body of its definition
with the arguments for the parameters. A type of infinite expansion runs out of fuel. -/
def expand : Nat → IdlType → Option IdlType
  | 0, _ => none
  | fuel + 1, ty =>
      match ty with
      | .leaf name => some (.leaf name)
      | .number n => some (.number n)
      | .generic name => some (.generic name)
      | .array item len => (expand fuel item).map fun item => .array item len
      | .vec item => (expand fuel item).map .vec
      | .option item => (expand fuel item).map .option
      | .coption item => (expand fuel item).map .coption
      | .aliasOf form target => (expand fuel target).map (.aliasOf form)
      | .struct fields => (fields.expand (expand fuel)).map .struct
      | .enum variants => (variants.mapM (IdlVariant.expand (expand fuel))).map .enum
      | .defined name [] => some (.defined name [])
      | .defined name (arg :: args) =>
          match genericDef types name with
          | none => some (.defined name (arg :: args))
          | some t => expand fuel (t.body.subst (Scope.bind (bindArgs t.params (arg :: args))))

end Expand

/-- A type without parameters and without uses of generic types. -/
def IdlType.GenericFree : IdlType → Prop :=
  IdlType.Everywhere fun
    | .generic _ => False
    | .defined _ args => args = []
    | _ => True

end Shipstern.Anchor
