import Shipstern.Anchor.Types
import Shipstern.Lib.Checked
import Shipstern.Lib.Worklist

/-!
# Padding of zero-copy types

`padZeroCopy` inserts a field of bytes wherever `repr(C)` pads a struct that is read in place.
The shape of a named type is computed once and remembered; a type that is under way is
remembered as unknown, so that a type that contains itself has no shape.
-/

namespace Shipstern.Anchor

open Codama Checked

/-- The items of an IDL that decide how its types are read. -/
structure Idl where
  /-- The types of all instruction arguments. -/
  args : List Value
  accounts : List Name
  events : List Name
  types : List TypeDef

/-! ## Links between types -/

mutual

/-- The names of the types that a value links to. -/
def pushDefined : Value → List Name
  | .object entries =>
      ((((entries.lookup .defined).bind (Value.get .name)).bind Value.asStr).toList) ++
        pushEntries entries
  | .array items => pushItems items
  | _ => []

def pushItems : List Value → List Name
  | [] => []
  | item :: items => pushDefined item ++ pushItems items

def pushEntries : List (Key × Value) → List Name
  | [] => []
  | (_, value) :: entries => pushDefined value ++ pushEntries entries

end

/-- The definition of a name; the map of definitions keeps the last one. -/
def defOf (types : List TypeDef) (name : Name) : Option TypeDef :=
  types.reverse.find? fun t => t.name == name

def linksOf (types : List TypeDef) (name : Name) : List Name :=
  (((defOf types name).bind TypeDef.ty).map pushDefined).getD []

/-- The types in the stack and every type they link to. -/
def reachable (types : List TypeDef) (stack : List Name) : List Name :=
  Worklist.reachable (linksOf types) (types.map TypeDef.name) stack.reverse

def isBorsh (t : TypeDef) : Bool :=
  match t.serialization with
  | none => true
  | some s => s.asStr == some "borsh".toList

def isBytemuck (t : TypeDef) : Bool :=
  t.serialization.bind Value.asStr == some "bytemuck".toList

def isBytemuckUnsafe (t : TypeDef) : Bool :=
  t.serialization.bind Value.asStr == some "bytemuckunsafe".toList

/-- Instruction arguments, events, Borsh accounts, and every type they reach. -/
def borshTypes (idl : Idl) : List Name :=
  reachable idl.types
    (idl.args.flatMap pushDefined ++ idl.events ++
      idl.accounts.filter fun name => (defOf idl.types name).any isBorsh)

/-! ## Layouts -/

structure Shape where
  size : Nat
  align : Nat
deriving DecidableEq

structure Layout where
  shape : Shape
  /-- Padding before each field, in field order. -/
  pads : List Nat
  tail : Nat
deriving DecidableEq

/-- `u64::checked_next_multiple_of`. -/
def checkedNextMultipleOf (a b : Nat) : Option Nat :=
  if b = 0 then none
  else if a % b = 0 then some a
  else checkedAdd a (b - a % b)

def leafShapes : List (Name × Shape) :=
  [("bool".toList, ⟨1, 1⟩), ("u8".toList, ⟨1, 1⟩), ("i8".toList, ⟨1, 1⟩),
    ("u16".toList, ⟨2, 2⟩), ("i16".toList, ⟨2, 2⟩),
    ("u32".toList, ⟨4, 4⟩), ("i32".toList, ⟨4, 4⟩), ("f32".toList, ⟨4, 4⟩),
    ("u64".toList, ⟨8, 8⟩), ("i64".toList, ⟨8, 8⟩), ("f64".toList, ⟨8, 8⟩),
    ("u128".toList, ⟨16, 8⟩), ("i128".toList, ⟨16, 8⟩), ("pubkey".toList, ⟨32, 1⟩)]

/-- Size and alignment on SBF. -/
def leafShape (leaf : Name) : Option Shape := leafShapes.lookup leaf

/-- An alias of a type that is not generic. -/
def TypeDef.aliasTarget (t : TypeDef) : Option Value :=
  if t.isGeneric then none else t.ty.bind Anchor.aliasTarget

def structFields (t : TypeDef) : Option (List Value) :=
  match t.ty with
  | some (.object body) =>
      match body.lookup .fields with
      | none | some .null => some []
      | some fields => fields.asArray
  | _ => none

/-- The padding in front of each field, then the end and the widest alignment. -/
def placeFields (packed : Bool) : Nat → Nat → List Shape → Option (List Nat × Nat × Nat)
  | offset, widest, [] => some ([], offset, widest)
  | offset, widest, shape :: shapes => do
      let align := if packed then 1 else shape.align
      let start ← checkedNextMultipleOf offset align
      let stop ← checkedAdd start shape.size
      let (pads, stop, widest) ← placeFields packed stop (max widest align) shapes
      some ((start - offset) :: pads, stop, widest)

/-- rustc accepts a power of two up to 2^29. -/
def explicitAlign : Option Nat → Option Nat
  | none => some 1
  | some align =>
      if align = 2 ^ Nat.log2 align ∧ align ≤ 2 ^ 29 then some align else none

def cLayout (modifier : ReprModifier) (shapes : List Shape) : Option Layout := do
  let (pads, offset, widest) ← placeFields modifier.packed 0 1 shapes
  let explicit ← explicitAlign modifier.align
  let align := max widest explicit
  let size ← checkedNextMultipleOf offset align
  some ⟨⟨size, align⟩, pads, size - offset⟩

def transparentLayout (shapes : List Shape) : Option Layout :=
  if shapes.any fun shape => shape.size = 0 ∧ shape.align ≠ 1 then none
  else
    match shapes.filter fun shape => shape.size ≠ 0 with
    | [shape] => some ⟨shape, shapes.map fun _ => 0, 0⟩
    | _ => none

/-- The layout of fields of these shapes. `repr(Rust)` has no field-order contract. -/
def reprLayout (shapes : List Shape) : Repr → Option Layout
  | .rust _ => none
  | .c modifier => cLayout modifier shapes
  | .transparent => transparentLayout shapes

/-! ## Remembered shapes -/

/-- The shapes that are known, the latest first. -/
abbrev Known := List (Name × Option Shape)

/-- Computations without a result keep what they learnt. -/
abbrev LayoutM := OptionT (StateM Known)

def ofOption {α : Type} (x : Option α) : LayoutM α := OptionT.mk (pure x)

/-- The type of a field. A tuple field is a bare type, which only `repr(transparent)` gives a
layout. -/
def fieldType (repr : Repr) (field : Value) : Option Value :=
  match field.get .type with
  | some ty => some ty
  | none => if repr = .transparent then some field else none

/-- The layout of a struct, given the shapes of types. -/
def structLayoutWith (shapeOf : Value → LayoutM Shape) (t : TypeDef) : LayoutM Layout :=
  if t.isGeneric then ofOption none
  else do
    let fields ← ofOption (structFields t)
    let repr ← ofOption t.repr
    match repr with
    | .rust _ => ofOption none
    | repr => do
        let shapes ← fields.mapM fun field => do
          let ty ← ofOption (fieldType repr field)
          shapeOf ty
        ofOption (reprLayout shapes repr)

/-- The shape of the type that a link names. -/
def linkShape (named : Name → LayoutM Shape) (ty : Value) : LayoutM Shape := do
  let name ← ofOption (((ty.get .defined).bind (Value.get .name)).bind Value.asStr)
  named name

mutual

/-- The shape of a type, given the shapes of named types. -/
def shapeWith (named : Name → LayoutM Shape) : Value → LayoutM Shape
  | .string leaf => ofOption (leafShape leaf)
  | .object entries => arrayShape named entries (.object entries)
  | _ => ofOption none

/-- The first entry for an array decides; without one the whole type is a link. -/
def arrayShape (named : Name → LayoutM Shape) : List (Key × Value) → Value → LayoutM Shape
  | (.array, .array [item, len]) :: _, _ => do
      let item ← shapeWith named item
      let len ← ofOption len.asU64
      let size ← ofOption (checkedMul item.size len)
      pure ⟨size, item.align⟩
  | (.array, _) :: _, ty => linkShape named ty
  | _ :: entries, ty => arrayShape named entries ty
  | [], ty => linkShape named ty

end

/-- The shape of a named type, by its definition if it is not known yet. While it is under
way it is known to have none. -/
def namedShape (types : List TypeDef) (shapeOf : Value → LayoutM Shape)
    (layoutOf : TypeDef → LayoutM Layout) (name : Name) : LayoutM Shape :=
  OptionT.mk fun known =>
    match known.lookup name with
    | some shape => (shape, known)
    | none =>
        let known := (name, none) :: known
        match defOf types name with
        | none => (none, known)
        | some t =>
            let (shape, known) :=
              match t.aliasTarget with
              | some target => (shapeOf target).run known
              | none => (Layout.shape <$> layoutOf t).run known
            (shape, (name, shape) :: known)

/-- The shape of a type in `room` levels of named types, the first one included. -/
def fieldShape (types : List TypeDef) : Nat → Value → LayoutM Shape
  | 0, _ => ofOption none
  | room + 1, ty =>
      shapeWith (namedShape types (fieldShape types room) fun t =>
        if room = 0 then ofOption none else structLayoutWith (fieldShape types room) t) ty

/-- The layout of a struct, from the outermost level. -/
def structLayout (types : List TypeDef) (t : TypeDef) : LayoutM Layout :=
  structLayoutWith (fieldShape types (nestingLimit + 1)) t

/-! ## Inserted fields -/

/-- The names that are tried in turn for an inserted field. -/
def candidate (base : Name) : Nat → Name
  | 0 => base
  | n + 1 => base ++ '_' :: Nat.toDigits 10 (n + 2)

/-- The first candidate whose camel case is not taken. One of them is free, because there
are more than taken names. -/
def freeName (taken : List Name) (base : Name) : Name :=
  (((List.range (taken.length + 1)).map (candidate base)).find? fun name =>
    camelCase name ∉ taken).getD base

def padding (name : Name) (len : Nat) : Value :=
  .object [(.name, .string name),
    (.type, .object [(.array, .array [.string "u8".toList, .number len])])]

/-- The fields with paddings in front of them. -/
def insertPads : List Name → List (Value × Nat) → Option (List Value × List Name)
  | taken, [] => some ([], taken)
  | taken, (field, pad) :: rest =>
      if pad = 0 then do
        let (out, taken) ← insertPads taken rest
        some (field :: out, taken)
      else do
        let name ← (field.get .name).bind Value.asStr
        let name := freeName taken ("padding_before_".toList ++ name)
        let (out, taken) ← insertPads (camelCase name :: taken) rest
        some (padding name pad :: field :: out, taken)

/-- The fields with all paddings, or nothing when there is nothing to insert or the layout is
not fully known. -/
def paddedFields (types : List TypeDef) (t : TypeDef) : LayoutM (List Value) := do
  let fields ← ofOption (structFields t)
  let layout ← structLayout types t
  if layout.tail = 0 ∧ layout.pads.all (· == 0) then ofOption none
  else do
    let taken := fields.filterMap fun field =>
      ((field.get .name).bind Value.asStr).map camelCase
    let (out, taken) ← ofOption (insertPads taken (fields.zip layout.pads))
    if layout.tail = 0 then pure out
    else pure (out ++ [padding (freeName taken "padding_end".toList) layout.tail])

/-! ## The pass -/

/-- The types of the accounts, other than generic ones. -/
def accountTypes (idl : Idl) : List TypeDef :=
  (idl.accounts.filterMap (defOf idl.types)).filter fun t => !t.isGeneric

/-- The types inside of `bytemuck` accounts. -/
def inBytemuck (idl : Idl) : List Name :=
  reachable idl.types (((accountTypes idl).filter isBytemuck).map TypeDef.name)

/-- The types from which everything is read in place. -/
def roots (idl : Idl) : List TypeDef :=
  (accountTypes idl ++ idl.types.filter fun t => t.name ∈ inBytemuck idl).filter fun t =>
    isBytemuckUnsafe t && !t.isGeneric

/-- Whether the layout of each type is known, up to the first one without. -/
def checkRoots (types : List TypeDef) : List TypeDef → StateM Known (Option TypeDef)
  | [] => pure none
  | t :: rest => do
      match ← (structLayout types t).run with
      | some _ => checkRoots types rest
      | none => pure (some t)

/-- The fields of the types, where they change. -/
def paddedTypes (types : List TypeDef) (inZeroCopy : List Name) :
    List TypeDef → StateM Known (List (Option (List Value)))
  | [] => pure []
  | t :: rest => do
      let fields ← if t.name ∈ inZeroCopy then (paddedFields types t).run else pure none
      let others ← paddedTypes types inZeroCopy rest
      pure (fields :: others)

/-- The type with its list of fields replaced. -/
def setFields (fields : List Value) : Value → Value
  | .object body =>
      .object (if (body.lookup .fields).isSome then
        body.map fun (key, value) => (key, if key = .fields then .array fields else value)
      else body ++ [(.fields, .array fields)])
  | ty => ty

def rewriteType (t : TypeDef) : Option (List Value) → TypeDef
  | none => t
  | some fields => { t with ty := t.ty.map (setFields fields) }

/-- The types with paddings inserted, or why that is refused. -/
def padZeroCopy (idl : Idl) : Except Error (List TypeDef) :=
  match idl.types.find? fun t => decide (t.name ∈ inBytemuck idl) && t.isEnum with
  | some t => .error (.at .type t.name .unknownLayout)
  | none =>
      match (checkRoots idl.types (roots idl)).run [] with
      | (some t, _) => .error (.at .type t.name .unknownLayout)
      | (none, known) =>
          let inZeroCopy := reachable idl.types ((roots idl).map TypeDef.name)
          let padded := ((paddedTypes idl.types inZeroCopy idl.types).run known).1
          match (idl.types.zip padded).find? fun (t, fields) =>
              fields.isSome && decide (t.name ∈ borshTypes idl) with
          | some (t, _) => .error (.at .type t.name .paddedBorshType)
          | none => .ok (List.zipWith rewriteType idl.types padded)

end Shipstern.Anchor
