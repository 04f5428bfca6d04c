import Shipstern.Anchor.Types

/-!
# Shapes that cannot be rendered

`check_renderable` refuses what the converter can write and the renderer cannot render: an
inline enum, a `coption` of a variable-size item, a type of a fixed size beyond the limit, and
an alias that is cyclic or chained past the nesting limit. Sizes and chains are remembered by
name. A definition is found under its last name, as in a map that is collected from a list.
Depths are counted down from what the nesting limit leaves.
-/

namespace Shipstern.Anchor

open Codama Budgeted

/-- Largest fixed wire type a parser accepts. -/
def fixedTypeSizeLimit : Nat := 10 * 1024 * 1024

def definedTypeNode (g : Generics) (ty : TypeDef) : Convert DefinedTypeNode := do
  let name ← free (ident ty.name)
  let type ← typeNode g (ty.ty.getD emptyStruct)
  pure ⟨name, type⟩

abbrev Defs := List (Name × TypeNode)

def defsOf (types : List DefinedTypeNode) : Defs :=
  (types.map fun ty => (ty.name, ty.type)).reverse

theorem nodup_defsOf {types : List DefinedTypeNode} (hnames : (types.map (·.name)).Nodup) :
    ((defsOf types).map (·.1)).Nodup := by
  rw [defsOf, List.map_reverse, List.map_map]
  exact List.nodup_reverse.mpr hnames

/-- Types of distinct names are found in whatever order they are declared. -/
theorem lookup_defsOf_perm {types types' : List DefinedTypeNode} (h : types.Perm types')
    (hnames : (types.map (·.name)).Nodup) (name : Name) :
    (defsOf types).lookup name = (defsOf types').lookup name := by
  have hperm : (defsOf types).Perm (defsOf types') :=
    ((List.reverse_perm _).trans (h.map _)).trans (List.reverse_perm _).symm
  exact lookup_perm hperm (nodup_defsOf hnames) name

/-! ## The walker -/

/-- `for_each_child`: the types that the walker finds directly below a type. -/
def walked : TypeNode → List TypeNode
  | .array item _ => [item]
  | .fixedSize _ type | .sizePrefix type _ => [type]
  | .option _ item _ => [item]
  | .hiddenPrefix type constants => type :: constants.map (·.type)
  | .struct fields => fields.map (·.type)
  | .tuple items => items
  | .enum variants _ => variants.flatMap fun variant =>
      match variant.payload with
      | .struct fields => fields.map (·.type)
      | .tuple items => items
      | .empty | .wrapped _ => []
  | _ => []

mutual

/-- The types that a function visits that calls itself on what the walker finds. -/
def visited : TypeNode → List TypeNode
  | .array item count => .array item count :: visited item
  | .fixedSize size type => .fixedSize size type :: visited type
  | .sizePrefix type number => .sizePrefix type number :: visited type
  | .option fixed item number => .option fixed item number :: visited item
  | .hiddenPrefix type constants =>
      .hiddenPrefix type constants :: (visited type ++ visitedConstants constants)
  | .struct fields => .struct fields :: visitedFields fields
  | .tuple items => .tuple items :: visitedItems items
  | .enum variants size => .enum variants size :: visitedVariants variants
  | type => [type]

def visitedConstants : List ConstantValueNode → List TypeNode
  | [] => []
  | ⟨type, _⟩ :: constants => visited type ++ visitedConstants constants

def visitedFields : List StructFieldTypeNode → List TypeNode
  | [] => []
  | ⟨_, _, type, _⟩ :: fields => visited type ++ visitedFields fields

def visitedItems : List TypeNode → List TypeNode
  | [] => []
  | item :: items => visited item ++ visitedItems items

def visitedVariants : List EnumVariantTypeNode → List TypeNode
  | [] => []
  | ⟨_, _, payload⟩ :: variants => visitedPayload payload ++ visitedVariants variants

def visitedPayload : VariantPayload TypeNode → List TypeNode
  | .struct fields => visitedFields fields
  | .tuple items => visitedItems items
  | .empty | .wrapped _ => []

end

theorem visitedConstants_eq (constants : List ConstantValueNode) :
    visitedConstants constants = (constants.map (·.type)).flatMap visited := by
  induction constants with
  | nil => rfl
  | cons constant constants ih => rw [visitedConstants, ih, List.map_cons, List.flatMap_cons]

theorem visitedFields_eq (fields : List StructFieldTypeNode) :
    visitedFields fields = (fields.map (·.type)).flatMap visited := by
  induction fields with
  | nil => rfl
  | cons field fields ih => rw [visitedFields, ih, List.map_cons, List.flatMap_cons]

theorem visitedItems_eq (items : List TypeNode) : visitedItems items = items.flatMap visited := by
  induction items with
  | nil => rfl
  | cons item items ih => rw [visitedItems, ih, List.flatMap_cons]

theorem visitedVariants_eq (variants : List EnumVariantTypeNode)
    (size : NestedTypeNode NumberTypeNode) :
    visitedVariants variants = (walked (.enum variants size)).flatMap visited := by
  induction variants with
  | nil => rfl
  | cons variant variants ih =>
      obtain ⟨name, discriminator, payload⟩ := variant
      rw [visitedVariants, ih, walked, walked, List.flatMap_cons, List.flatMap_append]
      cases payload with
      | struct fields => rw [visitedPayload, visitedFields_eq]
      | tuple items => rw [visitedPayload, visitedItems_eq]
      | empty => rfl
      | wrapped types => rfl

theorem visited_eq (ty : TypeNode) : visited ty = ty :: (walked ty).flatMap visited := by
  cases ty with
  | hiddenPrefix type constants =>
      rw [visited, visitedConstants_eq, walked, List.flatMap_cons]
  | struct fields => rw [visited, visitedFields_eq, walked]
  | tuple items => rw [visited, visitedItems_eq, walked]
  | enum variants size => rw [visited, visitedVariants_eq variants size]
  | array | fixedSize | sizePrefix | option => simp [visited, walked]
  | boolean | publicKey | number | string | bytes | hiddenSuffix | map | set | link
  | unsupported => simp [visited, walked]

/-! ## Sizes -/

def cappedSize (size : Nat) : Nat := min size (fixedTypeSizeLimit + 1)

/-- A sum that overflows is above the limit as well. -/
def cappedAdd (left right : Nat) : Nat :=
  if left + right ≤ fixedTypeSizeLimit then left + right else fixedTypeSizeLimit + 1

def cappedMul (left right : Nat) : Nat :=
  if left * right ≤ fixedTypeSizeLimit then left * right else fixedTypeSizeLimit + 1

def numberWireSize : NumberFormat → Option Nat
  | .i8 | .u8 => some 1
  | .i16 | .u16 => some 2
  | .f32 | .i32 | .u32 => some 4
  | .f64 | .i64 | .u64 => some 8
  | .i128 | .u128 => some 16
  | .shortU16 => none

/-- The sizes that are known by name. -/
abbrev Sizes := List (Name × Option Nat)

/-- The sum of sizes, until one is not defined. -/
def sumSizes (size : TypeNode → Sizes → Option Nat × Sizes) :
    Nat → List TypeNode → Sizes → Option Nat × Sizes
  | total, [], known => (some total, known)
  | total, ty :: types, known =>
      match size ty known with
      | (none, known) => (none, known)
      | (some n, known) => sumSizes size (cappedAdd total n) types known

/-- The fixed wire size, capped one byte above the parser limit. Nothing is known beyond the
nesting limit, and the size of a link is remembered. -/
def fixedSizeOfType (defs : Defs) : Nat → List Name → TypeNode → Sizes → Option Nat × Sizes
  | 0, _, _, known => (none, known)
  | room + 1, visiting, ty, known =>
      match ty with
      | .boolean _ => (some 1, known)
      | .publicKey => (some 32, known)
      | .number number => (numberWireSize number.format, known)
      | .fixedSize size _ => (some (cappedSize size), known)
      -- the constants first
      | .hiddenPrefix type constants | .hiddenSuffix type constants =>
          sumSizes (fixedSizeOfType defs room visiting) 0 (constants.map (·.type) ++ [type]) known
      | .struct fields =>
          sumSizes (fixedSizeOfType defs room visiting) 0 (fields.map (·.type)) known
      | .tuple items => sumSizes (fixedSizeOfType defs room visiting) 0 items known
      | .array item (.fixed count) =>
          let (size, known) := fixedSizeOfType defs room visiting item known
          (size.map (cappedMul · count), known)
      | .option (some true) item number =>
          match numberWireSize number.getNestedTypeNode.format with
          | none => (none, known)
          | some tag =>
              let (size, known) := fixedSizeOfType defs room visiting item known
              (size.map (cappedAdd tag), known)
      | .link name =>
          match defs.lookup name with
          | none => (none, known)
          | some definition =>
              match known.lookup name with
              | some size => (size, known)
              | none =>
                  if name ∈ visiting then (none, known)
                  else
                    let (size, known) :=
                      fixedSizeOfType defs room (name :: visiting) definition known
                    (size, (name, size) :: known)
      | _ => (none, known)

def fixedSizeSum (defs : Defs) (types : List TypeNode) : Option Nat :=
  (sumSizes (fixedSizeOfType defs (nestingLimit + 1) []) 0 types []).1

def checkFixedSize (size : Option Nat) : Except Error Unit :=
  if size.any (· > fixedTypeSizeLimit) then .error .fixedTypeTooLarge else .ok ()

/-- What is wrong with a type of the given size, apart from the types in it. -/
def checkShape : TypeNode → Option Nat → Except Error Unit
  | .enum _ _, _ => .error .inlineEnum
  | .option (some true) _ _, none => .error .variableSizeCOption
  | _, size => checkFixedSize size

def checkOne (defs : Defs) (known : Sizes) (ty : TypeNode) : Except Error Sizes := do
  let (size, known) := fixedSizeOfType defs (nestingLimit + 1) [] ty known
  checkShape ty size
  pure known

/-- The type, then the types in it one after the other. -/
def checkNode (defs : Defs) (known : Sizes) (ty : TypeNode) : Except Error Sizes :=
  (visited ty).foldlM (checkOne defs) known

/-! ## Chains of aliases -/

/-- The names of the links in a type. -/
def collectLinks (ty : TypeNode) : List Name :=
  (visited ty).filterMap fun
    | .link name => some name
    | _ => none

/-- What an alias stands for. -/
def aliasBody (defs : Defs) (name : Name) : Option TypeNode :=
  match defs.lookup name with
  | some (.tuple [item]) => some item
  | some (.struct _) | some (.enum _ _) | some (.tuple _) | none => none
  | some body => some body

/-- The lengths of chains that are known by name. -/
abbrev Depths := List (Name × Nat)

/-- The longest of the chains that start with one of the links. -/
def longestChain (depth : Name → Depths → Except Error (Nat × Depths)) :
    Nat → List Name → Depths → Except Error (Nat × Depths)
  | longest, [], known => .ok (longest, known)
  | longest, link :: links, known => do
      let (n, known) ← depth link known
      longestChain depth (max longest (n + 1)) links known

/-- The longest chain of aliases that a name expands through; a cycle never ends, so it fails
like a chain that is too long. -/
def aliasDepth (defs : Defs) : Nat → Name → Depths → Except Error (Nat × Depths)
  | 0, _, _ => .error .recursionLimit
  | room + 1, name, known =>
      match known.lookup name with
      | some longest => if longest > room then .error .recursionLimit else .ok (longest, known)
      | none =>
          match aliasBody defs name with
          | none => .ok (0, known)
          | some body => do
              let (longest, known) ←
                longestChain (aliasDepth defs room) 0 (collectLinks body) known
              .ok (longest, (name, longest) :: known)

/-- The calls for all names, one after the other. -/
def aliasChecks (defs : Defs) (names : List Name) (chains : Depths) : Except Error Depths :=
  names.foldlM (fun chains name => (aliasDepth defs (nestingLimit + 1) name chains).map (·.2)) chains

/-! ## All items -/

/-- A defined type may be an enum itself. -/
def checkDefined (defs : Defs) (known : Sizes) (ty : DefinedTypeNode) : Except Error Sizes :=
  match ty.type with
  | .enum variants size => (walked (.enum variants size)).foldlM (checkNode defs) known
  | body => checkNode defs known body

/-- The defined types, with their names in the IDL. -/
def checkTypes (defs : Defs) :
    List (Name × DefinedTypeNode) → Sizes → Depths → Except Error Sizes
  | [], known, _ => .ok known
  | (raw, ty) :: types, known, chains =>
      match checkDefined defs known ty with
      | .error e => .error (.at .type raw e)
      | .ok known =>
          match aliasDepth defs (nestingLimit + 1) ty.name chains with
          | .error e => .error (.at .type raw e)
          | .ok (_, chains) => checkTypes defs types known chains

/-- An item whose types are written one after the other. -/
def checkSum (defs : Defs) (kind : ItemKind) (raw : Name) (known : Sizes)
    (types : List TypeNode) : Except Error Sizes :=
  ((checkFixedSize (fixedSizeSum defs types)).bind fun _ =>
    types.foldlM (checkNode defs) known).mapError (.at kind raw)

def checkAccount (defs : Defs) (known : Sizes) (account : Name × AccountNode) :
    Except Error Sizes :=
  match account.2.data with
  | .value fields => checkSum defs .account account.1 known (fields.map (·.type))
  | .wrapped _ _ => .ok known

def checkEvent (defs : Defs) (known : Sizes) (event : Name × EventNode) : Except Error Sizes :=
  (checkNode defs known event.2.data).mapError (.at .event event.1)

def checkInstruction (defs : Defs) (known : Sizes) (ix : Name × InstructionNode) :
    Except Error Sizes :=
  checkSum defs .instruction ix.1 known (ix.2.arguments.map (·.type))

/-- Every item comes with its name in the IDL. -/
def checkRenderable (types : List (Name × DefinedTypeNode)) (accounts : List (Name × AccountNode))
    (events : List (Name × EventNode)) (instructions : List (Name × InstructionNode)) :
    Except Error Unit := do
  let defs := defsOf (types.map (·.2))
  let known ← checkTypes defs types [] []
  let known ← accounts.foldlM (checkAccount defs) known
  let known ← events.foldlM (checkEvent defs) known
  let _ ← instructions.foldlM (checkInstruction defs) known
  pure ()

end Shipstern.Anchor
