import Shipstern.Codama.Nodes
import Shipstern.Lib.Hex

/-!
# Items of an Anchor IDL

Names in the converter's camel case, the checks that the named items of an IDL pass, and
the nodes that carry their discriminators. `checkItems` rejects a discriminator that is a
proper prefix of another one, and for accounts also an equal one.
-/

namespace Shipstern.Anchor

open Codama

/-! ## Camel case -/

def capitalize : List Char → List Char
  | [] => []
  | first :: rest => first.toUpper :: rest.map Char.toLower

def upperOrDigit (c : Char) : Bool := c.isUpper || c.isDigit

/-- `^[A-Z][A-Z0-9]*(?:_[A-Z0-9]+)+$`. -/
def isScreamingSnake (input : Name) : Bool :=
  match input.splitOnP (· == '_') with
  | [] => false
  | head :: rest =>
      (head.head?.any Char.isUpper && head.all upperOrDigit) && !rest.isEmpty &&
        rest.all fun part => !part.isEmpty && part.all upperOrDigit

/-- The capitalized words of a name. -/
def titleWords (input : Name) : List Name :=
  if isScreamingSnake input then
    ((input.map Char.toLower).splitOnP (· == '_')).map capitalize
  else
    let spaced := input.flatMap fun c => if c.isUpper then [' ', c] else [c]
    ((spaced.splitOnP fun c => !c.isAlphanum).filter fun word => !word.isEmpty).map capitalize

def pascalCase (input : Name) : Name := (titleWords input).flatten

def camelCase (input : Name) : Name :=
  match pascalCase input with
  | [] => []
  | first :: rest => first.toLower :: rest

/-! ### Casing -/

theorem toUpper_of_not_isLower {c : Char} (h : c.isLower = false) : c.toUpper = c := by
  rw [Char.toUpper, dif_neg]
  rintro ⟨hlow, hhigh⟩
  have hlower : c.isLower = true := by
    rw [Char.isLower, Bool.and_eq_true, decide_eq_true_eq, decide_eq_true_eq]
    exact ⟨hlow, hhigh⟩
  rw [h] at hlower
  cases hlower

theorem toLower_of_not_isUpper {c : Char} (h : c.isUpper = false) : c.toLower = c := by
  rw [Char.toLower, dif_neg]
  rintro ⟨hlow, hhigh⟩
  simp only [Char.isUpper, decide_eq_false_iff_not] at h
  exact h ⟨hlow, hhigh⟩

theorem toNat_toUpper {c : Char} (h : c.isLower = true) :
    c.toUpper.toNat + 32 = c.toNat ∧ 97 ≤ c.toNat ∧ c.toNat ≤ 122 := by
  simp only [Char.isLower, Bool.and_eq_true, decide_eq_true_eq, ge_iff_le,
    UInt32.le_iff_toNat_le] at h
  have hbounds : 97 ≤ c.toNat ∧ c.toNat ≤ 122 := h
  have hrange : 'a'.val ≤ c.val ∧ c.val ≤ 'z'.val := by
    rw [UInt32.le_iff_toNat_le, UInt32.le_iff_toNat_le]
    exact hbounds
  have hval : c.toUpper.val = c.val + ('A'.val - 'a'.val) := by rw [Char.toUpper, dif_pos hrange]
  have hupper : c.toUpper.toNat = (c.toNat + 4294967264) % 4294967296 := by
    show c.toUpper.val.toNat = _
    rw [hval, UInt32.toNat_add]
    rfl
  omega

theorem toNat_toLower {c : Char} (h : c.isUpper = true) :
    c.toLower.toNat = c.toNat + 32 ∧ 65 ≤ c.toNat ∧ c.toNat ≤ 90 := by
  simp only [Char.isUpper, decide_eq_true_eq, ge_iff_le, UInt32.le_iff_toNat_le] at h
  have hbounds : 65 ≤ c.toNat ∧ c.toNat ≤ 90 := h
  have hrange : c.val ≥ 'A'.val ∧ c.val ≤ 'Z'.val := by
    rw [ge_iff_le, UInt32.le_iff_toNat_le, UInt32.le_iff_toNat_le]
    exact hbounds
  have hval : c.toLower.val = c.val + ('a'.val - 'A'.val) := by rw [Char.toLower, dif_pos hrange]
  have hlower : c.toLower.toNat = (c.toNat + 32) % 4294967296 := by
    show c.toLower.val.toNat = _
    rw [hval, UInt32.toNat_add]
    rfl
  omega

theorem toUpper_injective {c d : Char} (hc : c.isLower = true) (hd : d.isLower = true)
    (h : c.toUpper = d.toUpper) : c = d := by
  have hvalue := congrArg Char.toNat h
  obtain ⟨hc, -⟩ := toNat_toUpper hc
  obtain ⟨hd, -⟩ := toNat_toUpper hd
  exact Char.ext (UInt32.toNat_inj.mp (show c.toNat = d.toNat by omega))

theorem isLower_toLower {c : Char} (h : c.toLower.isAlpha = true) : c.toLower.isLower = true := by
  rw [Char.isAlpha, Bool.or_eq_true] at h
  obtain hupper | hlower := h
  · cases hc : c.isUpper with
    | true =>
        obtain ⟨hnat, hge, -⟩ := toNat_toLower hc
        obtain ⟨-, -, hle⟩ := toNat_toLower hupper
        omega
    | false =>
        rw [toLower_of_not_isUpper hc, hc] at hupper
        cases hupper
  · exact hlower

theorem underscore_of_cased {c : Char} (h : c.toUpper = '_' ∨ c.toLower = '_') : c = '_' := by
  obtain h | h := h
  · cases hc : c.isLower with
    | true =>
        have hnat : c.toUpper.toNat = 95 := congrArg Char.toNat h
        have := toNat_toUpper hc
        omega
    | false => rw [← h, toUpper_of_not_isLower hc]
  · cases hc : c.isUpper with
    | true =>
        have hnat : c.toLower.toNat = 95 := congrArg Char.toNat h
        have := toNat_toLower hc
        omega
    | false => rw [← h, toLower_of_not_isUpper hc]

/-! ## Errors -/

inductive ItemKind
  | program
  | type
  | account
  | constant
  | error
  | event
  | instruction
deriving DecidableEq

/-- Why an IDL is not converted. Of a `serde_json` error only its presence is kept. -/
inductive Error
  | at (kind : ItemKind) (name : Name) (error : Error)
  | emptyDiscriminator
  | invalidName (name : Name)
  | nameCollision (first : Name)
  | ambiguousDiscriminator (discriminator : List UInt8) (other : Name)
  | duplicateDiscriminator (other : Name)
  | json
  | unrecognizedType (text : Name)
  | genericTypeMissing (name : Name)
  | genericArgsMissing (name : Name)
  | genericEnum (name : Name)
  | undefinedType (name : Name)
  | genericArgMissing (name : Name)
  | invalidArrayLength (text : Name)
  | recursionLimit
  | tooLarge
  | paddedBorshType
  | unknownLayout
  | inlineEnum
  | variableSizeCOption
  | fixedTypeTooLarge
  | conflictingFlattenedArguments (names : List Name)
deriving DecidableEq

/-- A camel-cased name that starts with a letter, as a Rust identifier has to. -/
def ident (input : Name) : Except Error Name :=
  if (camelCase input).head?.any Char.isAlpha then .ok (camelCase input)
  else .error (.invalidName input)

/-! ## Checks of named items -/

/-- The names that were seen, each by its camel case. -/
def checkNamesFrom (kind : ItemKind) : List (Name × Name) → List Name → Except Error Unit
  | _, [] => .ok ()
  | seen, name :: rest =>
      match seen.lookup (camelCase name) with
      | some first => .error (.at kind name (.nameCollision first))
      | none => checkNamesFrom kind ((camelCase name, name) :: seen) rest

def checkNames (kind : ItemKind) (names : List Name) : Except Error Unit :=
  checkNamesFrom kind [] names

theorem nodup_of_checkNamesFrom {kind : ItemKind} {seen : List (Name × Name)} {names : List Name}
    (h : checkNamesFrom kind seen names = .ok ()) :
    (names.map camelCase).Nodup ∧ ∀ name ∈ names, seen.lookup (camelCase name) = none := by
  induction names generalizing seen with
  | nil => simp
  | cons name rest ih =>
      rw [checkNamesFrom] at h
      split at h
      · cases h
      · next hnew =>
          obtain ⟨hnodup, hunseen⟩ := ih h
          have hothers : ∀ other ∈ rest, camelCase other ≠ camelCase name ∧
              seen.lookup (camelCase other) = none := by
            intro other hother
            have hlookup := hunseen other hother
            rw [List.lookup_cons] at hlookup
            split at hlookup
            · cases hlookup
            · next hne => exact ⟨by simpa using hne, hlookup⟩
          refine ⟨List.nodup_cons.mpr ⟨fun hmem => ?_, hnodup⟩, ?_⟩
          · obtain ⟨other, hother, heq⟩ := List.mem_map.mp hmem
            exact (hothers other hother).1 heq
          · rintro other (_ | ⟨_, hother⟩)
            · exact hnew
            · exact (hothers other hother).2

/-- Names that pass have different camel cases. -/
theorem nodup_of_checkNames {kind : ItemKind} {names : List Name}
    (h : checkNames kind names = .ok ()) : (names.map camelCase).Nodup :=
  (nodup_of_checkNamesFrom h).1

/-- A named item with its discriminator. -/
structure Item where
  name : Name
  discriminator : List UInt8
deriving DecidableEq

/-- What is wrong with the item at `i` because of the one at `j`. -/
def conflict (kind : ItemKind) (i : Nat) (item : Item) (j : Nat) (other : Item) : Option Error :=
  if item.discriminator.length < other.discriminator.length ∧
      item.discriminator <+: other.discriminator then
    some (.ambiguousDiscriminator item.discriminator other.name)
  else if kind = .account ∧ j < i ∧ other.discriminator = item.discriminator then
    some (.duplicateDiscriminator other.name)
  else none

def checkItems (kind : ItemKind) (items : List Item) : Except Error Unit := do
  checkNames kind (items.map Item.name)
  match items.zipIdx.findSome? fun (item, i) =>
      (items.zipIdx.findSome? fun (other, j) => conflict kind i item j other).map (.at kind item.name)
    with
  | some error => .error error
  | none => .ok ()

theorem conflict_eq_none {kind : ItemKind} {items : List Item} (h : checkItems kind items = .ok ())
    {i j : Nat} {item other : Item} (hitem : items[i]? = some item) (hother : items[j]? = some other) :
    conflict kind i item j other = none := by
  rw [checkItems] at h
  cases hnames : checkNames kind (items.map Item.name) with
  | error e =>
      rw [hnames] at h
      cases h
  | ok =>
      simp only [hnames, bind, Except.bind] at h
      split at h
      · cases h
      · next hnone =>
          have hi := List.findSome?_eq_none_iff.mp hnone (item, i)
            (List.mem_zipIdx_iff_getElem?.mpr hitem)
          rw [Option.map_eq_none_iff] at hi
          exact List.findSome?_eq_none_iff.mp hi (other, j) (List.mem_zipIdx_iff_getElem?.mpr hother)

/-- No discriminator of accepted items is a proper prefix of another. -/
theorem checkItems_prefix {kind : ItemKind} {items : List Item} (h : checkItems kind items = .ok ())
    {item other : Item} (hitem : item ∈ items) (hother : other ∈ items)
    (hinitial : item.discriminator <+: other.discriminator) :
    item.discriminator = other.discriminator := by
  obtain ⟨i, hi⟩ := List.getElem?_of_mem hitem
  obtain ⟨j, hj⟩ := List.getElem?_of_mem hother
  have hnone := conflict_eq_none h hi hj
  refine hinitial.eq_of_length_le ?_
  by_contra hlt
  rw [conflict, if_pos ⟨by omega, hinitial⟩] at hnone
  cases hnone

/-- Accepted accounts have distinct discriminators. -/
theorem checkItems_account_nodup {items : List Item} (h : checkItems .account items = .ok ()) :
    (items.map Item.discriminator).Nodup := by
  rw [List.Nodup, List.pairwise_map, List.pairwise_iff_getElem]
  intro i j hi hj hij hdisc
  have hnone := conflict_eq_none h (List.getElem?_eq_getElem hj) (List.getElem?_eq_getElem hi)
  rw [conflict, if_neg (by simp [hdisc]), if_pos ⟨rfl, hij, hdisc⟩] at hnone
  cases hnone

/-! ## Nodes with a discriminator -/

def fixedBytes (len : Nat) : TypeNode := .fixedSize len .bytes

def base16Bytes (bytes : List UInt8) : BytesValueNode := ⟨Hex.encode bytes, .base16⟩

def discriminatorName : Name := "discriminator".toList

def fieldDiscriminator : DiscriminatorNode := .field discriminatorName 0

/-- The argument in front of the arguments of an instruction. -/
def discriminatorArgument (discriminator : List UInt8) : InstructionArgumentNode where
  name := discriminatorName
  defaultValueStrategy := some .omitted
  type := fixedBytes discriminator.length
  defaultValue := some (.bytesValue (base16Bytes discriminator))

/-- The node of an instruction, given its converted accounts and arguments. -/
def instructionNode (ix : Item) (accounts : List InstructionAccountNode)
    (args : List InstructionArgumentNode) : Except Error InstructionNode :=
  if ix.discriminator.isEmpty then .error .emptyDiscriminator
  else do
    let name ← ident ix.name
    .ok
      { name
        accounts
        arguments := discriminatorArgument ix.discriminator :: args
        discriminators := [fieldDiscriminator] }

/-- The field in front of the fields of an account. -/
def discriminatorField (discriminator : List UInt8) : StructFieldTypeNode where
  name := discriminatorName
  defaultValueStrategy := some .omitted
  type := fixedBytes discriminator.length
  defaultValue := some (.bytes (base16Bytes discriminator))

/-- The node of an account, given the fields of its converted type. -/
def accountNode (account : Item) (fields : List StructFieldTypeNode) : Except Error AccountNode :=
  if account.discriminator.isEmpty then .error .emptyDiscriminator
  else do
    let name ← ident account.name
    .ok
      { name
        data := .value (discriminatorField account.discriminator :: fields)
        discriminators := [fieldDiscriminator] }

/-- The node of an event, given the fields of its converted type. -/
def eventNode (event : Item) (fields : List StructFieldTypeNode) : Except Error EventNode :=
  if event.discriminator.isEmpty then .error .emptyDiscriminator
  else do
    let name ← ident event.name
    let constant : ConstantValueNode :=
      ⟨fixedBytes event.discriminator.length, .bytes (base16Bytes event.discriminator)⟩
    .ok
      { name
        data := .hiddenPrefix (.struct fields) [constant]
        discriminators := [.constant 0 constant] }

end Shipstern.Anchor
