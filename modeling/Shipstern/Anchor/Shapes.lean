import Shipstern.Anchor.IdlType
import Shipstern.Anchor.Layout
import Shipstern.Lib.Fallible

/-!
# Shapes of zero-copy types

The reference is the layout of `repr(C)` on SBF: every field starts at the next multiple of its
alignment, and the size is a multiple of the widest alignment. `RefShape` gives types their
sizes and alignments by it, from the types they contain.

The table of known shapes is read by `evalType` and `evalLayout`, which find no more than was
known when the table grows.
-/

namespace Shipstern.Anchor

open Codama IdlType Checked

/-! ## Links -/

/-- The type links to a name, in a field, an item or an argument. -/
inductive IdlType.LinksTo (name : Name) : IdlType → Prop
  | here {args : List (GenericArg IdlType)} : LinksTo name (.defined name args)
  | child {ty child : IdlType} (hchild : child ∈ ty.children) (h : LinksTo name child) :
      LinksTo name ty

theorem pushItems_eq (items : List Value) : pushItems items = items.flatMap pushDefined := by
  induction items with
  | nil => rfl
  | cons item items ih => rw [pushItems, ih, List.flatMap_cons]

theorem pushDefined_object {entries : List (Key × Value)} (h : entries.lookup .defined = none) :
    pushDefined (.object entries) = pushEntries entries := by
  rw [pushDefined, h]
  rfl

theorem pushEntries_docsJson (docs : Option (List Name)) : pushEntries (docsJson docs) = [] := by
  cases docs with
  | none => rfl
  | some lines => simp [docsJson, pushEntries, pushDefined, pushItems_eq, List.flatMap_map]

theorem pushDefined_fieldJson (field : IdlField IdlType) :
    pushDefined (fieldJson field) = pushDefined (toJson field.ty) := by
  have hlookup : ((.name, .string field.name) :: (.type, toJson field.ty) ::
      docsJson field.docs).lookup Key.defined = none := by
    cases field.docs <;> rfl
  rw [fieldJson, pushDefined_object hlookup]
  simp only [pushEntries, pushEntries_docsJson, pushDefined, List.nil_append, List.append_nil]

theorem pushEntries_fieldsJson (fields : IdlFields IdlType) :
    pushEntries (fieldsJson fields) = fields.types.flatMap fun ty => pushDefined (toJson ty) := by
  cases fields with
  | none => rfl
  | named fields =>
      simp only [fieldsJson, pushEntries, pushDefined, pushItems_eq, namedJson_eq, List.append_nil,
        IdlFields.types, List.flatMap_map, pushDefined_fieldJson]
  | tuple items =>
      simp only [fieldsJson, pushEntries, pushDefined, pushItems_eq, itemsJson_eq, List.append_nil,
        IdlFields.types, List.flatMap_map]

theorem pushDefined_argJson (arg : GenericArg IdlType) :
    pushDefined (argJson arg) = arg.type?.toList.flatMap fun ty => pushDefined (toJson ty) := by
  cases arg with
  | type ty =>
      rw [argJson, pushDefined_object rfl]
      simp [pushEntries, pushDefined, GenericArg.type?]
  | const value => rfl
  | missing => rfl

theorem flatMap_toList {α β γ : Type} (f : α → Option β) (g : β → List γ) (items : List α) :
    (items.flatMap fun item => (f item).toList.flatMap g) = (items.filterMap f).flatMap g := by
  induction items with
  | nil => rfl
  | cons item items ih =>
      rw [List.flatMap_cons, ih, List.filterMap_cons]
      cases f item with
      | none => rfl
      | some b => simp

/-- The names in the JSON of a type: its own, then those of the types below. -/
theorem pushDefined_toJson (ty : IdlType) :
    pushDefined (toJson ty) = (match ty with | .defined name _ => [name] | _ => []) ++
      ty.children.flatMap fun child => pushDefined (toJson child) := by
  cases ty with
  | leaf | number | generic => rfl
  | array item len =>
      rw [toJson, pushDefined_object rfl]
      simp [pushEntries, pushDefined, pushItems, children]
  | vec item | option item | coption item =>
      rw [toJson, pushDefined_object rfl]
      simp [pushEntries, children]
  | aliasOf form item =>
      cases form <;>
        (rw [toJson, pushDefined_object rfl]; simp [pushEntries, pushDefined, children])
  | defined name args =>
      cases args with
      | nil => rfl
      | cons arg args =>
          have hargs : pushItems (argJson arg :: argsJson args) =
              (IdlType.defined name (arg :: args)).children.flatMap fun child =>
                pushDefined (toJson child) := by
            rw [argsJson_eq, ← List.map_cons, pushItems_eq, List.flatMap_map]
            simp only [pushDefined_argJson]
            exact flatMap_toList GenericArg.type? _ (arg :: args)
          show name :: (pushDefined (.object [(.name, .string name),
            (.generics, .array (argJson arg :: argsJson args))]) ++ []) = _
          rw [pushDefined_object rfl, ← hargs]
          simp [pushEntries, pushDefined]
  | struct fields =>
      rw [toJson, pushDefined_object (by cases fields <;> rfl)]
      simp only [pushEntries, pushDefined, pushEntries_fieldsJson, children, List.nil_append]
  | enum variants =>
      have hvariant : ∀ variant, pushDefined (variantJson variant) =
          variant.fields.types.flatMap fun ty => pushDefined (toJson ty) := by
        intro variant
        rw [variantJson, pushDefined_object (by cases variant.fields <;> rfl)]
        simp only [pushEntries, pushDefined, pushEntries_fieldsJson, List.nil_append]
      rw [toJson, pushDefined_object rfl]
      simp only [pushEntries, pushDefined, pushItems_eq, variantsJson_eq, List.flatMap_map, hvariant,
        children, List.nil_append, List.append_nil, List.flatMap_assoc]

theorem mem_pushDefined {name : Name} {ty : IdlType} :
    name ∈ pushDefined (toJson ty) ↔ ty.LinksTo name := by
  induction ty using IdlType.induction with
  | step ty ih =>
      rw [pushDefined_toJson, List.mem_append, List.mem_flatMap]
      constructor
      · rintro (hname | ⟨child, hchild, hname⟩)
        · cases ty with
          | defined n args =>
              cases List.mem_singleton.mp hname
              exact .here
          | leaf | number | array | vec | option | coption | generic | aliasOf | struct | enum =>
              cases hname
        · exact .child hchild ((ih child hchild).mp hname)
      · intro h
        cases h with
        | here => exact Or.inl (List.mem_singleton.mpr rfl)
        | child hchild h => exact Or.inr ⟨_, hchild, (ih _ hchild).mpr h⟩

/-! ## Definitions -/

theorem mem_of_defOf {types : List TypeDef} {name : Name} {t : TypeDef}
    (h : defOf types name = some t) : t ∈ types ∧ t.name = name := by
  rw [defOf] at h
  have hname := List.find?_some h
  exact ⟨List.mem_reverse.mp (List.mem_of_find?_eq_some h), beq_iff_eq.mp hname⟩

theorem mem_reachable_iff {types : List TypeDef} {stack : List Name} {name : Name} :
    name ∈ reachable types stack ↔
      ∃ start ∈ stack, Relation.ReflTransGen (fun a b => b ∈ linksOf types a) start name := by
  have hkeys : ∀ b ∉ types.map TypeDef.name, linksOf types b = [] := by
    intro b hb
    have hnone : defOf types b = none := by
      rw [defOf, List.find?_eq_none]
      intro t ht hname
      exact hb (beq_iff_eq.mp hname ▸ List.mem_map_of_mem (List.mem_reverse.mp ht))
    rw [linksOf, hnone]
    rfl
  rw [reachable, Worklist.mem_reachable hkeys]
  simp

variable (types : List IdlTypeDef)

def typedDef (name : Name) : Option IdlTypeDef := types.reverse.find? fun t => t.name == name

/-- The type of a definition links to a name. -/
def DefLinks (name target : Name) : Prop :=
  ∃ t ty, typedDef types name = some t ∧ t.ty = some ty ∧ ty.LinksTo target

variable {types}

theorem defOf_map (name : Name) :
    defOf (types.map IdlTypeDef.toTypeDef) name =
      (typedDef types name).map IdlTypeDef.toTypeDef := by
  rw [defOf, typedDef, ← List.map_reverse, List.find?_map]
  rfl

theorem mem_linksOf {name target : Name} :
    target ∈ linksOf (types.map IdlTypeDef.toTypeDef) name ↔ DefLinks types name target := by
  rw [linksOf, defOf_map, DefLinks]
  cases hdef : typedDef types name with
  | none => simp
  | some t =>
      simp only [Option.map_some, Option.bind_some, IdlTypeDef.toTypeDef]
      cases hty : t.ty with
      | none => simp [hty]
      | some ty => simp [hty, mem_pushDefined]

theorem mem_reachable {stack : List Name} {name : Name} :
    name ∈ reachable (types.map IdlTypeDef.toTypeDef) stack ↔
      ∃ start ∈ stack, Relation.ReflTransGen (DefLinks types) start name := by
  have hrel : (fun a b => b ∈ linksOf (types.map IdlTypeDef.toTypeDef) a) = DefLinks types := by
    funext a b
    exact propext mem_linksOf
  rw [mem_reachable_iff, hrel]

theorem typedDef_mem {name : Name} {t : IdlTypeDef} (h : typedDef types name = some t) :
    t ∈ types ∧ t.name = name :=
  ⟨List.mem_reverse.mp (List.mem_of_find?_eq_some h), by simpa using List.find?_some h⟩

/-- With distinct names, a definition is the one of its name. -/
theorem typedDef_of_mem (hnames : (types.map IdlTypeDef.name).Nodup) {t : IdlTypeDef}
    (h : t ∈ types) : typedDef types t.name = some t := by
  cases hfound : typedDef types t.name with
  | none =>
      rw [typedDef, List.find?_eq_none] at hfound
      exact absurd (beq_self_eq_true t.name) (hfound t (List.mem_reverse.mpr h))
  | some found =>
      obtain ⟨hmem, hname⟩ := typedDef_mem hfound
      rw [List.inj_on_of_nodup_map hnames hmem h hname]

/-! ## The reference layout -/

/-- The least multiple of `align` that is not below `n`. -/
def roundUp (n align : Nat) : Nat := (n + (align - 1)) / align * align

theorem roundUp_spec {n align : Nat} (h : 0 < align) :
    align ∣ roundUp n align ∧ n ≤ roundUp n align ∧
      ∀ m, align ∣ m → n ≤ m → roundUp n align ≤ m := by
  refine ⟨Nat.dvd_mul_left _ _, ?_, ?_⟩
  · have hmod := Nat.mod_lt (n + (align - 1)) h
    have hdiv := Nat.div_add_mod' (n + (align - 1)) align
    rw [roundUp]
    omega
  · rintro m ⟨k, rfl⟩ hle
    have hlt : (n + (align - 1)) / align < k + 1 := by
      rw [Nat.div_lt_iff_lt_mul h, Nat.add_mul, Nat.mul_comm k]
      omega
    rw [roundUp, Nat.mul_comm align]
    exact Nat.mul_le_mul_right align (Nat.lt_succ_iff.mp hlt)

/-- Where each field starts, and where the last one ends. -/
def naturalStarts : Nat → List Shape → List Nat × Nat
  | offset, [] => ([], offset)
  | offset, shape :: shapes =>
      let start := roundUp offset shape.align
      let (starts, stop) := naturalStarts (start + shape.size) shapes
      (start :: starts, stop)

/-- The widths of the plain types in bytes, other than a public key. -/
def scalarWidth (name : Name) : Option Nat :=
  if name ∈ ["bool", "u8", "i8"].map String.toList then some 1
  else if name ∈ ["u16", "i16"].map String.toList then some 2
  else if name ∈ ["u32", "i32", "f32"].map String.toList then some 4
  else if name ∈ ["u64", "i64", "f64"].map String.toList then some 8
  else if name ∈ ["u128", "i128"].map String.toList then some 16
  else none

/-- Size and alignment of a plain type on SBF: a scalar is aligned to its width, those of 128 bits
to 8 bytes only, and a public key is an array of 32 bytes. -/
def refLeaf (name : Name) : Option Shape :=
  if name = "pubkey".toList then some ⟨32 * 1, 1⟩
  else (scalarWidth name).map fun width => ⟨width, min width 8⟩

/-- The table of the converter is that of SBF. -/
theorem leafShape_eq_refLeaf (name : Name) : leafShape name = refLeaf name := by
  by_cases hname : name ∈ leafShapes.map Prod.fst
  · exact (by decide : ∀ name ∈ leafShapes.map Prod.fst, leafShape name = refLeaf name) name hname
  · have hnone : leafShape name = none := List.lookup_eq_none_iff.mpr fun entry hentry => by
      rw [bne_iff_ne]
      rintro rfl
      exact hname (List.mem_map_of_mem hentry)
    have hkey : name ≠ "pubkey".toList := by
      rintro rfl
      exact hname (by decide)
    have hscalar : scalarWidth name = none := by
      simp [leafShapes] at hname
      simp [scalarWidth, hname]
    rw [hnone, refLeaf, if_neg hkey, hscalar, Option.map_none]

/-- The alignment that `align(N)` asks for; Rust takes the powers of two up to `2 ^ 29`. -/
def refAlign : Option Nat → Option Nat
  | none => some 1
  | some align => if align ∈ (List.range 30).map (2 ^ ·) then some align else none

theorem explicitAlign_eq_refAlign (align : Option Nat) : explicitAlign align = refAlign align := by
  cases align with
  | none => rfl
  | some align =>
      have hpower : (align = 2 ^ Nat.log2 align ∧ align ≤ 2 ^ 29) ↔
          align ∈ (List.range 30).map (2 ^ ·) := by
        simp only [List.mem_map, List.mem_range]
        constructor
        · rintro ⟨hlog, hle⟩
          refine ⟨Nat.log2 align, ?_, hlog.symm⟩
          rw [hlog] at hle
          exact Nat.lt_succ_of_le ((Nat.pow_le_pow_iff_right (by decide)).mp hle)
        · rintro ⟨k, hk, rfl⟩
          refine ⟨by rw [Nat.log2_two_pow], ?_⟩
          exact Nat.pow_le_pow_right (by decide) (Nat.le_of_lt_succ hk)
      simp only [explicitAlign, refAlign, hpower]

structure RefLayout where
  starts : List Nat
  shape : Shape

/-- The layout that a representation gives to fields of these shapes: natural alignment,
`packed` as `packed(1)`, an explicit alignment, or a newtype around one field with a size. -/
def refLayout (shapes : List Shape) : Repr → Option RefLayout
  | .rust _ => none
  | .c modifier =>
      let shapes := if modifier.packed then shapes.map fun shape => ⟨shape.size, 1⟩ else shapes
      let (starts, stop) := naturalStarts 0 shapes
      (refAlign modifier.align).map fun explicit =>
        let align := max ((shapes.map Shape.align).foldl max 1) explicit
        ⟨starts, ⟨roundUp stop align, align⟩⟩
  | .transparent =>
      match shapes.filter fun shape => shape.size ≠ 0 with
      | [shape] =>
          let (starts, _) := naturalStarts 0 (shapes.map fun shape => ⟨shape.size, 1⟩)
          some ⟨starts, shape⟩
      | _ => none

/-- Size and alignment of a type. A generic type has none, and neither has a type that
contains itself. -/
inductive RefShape (types : List IdlTypeDef) : IdlType → Shape → Prop
  | leaf {name : Name} {shape : Shape} (h : refLeaf name = some shape) :
      RefShape types (.leaf name) shape
  | array {item : IdlType} {shape : Shape} {len : Nat} (h : RefShape types item shape) :
      RefShape types (.array item (.number len)) ⟨shape.size * len, shape.align⟩
  | aliasOf {name : Name} {args : List (GenericArg IdlType)} {t : IdlTypeDef} {form : AliasForm}
      {target : IdlType} {shape : Shape} (hdef : typedDef types name = some t)
      (hgeneric : t.isGeneric = false) (hty : t.ty = some (.aliasOf form target))
      (h : RefShape types target shape) : RefShape types (.defined name args) shape
  | struct {name : Name} {args : List (GenericArg IdlType)} {t : IdlTypeDef}
      {fields : IdlFields IdlType} {repr : Repr} {shapes : List (IdlType × Shape)}
      {layout : RefLayout} (hdef : typedDef types name = some t) (hgeneric : t.isGeneric = false)
      (hty : t.ty = some (.struct fields)) (hrepr : t.repr = some repr)
      (hfields : shapes.map Prod.fst = fields.types)
      (h : ∀ field ∈ shapes, RefShape types field.1 field.2)
      (hlayout : refLayout (shapes.map Prod.snd) repr = some layout) :
      RefShape types (.defined name args) layout.shape

/-- The layout of a struct definition. -/
structure RefStruct (types : List IdlTypeDef) (t : IdlTypeDef) (fields : IdlFields IdlType)
    (layout : RefLayout) : Prop where
  generic : t.isGeneric = false
  ty : t.ty = some (.struct fields)
  shapes : ∃ repr shapes, t.repr = some repr ∧
    List.Forall₂ (RefShape types) fields.types shapes ∧ refLayout shapes repr = some layout

theorem eq_of_map_fst_eq {α β : Type} {xs ys : List (α × β)}
    (hfst : xs.map Prod.fst = ys.map Prod.fst)
    (hsnd : ∀ x ∈ xs, ∀ y ∈ ys, x.1 = y.1 → x.2 = y.2) : xs = ys := by
  induction xs generalizing ys with
  | nil =>
      cases ys with
      | nil => rfl
      | cons y ys => cases hfst
  | cons x xs ih =>
      cases ys with
      | nil => cases hfst
      | cons y ys =>
          obtain ⟨hfirst, hrest⟩ := List.cons.inj hfst
          have hx : x = y :=
            Prod.ext hfirst (hsnd x List.mem_cons_self y List.mem_cons_self hfirst)
          rw [hx, ih hrest fun x' hx' y' hy' =>
            hsnd x' (List.mem_cons_of_mem x hx') y' (List.mem_cons_of_mem y hy')]

/-- A type has one reference shape. -/
theorem RefShape.unique {types : List IdlTypeDef} {ty : IdlType} {shape shape' : Shape}
    (h : RefShape types ty shape) (h' : RefShape types ty shape') : shape = shape' := by
  induction h generalizing shape' with
  | leaf h =>
      cases h' with
      | leaf h' => exact Option.some.inj (h.symm.trans h')
  | array h ih =>
      cases h' with
      | array h' => rw [ih h']
  | aliasOf hdef hgeneric hty h ih =>
      cases h' with
      | aliasOf hdef' hgeneric' hty' h' =>
          rw [hdef] at hdef'
          cases hdef'
          rw [hty] at hty'
          cases hty'
          exact ih h'
      | struct hdef' hgeneric' hty' =>
          rw [hdef] at hdef'
          cases hdef'
          rw [hty] at hty'
          cases hty'
  | @struct name args t fields repr shapes layout hdef hgeneric hty hrepr hfields h hlayout ih =>
      cases h' with
      | aliasOf hdef' hgeneric' hty' h' =>
          rw [hdef] at hdef'
          cases hdef'
          rw [hty] at hty'
          cases hty'
      | @struct _ _ t' fields' repr' shapes' layout' hdef' _ hty' hrepr' hfields' h' hlayout' =>
          rw [hdef] at hdef'
          cases hdef'
          rw [hty] at hty'
          cases hty'
          rw [hrepr] at hrepr'
          cases hrepr'
          have hshapes : shapes = shapes' := by
            refine eq_of_map_fst_eq (hfields.trans hfields'.symm) ?_
            intro field hfield field' hfield' heq
            exact ih field hfield (heq ▸ h' field' hfield')
          rw [hshapes, hlayout'] at hlayout
          cases hlayout
          rfl

theorem RefStruct.shape {types : List IdlTypeDef} {name : Name} {t : IdlTypeDef}
    {fields : IdlFields IdlType} {layout : RefLayout} (h : RefStruct types t fields layout)
    (hdef : typedDef types name = some t) (args : List (GenericArg IdlType)) :
    RefShape types (.defined name args) layout.shape := by
  obtain ⟨repr, shapes, hrepr, hshapes, hlayout⟩ := h.shapes
  obtain ⟨hlength, hmem⟩ := List.forall₂_iff_zip.mp hshapes
  refine @RefShape.struct types name args t fields repr (fields.types.zip shapes) layout hdef
    h.generic h.ty hrepr ?_ ?_ ?_
  · exact List.map_fst_zip hlength.le
  · exact fun field hfield => hmem hfield
  · rw [List.map_snd_zip hlength.ge]
    exact hlayout

/-- A struct has one reference layout. -/
theorem RefStruct.unique {types : List IdlTypeDef} {t : IdlTypeDef} {fields : IdlFields IdlType}
    {layout layout' : RefLayout} (h : RefStruct types t fields layout)
    (h' : RefStruct types t fields layout') : layout = layout' := by
  obtain ⟨repr, shapes, hrepr, hshapes, hlayout⟩ := h.shapes
  obtain ⟨repr', shapes', hrepr', hshapes', hlayout'⟩ := h'.shapes
  rw [hrepr] at hrepr'
  cases hrepr'
  have hunique : Relator.RightUnique (RefShape types) := fun _ _ _ => RefShape.unique
  have hsame : shapes = shapes' := List.right_unique_forall₂' hunique hshapes hshapes'
  rw [hsame, hlayout'] at hlayout
  cases hlayout
  rfl

/-! ## Layouts against the reference -/

theorem checkedNextMultipleOf_eq {a b n : Nat} (h : checkedNextMultipleOf a b = some n) :
    n = roundUp a b := by
  rw [checkedNextMultipleOf] at h
  split at h
  · cases h
  · next hb =>
      have hdiv := Nat.div_add_mod a b
      have hround : roundUp a b = (b * (a / b) + (a % b + (b - 1))) / b * b := by
        rw [roundUp]
        congr 2
        omega
      rw [Nat.mul_add_div (Nat.pos_of_ne_zero hb)] at hround
      split at h
      · next hmod =>
          cases h
          have hzero : (a % b + (b - 1)) / b = 0 := Nat.div_eq_of_lt (by omega)
          rw [hround, hzero, Nat.add_zero, Nat.mul_comm]
          omega
      · next hmod =>
          have hlt := Nat.mod_lt a (Nat.pos_of_ne_zero hb)
          have hone : (a % b + (b - 1)) / b = 1 :=
            Nat.div_eq_of_lt_le (by omega) (by omega)
          obtain ⟨-, rfl⟩ := checkedAdd_eq_some.mp h
          rw [hround, hone, Nat.add_mul, Nat.mul_comm (a / b)]
          omega

/-- The start of each field behind its padding, and the end of the last one. -/
def paddedStarts : Nat → List Nat → List Shape → List Nat × Nat
  | offset, pad :: pads, shape :: shapes =>
      let start := offset + pad
      let (starts, stop) := paddedStarts (start + shape.size) pads shapes
      (start :: starts, stop)
  | offset, _, _ => ([], offset)

/-- The shapes of the fields of a struct that may be packed. -/
def packedShapes (packed : Bool) (shapes : List Shape) : List Shape :=
  if packed then shapes.map fun shape => ⟨shape.size, 1⟩ else shapes

theorem packedShapes_cons (packed : Bool) (shape : Shape) (shapes : List Shape) :
    packedShapes packed (shape :: shapes) =
      ⟨shape.size, if packed then 1 else shape.align⟩ :: packedShapes packed shapes := by
  cases packed <;> rfl

theorem le_roundUp {n align : Nat} (h : 0 < align) : n ≤ roundUp n align := (roundUp_spec h).2.1

theorem checkedNextMultipleOf_le {a b n : Nat} (h : checkedNextMultipleOf a b = some n) :
    a ≤ n := by
  have hb : b ≠ 0 := by
    rintro rfl
    cases h
  rw [checkedNextMultipleOf_eq h]
  exact le_roundUp (Nat.pos_of_ne_zero hb)

theorem placeFields_spec {packed : Bool} {shapes : List Shape} {offset widest stop widest' : Nat}
    {pads : List Nat} (h : placeFields packed offset widest shapes = some (pads, stop, widest')) :
    pads.length = shapes.length ∧
      naturalStarts offset (packedShapes packed shapes) = paddedStarts offset pads shapes ∧
      (paddedStarts offset pads shapes).2 = stop ∧
      widest' = ((packedShapes packed shapes).map Shape.align).foldl max widest := by
  induction shapes generalizing offset widest pads with
  | nil =>
      cases h
      cases packed <;> exact ⟨rfl, rfl, rfl, rfl⟩
  | cons shape shapes ih =>
      rw [placeFields] at h
      obtain ⟨start, hstart, h⟩ := Option.bind_eq_some_iff.mp h
      obtain ⟨after, hafter, h⟩ := Option.bind_eq_some_iff.mp h
      obtain ⟨⟨rest, stop', widest''⟩, hrest, h⟩ := Option.bind_eq_some_iff.mp h
      cases h
      obtain ⟨hlength, hnatural, hstop, hwidest⟩ := ih hrest
      have hle : offset ≤ start := checkedNextMultipleOf_le hstart
      have hround := checkedNextMultipleOf_eq hstart
      obtain ⟨-, rfl⟩ := checkedAdd_eq_some.mp hafter
      rw [packedShapes_cons, naturalStarts, paddedStarts, ← hround, Nat.add_sub_cancel' hle]
      exact ⟨by simp [hlength], by rw [hnatural], hstop, hwidest⟩

theorem naturalStarts_packed (offset : Nat) (shapes : List Shape) :
    naturalStarts offset (shapes.map fun shape => ⟨shape.size, 1⟩) =
      paddedStarts offset (shapes.map fun _ => 0) shapes := by
  induction shapes generalizing offset with
  | nil => rfl
  | cons shape shapes ih =>
      have hround : roundUp offset 1 = offset := by simp [roundUp]
      simp only [List.map_cons, naturalStarts, paddedStarts, hround, Nat.add_zero, ih]

theorem paddedStarts_zero_stop (offset : Nat) (shapes : List Shape) :
    (paddedStarts offset (shapes.map fun _ => 0) shapes).2 =
      offset + (shapes.map Shape.size).sum := by
  induction shapes generalizing offset with
  | nil => rfl
  | cons shape shapes ih =>
      simp only [List.map_cons, paddedStarts, List.sum_cons, ih]
      omega

theorem sum_sizes_filter (shapes : List Shape) :
    ((shapes.filter fun shape => shape.size ≠ 0).map Shape.size).sum =
      (shapes.map Shape.size).sum := by
  induction shapes with
  | nil => rfl
  | cons shape shapes ih =>
      rw [List.filter_cons]
      by_cases hzero : shape.size = 0
      · simpa [hzero] using ih
      · simpa [hzero] using ih

/-- A computed layout is the reference layout: the paddings put the fields at their starts,
and the tail fills the size. -/
theorem reprLayout_ref {shapes : List Shape} {repr : Repr} {layout : Layout}
    (h : reprLayout shapes repr = some layout) :
    ∃ ref, refLayout shapes repr = some ref ∧ ref.shape = layout.shape ∧
      layout.pads.length = shapes.length ∧
      paddedStarts 0 layout.pads shapes = (ref.starts, ref.shape.size - layout.tail) ∧
      layout.tail ≤ ref.shape.size := by
  cases repr with
  | rust modifier => cases h
  | c modifier =>
      rw [reprLayout, cLayout] at h
      obtain ⟨⟨pads, stop, widest⟩, hplace, h⟩ := Option.bind_eq_some_iff.mp h
      obtain ⟨explicit, hexplicit, h⟩ := Option.bind_eq_some_iff.mp h
      obtain ⟨size, hsize, h⟩ := Option.bind_eq_some_iff.mp h
      cases h
      obtain ⟨hlength, hnatural, hstop, hwidest⟩ := placeFields_spec hplace
      have hle : stop ≤ size := checkedNextMultipleOf_le hsize
      have hround := checkedNextMultipleOf_eq hsize
      have hnatural2 : (naturalStarts 0 (packedShapes modifier.packed shapes)).2 = stop := by
        rw [hnatural, hstop]
      refine ⟨⟨(naturalStarts 0 (packedShapes modifier.packed shapes)).1, ⟨size, max widest explicit⟩⟩,
        ?_, rfl, hlength, ?_, Nat.sub_le _ _⟩
      · rw [refLayout, ← explicitAlign_eq_refAlign, hexplicit]
        simp only [Option.map_some]
        show some (RefLayout.mk (naturalStarts 0 (packedShapes modifier.packed shapes)).1
          ⟨roundUp (naturalStarts 0 (packedShapes modifier.packed shapes)).2
              (max (((packedShapes modifier.packed shapes).map Shape.align).foldl max 1) explicit),
            max (((packedShapes modifier.packed shapes).map Shape.align).foldl max 1) explicit⟩) = _
        rw [← hwidest, hnatural2, ← hround]
      · rw [hnatural]
        show paddedStarts 0 pads shapes = (_, size - (size - stop))
        rw [Nat.sub_sub_self hle, ← hstop]
  | transparent =>
      rw [reprLayout, transparentLayout] at h
      split at h
      · cases h
      · split at h
        · next shape hfilter =>
            cases h
            have hsum := sum_sizes_filter shapes
            rw [hfilter] at hsum
            have hstop := paddedStarts_zero_stop 0 shapes
            rw [← hsum] at hstop
            refine ⟨⟨(naturalStarts 0 (shapes.map fun shape => ⟨shape.size, 1⟩)).1, shape⟩, ?_, rfl,
              by simp, ?_, Nat.zero_le _⟩
            · rw [refLayout, hfilter]
            · rw [naturalStarts_packed]
              refine Prod.ext rfl ?_
              rw [hstop]
              simp
        · cases h

/-! ## The table of known shapes -/

/-- The shape of a type, by the table. -/
def evalType (known : Known) : IdlType → Option Shape
  | .leaf name => leafShape name
  | .array item (.number len) => do
      let item ← evalType known item
      let size ← checkedMul item.size len
      some ⟨size, item.align⟩
  | .defined name _ => (known.lookup name).join
  | _ => none

/-- Bare types are fields of transparent structs only. -/
def fieldsAllowed (repr : Repr) : IdlFields IdlType → Bool
  | .tuple (_ :: _) => repr == .transparent
  | _ => true

/-- The layout of a struct, by the table. -/
def evalLayout (known : Known) (t : IdlTypeDef) : Option Layout :=
  match t.isGeneric, t.ty, t.repr with
  | false, some (.struct fields), some repr =>
      if fieldsAllowed repr fields then do
        let shapes ← fields.types.mapM (evalType known)
        reprLayout shapes repr
      else none
  | _, _, _ => none

/-- Entries of the table stay as they are. -/
def Extends (known known' : Known) : Prop :=
  ∀ name shape, known.lookup name = some shape → known'.lookup name = some shape

/-- Shapes of the table stay as they are. -/
def Grows (known known' : Known) : Prop :=
  ∀ name shape, known.lookup name = some (some shape) → known'.lookup name = some (some shape)

theorem Extends.grows {known known' : Known} (h : Extends known known') : Grows known known' :=
  fun name shape => h name (some shape)

theorem Extends.trans {a b c : Known} (hab : Extends a b) (hbc : Extends b c) : Extends a c :=
  fun name shape h => hbc name shape (hab name shape h)

theorem evalType_array (known : Known) (item len : IdlType) :
    evalType known (.array item len) = (match len with
      | .number len => (evalType known item).bind fun item =>
          (checkedMul item.size len).map fun size => ⟨size, item.align⟩
      | _ => none) := by
  cases len with
  | number len =>
      rw [evalType]
      cases evalType known item with
      | none => rfl
      | some item => cases h : checkedMul item.size len <;> simp [h]
  | leaf | array | vec | option | coption | defined | generic | aliasOf | struct | enum => rfl

theorem evalType_array_some {known : Known} {item len : IdlType} {shape : Shape}
    (h : evalType known (.array item len) = some shape) :
    ∃ inner n size, len = .number n ∧ evalType known item = some inner ∧
      checkedMul inner.size n = some size ∧ shape = ⟨size, inner.align⟩ := by
  rw [evalType_array] at h
  cases len with
  | number n =>
      obtain ⟨inner, hinner, h⟩ := Option.bind_eq_some_iff.mp h
      obtain ⟨size, hsize, hshape⟩ := Option.map_eq_some_iff.mp h
      exact ⟨inner, n, size, rfl, hinner, hsize, hshape.symm⟩
  | leaf | array | vec | option | coption | defined | generic | aliasOf | struct | enum => cases h

theorem evalType_defined_some {known : Known} {name : Name} {args : List (GenericArg IdlType)}
    {shape : Shape} (h : evalType known (.defined name args) = some shape) :
    known.lookup name = some (some shape) := by
  rw [evalType] at h
  cases hlookup : known.lookup name with
  | none => rw [hlookup] at h; cases h
  | some found => rw [hlookup] at h; rw [show found = some shape from h]

theorem evalType_grows {known known' : Known} (h : Grows known known') {ty : IdlType}
    {shape : Shape} (heval : evalType known ty = some shape) : evalType known' ty = some shape := by
  induction ty using IdlType.induction generalizing shape with
  | step ty ih =>
      cases ty with
      | leaf name => exact heval
      | defined name args =>
          rw [evalType, h name shape (evalType_defined_some heval)]
          rfl
      | array item len =>
          obtain ⟨inner, n, size, rfl, hinner, hsize, rfl⟩ := evalType_array_some heval
          have hitem := ih item List.mem_cons_self hinner
          simp [evalType_array, hitem, hsize]
      | number | vec | option | coption | generic | aliasOf | struct | enum => cases heval

theorem evalLayout_some {known : Known} {t : IdlTypeDef} {layout : Layout}
    (h : evalLayout known t = some layout) :
    ∃ fields repr shapes, t.isGeneric = false ∧ t.ty = some (.struct fields) ∧
      t.repr = some repr ∧ fieldsAllowed repr fields = true ∧
      fields.types.mapM (evalType known) = some shapes ∧ reprLayout shapes repr = some layout := by
  rw [evalLayout] at h
  split at h
  · next fields repr hgeneric hty hrepr =>
      split at h
      · next hallowed =>
          obtain ⟨shapes, hshapes, h⟩ := Option.bind_eq_some_iff.mp h
          exact ⟨fields, repr, shapes, hgeneric, hty, hrepr, hallowed, hshapes, h⟩
      · cases h
  · cases h

theorem evalLayout_grows {known known' : Known} (h : Grows known known') {t : IdlTypeDef}
    {layout : Layout} (heval : evalLayout known t = some layout) :
    evalLayout known' t = some layout := by
  obtain ⟨fields, repr, shapes, hgeneric, hty, hrepr, hallowed, hshapes, hlayout⟩ :=
    evalLayout_some heval
  have hshapes' : fields.types.mapM (evalType known') = some shapes := by
    rw [Fallible.mapM_eq_some] at hshapes ⊢
    exact hshapes.imp fun _ _ => evalType_grows h
  rw [evalLayout, hgeneric, hty, hrepr]
  simp [hallowed, hshapes', hlayout]

end Shipstern.Anchor
