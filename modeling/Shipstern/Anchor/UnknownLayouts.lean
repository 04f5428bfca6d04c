import Shipstern.Anchor.RawLayouts

/-!
# Types without a known layout

What is read in place with an account is followed through fields, arrays, links and aliases.
A type of an unknown kind has no layout, and neither has an account that reads it, unless its
definition passes for a struct. A definition without `fields` does: an enum with a C repr is
read as an empty struct. So it is refused exactly where a type that is read in place from the
start has no layout as it is read, or an enum is linked from a bytemuck account.
-/

namespace Shipstern.Anchor

open Codama

/-! ## What is read in place -/

def kindOf (ty : Value) : Option Name := (ty.get .kind).bind Value.asStr

def TypeDef.isStruct (t : TypeDef) : Bool := t.ty.bind kindOf == some "struct".toList

/-- The entries of `fields`, when it lists some. -/
def TypeDef.listedFields (t : TypeDef) : Option (List Value) :=
  (t.ty.bind (Value.get .fields)).bind Value.asArray

/-- The type of a field. A tuple field is a bare type. -/
def declaredType (field : Value) : Value := (field.get .type).getD field

/-- What is read in place with a type: through fields, arrays, links and aliases. -/
inductive Within (types : List TypeDef) (start : TypeDef → Prop) : Place → Prop
  | start {t : TypeDef} (h : start t) : Within types start (.definition t)
  | field {t : TypeDef} {fields : List Value} {field : Value}
      (h : Within types start (.definition t)) (hstruct : t.isStruct = true)
      (hfields : t.listedFields = some fields) (hmem : field ∈ fields) :
      Within types start (.type (declaredType field))
  | item {ty item len : Value} (h : Within types start (.type ty))
      (hpair : ty.get .array = some (.array [item, len])) : Within types start (.type item)
  | link {ty : Value} {name : Name} {t : TypeDef} (h : Within types start (.type ty))
      (hpair : ty.get .array = none) (hname : definedName ty = some name)
      (hdef : defOf types name = some t) : Within types start (.definition t)
  | target {t : TypeDef} {target : Value} (h : Within types start (.definition t))
      (halias : t.aliasTarget = some target) : Within types start (.type target)

/-- Not a struct, but `struct_fields` reads one: without `fields` it is read as an empty one. -/
def PassesForStruct (t : TypeDef) : Prop :=
  t.isStruct = false ∧ ∃ fields, structFields t = some fields ∧
    ((∃ modifier, t.repr = some (.c modifier)) ∨ t.repr = some .transparent ∧ fields ≠ [])

/-- The definition is read as a struct and is none. -/
def Misread : Place → Prop
  | .type _ => False
  | .definition t => t.isGeneric = false ∧ PassesForStruct t

/-! ### Kinds -/

section Kinds

variable {types : List TypeDef} {t : TypeDef}

/-- The kind of an alias says that it is one. -/
theorem alias_of_aliasTarget {target : Value} (h : t.aliasTarget = some target) :
    t.isGeneric = false ∧ ∃ ty, t.ty = some ty ∧
      (kindOf ty = some "type".toList ∧ ty.get .alias = some target ∨
        kindOf ty = some "alias".toList ∧ ty.get .value = some target) := by
  rw [TypeDef.aliasTarget] at h
  split at h
  · cases h
  · next hgeneric =>
      obtain ⟨ty, hty, htarget⟩ := Option.bind_eq_some_iff.mp h
      refine ⟨by simpa using hgeneric, ty, hty, ?_⟩
      rw [aliasTarget] at htarget
      split at htarget
      · next kind hkind =>
          split at htarget
          · next htype => exact .inl ⟨htype ▸ hkind, htarget⟩
          · split at htarget
            · next halias => exact .inr ⟨halias ▸ hkind, htarget⟩
            · cases htarget
      · cases htarget

theorem aliasTarget_eq_none (h : ∀ ty, t.ty = some ty →
    kindOf ty ≠ some "type".toList ∧ kindOf ty ≠ some "alias".toList) : t.aliasTarget = none := by
  cases halias : t.aliasTarget with
  | none => rfl
  | some target =>
      obtain ⟨-, ty, hty, ⟨hkind, -⟩ | ⟨hkind, -⟩⟩ := alias_of_aliasTarget halias
      · exact absurd hkind (h ty hty).1
      · exact absurd hkind (h ty hty).2

theorem kind_of_isStruct (h : t.isStruct = true) :
    ∃ ty, t.ty = some ty ∧ kindOf ty = some "struct".toList :=
  Option.bind_eq_some_iff.mp (beq_iff_eq.mp h)

theorem aliasTarget_of_isStruct (h : t.isStruct = true) : t.aliasTarget = none := by
  obtain ⟨ty, hty, hkind⟩ := kind_of_isStruct h
  refine aliasTarget_eq_none fun ty' hty' => ?_
  cases hty.symm.trans hty'
  rw [hkind]
  decide

theorem structFields_of_listed {fields : List Value} (h : t.listedFields = some fields) :
    structFields t = some fields := by
  rw [TypeDef.listedFields, Option.bind_eq_some_iff] at h
  obtain ⟨listed, hlisted, hfields⟩ := h
  obtain ⟨ty, hty, hget⟩ := Option.bind_eq_some_iff.mp hlisted
  cases ty with
  | object body =>
      have hlookup : body.lookup .fields = some listed := hget
      rw [structFields, hty]
      cases listed with
      | array fields =>
          cases hfields
          simp only [hlookup]
          rfl
      | _ => cases hfields
  | _ => cases hget

theorem StructRead.passesForStruct {P : Value → Shape → Prop} {layout : Layout}
    (h : StructRead P t layout) (hstruct : t.isStruct = false) : PassesForStruct t := by
  obtain ⟨fields, repr, shapes, -, hfields, hrepr, hall, hlayout⟩ := h
  refine ⟨hstruct, fields, hfields, ?_⟩
  cases repr with
  | rust modifier => cases hlayout
  | c modifier => exact .inl ⟨modifier, hrepr⟩
  | transparent =>
      refine .inr ⟨hrepr, ?_⟩
      rintro rfl
      cases hall
      cases hlayout

end Kinds

/-! ### Links -/

theorem declaredType_of_fieldType {repr : Repr} {field ty : Value}
    (h : fieldType repr field = some ty) : declaredType field = ty := by
  rw [fieldType] at h
  rw [declaredType]
  split at h
  · next htype =>
      cases h
      rw [htype]
      rfl
  · next hbare =>
      split at h
      · cases h
        rw [hbare]
        rfl
      · cases h

theorem mem_pushEntries {entries : List (Key × Value)} {key : Key} {value : Value} {name : Name}
    (h : (key, value) ∈ entries) (hname : name ∈ pushDefined value) :
    name ∈ pushEntries entries := by
  induction entries with
  | nil => cases h
  | cons entry entries ih =>
      obtain ⟨key', value'⟩ := entry
      rw [pushEntries]
      obtain heq | hmem := List.mem_cons.mp h
      · cases heq
        exact List.mem_append_left _ hname
      · exact List.mem_append_right _ (ih hmem)

theorem mem_pushDefined_get {ty value : Value} {key : Key} {name : Name}
    (h : ty.get key = some value) (hname : name ∈ pushDefined value) : name ∈ pushDefined ty := by
  cases ty with
  | object entries =>
      have hlookup : entries.lookup key = some value := h
      obtain ⟨before, after, rfl, -⟩ := List.lookup_eq_some_iff.mp hlookup
      have hmem : (key, value) ∈ before ++ (key, value) :: after := by simp
      rw [pushDefined]
      exact List.mem_append_right _ (mem_pushEntries hmem hname)
  | _ => cases h

theorem mem_pushDefined_declaredType {field : Value} {name : Name}
    (h : name ∈ pushDefined (declaredType field)) : name ∈ pushDefined field := by
  rw [declaredType] at h
  cases htype : field.get .type with
  | none => rwa [htype] at h
  | some ty =>
      rw [htype] at h
      exact mem_pushDefined_get htype h

theorem mem_pushDefined_definedName {ty : Value} {name : Name} (h : definedName ty = some name) :
    name ∈ pushDefined ty := by
  cases ty with
  | object entries =>
      rw [pushDefined]
      exact List.mem_append_left _ (Option.mem_toList.mpr h)
  | _ => cases h

/-! ### What is reached has a layout -/

section Reached

variable {types : List TypeDef} {start : TypeDef → Prop} {place : Place}

theorem Within.laid (h : Within types start place)
    (hroots : ∀ t, start t → ∃ layout, StructRead (fun ty => Laid types (.type ty)) t layout)
    (hplain : ∀ t, start t → ¬ PassesForStruct t) : ∃ shape, Laid types place shape := by
  induction h with
  | @start t hstart =>
      obtain ⟨layout, hread⟩ := hroots t hstart
      -- a root is read as a struct even where it is an alias
      cases hstruct : t.isStruct with
      | true =>
          obtain ⟨n, hread⟩ := hread.levels
          exact ⟨layout.shape, n, hread.hasLayout (aliasTarget_of_isStruct hstruct)⟩
      | false => exact absurd (hread.passesForStruct hstruct) (hplain t hstart)
  | field _ hstruct hlisted hmem ih =>
      obtain ⟨shape, n, hlaid⟩ := ih
      obtain ⟨layout, -, fields, repr, shapes, -, hfields, -, hall, -⟩ :=
        hlaid.structRead (aliasTarget_of_isStruct hstruct)
      cases (structFields_of_listed hlisted).symm.trans hfields
      obtain ⟨shape, ty, hty, hfield⟩ := Fallible.forall₂_exists hall hmem
      have hdeclared : declaredType _ = ty := declaredType_of_fieldType hty
      rw [hdeclared]
      exact ⟨shape, n, hfield⟩
  | item _ hpair ih =>
      obtain ⟨shape, n, hlaid⟩ := ih
      cases hlaid with
      | leaf => cases hpair
      | array hpair' _ _ hitem =>
          cases hpair.symm.trans hpair'
          exact ⟨_, n, hitem⟩
      | link hpair' => exact absurd hpair (hpair' _ _)
  | link _ hpair hname hdef ih =>
      obtain ⟨shape, n, hlaid⟩ := ih
      cases hlaid with
      | leaf => cases hname
      | array hpair' =>
          rw [hpair] at hpair'
          cases hpair'
      | link _ hname' hdef' hlayout =>
          cases hname.symm.trans hname'
          cases hdef.symm.trans hdef'
          exact ⟨shape, _, hlayout⟩
  | target _ halias ih =>
      obtain ⟨shape, n, hlaid⟩ := ih
      cases hlaid with
      | target halias' hlayout =>
          cases halias.symm.trans halias'
          exact ⟨shape, n, hlayout⟩
      | struct hnone =>
          rw [halias] at hnone
          cases hnone

theorem Within.mono {start' : TypeDef → Prop} (h : Within types start place)
    (hstart : ∀ t, start t → start' t) : Within types start' place := by
  induction h with
  | start h => exact .start (hstart _ h)
  | field _ hstruct hfields hmem ih => exact .field ih hstruct hfields hmem
  | item _ hpair ih => exact .item ih hpair
  | link _ hpair hname hdef ih => exact .link ih hpair hname hdef
  | target _ halias ih => exact .target ih halias

/-- What is read in place is among the types that the pass reaches by name. -/
def Named (inside : Name → Prop) (types : List TypeDef) : Place → Prop
  | .type ty => ∀ name ∈ pushDefined ty, inside name
  | .definition t => inside t.name ∧ defOf types t.name = some t

theorem Within.named {inside : Name → Prop} (h : Within types start place)
    (hstart : ∀ t, start t → Named inside types (.definition t))
    (hclosed : ∀ name, inside name → ∀ link ∈ linksOf types name, inside link) :
    Named inside types place := by
  have hbody : ∀ t, Named inside types (.definition t) → ∀ ty, t.ty = some ty →
      ∀ name ∈ pushDefined ty, inside name := by
    rintro t ⟨hinside, hdef⟩ ty hty name hname
    refine hclosed t.name hinside name ?_
    rw [linksOf, hdef, Option.bind_some, hty]
    exact hname
  induction h with
  | start h => exact hstart _ h
  | field _ _ hlisted hmem ih =>
      obtain ⟨listed, hlisted, hfields⟩ := Option.bind_eq_some_iff.mp hlisted
      obtain ⟨ty, hty, hget⟩ := Option.bind_eq_some_iff.mp hlisted
      intro name hname
      refine hbody _ ih ty hty name (mem_pushDefined_get hget ?_)
      cases listed with
      | array items =>
          cases hfields
          rw [pushDefined, pushItems_eq]
          exact List.mem_flatMap.mpr ⟨_, hmem, mem_pushDefined_declaredType hname⟩
      | _ => cases hfields
  | item _ hpair ih =>
      intro name hname
      refine ih name (mem_pushDefined_get hpair ?_)
      rw [pushDefined, pushItems_eq]
      exact List.mem_flatMap.mpr ⟨_, List.mem_cons_self, hname⟩
  | link _ _ hname hdef ih =>
      obtain ⟨-, rfl⟩ := mem_of_defOf hdef
      exact ⟨ih _ (mem_pushDefined_definedName hname), hdef⟩
  | target _ halias ih =>
      obtain ⟨-, ty, hty, hget⟩ := alias_of_aliasTarget halias
      intro name hname
      refine hbody _ ih ty hty name ?_
      obtain ⟨-, hget⟩ | ⟨-, hget⟩ := hget
      · exact mem_pushDefined_get hget hname
      · exact mem_pushDefined_get hget hname

end Reached

/-! ## The pass -/

section Pass

variable (idl : Idl)

/-- The types of the accounts that satisfy the condition. -/
def AccountType (condition : TypeDef → Bool) (t : TypeDef) : Prop :=
  ∃ name ∈ idl.accounts, defOf idl.types name = some t ∧ condition t = true

/-- An enum, or the definition of one. -/
def IsEnum : Place → Prop
  | .type ty => kindOf ty = some "enum".toList
  | .definition t => t.isEnum = true

/-- An enum is linked from a bytemuck account. -/
def EnumLinked : Prop := ∃ t ∈ idl.types, t.name ∈ inBytemuck idl ∧ t.isEnum = true

variable {idl}

theorem AccountType.condition {condition : TypeDef → Bool} {t : TypeDef}
    (h : AccountType idl condition t) : condition t = true := by
  obtain ⟨-, -, -, hcondition⟩ := h
  exact hcondition

theorem AccountType.mem {condition : TypeDef → Bool} {t : TypeDef}
    (h : AccountType idl condition t) (hgeneric : t.isGeneric = false) :
    t ∈ accountTypes idl := by
  obtain ⟨name, hname, hdef, -⟩ := h
  exact List.mem_filter.mpr ⟨List.mem_filterMap.mpr ⟨name, hname, hdef⟩, by simp [hgeneric]⟩

theorem AccountType.defOf {condition : TypeDef → Bool} {t : TypeDef}
    (h : AccountType idl condition t) : defOf idl.types t.name = some t := by
  obtain ⟨name, -, hdef, -⟩ := h
  rwa [(mem_of_defOf hdef).2]

theorem withinBytemuck_named {account : TypeDef} (haccount : AccountType idl isBytemuck account)
    (hgeneric : account.isGeneric = false) {place : Place}
    (h : Within idl.types (· = account) place) :
    Named (· ∈ inBytemuck idl) idl.types place := by
  refine h.named (fun t ht => ?_) fun name hname link hlink => ?_
  · subst ht
    have hroot : t ∈ (accountTypes idl).filter isBytemuck :=
      List.mem_filter.mpr ⟨haccount.mem hgeneric, haccount.condition⟩
    exact ⟨mem_reachable_iff.mpr ⟨t.name, List.mem_map_of_mem hroot, .refl⟩, haccount.defOf⟩
  · obtain ⟨start, hstart, hreach⟩ := mem_reachable_iff.mp hname
    exact mem_reachable_iff.mpr ⟨start, hstart, hreach.tail hlink⟩

theorem AccountType.mem_roots {t : TypeDef} (h : AccountType idl isBytemuckUnsafe t)
    (hgeneric : t.isGeneric = false) : t ∈ roots idl :=
  List.mem_filter.mpr ⟨List.mem_append_left _ (h.mem hgeneric), by simp [h.condition, hgeneric]⟩

/-- An enum at any depth of a `bytemuck` account is found. -/
theorem enumLinked_of_within {account t : TypeDef} (haccount : AccountType idl isBytemuck account)
    (hgeneric : account.isGeneric = false)
    (hwithin : Within idl.types (· = account) (.definition t)) (henum : t.isEnum = true) :
    EnumLinked idl := by
  obtain ⟨hinside, hdef⟩ := withinBytemuck_named haccount hgeneric hwithin
  exact ⟨t, (mem_of_defOf hdef).1, hinside, henum⟩

end Pass

/-! ### Read as an empty struct -/

/-- A definition without `fields` is laid out by its repr alone, whatever it is. -/
theorem structLayout_fieldless {types : List TypeDef} {t : TypeDef} {modifier : ReprModifier}
    {explicit : Nat} (hgeneric : t.isGeneric = false) (hfields : structFields t = some [])
    (hrepr : t.repr = some (.c modifier)) (halign : explicitAlign modifier.align = some explicit)
    (known : Known) :
    (structLayout types t).run known = (some ⟨⟨0, max 1 explicit⟩, [], 0⟩, known) := by
  have hlayout : reprLayout [] (.c modifier) = some ⟨⟨0, max 1 explicit⟩, [], 0⟩ := by
    have hzero : checkedNextMultipleOf 0 (max 1 explicit) = some 0 := by
      rw [checkedNextMultipleOf, if_neg (by omega), Nat.zero_mod, if_pos rfl]
    simp [reprLayout, cLayout, placeFields, halign, hzero]
  rw [structLayout, structLayoutWith, hgeneric, hfields, hrepr]
  show (ofOption (reprLayout [] (.c modifier))).run known = _
  rw [hlayout]
  rfl

end Shipstern.Anchor
