import Shipstern.Codegen.SchemaBuild
import Shipstern.Lib.Stateful

/-!
# How the builders grow a schema

Fields are materialized by adding helpers under names that nobody reserved: `AddsHelpers`. The
lemmas `*_run` say what a successful run of a builder does.
-/

namespace Shipstern.Codegen

open Codama Stateful

/-- The fields have the numbers from `n` on. -/
def NumberedFrom (n : Nat) (fields : List FieldIr) : Prop :=
  fields.map (·.tag) = List.range' n fields.length

theorem NumberedFrom.cons {n : Nat} {field : FieldIr} {fields : List FieldIr} (hfield : field.tag = n)
    (h : NumberedFrom (n + 1) fields) : NumberedFrom n (field :: fields) := by
  rw [NumberedFrom, List.map_cons, List.length_cons, List.range'_succ, hfield, h]

/-- A helper under a free name. -/
structure IsHelper (ir : SchemaIr) (t : TypeIr) : Prop where
  kind : t.kind = .helper
  numbered : NumberedFrom 1 t.fields
  free : t.name ∉ ir.reservedTypeNames

/-- Only helpers are added. -/
structure AddsHelpers (before after : SchemaIr) : Prop where
  types : ∃ added, after.types = before.types ++ added ∧ ∀ t ∈ added, IsHelper before t
  oneofs : after.oneofs = before.oneofs
  reserved : after.reservedTypeNames = before.reservedTypeNames

namespace AddsHelpers

theorem of_eq {before after : SchemaIr} (htypes : after.types = before.types)
    (honeofs : after.oneofs = before.oneofs)
    (hreserved : after.reservedTypeNames = before.reservedTypeNames) : AddsHelpers before after :=
  ⟨⟨[], by simp [htypes], by simp⟩, honeofs, hreserved⟩

theorem refl (ir : SchemaIr) : AddsHelpers ir ir := of_eq rfl rfl rfl

theorem trans {before middle after : SchemaIr} (h : AddsHelpers before middle)
    (hnext : AddsHelpers middle after) : AddsHelpers before after := by
  obtain ⟨⟨first, htypes, hfirst⟩, honeofs, hreserved⟩ := h
  obtain ⟨⟨second, htypes', hsecond⟩, honeofs', hreserved'⟩ := hnext
  refine ⟨⟨first ++ second, ?_, ?_⟩, honeofs'.trans honeofs, hreserved'.trans hreserved⟩
  · rw [htypes', htypes, List.append_assoc]
  · intro t ht
    rcases List.mem_append.mp ht with ht | ht
    · exact hfirst t ht
    · obtain ⟨hkind, hnumbered, hfree⟩ := hsecond t ht
      exact ⟨hkind, hnumbered, hreserved ▸ hfree⟩

theorem mem {before after : SchemaIr} (h : AddsHelpers before after) {t : TypeIr}
    (ht : t ∈ before.types) : t ∈ after.types := by
  obtain ⟨added, htypes, -⟩ := h.types
  exact htypes ▸ List.mem_append_left added ht

end AddsHelpers

/-! ## Helpers -/

theorem findType_eq_some {ir : SchemaIr} {name : Name} {t : TypeIr}
    (h : ir.findType name = some t) : t ∈ ir.types ∧ t.name = name :=
  ⟨List.mem_of_find?_eq_some h, by simpa using List.find?_some h⟩

/-- The helper is there under the name that is returned, or is added under it. -/
theorem pushUniqueType_ok {msg : TypeIr} {ir ir' : SchemaIr} {name : Name}
    (h : pushUniqueType msg ir = .ok (name, ir')) :
    name ∉ ir.reservedTypeNames ∧
      ((ir' = ir ∧ { msg with name } ∈ ir.types) ∨ ir' = ir.push { msg with name }) := by
  obtain ⟨_, _, hget, hrun⟩ := bind_ok.mp h
  obtain ⟨rfl, rfl⟩ := get_ok.mp hget
  cases hname : ir.uniqueName msg with
  | none =>
      rw [hname] at hrun
      exact (throw_ok.mp hrun).elim
  | some free =>
      rw [hname] at hrun
      have husable : ir.usable msg free = true := List.find?_some hname
      rw [SchemaIr.usable, Bool.and_eq_true] at husable
      obtain ⟨hfree, hfound⟩ := husable
      have hreserved : free ∉ ir.reservedTypeNames := by simpa using hfree
      dsimp only at hrun
      cases hfind : ir.findType free with
      | none =>
          rw [hfind, Option.isNone_none, if_pos rfl] at hrun
          obtain ⟨⟨⟩, middle, hset, hpure⟩ := bind_ok.mp hrun
          obtain rfl := set_ok.mp hset
          obtain ⟨rfl, rfl⟩ := pure_ok.mp hpure
          exact ⟨hreserved, .inr rfl⟩
      | some existing =>
          rw [hfind, if_neg (by simp)] at hrun
          obtain ⟨rfl, rfl⟩ := pure_ok.mp hrun
          rw [hfind] at hfound
          obtain rfl : existing = { msg with name := free } := by simpa using hfound
          exact ⟨hreserved, .inl ⟨rfl, (findType_eq_some hfind).1⟩⟩

/-- A helper ends up under the name that is returned. -/
theorem pushUniqueType_run {msg : TypeIr} (hkind : msg.kind = .helper)
    (hnumbered : NumberedFrom 1 msg.fields) {ir ir' : SchemaIr} {name : Name}
    (h : pushUniqueType msg ir = .ok (name, ir')) :
    AddsHelpers ir ir' ∧ ∃ t ∈ ir'.types, t.kind = .helper ∧ t.name = name := by
  obtain ⟨hreserved, ⟨rfl, hmem⟩ | rfl⟩ := pushUniqueType_ok h
  · exact ⟨.refl _, { msg with name }, hmem, hkind, rfl⟩
  · refine ⟨⟨⟨[{ msg with name }], rfl, ?_⟩, rfl, rfl⟩, { msg with name }, ?_, hkind, rfl⟩
    · rintro t ht
      obtain rfl := List.mem_singleton.mp ht
      exact ⟨hkind, hnumbered, hreserved⟩
    · exact List.mem_append_right _ List.mem_cons_self

/-! ## Fields -/

/-- What a computation adds when its parts add helpers. -/
def Grows {α : Type} (x : Build α) : Prop :=
  ∀ ⦃ir a ir'⦄, x ir = .ok (a, ir') → AddsHelpers ir ir'

/-- What a computation returns. -/
def Yields {α : Type} (Q : α → Prop) (x : Build α) : Prop := ∀ ⦃ir a ir'⦄, x ir = .ok (a, ir') → Q a

namespace Grows

variable {α β : Type}

theorem pure (a : α) : Grows (pure a : Build α) := by
  intro ir b ir' h
  obtain ⟨-, rfl⟩ := pure_ok.mp h
  exact .refl ir

theorem bind {x : Build α} {f : α → Build β} (hx : Grows x) (hf : ∀ a, Grows (f a)) :
    Grows (x >>= f) := by
  intro ir b ir' h
  obtain ⟨a, middle, hrun, hrest⟩ := bind_ok.mp h
  exact (hx hrun).trans (hf a hrest)

/-- What the first computation returns may be used for the second. -/
theorem bind_yields {Q : α → Prop} {x : Build α} {f : α → Build β} (hx : Grows x)
    (hyields : Yields Q x) (hf : ∀ a, Q a → Grows (f a)) : Grows (x >>= f) := by
  intro ir b ir' h
  obtain ⟨a, middle, hrun, hrest⟩ := bind_ok.mp h
  exact (hx hrun).trans (hf a (hyields hrun) hrest)

theorem get : Grows (get : Build SchemaIr) := by
  intro ir a ir' h
  obtain ⟨-, rfl⟩ := get_ok.mp h
  exact .refl ir

theorem throw (panic : BuildPanic) : Grows (throw panic : Build α) :=
  fun _ _ _ h => (throw_ok.mp h).elim

theorem lift (x : Except BuildPanic α) : Grows (liftM x : Build α) := by
  intro ir a ir' h
  obtain ⟨-, rfl⟩ := lift_ok.mp h
  exact .refl ir

theorem pushUniqueType {msg : TypeIr} (hkind : msg.kind = .helper)
    (hnumbered : NumberedFrom 1 msg.fields) : Grows (pushUniqueType msg) :=
  fun _ _ _ h => (pushUniqueType_run hkind hnumbered h).1

theorem wrapField (wrapper field : Name) (inner : LabelIr × FieldTypeIr) :
    Grows (wrapField wrapper field inner) := by
  rw [Codegen.wrapField]
  split
  · exact .pure _
  · exact (Grows.pushUniqueType rfl (by exact rfl)).bind fun _ => .pure _

theorem optionEncoding (base : Name) (fixed : Option Bool) (item : TypeNode)
    (number : NestedTypeNode NumberTypeNode) :
    Grows (optionEncoding base fixed item number) := by
  refine Grows.get.bind fun ir => ?_
  dsimp only
  split
  · split
    · exact .pure _
    · exact .throw _
  · exact .pure _

end Grows

section Materialize

variable {aliasField : Name → Build (LabelIr × FieldTypeIr)}

theorem materializeFields_grows {fields : List StructFieldTypeNode}
    (h : ∀ field ∈ fields, ∀ base, Grows (materializeWith aliasField base field.type))
    (parent : Name) (seen : List Name) :
    Grows (materializeFields aliasField parent seen fields) := by
  induction fields generalizing seen with
  | nil =>
      rw [materializeFields]
      exact .pure _
  | cons field fields ih =>
      obtain ⟨name, strategy, type, default⟩ := field
      rw [List.forall_mem_cons] at h
      rw [materializeFields]
      split
      · exact ih h.2 seen
      · exact (h.1 _).bind fun _ => (ih h.2 _).bind fun _ => .pure _

theorem materializeItems_grows {items : List TypeNode}
    (h : ∀ item ∈ items, ∀ base, Grows (materializeWith aliasField base item))
    (itemBase : Nat → Name) (i : Nat) : Grows (materializeItems aliasField itemBase i items) := by
  induction items generalizing i with
  | nil =>
      rw [materializeItems]
      exact .pure _
  | cons item items ih =>
      rw [List.forall_mem_cons] at h
      rw [materializeItems]
      exact (h.1 _).bind fun _ => (ih h.2 _).bind fun _ => .pure _

/-- Fields get the numbers after those of the fields before them. -/
theorem materializeFields_yields (parent : Name) (seen : List Name)
    (fields : List StructFieldTypeNode) :
    Yields (NumberedFrom (seen.length + 1)) (materializeFields aliasField parent seen fields) := by
  induction fields generalizing seen with
  | nil =>
      intro ir result ir' h
      obtain ⟨rfl, -⟩ := pure_ok.mp h
      rfl
  | cons field fields ih =>
      obtain ⟨name, strategy, type, default⟩ := field
      intro ir result ir' h
      rw [materializeFields] at h
      by_cases homitted : strategy = some .omitted
      · rw [if_pos homitted] at h
        exact ih seen h
      · rw [if_neg homitted] at h
        obtain ⟨⟨label, fieldType⟩, _, -, h⟩ := bind_ok.mp h
        obtain ⟨rest, _, hrest, hpure⟩ := bind_ok.mp h
        obtain ⟨rfl, -⟩ := pure_ok.mp hpure
        have hnumbered := ih _ hrest
        rw [List.length_append] at hnumbered
        exact .cons rfl hnumbered

theorem materializeItems_yields (itemBase : Nat → Name) (i : Nat) (items : List TypeNode) :
    Yields (NumberedFrom (i + 1)) (materializeItems aliasField itemBase i items) := by
  induction items generalizing i with
  | nil =>
      intro ir result ir' h
      obtain ⟨rfl, -⟩ := pure_ok.mp h
      rfl
  | cons item items ih =>
      intro ir result ir' h
      rw [materializeItems] at h
      obtain ⟨⟨label, fieldType⟩, _, -, h⟩ := bind_ok.mp h
      obtain ⟨rest, _, hrest, hpure⟩ := bind_ok.mp h
      obtain ⟨rfl, -⟩ := pure_ok.mp hpure
      exact .cons rfl (ih (i + 1) hrest)

/-- A type only adds helpers, whatever its name is, when aliases do. -/
theorem materializeWith_grows (halias : ∀ name, Grows (aliasField name)) (node : TypeNode) :
    ∀ base, Grows (materializeWith aliasField base node) := by
  induction node using TypeNode.induction with
  | step node ih =>
      intro base
      have hother : Grows (do
          let fieldType ← (liftM (mapType node) : Build FieldTypeIr)
          let ir ← get
          pure (ir.resolveField fieldType)) :=
        (Grows.lift _).bind fun _ => Grows.get.bind fun _ => .pure _
      cases node with
      | struct fields =>
          have hfields : ∀ field ∈ fields, ∀ base,
              Grows (materializeWith aliasField base field.type) :=
            fun field hfield => ih field.type (List.mem_map_of_mem hfield)
          rw [materializeWith]
          exact (materializeFields_grows hfields _ _).bind_yields
            (materializeFields_yields _ [] _) fun _ hnumbered =>
              (Grows.pushUniqueType rfl hnumbered).bind fun _ => .pure _
      | tuple items =>
          rw [materializeWith]
          exact (materializeItems_grows ih _ _).bind_yields
            (materializeItems_yields _ 0 _) fun _ hnumbered =>
              (Grows.pushUniqueType rfl hnumbered).bind fun _ => .pure _
      | option fixed item number =>
          have hitem := ih item List.mem_cons_self
          rw [materializeWith]
          exact (Grows.optionEncoding _ _ _ _).bind fun _ => (hitem _).bind fun _ =>
            (Grows.wrapField _ _ _).bind fun _ => .pure _
      | array item count | set item count =>
          have hitem := ih item List.mem_cons_self
          rw [materializeWith]
          exact (hitem _).bind fun _ => (Grows.wrapField _ _ _).bind fun _ => .pure _
      | map key value count =>
          have hkey := ih key List.mem_cons_self
          have hvalue := ih value (List.mem_cons_of_mem _ List.mem_cons_self)
          rw [materializeWith]
          exact (hkey _).bind fun _ => (hvalue _).bind fun _ =>
            (Grows.pushUniqueType rfl (by exact rfl)).bind fun _ => .pure _
      | link name =>
          rw [materializeWith]
          refine Grows.get.bind fun ir => ?_
          split
          · exact halias _
          · exact .pure _
      | boolean | publicKey | number | string | bytes | fixedSize | sizePrefix | hiddenPrefix
      | hiddenSuffix | enum | unsupported =>
          rw [materializeWith]
          · exact hother
          all_goals intros; contradiction

end Materialize

/-- Entering and leaving an alias touches neither types nor names. -/
theorem materializeTypeAlias_grows {materialize : Name → TypeNode → Build (LabelIr × FieldTypeIr)}
    (h : ∀ base node, Grows (materialize base node)) (name : Name) :
    Grows (materializeTypeAlias materialize name) := by
  intro ir result ir' hrun
  obtain ⟨_, _, hget, hrun⟩ := bind_ok.mp hrun
  obtain ⟨rfl, rfl⟩ := get_ok.mp hget
  cases hfound : ir.typeAliases.lookup name with
  | some found =>
      rw [hfound] at hrun
      obtain ⟨-, rfl⟩ := pure_ok.mp hrun
      exact .refl ir
  | none =>
      rw [hfound] at hrun
      by_cases hcyclic : ir.materializingTypeAliases.contains name = true
      · dsimp only at hrun
        rw [if_pos hcyclic] at hrun
        exact (throw_ok.mp hrun).elim
      · dsimp only at hrun
        rw [if_neg hcyclic] at hrun
        cases hdefinition : ir.typeAliasDefinitions.lookup name with
        | none =>
            rw [hdefinition] at hrun
            exact (throw_ok.mp hrun).elim
        | some definition =>
            rw [hdefinition] at hrun
            obtain ⟨⟨⟩, entered, hset, hrun⟩ := bind_ok.mp hrun
            obtain rfl := set_ok.mp hset
            obtain ⟨⟨label, fieldType⟩, grown, hgrow, hrun⟩ := bind_ok.mp hrun
            obtain ⟨⟨⟩, left, hmodify, hpure⟩ := bind_ok.mp hrun
            obtain rfl := modify_ok.mp hmodify
            obtain ⟨-, rfl⟩ := pure_ok.mp hpure
            have hentered : AddsHelpers ir
                { ir with materializingTypeAliases := name :: ir.materializingTypeAliases } :=
              .of_eq rfl rfl rfl
            exact (hentered.trans (h _ _ hgrow)).trans (.of_eq rfl rfl rfl)

theorem materializeAt_grows (room : Nat) (base : Name) (node : TypeNode) :
    Grows (materializeAt room base node) := by
  induction room generalizing base node with
  | zero => exact .throw _
  | succ room ih =>
      rw [materializeAt]
      exact materializeWith_grows (materializeTypeAlias_grows ih) node base

theorem aliasField_grows (name : Name) : Grows (aliasField name) :=
  Grows.get.bind fun _ => materializeTypeAlias_grows (materializeAt_grows _) name

theorem buildFieldsIr_grows (parent : Name) (fields : List StructFieldTypeNode) :
    Grows (buildFieldsIr parent fields) :=
  materializeFields_grows (fun field _ => materializeWith_grows aliasField_grows field.type) _ _

theorem buildFieldsIr_yields (parent : Name) (fields : List StructFieldTypeNode) :
    Yields (NumberedFrom 1) (buildFieldsIr parent fields) := materializeFields_yields parent [] fields

theorem buildItems_yields (itemBase : Nat → Name) (items : List TypeNode) :
    Yields (NumberedFrom 1) (materializeItems aliasField itemBase 0 items) :=
  materializeItems_yields itemBase 0 items

theorem buildItems_grows (itemBase : Nat → Name) (items : List TypeNode) :
    Grows (materializeItems aliasField itemBase 0 items) :=
  materializeItems_grows (fun item _ => materializeWith_grows aliasField_grows item) _ _

end Shipstern.Codegen
