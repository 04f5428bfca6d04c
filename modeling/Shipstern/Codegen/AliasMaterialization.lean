import Shipstern.Anchor.AliasChains
import Shipstern.Codegen.SchemaBuild
import Shipstern.Lib.Stateful

/-!
# Aliases that passed the check are materialized

The renderer enters the aliases that it finds in an alias, and panics when it meets one that
it has entered and not left. Those it has entered are a chain of aliases, so it meets none of
them again where no chain is a cycle, and there is room for all of them. The renderer finds
aliases by their Pascal names, which differ when the names of the converter do.
-/

namespace Shipstern.Codegen

open Codama Anchor Chains Stateful

/-! ## Names of the converter -/

theorem not_separator_of_mem_splitOnP {p : Char → Bool} {input piece : Name} {c : Char}
    (hpiece : piece ∈ input.splitOnP p) (hc : c ∈ piece) : p c = false := by
  induction input generalizing piece with
  | nil =>
      rw [List.splitOnP_nil, List.mem_singleton] at hpiece
      subst hpiece
      cases hc
  | cons x input ih =>
      rw [List.splitOnP_cons_eq_if_modifyHead] at hpiece
      split at hpiece
      · obtain rfl | hpiece := List.mem_cons.mp hpiece
        · cases hc
        · exact ih hpiece hc
      · next hx =>
          cases hrest : input.splitOnP p with
          | nil => exact absurd hrest (List.splitOnP_ne_nil p input)
          | cons first rest =>
              rw [hrest, List.modifyHead_cons] at hpiece
              obtain rfl | hpiece := List.mem_cons.mp hpiece
              · obtain rfl | hc := List.mem_cons.mp hc
                · simpa using hx
                · exact ih (by rw [hrest]; exact List.mem_cons_self) hc
              · exact ih (by rw [hrest]; exact List.mem_cons_of_mem _ hpiece) hc

theorem underscore_not_mem_capitalize {word : Name} (h : '_' ∉ word) : '_' ∉ capitalize word := by
  cases word with
  | nil => exact h
  | cons first rest =>
      rw [List.mem_cons, not_or] at h
      rw [capitalize, List.mem_cons, not_or]
      constructor
      · exact fun heq => h.1 (underscore_of_cased (.inl heq.symm)).symm
      · intro hmem
        obtain ⟨c, hc, heq⟩ := List.mem_map.mp hmem
        cases underscore_of_cased (.inr heq)
        exact h.2 hc

theorem underscore_not_mem_pascalCase (input : Name) : '_' ∉ pascalCase input := by
  intro hmem
  rw [pascalCase] at hmem
  obtain ⟨word, hword, hmem⟩ := List.mem_flatten.mp hmem
  rw [titleWords] at hword
  split at hword
  · obtain ⟨piece, hpiece, rfl⟩ := List.mem_map.mp hword
    refine underscore_not_mem_capitalize (fun hc => ?_) hmem
    exact absurd (not_separator_of_mem_splitOnP hpiece hc) (by decide)
  · obtain ⟨piece, hpiece, rfl⟩ := List.mem_map.mp hword
    refine underscore_not_mem_capitalize (fun hc => ?_) hmem
    exact absurd (not_separator_of_mem_splitOnP (List.mem_filter.mp hpiece).1 hc) (by decide)

/-- An identifier starts with a lower-case letter and has no separators. -/
theorem ident_shape {raw name : Name} (h : ident raw = .ok name) :
    ∃ first rest, name = first :: rest ∧ first.isLower = true ∧ '_' ∉ rest := by
  rw [ident] at h
  split at h
  · next halpha =>
      cases h
      rw [camelCase] at halpha ⊢
      have hpascal := underscore_not_mem_pascalCase raw
      cases hcased : pascalCase raw with
      | nil =>
          rw [hcased] at halpha
          cases halpha
      | cons first rest =>
          rw [hcased] at halpha hpascal
          exact ⟨_, rest, rfl, isLower_toLower (by simpa using halpha),
            fun hmem => hpascal (List.mem_cons_of_mem _ hmem)⟩
  · cases h

theorem toPascalFrom_of_plain {rest : Name} (h : '_' ∉ rest) : toPascalFrom false rest = rest := by
  induction rest with
  | nil => rfl
  | cons c rest ih =>
      rw [List.mem_cons, not_or] at h
      rw [toPascalFrom, ih h.2]
      · rfl
      · exact fun hc => h.1 hc.symm

/-- The renderer tells the names of the converter apart. -/
theorem toPascalCase_injective {raw raw' name name' : Name} (h : ident raw = .ok name)
    (h' : ident raw' = .ok name') (heq : toPascalCase name = toPascalCase name') : name = name' := by
  have hpascal : ∀ first rest, first.isLower = true → '_' ∉ rest →
      toPascalCase (first :: rest) = first.toUpper :: rest := by
    intro first rest hlower hplain
    rw [toPascalCase, toPascalFrom, toPascalFrom_of_plain hplain]
    · rfl
    · rintro rfl
      cases hlower
  obtain ⟨first, rest, rfl, hlower, hplain⟩ := ident_shape h
  obtain ⟨first', rest', rfl, hlower', hplain'⟩ := ident_shape h'
  rw [hpascal _ _ hlower hplain, hpascal _ _ hlower' hplain'] at heq
  obtain ⟨hfirst, rfl⟩ := List.cons.inj heq
  rw [toUpper_injective hlower hlower' hfirst]

/-! ## Runs that meet no cycle -/

/-- A panic that is neither about a cycle of aliases nor about a search without end. -/
def NotCyclic (panic : BuildPanic) : Prop := panic ≠ .endless ∧ ∀ name, panic ≠ .cyclicAlias name

/-- The aliases that have been entered and not left. -/
def Entered (definitions : List (Name × TypeAliasDefinitionIr)) (stack : List Name)
    (ir : SchemaIr) : Prop :=
  ir.typeAliasDefinitions = definitions ∧ ir.materializingTypeAliases = stack

/-- A computation that leaves the aliases that it enters, and panics as it may. -/
abbrev Leaves {α : Type} (allowed : BuildPanic → Prop)
    (definitions : List (Name × TypeAliasDefinitionIr)) (stack : List Name) (x : Build α) : Prop :=
  Keeps (Entered definitions stack) allowed x

/-- A computation that leaves the aliases that it enters and meets no cycle. -/
abbrev Safe {α : Type} (definitions : List (Name × TypeAliasDefinitionIr)) (stack : List Name)
    (x : Build α) : Prop :=
  Leaves NotCyclic definitions stack x

/-- The renderer may enter the second alias from the first. -/
def Enters (definitions : List (Name × TypeAliasDefinitionIr)) (entered next : Name) : Prop :=
  ∃ definition linked, definitions.lookup entered = some definition ∧
    Anchor.Occurs (.link linked) definition.typeNode ∧ next = toPascalCase linked

/-- Panics that are allowed: those about a cycle where there is one, and all that are neither about
a cycle nor about a search without end. -/
structure AllowsCycles (allowed : BuildPanic → Prop)
    (definitions : List (Name × TypeAliasDefinitionIr)) : Prop where
  other : ∀ panic, NotCyclic panic → allowed panic
  cyclic : ∀ name, Leads (Enters definitions) name name → allowed (.cyclicAlias name)

section Leaves

variable {allowed : BuildPanic → Prop} {definitions : List (Name × TypeAliasDefinitionIr)}
  {stack : List Name} (panics : AllowsCycles allowed definitions)

theorem candidate_injective (base : Name) : Function.Injective (SchemaIr.candidate base) := by
  intro m n h
  cases m with
  | zero =>
      cases n with
      | zero => rfl
      | succ n => exact absurd (List.self_eq_append_right.mp h) Nat.toDigits_ne_nil
  | succ m =>
      cases n with
      | zero => exact absurd (List.append_right_eq_self.mp h) Nat.toDigits_ne_nil
      | succ n =>
          have hdigits := List.append_cancel_left h
          have hvalue := congrArg (fun digits => Nat.ofDigitChars 10 digits 0) hdigits
          simp only [Nat.ofDigitChars_ten_toDigits] at hvalue
          omega

/-- A name that no helper may take is taken. -/
theorem taken_of_not_usable {ir : SchemaIr} {msg : TypeIr} {name : Name}
    (h : ir.usable msg name = false) :
    name ∈ ir.reservedTypeNames ++ ir.types.map (·.name) ++ ir.typeAliases.map (·.1) := by
  rw [SchemaIr.usable, Bool.and_eq_false_iff] at h
  rw [List.mem_append, List.mem_append]
  obtain hreserved | hmatch := h
  · exact .inl (.inl (by simpa using hreserved))
  · cases hfind : ir.findType name with
    | some existing =>
        refine .inl (.inr (List.mem_map.mpr ⟨existing, List.mem_of_find?_eq_some hfind, ?_⟩))
        simpa using List.find?_some hfind
    | none =>
        simp only [hfind, Option.isNone_eq_false_iff, Option.isSome_iff_exists] at hmatch
        obtain ⟨found, hfound⟩ := hmatch
        exact .inr (List.mem_map_of_mem (mem_of_lookup hfound))

/-- One name more than are taken is tried. -/
theorem exists_uniqueName (ir : SchemaIr) (msg : TypeIr) : ∃ name, ir.uniqueName msg = some name := by
  cases hfind : ir.uniqueName msg with
  | some name => exact ⟨name, rfl⟩
  | none =>
      have hsubset : (List.range (ir.takenNames + 1)).map (SchemaIr.candidate msg.name) ⊆
          ir.reservedTypeNames ++ ir.types.map (·.name) ++ ir.typeAliases.map (·.1) := by
        intro name hname
        exact taken_of_not_usable (by simpa using List.find?_eq_none.mp hfind name hname)
      have hnodup := (List.nodup_range (n := ir.takenNames + 1)).map (candidate_injective msg.name)
      have hlength := (hnodup.subperm hsubset).length_le
      simp [SchemaIr.takenNames] at hlength
      omega

/-- A computation that reads the state first. -/
theorem leaves_get {α : Type} {f : SchemaIr → Build α}
    (hf : ∀ ir, Entered definitions stack ir → Leaves allowed definitions stack (f ir)) :
    Leaves allowed definitions stack (get >>= f) := by
  refine .get_bind fun ir hir => (hf ir hir).strengthen ?_
  rintro _ rfl
  exact hir

theorem pushUniqueType_leaves (msg : TypeIr) :
    Leaves allowed definitions stack (pushUniqueType msg) := by
  refine leaves_get fun ir hir => ?_
  obtain ⟨name, hname⟩ := exists_uniqueName ir msg
  simp only [hname]
  split
  · refine Ensures.bind (Ensures.set ?_) fun _ => .pure name
    exact hir
  · exact .pure name

theorem wrapField_leaves (wrapper field : Name) (inner : LabelIr × FieldTypeIr) :
    Leaves allowed definitions stack (wrapField wrapper field inner) := by
  rw [wrapField]
  split
  · exact .pure _
  · exact (pushUniqueType_leaves _).bind fun _ => .pure _

include panics in
theorem optionEncoding_leaves (base : Name) (fixed : Option Bool) (item : TypeNode)
    (number : NestedTypeNode NumberTypeNode) :
    Leaves allowed definitions stack (optionEncoding base fixed item number) := by
  refine leaves_get fun ir _ => ?_
  dsimp only
  split
  · split
    · exact .pure _
    · exact .throw (panics.other _ ⟨nofun, nofun⟩)
  · exact .pure _

theorem mapType_error {node : TypeNode} {panic : BuildPanic} (h : mapType node = .error panic) :
    NotCyclic panic := by
  induction node using TypeNode.induction with
  | step node ih =>
      rw [mapType.eq_def] at h
      split at h
      all_goals first
        | exact ih _ List.mem_cons_self h
        | cases h <;> exact ⟨nofun, nofun⟩

/-! ### Types -/

section Materialize

variable {aliasField : Name → Build (LabelIr × FieldTypeIr)}

theorem materializeFields_leaves {fields : List StructFieldTypeNode}
    (h : ∀ field ∈ fields, ∀ base,
      Leaves allowed definitions stack (materializeWith aliasField base field.type))
    (parent : Name) (seen : List Name) :
    Leaves allowed definitions stack (materializeFields aliasField parent seen fields) := by
  induction fields generalizing seen with
  | nil =>
      rw [materializeFields]
      exact .pure _
  | cons field fields ih =>
      obtain ⟨name, strategy, type, default⟩ := field
      rw [List.forall_mem_cons] at h
      rw [materializeFields]
      split
      · exact ih h.2 seen
      · exact (h.1 _).bind fun _ => (ih h.2 _).bind fun _ => .pure _

theorem materializeItems_leaves {items : List TypeNode}
    (h : ∀ item ∈ items, ∀ base,
      Leaves allowed definitions stack (materializeWith aliasField base item))
    (itemBase : Nat → Name) (i : Nat) :
    Leaves allowed definitions stack (materializeItems aliasField itemBase i items) := by
  induction items generalizing i with
  | nil =>
      rw [materializeItems]
      exact .pure _
  | cons item items ih =>
      rw [List.forall_mem_cons] at h
      rw [materializeItems]
      exact (h.1 _).bind fun _ => (ih h.2 _).bind fun _ => .pure _

include panics in
/-- A type is left, whatever its name is, when the aliases that are linked in it are. -/
theorem materializeWith_leaves (node : TypeNode)
    (halias : ∀ name, Anchor.Occurs (.link name) node →
      Leaves allowed definitions stack (aliasField (toPascalCase name))) :
    ∀ base, Leaves allowed definitions stack (materializeWith aliasField base node) := by
  induction node using TypeNode.induction with
  | step node ih =>
      intro base
      have hchild : ∀ child ∈ node.children, ∀ base,
          Leaves allowed definitions stack (materializeWith aliasField base child) :=
        fun child hmem => ih child hmem fun name hname => halias name (.inside hmem hname)
      have hother : Leaves allowed definitions stack (do
          let fieldType ← (liftM (mapType node) : Build FieldTypeIr)
          let ir ← get
          pure (ir.resolveField fieldType)) :=
        (Ensures.lift fun _ h => panics.other _ (mapType_error h)).bind fun _ =>
          leaves_get fun _ _ => .pure _
      cases node with
      | struct fields =>
          rw [materializeWith]
          exact (materializeFields_leaves (fun field hfield =>
            hchild field.type (List.mem_map_of_mem hfield)) _ _).bind fun _ =>
              (pushUniqueType_leaves _).bind fun _ => .pure _
      | tuple items =>
          rw [materializeWith]
          exact (materializeItems_leaves hchild _ _).bind fun _ =>
            (pushUniqueType_leaves _).bind fun _ => .pure _
      | option fixed item number =>
          rw [materializeWith]
          exact (optionEncoding_leaves panics _ _ _ _).bind fun _ =>
            (hchild item List.mem_cons_self _).bind fun _ =>
              (wrapField_leaves _ _ _).bind fun _ => .pure _
      | array item count | set item count =>
          rw [materializeWith]
          exact (hchild item List.mem_cons_self _).bind fun _ =>
            (wrapField_leaves _ _ _).bind fun _ => .pure _
      | map key value count =>
          rw [materializeWith]
          exact (hchild key List.mem_cons_self _).bind fun _ =>
            (hchild value (List.mem_cons_of_mem _ List.mem_cons_self) _).bind fun _ =>
              (pushUniqueType_leaves _).bind fun _ => .pure _
      | link name =>
          rw [materializeWith]
          refine leaves_get fun ir _ => ?_
          split
          · exact halias name .here
          · exact .pure _
      | boolean | publicKey | number | string | bytes | fixedSize | sizePrefix | hiddenPrefix
      | hiddenSuffix | enum | unsupported =>
          rw [materializeWith]
          · exact hother
          all_goals intros; contradiction

end Materialize

/-! ### Aliases -/

/-- The aliases that have been entered lead to the next one, and there is room for those that
are left. -/
structure RoomFor (definitions : List (Name × TypeAliasDefinitionIr)) (stack : List Name)
    (room : Nat) (next : Name) : Prop where
  leads : ∀ entered ∈ stack, Leads (Enters definitions) entered next
  nodup : stack.Nodup
  defined : stack ⊆ definitions.map (·.1)
  room : definitions.length ≤ room + stack.length

theorem RoomFor.length_lt {room : Nat} {name : Name} {definition : TypeAliasDefinitionIr}
    (h : RoomFor definitions stack room name) (hfresh : name ∉ stack)
    (hlookup : definitions.lookup name = some definition) :
    stack.length < definitions.length := by
  have hnodup : (name :: stack).Nodup := List.nodup_cons.mpr ⟨hfresh, h.nodup⟩
  have hsubset : name :: stack ⊆ definitions.map (·.1) :=
    List.cons_subset.mpr ⟨List.mem_map_of_mem (mem_of_lookup hlookup), h.defined⟩
  have hlength := (hnodup.subperm hsubset).length_le
  rw [List.length_cons, List.length_map] at hlength
  exact hlength

include panics

/-- An alias is entered on top of the stack and left again, unless it is there already. -/
theorem enter_leaves {materialize : Name → TypeNode → Build (LabelIr × FieldTypeIr)} {name : Name}
    (hcyclic : name ∈ stack → allowed (.cyclicAlias name))
    (h : name ∉ stack → ∀ definition, definitions.lookup name = some definition →
      Leaves allowed definitions (name :: stack)
        (materialize definition.baseName definition.typeNode)) :
    Leaves allowed definitions stack (materializeTypeAlias materialize name) := by
  refine leaves_get fun ir hir => ?_
  obtain ⟨hdefinitions, hstack⟩ := hir
  simp only [hstack, hdefinitions]
  split
  · exact .pure _
  · split
    · next hcontains => exact .throw (hcyclic (by simpa using hcontains))
    · next hcontains =>
        have hfresh : name ∉ stack := by simpa using hcontains
        split
        · exact .throw (panics.other _ ⟨nofun, nofun⟩)
        · next definition hlookup =>
            refine Ensures.bind (Ensures.set (J := Entered definitions (name :: stack)) ?_) fun _ =>
              (h hfresh definition hlookup).bind fun _ =>
                Ensures.bind (Ensures.modify ?_) fun _ => .pure _
            · exact ⟨rfl, rfl⟩
            · rintro left ⟨hleft, hentered⟩
              refine ⟨hleft, ?_⟩
              have hothers : ∀ other ∈ stack, other ≠ name := by
                rintro other hother rfl
                exact hfresh hother
              simpa [hentered] using hothers

/-- There is room for each alias that is entered, by induction on the room. -/
theorem materializeTypeAlias_leaves (room : Nat) (stack : List Name) (name : Name)
    (h : RoomFor definitions stack room name) :
    Leaves allowed definitions stack (materializeTypeAlias (materializeAt room) name) := by
  induction room generalizing stack name with
  | zero =>
      refine enter_leaves panics (fun hmem => panics.cyclic name (h.leads name hmem)) ?_
      intro hfresh definition hlookup
      have hlength := h.length_lt hfresh hlookup
      have hroom := h.room
      omega
  | succ room ih =>
      refine enter_leaves panics (fun hmem => panics.cyclic name (h.leads name hmem)) ?_
      intro hfresh definition hlookup
      refine materializeWith_leaves panics _ (fun linked hoccurs => ih _ _ ⟨?_, ?_, ?_, ?_⟩) _
      · have hnext : Enters definitions name (toPascalCase linked) :=
          ⟨definition, linked, hlookup, hoccurs, rfl⟩
        rintro entered (_ | ⟨_, hentered⟩)
        · exact .single hnext
        · exact (h.leads entered hentered).tail hnext
      · exact List.nodup_cons.mpr ⟨hfresh, h.nodup⟩
      · exact List.cons_subset.mpr ⟨List.mem_map_of_mem (mem_of_lookup hlookup), h.defined⟩
      · have hroom := h.room
        rw [List.length_cons]
        omega

theorem aliasField_leaves (name : Name) : Leaves allowed definitions [] (aliasField name) := by
  refine leaves_get fun ir hir => ?_
  rw [hir.1]
  exact materializeTypeAlias_leaves panics _ [] name ⟨nofun, .nil, nofun, Nat.le_refl _⟩

/-! ### Defined types -/

theorem materializeType_leaves (node : TypeNode) (base : Name) :
    Leaves allowed definitions [] (materializeWith aliasField base node) :=
  materializeWith_leaves panics node (fun _ _ => aliasField_leaves panics _) base

theorem buildFieldsIr_leaves (parent : Name) (fields : List StructFieldTypeNode) :
    Leaves allowed definitions [] (buildFieldsIr parent fields) :=
  materializeFields_leaves (fun field _ => materializeType_leaves panics field.type) parent []

theorem buildItems_leaves (itemBase : Nat → Name) (items : List TypeNode) :
    Leaves allowed definitions [] (materializeItems aliasField itemBase 0 items) :=
  materializeItems_leaves (fun item _ => materializeType_leaves panics item) itemBase 0

theorem buildEnumVariants_leaves (enumName : Name) (i : Nat) (variants : List EnumVariantTypeNode) :
    Leaves allowed definitions [] (buildEnumVariants enumName i variants) := by
  induction variants generalizing i with
  | nil => exact .pure _
  | cons variant variants ih =>
      obtain ⟨name, discriminator, payload⟩ := variant
      have hpayload : Leaves allowed definitions []
          (buildEnumVariantPayload (enumName ++ toPascalCase name) payload) := by
        cases payload with
        | empty => exact .pure _
        | tuple items => exact buildItems_leaves panics _ items
        | struct fields => exact buildFieldsIr_leaves panics _ fields
        | wrapped types => exact .throw (panics.other _ ⟨nofun, nofun⟩)
      have hrest := hpayload.bind fun fields =>
        (pushUniqueType_leaves ⟨enumName ++ toPascalCase name, fields, .helper⟩).bind fun message =>
          (ih (i + 1)).bind fun variants =>
            Ensures.pure (⟨i + 1, toPascalCase name, message⟩ :: variants)
      rw [buildEnumVariants]
      split
      · exact Ensures.bind (J := Entered definitions [])
          (.throw (panics.other _ ⟨nofun, nofun⟩)) fun _ => hrest
      · exact hrest

theorem buildDefinedType_leaves (definedType : DefinedTypeNode) :
    Leaves allowed definitions [] (buildDefinedType definedType) := by
  have hpush : ∀ type, Leaves allowed definitions [] (pushType type) :=
    fun type => .modify fun ir hir => hir
  rw [buildDefinedType]
  split
  · exact (buildFieldsIr_leaves panics _ _).bind fun _ => hpush _
  · refine (buildEnumVariants_leaves panics _ 0 _).bind fun variants => (hpush _).bind fun _ => ?_
    split
    · exact .modify fun ir hir => hir
    · exact .throw (panics.other _ ⟨nofun, nofun⟩)
  · exact .pure _
  · exact (buildItems_leaves panics _ _).bind fun _ => hpush _
  · exact .pure _

/-- The aliases that the defined types stand for, the last one first. -/
def registeredAliases (definedTypes : List DefinedTypeNode) :
    List (Name × TypeAliasDefinitionIr) :=
  (definedTypes.filterMap fun ty =>
    (aliasDefinition (toPascalCase ty.name) ty.type).map (toPascalCase ty.name, ·)).reverse

omit panics in
theorem foldl_registerAlias (definedTypes : List DefinedTypeNode) (ir : SchemaIr) :
    Entered (registeredAliases definedTypes ++ ir.typeAliasDefinitions)
      ir.materializingTypeAliases (definedTypes.foldl registerAlias ir) := by
  induction definedTypes generalizing ir with
  | nil => exact ⟨rfl, rfl⟩
  | cons ty definedTypes ih =>
      obtain ⟨hdefinitions, hstack⟩ := ih (registerAlias ir ty)
      rw [List.foldl_cons, Entered, hdefinitions, hstack, registerAlias]
      cases haliased : aliasDefinition (toPascalCase ty.name) ty.type with
      | none => simp [registeredAliases, haliased]
      | some definition => simp [registeredAliases, haliased, SchemaIr.registerTypeAlias]

omit panics in
theorem foldl_registerDefined (definedTypes : List DefinedTypeNode) (ir : SchemaIr) :
    Entered ir.typeAliasDefinitions ir.materializingTypeAliases
      (definedTypes.foldl registerDefined ir) := by
  induction definedTypes generalizing ir with
  | nil => exact ⟨rfl, rfl⟩
  | cons ty definedTypes ih => exact ih (registerDefined ir ty)

omit panics in
/-- The defined types are built from a schema without aliases. -/
theorem buildDefinedTypes_leaves {definedTypes : List DefinedTypeNode}
    (panics : AllowsCycles allowed (registeredAliases definedTypes)) :
    Ensures (Entered [] []) (Entered (registeredAliases definedTypes) []) allowed
      (buildDefinedTypes definedTypes) := by
  have hdefined : Ensures (Entered [] []) (Entered [] []) allowed
      (modify fun ir => definedTypes.foldl registerDefined ir : Build Unit) := by
    refine .modify fun ir hir => ?_
    have hkept := foldl_registerDefined definedTypes ir
    rwa [hir.1, hir.2] at hkept
  have hreserved : Ensures (Entered [] []) (Entered [] []) allowed
      (modify (·.reserveTypeNames (concreteNames definedTypes)) : Build Unit) :=
    .modify fun ir hir => hir
  have haliased : Ensures (Entered [] []) (Entered (registeredAliases definedTypes) []) allowed
      (modify fun ir => definedTypes.foldl registerAlias ir : Build Unit) := by
    refine .modify fun ir hir => ?_
    have hkept := foldl_registerAlias definedTypes ir
    rwa [hir.1, hir.2, List.append_nil] at hkept
  exact hdefined.bind fun _ => hreserved.bind fun _ => haliased.bind fun _ =>
    (Ensures.forM fun name _ => (aliasField_leaves panics name).discard).bind fun _ =>
      .forM fun definedType _ => buildDefinedType_leaves panics definedType

end Leaves

/-! ## From the names of the converter to those of the renderer -/

section Transfer

variable {raw : List Name} {types : List DefinedTypeNode}

theorem exists_ident_of_converted (h : ConvertedTypes raw types) {ty : DefinedTypeNode}
    (hty : ty ∈ types) : (∃ name, ident name = .ok ty.name) ∧ Written ty.type := by
  induction h with
  | nil => cases hty
  | @cons name first _ _ hfirst _ ih =>
      obtain rfl | hty := List.mem_cons.mp hty
      · exact ⟨⟨name, hfirst.1⟩, hfirst.2⟩
      · exact ih hty

theorem names_of_converted (h : ConvertedTypes raw types) :
    types.map (·.name) = raw.map camelCase := by
  induction h with
  | nil => rfl
  | @cons name ty _ _ hfirst _ ih =>
      have hname : ty.name = camelCase name := by
        have hident := hfirst.1
        rw [ident] at hident
        split at hident
        · exact (Except.ok.inj hident).symm
        · cases hident
      rw [List.map_cons, List.map_cons, hname, ih]

theorem mem_registeredAliases {name : Name} {definition : TypeAliasDefinitionIr}
    (h : (registeredAliases types).lookup name = some definition) :
    ∃ ty ∈ types, name = toPascalCase ty.name ∧
      aliasDefinition name ty.type = some definition := by
  obtain ⟨ty, hty, hdefinition⟩ :=
    List.mem_filterMap.mp (List.mem_reverse.mp (mem_of_lookup h))
  obtain ⟨found, hfound, heq⟩ := Option.map_eq_some_iff.mp hdefinition
  cases heq
  exact ⟨ty, hty, rfl, hfound⟩

theorem aliasBody_of_definition {defs : Defs} {name base : Name} {type : TypeNode}
    {definition : TypeAliasDefinitionIr} (hfound : defs.lookup name = some type)
    (h : aliasDefinition base type = some definition) :
    aliasBody defs name = some definition.typeNode := by
  rw [aliasBody, hfound]
  rw [aliasDefinition.eq_def] at h
  split at h
  · cases h
    rfl
  · cases h
  · cases h
  · cases h
  · next htuple hother hstruct henum =>
      cases h
      cases type with
      | tuple items => exact absurd rfl (hother items)
      | struct fields => exact absurd rfl (hstruct fields)
      | enum variants size => exact absurd rfl (henum variants size)
      | _ => rfl

/-- What the renderer may enter from an alias is linked from it. -/
theorem aliasLink_of_enters (h : ConvertedTypes raw types) (hnodup : (types.map (·.name)).Nodup)
    {name next : Name} (hname : ∃ r, ident r = .ok name)
    (henters : Enters (registeredAliases types) (toPascalCase name) next) :
    ∃ linked, (∃ r, ident r = .ok linked) ∧ next = toPascalCase linked ∧
      AliasLink (defsOf types) name linked := by
  obtain ⟨definition, linked, hlookup, hoccurs, rfl⟩ := henters
  obtain ⟨ty, hty, hpascal, hdefinition⟩ := mem_registeredAliases hlookup
  obtain ⟨⟨r, hr⟩, hwritten⟩ := exists_ident_of_converted h hty
  obtain ⟨r', hr'⟩ := hname
  obtain rfl := toPascalCase_injective hr' hr hpascal
  have hfound : (defsOf types).lookup ty.name = some ty.type :=
    lookup_of_mem (nodup_defsOf hnodup) (List.mem_reverse.mpr (List.mem_map.mpr ⟨ty, hty, rfl⟩))
  have hbody := aliasBody_of_definition hfound hdefinition
  have hdefs : WrittenDefs (defsOf types) :=
    defsOf_written fun other hother => (exists_ident_of_converted h hother).2
  exact ⟨linked, aliasBody_written hdefs hbody _ hoccurs, rfl, definition.typeNode, hbody, hoccurs⟩

theorem leads_of_leads (h : ConvertedTypes raw types) (hnodup : (types.map (·.name)).Nodup)
    {name last : Name} (hname : ∃ r, ident r = .ok name)
    (hleads : Leads (Enters (registeredAliases types)) (toPascalCase name) last) :
    ∃ linked, (∃ r, ident r = .ok linked) ∧ last = toPascalCase linked ∧
      Leads (AliasLink (defsOf types)) name linked := by
  induction hleads with
  | single henters =>
      obtain ⟨linked, hlinked, rfl, hlink⟩ := aliasLink_of_enters h hnodup hname henters
      exact ⟨linked, hlinked, rfl, .single hlink⟩
  | tail _ henters ih =>
      obtain ⟨middle, hmiddle, rfl, hbefore⟩ := ih
      obtain ⟨linked, hlinked, rfl, hlink⟩ := aliasLink_of_enters h hnodup hmiddle henters
      exact ⟨linked, hlinked, rfl, hbefore.tail hlink⟩

/-- A cycle that the renderer could enter is one of the converter's aliases. -/
theorem not_enters_cycle (h : ConvertedTypes raw types) (hnodup : (types.map (·.name)).Nodup)
    (hbounded : AliasesBounded (defsOf types) (types.map (·.name))) (name : Name) :
    ¬ Leads (Enters (registeredAliases types)) name name := by
  intro hcycle
  have hdefined : ∃ ty ∈ types, name = toPascalCase ty.name := by
    obtain ⟨next, ⟨definition, linked, hlookup, -⟩, -⟩ := Relation.TransGen.head'_iff.mp hcycle
    obtain ⟨ty, hty, hname, -⟩ := mem_registeredAliases hlookup
    exact ⟨ty, hty, hname⟩
  obtain ⟨ty, hty, rfl⟩ := hdefined
  obtain ⟨⟨r, hr⟩, -⟩ := exists_ident_of_converted h hty
  obtain ⟨linked, ⟨r', hr'⟩, hpascal, hleads⟩ := leads_of_leads h hnodup ⟨r, hr⟩ hcycle
  obtain rfl := toPascalCase_injective hr hr' hpascal
  exact hbounded.acyclic ty.name (List.mem_map_of_mem hty) ty.name .refl hleads

end Transfer

/-! ## The check -/

/-- The calls of `alias_depth` succeed exactly where no chain of aliases is a cycle or too
long, in the check of all types and in any order of the types; the defined types are then
built without a cycle. -/
structure AliasCheckExact (raw : List Name) (types : List DefinedTypeNode) : Prop where
  exact : (aliasChecks (defsOf types) (types.map (·.name)) []).isOk = true ↔
    AliasesBounded (defsOf types) (types.map (·.name))
  accepted : (checkTypes (defsOf types) (raw.zip types) [] []).isOk = true →
    AliasesBounded (defsOf types) (types.map (·.name))
  rejected : ∀ name,
    checkTypes (defsOf types) (raw.zip types) [] [] = .error (.at .type name .recursionLimit) →
    ¬ AliasesBounded (defsOf types) (types.map (·.name))
  ordered : checkNames .type raw = .ok () → ∀ types', types.Perm types' →
    ((aliasChecks (defsOf types') (types'.map (·.name)) []).isOk = true ↔
      (aliasChecks (defsOf types) (types.map (·.name)) []).isOk = true)
  materialized : checkNames .type raw = .ok () →
    (aliasChecks (defsOf types) (types.map (·.name)) []).isOk = true →
    Ensures (Entered [] []) (Entered (registeredAliases types) []) NotCyclic
        (buildDefinedTypes types) ∧
      ∀ name, Safe (registeredAliases types) [] (aliasField name)

/-- For every list of defined types that the converter writes. -/
theorem alias_check_exact {raw : List Name} {types : List DefinedTypeNode}
    (h : ConvertedTypes raw types) : AliasCheckExact raw types := by
  have hwritten : ∀ ty ∈ types, Written ty.type := fun ty hty => (exists_ident_of_converted h hty).2
  have hdefs : WrittenDefs (defsOf types) := defsOf_written hwritten
  have hzip : (raw.zip types).map (·.2.name) = types.map (·.name) := by
    have hlength := h.length_eq
    have hsnd : (raw.zip types).map Prod.snd = types := List.map_snd_zip hlength.ge
    calc (raw.zip types).map (·.2.name)
        = ((raw.zip types).map Prod.snd).map (·.name) := by rw [List.map_map]; rfl
      _ = types.map (·.name) := by rw [hsnd]
  have hexact : (aliasChecks (defsOf types) (types.map (·.name)) []).isOk = true ↔
      AliasesBounded (defsOf types) (types.map (·.name)) :=
    aliasChecks_spec hdefs _ (knownLongest_nil _)
  have hnames : checkNames .type raw = .ok () → (types.map (·.name)).Nodup := by
    intro hchecked
    rw [names_of_converted h]
    exact nodup_of_checkNames hchecked
  have hloop := checkTypes_chains hdefs (raw.zip types) [] (knownLongest_nil _)
  rw [hzip] at hloop
  refine ⟨hexact, hloop.1, hloop.2, ?_, ?_⟩
  · intro hchecked types' hperm
    have hdefs' : WrittenDefs (defsOf types') :=
      defsOf_written fun ty hty => hwritten ty (hperm.mem_iff.mpr hty)
    rw [hexact, aliasChecks_spec hdefs' _ (knownLongest_nil _)]
    exact (aliasesBounded_perm hperm (hnames hchecked)).symm
  · intro hchecked hpassed
    have hacyclic := not_enters_cycle h (hnames hchecked) (hexact.mp hpassed)
    have panics : AllowsCycles NotCyclic (registeredAliases types) :=
      ⟨fun _ hother => hother, fun name hcycle => absurd hcycle (hacyclic name)⟩
    exact ⟨buildDefinedTypes_leaves panics, aliasField_leaves panics⟩

/-- An option of a key by way of two aliases. -/
theorem alias_check_exact_option :
    let raw := ["maybe_key".toList, "Key".toList]
    let types : List DefinedTypeNode :=
      [⟨"maybeKey".toList, .option (some false) (.link "key".toList) (.value ⟨.u8, .le⟩)⟩,
        ⟨"key".toList, .publicKey⟩]
    AliasCheckExact raw types ∧ checkNames .type raw = .ok () ∧
      (aliasChecks (defsOf types) (types.map (·.name)) []).isOk = true := by
  refine ⟨alias_check_exact (.cons ⟨by decide, ?_⟩ (.cons ⟨by decide, ?_⟩ .nil)), by decide,
    by decide⟩
  · exact written_wrapper trivial rfl (written_of_leaf ⟨"Key".toList, by decide⟩ rfl)
  · exact written_of_leaf trivial rfl

end Shipstern.Codegen
