import Shipstern.Codegen.AliasMaterialization
import Shipstern.Codegen.LinkScan
import Shipstern.Codegen.SchemaInvariants

/-!
# References between the messages of a schema

While a schema is built, a message may refer to one that is not there yet. It is promised: the
builders of defined types and accounts write it down later. `Sound` says that every reference is to
a message that is there or promised, for the fields of all types and for what the aliases stand
for. `Refers` carries it through a computation, together with the references that the computation
is given and returns.
-/

namespace Shipstern.Codegen

open Codama Stateful

section References

variable (promised : Name → Prop) (definitions : List (Name × TypeAliasDefinitionIr))

/-- A scalar, or a message that is there or promised. -/
def Known (ir : SchemaIr) : FieldTypeIr → Prop
  | .scalar _ => True
  | .message name => promised name ∨ ∃ t ∈ ir.types, t.name = name

structure Sound (ir : SchemaIr) : Prop where
  definitions : ir.typeAliasDefinitions = definitions
  fields : ∀ t ∈ ir.types, ∀ field ∈ t.fields, Known promised ir field.fieldType
  aliases : ∀ entry ∈ ir.typeAliases, Known promised ir entry.2.fieldType

/-- Every link of the type is an alias or promised. -/
def LinksKnown (node : TypeNode) : Prop :=
  ∀ name ∈ collectLinks node, promised name ∨ (definitions.lookup name).isSome = true

/-- What is known after a run. -/
structure Outcome (before after : SchemaIr) (returned : List FieldTypeIr) : Prop where
  sound : Sound promised definitions after
  types : ∀ t ∈ before.types, t ∈ after.types
  known : ∀ fieldType ∈ returned, Known promised after fieldType

/-- From references that are known the computation makes others that are known. -/
def Refers {α : Type} (known : List FieldTypeIr) (returned : α → List FieldTypeIr)
    (x : Build α) : Prop :=
  ∀ ⦃ir a ir'⦄, x ir = .ok (a, ir') → Sound promised definitions ir →
    (∀ fieldType ∈ known, Known promised ir fieldType) →
    Outcome promised definitions ir ir' (returned a)

end References

section

variable {promised : Name → Prop} {definitions : List (Name × TypeAliasDefinitionIr)}

theorem Known.mono {before after : SchemaIr} (htypes : ∀ t ∈ before.types, t ∈ after.types)
    {fieldType : FieldTypeIr} (h : Known promised before fieldType) :
    Known promised after fieldType := by
  cases fieldType with
  | scalar scalar => trivial
  | message name =>
      obtain hpromised | ⟨t, ht, hname⟩ := h
      · exact .inl hpromised
      · exact .inr ⟨t, htypes t ht, hname⟩

theorem Sound.push {ir : SchemaIr} (h : Sound promised definitions ir) {t : TypeIr}
    (ht : ∀ field ∈ t.fields, Known promised ir field.fieldType) :
    Sound promised definitions (ir.push t) := by
  have hmore : ∀ s ∈ ir.types, s ∈ (ir.push t).types := fun s hs => List.mem_append_left _ hs
  refine ⟨h.definitions, fun s hs field hfield => ?_, fun entry hentry =>
    (h.aliases entry hentry).mono hmore⟩
  obtain hs | hs := List.mem_append.mp hs
  · exact (h.fields s hs field hfield).mono hmore
  · obtain rfl := List.mem_singleton.mp hs
    exact (ht field hfield).mono hmore

/-- Aliases that are followed lead to references that are known. -/
theorem Sound.resolveField {ir : SchemaIr} (h : Sound promised definitions ir)
    {fieldType : FieldTypeIr} (hknown : Known promised ir fieldType) :
    Known promised ir (ir.resolveField fieldType).2 := by
  rw [SchemaIr.resolveField]
  generalize ir.typeAliases.length + 1 = room
  generalize ([] : List Name) = seen
  induction room generalizing seen fieldType with
  | zero => cases fieldType <;> exact hknown
  | succ room ih =>
      cases fieldType with
      | scalar scalar => exact hknown
      | message name =>
          rw [resolveFrom]
          split
          · exact hknown
          · next alias' halias =>
              obtain ⟨before, later, hsplit, -⟩ := List.lookup_eq_some_iff.mp halias
              have hentry := h.aliases (name, alias') (hsplit ▸ by simp)
              split
              · exact hknown
              split
              · exact hentry
              · exact ih hentry _

namespace Refers

variable {α β : Type} {known : List FieldTypeIr}

theorem pure {returned : α → List FieldTypeIr} (a : α)
    (h : ∀ fieldType ∈ returned a, fieldType ∈ known) :
    Refers promised definitions known returned (pure a) := by
  intro ir b ir' hrun hsound hknown
  obtain ⟨rfl, rfl⟩ := pure_ok.mp hrun
  exact ⟨hsound, fun _ ht => ht, fun fieldType hmem => hknown _ (h fieldType hmem)⟩

theorem bind {middle : α → List FieldTypeIr} {returned : β → List FieldTypeIr} {x : Build α}
    {f : α → Build β} (hx : Refers promised definitions known middle x)
    (hf : ∀ a, Refers promised definitions (middle a ++ known) returned (f a)) :
    Refers promised definitions known returned (x >>= f) := by
  intro ir b ir' hrun hsound hknown
  obtain ⟨a, mid, hfirst, hrest⟩ := bind_ok.mp hrun
  obtain ⟨hsound', htypes, hmiddle⟩ := hx hfirst hsound hknown
  have hall : ∀ fieldType ∈ middle a ++ known, Known promised mid fieldType := by
    intro fieldType hmem
    obtain hmem | hmem := List.mem_append.mp hmem
    · exact hmiddle fieldType hmem
    · exact (hknown fieldType hmem).mono htypes
  obtain ⟨hsound'', htypes', hreturned⟩ := hf a hrest hsound' hall
  exact ⟨hsound'', fun t ht => htypes' t (htypes t ht), hreturned⟩

/-- The state is only read. -/
theorem get_bind {returned : β → List FieldTypeIr} {f : SchemaIr → Build β}
    (hf : ∀ ir, Refers promised definitions known returned (f ir)) :
    Refers promised definitions known returned (get >>= f) := by
  intro ir b ir' hrun
  obtain ⟨_, _, hget, hrest⟩ := bind_ok.mp hrun
  obtain ⟨rfl, rfl⟩ := get_ok.mp hget
  exact hf ir hrest

theorem throw {returned : α → List FieldTypeIr} (panic : BuildPanic) :
    Refers promised definitions known returned (throw panic) :=
  fun _ _ _ hrun => (throw_ok.mp hrun).elim

/-- What the result of a pure computation is may be used. -/
theorem lift_bind {returned : β → List FieldTypeIr} {x : Except BuildPanic α} {f : α → Build β}
    (hf : ∀ a, x = .ok a → Refers promised definitions known returned (f a)) :
    Refers promised definitions known returned (liftM x >>= f) := by
  intro ir b ir' hrun
  obtain ⟨a, _, hlift, hrest⟩ := bind_ok.mp hrun
  obtain ⟨hx, rfl⟩ := lift_ok.mp hlift
  exact hf a hx hrest

theorem pushType {t : TypeIr} (h : ∀ field ∈ t.fields, field.fieldType ∈ known) :
    Refers promised definitions known (fun _ => [.message t.name]) (pushType t) := by
  intro ir u ir' hrun hsound hknown
  obtain rfl := pushType_run hrun
  refine ⟨hsound.push fun field hfield => hknown _ (h field hfield),
    fun s hs => List.mem_append_left _ hs, fun fieldType hmem => ?_⟩
  obtain rfl := List.mem_singleton.mp hmem
  exact .inr ⟨t, mem_push t ir, rfl⟩

theorem pushOneof (oneof : OneofIr) :
    Refers promised definitions known (fun _ => []) (pushOneof oneof) := by
  intro ir u ir' hrun hsound _
  obtain rfl := pushOneof_run hrun
  exact ⟨⟨hsound.definitions, hsound.fields, hsound.aliases⟩, fun _ ht => ht, by simp⟩

theorem discard {returned : α → List FieldTypeIr} {x : Build α}
    (h : Refers promised definitions known returned x) :
    Refers promised definitions known (fun _ => []) (Functor.discard x) := by
  intro ir u ir' hrun hsound hknown
  obtain ⟨a, hx, -⟩ := map_ok.mp hrun
  obtain ⟨hsound', htypes, -⟩ := h hx hsound hknown
  exact ⟨hsound', htypes, by simp⟩

theorem forM {ι : Type} {f : ι → Build Unit} {items : List ι}
    (h : ∀ item ∈ items, ∀ known, Refers promised definitions known (fun _ => []) (f item)) :
    Refers promised definitions known (fun _ => []) (items.forM f) := by
  intro ir u ir' hrun hsound _
  have hall := forM_induction (P := fun _ mid => Outcome promised definitions ir mid [])
    ⟨hsound, fun _ ht => ht, by simp⟩ (fun done item before after hitem hbefore hstep => ?_) hrun
  · exact hall
  · obtain ⟨hafter, htypes, -⟩ := h item hitem [] hstep hbefore.sound (by simp)
    exact ⟨hafter, fun t ht => htypes t (hbefore.types t ht), by simp⟩

/-- Scalars are always known. -/
theorem of_scalar {returned : α → List FieldTypeIr} {x : Build α} (scalar : ScalarIr)
    (h : Refers promised definitions (.scalar scalar :: known) returned x) :
    Refers promised definitions known returned x :=
  fun _ _ _ hrun hsound hknown =>
    h hrun hsound (List.forall_mem_cons.mpr ⟨trivial, hknown⟩)

/-- What is returned need not be used. -/
theorem forget {returned : α → List FieldTypeIr} {x : Build α}
    (h : Refers promised definitions known returned x) :
    Refers promised definitions known (fun _ => []) x := by
  intro ir a ir' hrun hsound hknown
  obtain ⟨hsound', htypes, -⟩ := h hrun hsound hknown
  exact ⟨hsound', htypes, by simp⟩

theorem pushUniqueType {msg : TypeIr} (h : ∀ field ∈ msg.fields, field.fieldType ∈ known) :
    Refers promised definitions known (fun name => [.message name]) (pushUniqueType msg) := by
  intro ir name ir' hrun hsound hknown
  obtain ⟨-, ⟨rfl, hmem⟩ | rfl⟩ := pushUniqueType_ok hrun
  · refine ⟨hsound, fun _ ht => ht, fun fieldType hname => ?_⟩
    obtain rfl := List.mem_singleton.mp hname
    exact .inr ⟨_, hmem, rfl⟩
  · refine ⟨hsound.push fun field hfield => hknown _ (h field hfield),
      fun s hs => List.mem_append_left _ hs, fun fieldType hname => ?_⟩
    obtain rfl := List.mem_singleton.mp hname
    exact .inr ⟨_, mem_push _ ir, rfl⟩

theorem wrapField (wrapper field : Name) {inner : LabelIr × FieldTypeIr} (h : inner.2 ∈ known) :
    Refers promised definitions known (fun fieldType => [fieldType])
      (wrapField wrapper field inner) := by
  rw [Codegen.wrapField]
  split
  · exact .pure _ (by simpa using h)
  · exact (Refers.pushUniqueType (by simpa using h)).bind fun name => .pure _ (by simp)

theorem optionEncoding (base : Name) (fixed : Option Bool) (item : TypeNode)
    (number : NestedTypeNode NumberTypeNode) :
    Refers promised definitions known (fun _ => []) (optionEncoding base fixed item number) := by
  refine .get_bind fun ir => ?_
  dsimp only
  split
  · split
    · exact .pure _ (by simp)
    · exact .throw _
  · exact .pure _ (by simp)

end Refers

/-! ## Fields -/

/-- The type that a field has. -/
abbrev fieldReferences (field : LabelIr × FieldTypeIr) : List FieldTypeIr := [field.2]

abbrev fieldsReferences (fields : List FieldIr) : List FieldTypeIr := fields.map (·.fieldType)

section Materialize

variable {aliasField : Name → Build (LabelIr × FieldTypeIr)}

theorem materializeFields_refers {fields : List StructFieldTypeNode} {known : List FieldTypeIr}
    (h : ∀ field ∈ fields, ∀ base known,
      Refers promised definitions known fieldReferences
        (materializeWith aliasField base field.type))
    (parent : Name) (seen : List Name) :
    Refers promised definitions known fieldsReferences
      (materializeFields aliasField parent seen fields) := by
  induction fields generalizing seen known with
  | nil =>
      rw [materializeFields]
      exact .pure _ (by simp)
  | cons field fields ih =>
      obtain ⟨name, strategy, type, default⟩ := field
      rw [List.forall_mem_cons] at h
      rw [materializeFields]
      split
      · exact ih h.2 seen
      · exact (h.1 _ _).bind fun _ => (ih h.2 _).bind fun _ => .pure _ (by simp +contextual)

theorem materializeItems_refers {items : List TypeNode} {known : List FieldTypeIr}
    (h : ∀ item ∈ items, ∀ base known,
      Refers promised definitions known fieldReferences (materializeWith aliasField base item))
    (itemBase : Nat → Name) (i : Nat) :
    Refers promised definitions known fieldsReferences
      (materializeItems aliasField itemBase i items) := by
  induction items generalizing i known with
  | nil =>
      rw [materializeItems]
      exact .pure _ (by simp)
  | cons item items ih =>
      rw [List.forall_mem_cons] at h
      rw [materializeItems]
      exact (h.1 _ _).bind fun _ => (ih h.2 _).bind fun _ => .pure _ (by simp +contextual)

/-- The fields of a helper are the ones that were just materialized. -/
theorem mem_fieldsReferences {fields : List FieldIr} {known : List FieldTypeIr} :
    ∀ field ∈ fields, field.fieldType ∈ fieldsReferences fields ++ known :=
  fun _ hfield => List.mem_append_left _ (List.mem_map_of_mem hfield)

theorem mapType_scalar {node : TypeNode} {fieldType : FieldTypeIr}
    (h : mapType node = .ok fieldType) (hlink : ∀ name, node ≠ .link name)
    (hoption : ∀ fixed item number, node ≠ .option fixed item number)
    (harray : ∀ item count, node ≠ .array item count) : ∃ scalar, fieldType = .scalar scalar := by
  rw [mapType.eq_def] at h
  split at h
  all_goals first | exact ⟨_, (Except.ok.inj h).symm⟩ | cases h | skip
  · exact (hlink _ rfl).elim
  · exact (hoption _ _ _ rfl).elim
  · exact (harray _ _ rfl).elim

theorem materializeWith_refers
    (halias : ∀ name known, (definitions.lookup name).isSome = true →
      Refers promised definitions known fieldReferences (aliasField name))
    (node : TypeNode) (hnode : LinksKnown promised definitions node) :
    ∀ base known, Refers promised definitions known fieldReferences
      (materializeWith aliasField base node) := by
  induction node using TypeNode.induction with
  | step node ih =>
      intro base known
      have hother (hscalar : ∀ fieldType, mapType node = .ok fieldType →
          ∃ scalar, fieldType = .scalar scalar) :
          Refers promised definitions known fieldReferences (do
            let fieldType ← (liftM (mapType node) : Build FieldTypeIr)
            let ir ← get
            pure (ir.resolveField fieldType)) := by
        refine .lift_bind fun fieldType htype => .get_bind fun read => ?_
        obtain ⟨scalar, rfl⟩ := hscalar fieldType htype
        intro ir result ir' hrun hsound _
        obtain ⟨rfl, rfl⟩ := pure_ok.mp hrun
        refine ⟨hsound, fun _ ht => ht, fun fieldType hmem => ?_⟩
        obtain rfl := List.mem_singleton.mp hmem
        rw [SchemaIr.resolveField, resolveFrom]
        trivial
      cases node with
      | struct fields =>
          have hfields : ∀ field ∈ fields, ∀ base known,
              Refers promised definitions known fieldReferences
                (materializeWith aliasField base field.type) := by
            intro field hfield
            refine ih field.type (List.mem_map_of_mem hfield) fun name hname => hnode name ?_
            exact mem_collectFieldLinks.mpr ⟨field, hfield, hname⟩
          rw [materializeWith]
          exact (materializeFields_refers hfields _ _).bind fun fields =>
            (Refers.pushUniqueType mem_fieldsReferences).bind fun name => .pure _ (by simp)
      | tuple items =>
          have hitems : ∀ item ∈ items, ∀ base known,
              Refers promised definitions known fieldReferences
                (materializeWith aliasField base item) := by
            intro item hitem
            refine ih item hitem fun name hname => hnode name ?_
            exact mem_collectItemLinks.mpr ⟨item, hitem, hname⟩
          rw [materializeWith]
          exact (materializeItems_refers hitems _ _).bind fun fields =>
            (Refers.pushUniqueType mem_fieldsReferences).bind fun name => .pure _ (by simp)
      | option fixed item number =>
          have hitem := ih item List.mem_cons_self hnode
          rw [materializeWith]
          exact (Refers.optionEncoding _ _ _ _).bind fun _ => (hitem _ _).bind fun _ =>
            (Refers.wrapField _ _ (by simp)).bind fun _ => .pure _ (by simp)
      | array item count | set item count =>
          have hitem := ih item List.mem_cons_self hnode
          rw [materializeWith]
          exact (hitem _ _).bind fun _ => (Refers.wrapField _ _ (by simp)).bind fun _ =>
            .pure _ (by simp)
      | map key value count =>
          have hkey := ih key List.mem_cons_self fun name hname =>
            hnode name (List.mem_append_left _ hname)
          have hvalue := ih value (List.mem_cons_of_mem _ List.mem_cons_self) fun name hname =>
            hnode name (List.mem_append_right _ hname)
          rw [materializeWith]
          exact (hkey _ _).bind fun _ => (hvalue _ _).bind fun _ =>
            (Refers.pushUniqueType (by simp)).bind fun _ => .pure _ (by simp)
      | link name =>
          rw [materializeWith]
          intro ir result ir' hrun hsound hknown
          obtain ⟨_, _, hget, hrun⟩ := bind_ok.mp hrun
          obtain ⟨rfl, rfl⟩ := get_ok.mp hget
          have hdefined : ir.hasTypeAliasDefinition (toPascalCase name) =
              (definitions.lookup (toPascalCase name)).isSome := by
            rw [SchemaIr.hasTypeAliasDefinition, hsound.definitions]
          rw [hdefined] at hrun
          split at hrun
          · next hsome => exact halias _ _ hsome hrun hsound hknown
          · next hnone =>
              obtain ⟨rfl, rfl⟩ := pure_ok.mp hrun
              have hpromised := (hnode _ List.mem_cons_self).resolve_right hnone
              refine ⟨hsound, fun _ ht => ht, fun fieldType hmem => ?_⟩
              obtain rfl := List.mem_singleton.mp hmem
              exact hsound.resolveField (.inl hpromised)
      | boolean | publicKey | number | string | bytes | fixedSize | sizePrefix | hiddenPrefix
      | hiddenSuffix | enum | unsupported =>
          rw [materializeWith]
          · exact hother fun fieldType htype => mapType_scalar htype (fun _ => TypeNode.noConfusion)
              (fun _ _ _ => TypeNode.noConfusion) fun _ _ => TypeNode.noConfusion
          all_goals intros; contradiction

end Materialize

/-- What an alias stands for is known, and stays in the table. -/
theorem materializeTypeAlias_refers
    {materialize : Name → TypeNode → Build (LabelIr × FieldTypeIr)} {known : List FieldTypeIr}
    (hdefinitions : ∀ entry ∈ definitions, LinksKnown promised definitions entry.2.typeNode)
    (h : ∀ base node, LinksKnown promised definitions node →
      Refers promised definitions [] fieldReferences (materialize base node)) (name : Name) :
    Refers promised definitions known fieldReferences (materializeTypeAlias materialize name) := by
  intro ir result ir' hrun hsound _
  obtain ⟨_, _, hget, hrun⟩ := bind_ok.mp hrun
  obtain ⟨rfl, rfl⟩ := get_ok.mp hget
  cases hfound : ir.typeAliases.lookup name with
  | some found =>
      rw [hfound] at hrun
      obtain ⟨rfl, rfl⟩ := pure_ok.mp hrun
      obtain ⟨before, later, hsplit, -⟩ := List.lookup_eq_some_iff.mp hfound
      refine ⟨hsound, fun _ ht => ht, fun fieldType hmem => ?_⟩
      obtain rfl := List.mem_singleton.mp hmem
      exact hsound.aliases (name, found) (hsplit ▸ by simp)
  | none =>
      rw [hfound] at hrun
      dsimp only at hrun
      split at hrun
      · exact (throw_ok.mp hrun).elim
      cases hdefinition : ir.typeAliasDefinitions.lookup name with
      | none =>
          rw [hdefinition] at hrun
          exact (throw_ok.mp hrun).elim
      | some definition =>
          rw [hdefinition] at hrun
          obtain ⟨⟨⟩, entered, hset, hrun⟩ := bind_ok.mp hrun
          obtain rfl := set_ok.mp hset
          obtain ⟨⟨label, fieldType⟩, grown, hgrow, hrun⟩ := bind_ok.mp hrun
          obtain ⟨⟨⟩, left, hmodify, hpure⟩ := bind_ok.mp hrun
          obtain rfl := modify_ok.mp hmodify
          obtain ⟨rfl, rfl⟩ := pure_ok.mp hpure
          have hnode : LinksKnown promised definitions definition.typeNode := by
            obtain ⟨before, later, hsplit, -⟩ := List.lookup_eq_some_iff.mp hdefinition
            rw [hsound.definitions] at hsplit
            exact hdefinitions (name, definition) (hsplit ▸ by simp)
          obtain ⟨hsound', htypes, hknown⟩ :=
            h _ _ hnode hgrow ⟨hsound.definitions, hsound.fields, hsound.aliases⟩ (by simp)
          have hfieldType := hknown fieldType List.mem_cons_self
          refine ⟨⟨hsound'.definitions, hsound'.fields, fun entry hentry => ?_⟩, htypes,
            fun fieldType' hmem => ?_⟩
          · obtain rfl | hentry := List.mem_cons.mp hentry
            · exact hfieldType
            · exact hsound'.aliases entry hentry
          · obtain rfl := List.mem_singleton.mp hmem
            exact hfieldType

/-- The struct of an account is the one inside all its wrappers. -/
theorem unwrapNestedStruct_eq {data : NestedTypeNode (List StructFieldTypeNode)}
    {fields : List StructFieldTypeNode} (h : unwrapNestedStruct data = .ok fields) :
    data.getNestedTypeNode = fields := by
  induction data with
  | value fields => exact Except.ok.inj h
  | wrapped wrapper inner ih =>
      rw [NestedTypeNode.getNestedTypeNode]
      cases wrapper <;> first | exact ih h | cases h

/-- The links of the struct of an event are links of its data. -/
theorem eventStruct_links {data : TypeNode} {fields : List StructFieldTypeNode}
    (h : eventStruct data = some fields) {field : StructFieldTypeNode} (hfield : field ∈ fields)
    {name : Name} (hname : name ∈ collectLinks field.type) : name ∈ collectLinks data := by
  induction data using TypeNode.induction with
  | step data ih =>
      cases data with
      | struct fields' =>
          obtain rfl := Option.some.inj h
          exact mem_collectFieldLinks.mpr ⟨field, hfield, hname⟩
      | hiddenPrefix type constants | hiddenSuffix type constants | fixedSize size type
      | sizePrefix type number => exact ih type List.mem_cons_self h
      | _ => cases h

section Knot

variable (hdefinitions : ∀ entry ∈ definitions, LinksKnown promised definitions entry.2.typeNode)

include hdefinitions

theorem materializeAt_refers (room : Nat) (base : Name) (node : TypeNode)
    (hnode : LinksKnown promised definitions node) (known : List FieldTypeIr) :
    Refers promised definitions known fieldReferences (materializeAt room base node) := by
  induction room generalizing base node known with
  | zero => exact .throw _
  | succ room ih =>
      rw [materializeAt]
      refine materializeWith_refers (fun name known _ => ?_) node hnode base known
      exact materializeTypeAlias_refers hdefinitions (fun base node hnode => ih base node hnode [])
        name

theorem aliasField_refers (name : Name) (known : List FieldTypeIr) :
    Refers promised definitions known fieldReferences (aliasField name) :=
  .get_bind fun _ => materializeTypeAlias_refers hdefinitions
    (fun base node hnode => materializeAt_refers hdefinitions _ base node hnode []) name

theorem buildType_refers (node : TypeNode) (hnode : LinksKnown promised definitions node) :
    ∀ base known, Refers promised definitions known fieldReferences
      (materializeWith aliasField base node) :=
  materializeWith_refers (fun name known _ => aliasField_refers hdefinitions name known) node hnode

theorem buildFieldsIr_refers (parent : Name) {fields : List StructFieldTypeNode}
    (hfields : ∀ field ∈ fields, LinksKnown promised definitions field.type)
    (known : List FieldTypeIr) :
    Refers promised definitions known fieldsReferences (buildFieldsIr parent fields) :=
  materializeFields_refers
    (fun field hfield => buildType_refers hdefinitions field.type (hfields field hfield)) _ _

theorem buildItems_refers (itemBase : Nat → Name) {items : List TypeNode}
    (hitems : ∀ item ∈ items, LinksKnown promised definitions item) (known : List FieldTypeIr) :
    Refers promised definitions known fieldsReferences
      (materializeItems aliasField itemBase 0 items) :=
  materializeItems_refers
    (fun item hitem => buildType_refers hdefinitions item (hitems item hitem)) _ _

/-! ## The builders -/

theorem buildEnumVariantPayload_refers (payloadName : Name) {payload : VariantPayload TypeNode}
    (hpayload : ∀ name ∈ collectPayloadLinks payload,
      promised name ∨ (definitions.lookup name).isSome = true) (known : List FieldTypeIr) :
    Refers promised definitions known fieldsReferences
      (buildEnumVariantPayload payloadName payload) := by
  cases payload with
  | empty => exact .pure _ (by simp)
  | struct fields =>
      exact buildFieldsIr_refers hdefinitions _ (fun field hfield name hname =>
        hpayload name (mem_collectFieldLinks.mpr ⟨field, hfield, hname⟩)) _
  | tuple items =>
      exact buildItems_refers hdefinitions _ (fun item hitem name hname =>
        hpayload name (mem_collectItemLinks.mpr ⟨item, hitem, hname⟩)) _
  | wrapped types => exact .throw _

theorem buildEnumVariants_refers (enumName : Name) (i : Nat) {variants : List EnumVariantTypeNode}
    (hvariants : ∀ name ∈ collectVariantLinks variants,
      promised name ∨ (definitions.lookup name).isSome = true) (known : List FieldTypeIr) :
    Refers promised definitions known (fun _ => []) (buildEnumVariants enumName i variants) := by
  induction variants generalizing i known with
  | nil => exact .pure _ (by simp)
  | cons variant variants ih =>
      obtain ⟨name, discriminator, payload⟩ := variant
      have hpayload : ∀ name ∈ collectPayloadLinks payload,
          promised name ∨ (definitions.lookup name).isSome = true :=
        fun name hname => hvariants name (List.mem_append_left _ hname)
      have hrest := ih (i + 1) fun name hname => hvariants name (List.mem_append_right _ hname)
      rw [buildEnumVariants]
      have hbuild : ∀ known, Refers promised definitions known (fun _ => []) (do
          let payloadName := enumName ++ toPascalCase name
          let fields ← buildEnumVariantPayload payloadName payload
          let messageType ← pushUniqueType ⟨payloadName, fields, .helper⟩
          let variants ← buildEnumVariants enumName (i + 1) variants
          pure (⟨i + 1, toPascalCase name, messageType⟩ :: variants)) := fun known =>
        (buildEnumVariantPayload_refers hdefinitions _ hpayload known).bind fun _ =>
          (Refers.pushUniqueType mem_fieldsReferences).bind fun _ => (hrest _).bind fun _ =>
            .pure _ (by simp)
      split
      · have hthrow : Refers promised definitions known (fun _ : PUnit => [])
            (throw (.enumDiscriminator enumName i) : Build PUnit) := .throw _
        exact hthrow.bind fun _ => hbuild _
      · have hpure : Refers promised definitions known (fun _ : PUnit => [])
            (pure ⟨⟩ : Build PUnit) := .pure _ (by simp)
        exact hpure.bind fun _ => hbuild _

theorem buildDefinedType_refers {definedType : DefinedTypeNode}
    (htype : LinksKnown promised definitions definedType.type) (known : List FieldTypeIr) :
    Refers promised definitions known (fun _ => []) (buildDefinedType definedType) := by
  obtain ⟨name, node⟩ := definedType
  have hdone : Refers promised definitions known (fun _ : Unit => []) (pure ()) := .pure _ (by simp)
  cases node with
  | struct fields =>
      have hfields := buildFieldsIr_refers hdefinitions (toPascalCase name)
        (fun field hfield name hname =>
          htype name (mem_collectFieldLinks.mpr ⟨field, hfield, hname⟩)) known
      exact hfields.bind fun _ => (Refers.pushType mem_fieldsReferences).forget
  | enum variants size =>
      refine (buildEnumVariants_refers hdefinitions (toPascalCase name) 0 htype known).bind
        fun _ => ?_
      refine (Refers.pushType (by simp)).bind fun _ => ?_
      cases size with
      | value number => exact .pushOneof _
      | wrapped wrapper inner => exact .throw _
  | tuple items =>
      have htuple : Refers promised definitions known (fun _ : Unit => [])
          (buildDefinedTypeTuple (toPascalCase name) items) :=
        (buildItems_refers hdefinitions _ (fun item hitem name hname =>
          htype name (mem_collectItemLinks.mpr ⟨item, hitem, hname⟩)) known).bind
            fun _ => (Refers.pushType mem_fieldsReferences).forget
      match items, htuple with
      | [], htuple => exact htuple
      | [_], _ => exact hdone
      | _ :: _ :: _, htuple => exact htuple
  | _ => exact hdone

theorem buildAccount_refers {account : AccountNode}
    (haccount : ∀ field ∈ account.data.getNestedTypeNode,
      LinksKnown promised definitions field.type)
    (known : List FieldTypeIr) :
    Refers promised definitions known (fun _ => []) (buildAccount account) := by
  refine .lift_bind fun fields hfields => ?_
  rw [unwrapNestedStruct_eq hfields] at haccount
  exact (buildFieldsIr_refers hdefinitions _ haccount known).bind fun _ =>
    (Refers.pushType mem_fieldsReferences).forget

omit hdefinitions in
theorem accountFields_scalar {accounts : List InstructionAccountNode} {field : FieldIr}
    (h : field ∈ accountFields accounts) : field.fieldType = .scalar .publicKey := by
  have hdeclared : ∀ field ∈ accounts.mapIdx accountField,
      field.fieldType = .scalar .publicKey := by
    intro field hfield
    obtain ⟨i, hi, rfl⟩ := List.mem_mapIdx.mp hfield
    rfl
  rw [accountFields] at h
  split at h
  · exact hdeclared field h
  · obtain h | h := List.mem_append.mp h
    · exact hdeclared field h
    · rw [List.mem_singleton.mp h]
      rfl

omit hdefinitions in
/-- The message around the accounts and the arguments refers to both. -/
theorem pushPayload_refers (name : Name) (kind : TypeKindIr) {known : List FieldTypeIr}
    (haccounts : .message (accountsName name) ∈ known) (hargs : .message (argsName name) ∈ known) :
    Refers promised definitions known (fun _ => [])
      (pushType ⟨name, payloadFields name, kind⟩) :=
  (Refers.pushType (by simpa [payloadFields] using ⟨haccounts, hargs⟩)).forget

theorem buildInstructionMessages_refers {ix : InstructionNode}
    (hix : ∀ argument ∈ ix.arguments, LinksKnown promised definitions argument.type)
    (known : List FieldTypeIr) :
    Refers promised definitions known (fun _ => []) (buildInstructionMessages ix) := by
  have hfields : ∀ field ∈ ix.arguments.map argumentField,
      LinksKnown promised definitions field.type := List.forall_mem_map.mpr hix
  refine .of_scalar .publicKey ((Refers.pushType fun field hfield => ?_).bind fun _ => ?_)
  · rw [accountFields_scalar hfield]
    exact List.mem_cons_self
  refine (buildFieldsIr_refers hdefinitions _ hfields _).bind fun fields => ?_
  intro ir u ir' hrun hsound hknown
  obtain ⟨_, _, hget, hrun⟩ := bind_ok.mp hrun
  obtain ⟨rfl, rfl⟩ := get_ok.mp hget
  by_cases hcollides : collidesWithDefinedType ir (argsName (toPascalCase ix.name)) = true
  · -- the defined type stands for the arguments
    rw [if_pos hcollides] at hrun
    have hargs : Known promised ir (.message (argsName (toPascalCase ix.name))) := by
      rw [collidesWithDefinedType, List.any_eq_true] at hcollides
      obtain ⟨t, ht, hname⟩ := hcollides
      exact .inr ⟨t, ht, (by simpa using hname : _ ∧ _).1⟩
    exact pushPayload_refers _ _ (List.mem_cons_of_mem _ (by simp)) List.mem_cons_self hrun hsound
      (List.forall_mem_cons.mpr ⟨hargs, hknown⟩)
  · rw [if_neg hcollides] at hrun
    exact (Refers.pushType mem_fieldsReferences).bind
      (fun _ => pushPayload_refers _ _ (by simp) (by simp)) hrun hsound hknown

theorem buildEventMessages_refers {ev : EventNode}
    (hev : LinksKnown promised definitions ev.data) (known : List FieldTypeIr) :
    Refers promised definitions known (fun _ => []) (buildEventMessages ev) := by
  refine .of_scalar .publicKey ((Refers.pushType fun field hfield => ?_).bind fun _ => ?_)
  · rw [List.mem_singleton.mp hfield]
    exact List.mem_cons_self
  refine .lift_bind fun struct hstruct => ?_
  have hfields : ∀ field ∈ struct, LinksKnown promised definitions field.type := by
    rw [eventFields] at hstruct
    split at hstruct
    · next fields hunwrapped =>
        obtain rfl := Except.ok.inj hstruct
        exact fun field hfield name hname => hev name (eventStruct_links hunwrapped hfield hname)
    · cases hstruct
  exact (buildFieldsIr_refers hdefinitions _ hfields _).bind fun _ =>
    (Refers.pushType mem_fieldsReferences).bind fun _ => pushPayload_refers _ _ (by simp) (by simp)

end Knot

end

/-! ## Defined types -/

/-- A part of the schema that no step of a loop touches. -/
theorem foldl_untouched {β : Type} (part : SchemaIr → β)
    (f : SchemaIr → DefinedTypeNode → SchemaIr)
    (hf : ∀ ir definedType, part (f ir definedType) = part ir) (definedTypes : List DefinedTypeNode)
    (ir : SchemaIr) : part (definedTypes.foldl f ir) = part ir := by
  induction definedTypes generalizing ir with
  | nil => rfl
  | cons definedType definedTypes ih => exact (ih (f ir definedType)).trans (hf ir definedType)

theorem registerAlias_typeAliases (ir : SchemaIr) (definedType : DefinedTypeNode) :
    (registerAlias ir definedType).typeAliases = ir.typeAliases := by
  rw [registerAlias]
  split <;> rfl

/-- The tables are filled before any type or alias is there. -/
theorem registered_sound {promised : Name → Prop} {ir : SchemaIr} (htypes : ir.types = [])
    (haliases : ir.typeAliases = []) (hdefinitions : ir.typeAliasDefinitions = [])
    (definedTypes : List DefinedTypeNode) (names : List Name) :
    Sound promised (registeredAliases definedTypes) (definedTypes.foldl registerAlias
      ((definedTypes.foldl registerDefined ir).reserveTypeNames names)) := by
  have htypes' : (definedTypes.foldl registerAlias
      ((definedTypes.foldl registerDefined ir).reserveTypeNames names)).types = [] := by
    rw [foldl_untouched (·.types) registerAlias fun ir ty => (registerAlias_untouched ir ty).1]
    exact (foldl_untouched (·.types) registerDefined (fun _ _ => rfl) definedTypes ir).trans htypes
  have haliases' : (definedTypes.foldl registerAlias
      ((definedTypes.foldl registerDefined ir).reserveTypeNames names)).typeAliases = [] := by
    rw [foldl_untouched (·.typeAliases) registerAlias registerAlias_typeAliases]
    exact (foldl_untouched (·.typeAliases) registerDefined (fun _ _ => rfl) definedTypes ir).trans
      haliases
  refine ⟨?_, by simp [htypes'], by simp [haliases']⟩
  have hregistered := (foldl_registerDefined definedTypes ir).1.trans hdefinitions
  refine (foldl_registerAlias definedTypes _).1.trans ?_
  rw [SchemaIr.reserveTypeNames, hregistered, List.append_nil]

/-- A defined type is a message of its own, or an alias. -/
theorem concrete_or_alias (definedType : DefinedTypeNode) :
    isConcrete definedType.type = true ∨
      (aliasDefinition (toPascalCase definedType.name) definedType.type).isSome = true := by
  obtain ⟨name, node⟩ := definedType
  cases node with
  | tuple items => match items with
    | [] => exact .inl rfl
    | [_] => exact .inr rfl
    | _ :: _ :: _ => exact .inl (by simp [isConcrete])
  | struct fields => exact .inl rfl
  | enum variants size => exact .inl rfl
  | _ => exact .inr rfl

/-- What an alias stands for links to nothing else than the defined type. -/
theorem aliasDefinition_links {base : Name} {node : TypeNode} {definition : TypeAliasDefinitionIr}
    (h : aliasDefinition base node = some definition) {name : Name}
    (hname : name ∈ collectLinks definition.typeNode) : name ∈ collectLinks node := by
  cases node with
  | tuple items => match items, h with
    | [], h => cases h
    | [item], h =>
        obtain rfl := Option.some.inj h
        exact List.mem_append_left _ hname
    | _ :: _ :: _, h => cases h
  | struct fields => cases h
  | enum variants size => cases h
  | _ =>
      obtain rfl := Option.some.inj h
      exact hname

theorem lookup_registeredAliases {definedTypes : List DefinedTypeNode}
    {definedType : DefinedTypeNode} (hmem : definedType ∈ definedTypes)
    (halias : (aliasDefinition (toPascalCase definedType.name) definedType.type).isSome = true) :
    ((registeredAliases definedTypes).lookup (toPascalCase definedType.name)).isSome = true := by
  obtain ⟨definition, hdefinition⟩ := Option.isSome_iff_exists.mp halias
  refine List.lookup_isSome_iff.mpr
    ⟨(toPascalCase definedType.name, definition), ?_, beq_self_eq_true _⟩
  rw [registeredAliases, List.mem_reverse]
  exact List.mem_filterMap.mpr ⟨definedType, hmem, by rw [hdefinition]; rfl⟩

section

variable {promised : Name → Prop} {definedTypes : List DefinedTypeNode}

theorem registeredAliases_links
    (hlinks : ∀ definedType ∈ definedTypes,
      LinksKnown promised (registeredAliases definedTypes) definedType.type) :
    ∀ entry ∈ registeredAliases definedTypes,
      LinksKnown promised (registeredAliases definedTypes) entry.2.typeNode := by
  intro entry hentry name hname
  rw [registeredAliases, List.mem_reverse] at hentry
  obtain ⟨definedType, hmem, hsome⟩ := List.mem_filterMap.mp hentry
  obtain ⟨definition, hdefinition, rfl⟩ := Option.map_eq_some_iff.mp hsome
  exact hlinks definedType hmem name (aliasDefinition_links hdefinition hname)

theorem buildDefinedTypes_sound {ir ir' : SchemaIr} {u : Unit}
    (hlinks : ∀ definedType ∈ definedTypes,
      LinksKnown promised (registeredAliases definedTypes) definedType.type)
    (htypes : ir.types = []) (haliases : ir.typeAliases = [])
    (hdefinitions : ir.typeAliasDefinitions = [])
    (h : buildDefinedTypes definedTypes ir = .ok (u, ir')) :
    Sound promised (registeredAliases definedTypes) ir' := by
  obtain ⟨⟨⟩, registered, hregister, h₁⟩ := bind_ok.mp h
  obtain ⟨⟨⟩, reserved, hreserve, h₂⟩ := bind_ok.mp h₁
  obtain ⟨⟨⟩, aliased, halias, hrest⟩ := bind_ok.mp h₂
  obtain rfl := modify_ok.mp hregister
  obtain rfl := modify_ok.mp hreserve
  obtain rfl := modify_ok.mp halias
  have hstart : Sound promised (registeredAliases definedTypes) _ :=
    registered_sound htypes haliases hdefinitions definedTypes (concreteNames definedTypes)
  have hentries := registeredAliases_links hlinks
  have hbuild : Refers promised (registeredAliases definedTypes) [] (fun _ : Unit => []) (do
      (aliasNames definedTypes).forM fun name => discard (aliasField name)
      definedTypes.forM buildDefinedType) := by
    exact (Refers.forM fun name _ known => (aliasField_refers hentries name known).discard).bind
      fun _ => Refers.forM fun definedType hmem known =>
        buildDefinedType_refers hentries (hlinks definedType hmem) known
  exact (hbuild hrest hstart (by simp)).sound

end

/-- A defined type of its own message has one under its name. -/
theorem buildDefinedType_present {definedType : DefinedTypeNode} {ir ir' : SchemaIr} {u : Unit}
    (hconcrete : isConcrete definedType.type = true)
    (h : buildDefinedType definedType ir = .ok (u, ir')) :
    ∃ t ∈ ir'.types, t.name = toPascalCase definedType.name := by
  obtain ⟨name, node⟩ := definedType
  cases node with
  | struct fields =>
      obtain ⟨fields, grown, -, hpush⟩ := bind_ok.mp h
      obtain rfl := pushType_run hpush
      exact ⟨_, mem_push _ grown, rfl⟩
  | enum variants size =>
      obtain ⟨built, grown, -, hrest⟩ := bind_ok.mp h
      obtain ⟨⟨⟩, pushed, hpush, hrest⟩ := bind_ok.mp hrest
      obtain rfl := pushType_run hpush
      cases size with
      | wrapped wrapper inner => exact (throw_ok.mp hrest).elim
      | value number =>
          obtain rfl := pushOneof_run hrest
          exact ⟨_, mem_push _ grown, rfl⟩
  | tuple items =>
      have htuple (hrun : buildDefinedTypeTuple (toPascalCase name) items ir = .ok (u, ir')) :
          ∃ t ∈ ir'.types, t.name = toPascalCase name := by
        obtain ⟨fields, grown, -, hpush⟩ := bind_ok.mp hrun
        obtain rfl := pushType_run hpush
        exact ⟨_, mem_push _ grown, rfl⟩
      match items, htuple, h with
      | [], htuple, h => exact htuple h
      | [_], _, _ => cases hconcrete
      | _ :: _ :: _, htuple, h => exact htuple h
  | _ => cases hconcrete

theorem buildDefinedTypes_present {definedTypes : List DefinedTypeNode} {ir ir' : SchemaIr}
    {u : Unit} (h : buildDefinedTypes definedTypes ir = .ok (u, ir')) {name : Name}
    (hname : name ∈ concreteNames definedTypes) : ∃ t ∈ ir'.types, t.name = name := by
  obtain ⟨⟨⟩, registered, -, h₁⟩ := bind_ok.mp h
  obtain ⟨⟨⟩, reserved, -, h₂⟩ := bind_ok.mp h₁
  obtain ⟨⟨⟩, aliased, -, h₃⟩ := bind_ok.mp h₂
  obtain ⟨⟨⟩, materialized, -, hbuild⟩ := bind_ok.mp h₃
  have hall := forM_induction (P := fun done (mid : SchemaIr) =>
    ∀ ty ∈ done, isConcrete ty.type = true → ∃ t ∈ mid.types, t.name = toPascalCase ty.name)
    (fun _ hty => by contradiction) (fun done ty before after hmem hbefore hrun => ?_) hbuild
  · obtain ⟨definedType, hmem, rfl⟩ := List.mem_map.mp hname
    obtain ⟨hmem, hconcrete⟩ := List.mem_filter.mp hmem
    exact hall definedType hmem hconcrete
  · have hnames : isConcrete ty.type = true →
        toPascalCase ty.name ∈ concreteNames definedTypes :=
      fun hconcrete => List.mem_map_of_mem (List.mem_filter.mpr ⟨hmem, hconcrete⟩)
    have hadded := buildDefinedType_run hnames hrun
    intro other hother hconcrete
    obtain hother | hother := List.mem_append.mp hother
    · obtain ⟨t, ht, hname⟩ := hbefore other hother hconcrete
      exact ⟨t, hadded.types.mem ht, hname⟩
    · rw [List.mem_singleton.mp hother] at hconcrete ⊢
      exact buildDefinedType_present hconcrete hrun

/-! ## The whole schema -/

section

variable (programEvents : Bool) (program : ProgramNode) (events : List EventNode)

/-- Every link names a defined type, an account or an event whose payload is a struct. -/
def LinksResolve : Prop :=
  ∀ name ∈ rootLinks program ++ events.flatMap (collectLinks ·.data),
    name ∈ definedNames program ∨ name ∈ program.accounts.map (toPascalCase ·.name) ∨
      ∃ event ∈ events, toPascalCase event.name = name ∧ (eventStruct event.data).isSome = true

/-- The messages that are written down later. -/
def Promised (name : Name) : Prop :=
  name ∈ concreteNames (allDefinedTypes programEvents program events) ∨
    name ∈ program.accounts.map (toPascalCase ·.name)

/-- Every link of the type is known while the schema is built. -/
abbrev SchemaLinksKnown (node : TypeNode) : Prop :=
  LinksKnown (Promised programEvents program events)
    (registeredAliases (allDefinedTypes programEvents program events)) node

/-- The builder keeps every reference known. -/
abbrev KeepsReferences (x : Build Unit) : Prop :=
  ∀ known, Refers (Promised programEvents program events)
    (registeredAliases (allDefinedTypes programEvents program events)) known (fun _ => []) x

variable {programEvents program events}

theorem Reached.mem {name : Name} (h : Reached programEvents program events name) :
    name ∈ rootLinks program ++ events.flatMap (collectLinks ·.data) := by
  cases h with
  | root h => exact List.mem_append_left _ h
  | emitted _ hevent h => exact List.mem_append_right _ (List.mem_flatMap.mpr ⟨_, hevent, h⟩)
  | linked hevent _ _ h => exact List.mem_append_right _ (List.mem_flatMap.mpr ⟨_, hevent, h⟩)

/-- What is reached is an alias or promised. -/
theorem Reached.known (hlinks : LinksResolve program events) {name : Name}
    (h : Reached programEvents program events name) :
    Promised programEvents program events name ∨
      ((registeredAliases (allDefinedTypes programEvents program events)).lookup name).isSome =
        true := by
  have hdefined : ∀ ty ∈ allDefinedTypes programEvents program events,
      Promised programEvents program events (toPascalCase ty.name) ∨
        ((registeredAliases (allDefinedTypes programEvents program events)).lookup
          (toPascalCase ty.name)).isSome = true := by
    intro ty hty
    obtain hconcrete | halias := concrete_or_alias ty
    · exact .inl (.inl (List.mem_map_of_mem (List.mem_filter.mpr ⟨hty, hconcrete⟩)))
    · exact .inr (lookup_registeredAliases hty halias)
  by_cases hname : name ∈ definedNames program
  · obtain ⟨ty, hty, rfl⟩ := List.mem_map.mp hname
    exact hdefined ty (List.mem_append_left _ hty)
  obtain hmem | haccount | ⟨event, hevent, rfl, hstruct⟩ := hlinks name h.mem
  · exact (hname hmem).elim
  · exact .inl (.inr haccount)
  · obtain ⟨payload, hpayload⟩ := Option.isSome_iff_exists.mp hstruct
    refine hdefined ⟨event.name, .struct payload⟩ (List.mem_append_right _ ?_)
    exact mem_linkedEventPayloads.mpr ⟨event, hevent, payload, hpayload, rfl, h, hname⟩

/-- Types all of whose links are reached have their links known. -/
theorem linksKnown_of_reached (hlinks : LinksResolve program events) {node : TypeNode}
    (h : ∀ name ∈ collectLinks node, Reached programEvents program events name) :
    SchemaLinksKnown programEvents program events node :=
  fun name hname => (h name hname).known hlinks

/-- The links of the types that are roots are root links. -/
theorem mem_rootLinks {name : Name} :
    name ∈ rootLinks program ↔ (∃ ty ∈ program.definedTypes, name ∈ collectLinks ty.type) ∨
      (∃ account ∈ program.accounts, ∃ field ∈ account.data.getNestedTypeNode,
        name ∈ collectLinks field.type) ∨
      ∃ ix ∈ program.instructions, ∃ argument ∈ ix.arguments,
        name ∈ collectLinks argument.type := by
  rw [rootLinks, mem_collectItemLinks]
  simp only [List.mem_append, List.mem_map, List.mem_flatMap, or_and_right, exists_or, or_assoc,
    exists_exists_and_eq_and]
  refine or_congr Iff.rfl (or_congr ?_ ?_)
  all_goals
    constructor
    · rintro ⟨_, ⟨owner, howner, field, hfield, rfl⟩, hname⟩
      exact ⟨owner, howner, field, hfield, hname⟩
    · rintro ⟨owner, howner, field, hfield, hname⟩
      exact ⟨_, ⟨owner, howner, field, hfield, rfl⟩, hname⟩

theorem definedType_linksKnown (hlinks : LinksResolve program events) :
    ∀ ty ∈ allDefinedTypes programEvents program events,
      SchemaLinksKnown programEvents program events ty.type := by
  intro ty hty
  refine linksKnown_of_reached hlinks fun name hname => ?_
  obtain hty | hty := List.mem_append.mp hty
  · exact .root (mem_rootLinks.mpr (.inl ⟨ty, hty, hname⟩))
  · obtain ⟨event, hevent, payload, hstruct, rfl, hreached, hundefined⟩ :=
      mem_linkedEventPayloads.mp hty
    obtain ⟨field, hfield, hname⟩ := mem_collectFieldLinks.mp hname
    exact .linked hevent hreached hundefined (eventStruct_links hstruct hfield hname)

/-- What is promised is there in the end. -/
theorem promised_present {programName : Name} {ir : SchemaIr} {u : Unit}
    (h : buildSchemaIr programEvents program events programName .default = .ok (u, ir))
    {name : Name} (hname : Promised programEvents program events name) :
    ∃ t ∈ ir.types, t.name = name := by
  obtain hconcrete | haccount := hname
  · obtain ⟨⟨⟩, reserved, -, h₁⟩ := bind_ok.mp h
    obtain ⟨⟨⟩, defined, hdefined, h₂⟩ := bind_ok.mp h₁
    obtain ⟨⟨⟩, withAccounts, haccounts, h₃⟩ := bind_ok.mp h₂
    obtain ⟨⟨⟩, withInstructions, hinstructions, hevents⟩ := bind_ok.mp h₃
    obtain ⟨t, ht, hname⟩ := buildDefinedTypes_present hdefined hconcrete
    obtain ⟨ixMiddle, hix, rfl⟩ := buildInstructionsSchema_run hinstructions
    obtain ⟨evMiddle, hev, rfl⟩ := events_run hevents
    exact ⟨t, hev.types.mem (hix.types.mem ((buildAccounts_run haccounts).1.mem ht)), hname⟩
  · have hnames := (buildSchemaIr_run h).accounts
    rw [← hnames] at haccount
    obtain ⟨t, ht, -, hname⟩ := mem_namesOf.mp haccount
    exact ⟨t, ht, hname⟩

/-- While the whole schema is built, every reference is known. -/
theorem buildSchemaIr_sound (hlinks : LinksResolve program events) {programName : Name}
    {ir : SchemaIr} {u : Unit}
    (h : buildSchemaIr programEvents program events programName .default = .ok (u, ir)) :
    Sound (Promised programEvents program events)
      (registeredAliases (allDefinedTypes programEvents program events)) ir := by
  obtain ⟨⟨⟩, reserved, hreserve, h₁⟩ := bind_ok.mp h
  obtain ⟨⟨⟩, defined, hdefined, hrest⟩ := bind_ok.mp h₁
  obtain rfl := modify_ok.mp hreserve
  have htypes : ∀ ty ∈ allDefinedTypes programEvents program events,
      SchemaLinksKnown programEvents program events ty.type := definedType_linksKnown hlinks
  have hsound := buildDefinedTypes_sound htypes rfl rfl rfl hdefined
  have hentries := registeredAliases_links htypes
  have haccounts : KeepsReferences programEvents program events
      (buildAccounts program.accounts) := by
    refine fun known => Refers.forM fun account haccount known =>
      buildAccount_refers hentries (fun field hfield => ?_) known
    exact linksKnown_of_reached hlinks fun name hname =>
      .root (mem_rootLinks.mpr (.inr (.inl ⟨account, haccount, field, hfield, hname⟩)))
  have hinstructions : KeepsReferences programEvents program events
      (buildInstructionsSchema program.instructions) := by
    refine fun known => (Refers.forM fun ix hix known =>
      buildInstructionMessages_refers hentries (fun argument hargument => ?_) known).bind
        fun _ => ?_
    · exact linksKnown_of_reached hlinks fun name hname =>
        .root (mem_rootLinks.mpr (.inr (.inr ⟨ix, hix, argument, hargument, hname⟩)))
    · rw [buildInstructionDispatchOneof]
      split
      · exact .pure _ (by simp)
      · exact .pushOneof _
  have hevents : KeepsReferences programEvents program events
      (if hasEvents programEvents events then buildEventsSchema events else pure ()) := by
    intro known
    split
    · next hemitted =>
        rw [hasEvents, Bool.and_eq_true] at hemitted
        exact (Refers.forM fun ev hev known => buildEventMessages_refers hentries
          (linksKnown_of_reached hlinks fun name hname => .emitted hemitted.1 hev hname)
          known).bind fun _ => .pushOneof _
    · exact .pure _ (by simp)
  have hall : KeepsReferences programEvents program events (do
      buildAccounts program.accounts
      buildInstructionsSchema program.instructions
      if hasEvents programEvents events then buildEventsSchema events else pure ()) :=
    fun known => (haccounts known).bind fun _ => (hinstructions _).bind fun _ => hevents _
  exact (hall [] hrest hsound (by simp)).sound

end

/-- What becomes of the links of a program. -/
structure ReferencesResolved (programEvents : Bool) (program : ProgramNode)
    (events : List EventNode) (programName : Name) : Prop where
  /-- The loop over the events ends. -/
  scan : Scans (mayScan programEvents program) events [] (rootLinks program)
    (finalLinks programEvents program events)
  payloads : ∀ definedType, definedType ∈ linkedEventPayloads programEvents program events ↔
    ∃ event ∈ events, ∃ payload, eventStruct event.data = some payload ∧
      definedType = ⟨event.name, .struct payload⟩ ∧
      Reached programEvents program events (toPascalCase event.name) ∧
      toPascalCase event.name ∉ definedNames program
  references : ∀ ir,
    buildSchemaIr programEvents program events programName .default = .ok ((), ir) →
    ∀ t ∈ ir.types, ∀ field ∈ t.fields, ∀ name, field.fieldType = .message name →
      ∃ target ∈ ir.types, target.name = name

/-- The payloads that are added are those that are reached, and no reference is left without a
message. -/
theorem schema_references_resolved (programEvents : Bool) (program : ProgramNode)
    (events : List EventNode) (programName : Name) (hlinks : LinksResolve program events) :
    ReferencesResolved programEvents program events programName where
  scan := finalLinks_scans
  payloads := fun _ => mem_linkedEventPayloads
  references := by
    intro ir hbuild t ht field hfield name hname
    have hknown := (buildSchemaIr_sound hlinks hbuild).fields t ht field hfield
    rw [hname] at hknown
    obtain hpromised | hpresent := hknown
    · exact promised_present hbuild hpromised
    · exact hpresent

/-- An argument that links to an event, the payload of which links to another one. -/
def linkedProgram : ProgramNode where
  publicKey := []
  accounts := []
  instructions := [⟨['c'], [], [⟨['x'], none, .link ['a'], none⟩], []⟩]
  definedTypes := []
  events := []
  constants := []

def linkedEvents : List EventNode :=
  [⟨['b'], .struct [], []⟩, ⟨['a'], .struct [⟨['x'], none, .link ['b'], none⟩], []⟩]

/-- Both payloads are added, the second one after another round. -/
example : (linkedEventPayloads false linkedProgram linkedEvents).map (·.name) = [['b'], ['a']] :=
  rfl

theorem schema_references_resolved_linked :
    ReferencesResolved false linkedProgram linkedEvents ['p'] :=
  schema_references_resolved false linkedProgram linkedEvents ['p'] (by
    unfold LinksResolve
    decide)

end Shipstern.Codegen
