import Shipstern.Codegen.ProtoSchema
import Shipstern.Codegen.SchemaGrowth

/-!
# The schema of a program

What `build_schema_ir` leaves behind: which types there are, that helpers took no reserved name,
that every instruction and event has its messages, and which unions there are.
-/

namespace Shipstern.Codegen

open Codama Stateful

/-! ## Types that are added -/

/-- The fields of every type have the numbers from one on. -/
def Numbered (ir : SchemaIr) : Prop := ∀ t ∈ ir.types, NumberedFrom 1 t.fields

/-- Helpers under free names are added, and types of a kind. -/
structure Adds (P : TypeIr → Prop) (before after : SchemaIr) : Prop where
  types : ∃ added, after.types = before.types ++ added ∧
    ∀ t ∈ added, NumberedFrom 1 t.fields ∧
      (P t ∨ (t.kind = .helper ∧ t.name ∉ before.reservedTypeNames))
  reserved : after.reservedTypeNames = before.reservedTypeNames

theorem AddsHelpers.adds {P : TypeIr → Prop} {before after : SchemaIr}
    (h : AddsHelpers before after) : Adds P before after := by
  obtain ⟨⟨added, htypes, hadded⟩, -, hreserved⟩ := h
  refine ⟨⟨added, htypes, fun t ht => ?_⟩, hreserved⟩
  obtain ⟨hkind, hnumbered, hfree⟩ := hadded t ht
  exact ⟨hnumbered, .inr ⟨hkind, hfree⟩⟩

namespace Adds

variable {P : TypeIr → Prop} {before after : SchemaIr}

theorem refl (ir : SchemaIr) : Adds P ir ir := ⟨⟨[], by simp, by simp⟩, rfl⟩

theorem trans {middle : SchemaIr} (h : Adds P before middle) (hnext : Adds P middle after) :
    Adds P before after := by
  obtain ⟨⟨first, htypes, hfirst⟩, hreserved⟩ := h
  obtain ⟨⟨second, htypes', hsecond⟩, hreserved'⟩ := hnext
  refine ⟨⟨first ++ second, by rw [htypes', htypes, List.append_assoc], ?_⟩,
    hreserved'.trans hreserved⟩
  intro t ht
  rcases List.mem_append.mp ht with ht | ht
  · exact hfirst t ht
  · exact hreserved ▸ hsecond t ht

theorem mono {Q : TypeIr → Prop} (hPQ : ∀ t, P t → Q t) (h : Adds P before after) :
    Adds Q before after := by
  obtain ⟨⟨added, htypes, hadded⟩, hreserved⟩ := h
  exact ⟨⟨added, htypes, fun t ht => (hadded t ht).imp_right (Or.imp_left (hPQ t))⟩, hreserved⟩

theorem mem (h : Adds P before after) {t : TypeIr} (ht : t ∈ before.types) : t ∈ after.types := by
  obtain ⟨added, htypes, -⟩ := h.types
  exact htypes ▸ List.mem_append_left added ht

theorem cases_mem (h : Adds P before after) {t : TypeIr} (ht : t ∈ after.types) :
    t ∈ before.types ∨ P t ∨ (t.kind = .helper ∧ t.name ∉ before.reservedTypeNames) := by
  obtain ⟨added, htypes, hadded⟩ := h.types
  rcases List.mem_append.mp (htypes ▸ ht) with ht | ht
  · exact .inl ht
  · exact .inr (hadded t ht).2

theorem numbered (h : Adds P before after) (hbefore : Numbered before) : Numbered after := by
  obtain ⟨added, htypes, hadded⟩ := h.types
  intro t ht
  rcases List.mem_append.mp (htypes ▸ ht) with ht | ht
  · exact hbefore t ht
  · exact (hadded t ht).1

end Adds

theorem pushType_run {t : TypeIr} {ir ir' : SchemaIr} {u : Unit}
    (h : pushType t ir = .ok (u, ir')) : ir' = ir.push t := (modify_ok.mp h).symm

theorem pushOneof_run {oneof : OneofIr} {ir ir' : SchemaIr} {u : Unit}
    (h : pushOneof oneof ir = .ok (u, ir')) : ir' = ir.withOneof oneof := (modify_ok.mp h).symm

theorem adds_push {P : TypeIr → Prop} {t : TypeIr} (ht : P t) (hnumbered : NumberedFrom 1 t.fields)
    (ir : SchemaIr) : Adds P ir (ir.push t) := by
  refine ⟨⟨[t], rfl, fun s hs => ?_⟩, rfl⟩
  obtain rfl := List.mem_singleton.mp hs
  exact ⟨hnumbered, .inl ht⟩

theorem mem_push (t : TypeIr) (ir : SchemaIr) : t ∈ (ir.push t).types :=
  List.mem_append_right _ List.mem_cons_self

/-- The names of a kind of type, when helpers or one type are added. -/
theorem AddsHelpers.namesOf {before after : SchemaIr} (h : AddsHelpers before after)
    {kind : TypeKindIr → Bool} (hhelper : kind .helper = false) :
    after.namesOf kind = before.namesOf kind := by
  obtain ⟨⟨added, htypes, hadded⟩, -, -⟩ := h
  have hnone : added.filter (kind ·.kind) = [] := by
    rw [List.filter_eq_nil_iff]
    intro t ht
    rw [(hadded t ht).kind, hhelper]
    exact Bool.false_ne_true
  rw [SchemaIr.namesOf, htypes, List.filter_append, hnone, List.append_nil]
  rfl

theorem namesOf_push (t : TypeIr) (ir : SchemaIr) (kind : TypeKindIr → Bool) :
    (ir.push t).namesOf kind = ir.namesOf kind ++ if kind t.kind then [t.name] else [] := by
  rw [SchemaIr.namesOf, SchemaIr.push, List.filter_append, List.map_append, SchemaIr.namesOf]
  cases h : kind t.kind <;> simp [h]

theorem mem_namesOf {ir : SchemaIr} {kind : TypeKindIr → Bool} {name : Name} :
    name ∈ ir.namesOf kind ↔ ∃ t ∈ ir.types, kind t.kind = true ∧ t.name = name := by
  simp [SchemaIr.namesOf, and_assoc]

/-! ## Defined types -/

/-- The union of an enum: its variants are helpers. -/
structure IsEnum (names : List Name) (ir : SchemaIr) (oneof : OneofIr) : Prop where
  kind : ∃ number, oneof.kind = .enum number
  parent : oneof.parentMessage ∈ names
  variants : ∀ v ∈ oneof.variants, ∃ t ∈ ir.types, t.kind = .helper ∧ t.name = v.messageType

theorem IsEnum.mono {names : List Name} {before after : SchemaIr} {oneof : OneofIr}
    (h : IsEnum names before oneof) (hmem : ∀ t ∈ before.types, t ∈ after.types) :
    IsEnum names after oneof := by
  refine ⟨h.kind, h.parent, fun v hv => ?_⟩
  obtain ⟨t, ht, hname⟩ := h.variants v hv
  exact ⟨t, hmem t ht, hname⟩

theorem buildEnumVariantPayload_grows (payloadName : Name) (payload : VariantPayload TypeNode) :
    Grows (buildEnumVariantPayload payloadName payload) := by
  cases payload with
  | empty => exact .pure _
  | struct fields => exact buildFieldsIr_grows _ _
  | tuple items => exact buildItems_grows _ _
  | wrapped types => exact .throw _

theorem buildEnumVariantPayload_yields (payloadName : Name) (payload : VariantPayload TypeNode) :
    Yields (NumberedFrom 1) (buildEnumVariantPayload payloadName payload) := by
  cases payload with
  | empty =>
      intro ir result ir' h
      obtain ⟨rfl, -⟩ := pure_ok.mp h
      rfl
  | struct fields => exact buildFieldsIr_yields _ _
  | tuple items => exact buildItems_yields _ _
  | wrapped types => exact fun _ _ _ h => (throw_ok.mp h).elim

theorem buildEnumVariants_run {enumName : Name} {i : Nat} {variants : List EnumVariantTypeNode}
    {ir ir' : SchemaIr} {result : List OneofVariantIr}
    (h : buildEnumVariants enumName i variants ir = .ok (result, ir')) :
    AddsHelpers ir ir' ∧
      ∀ v ∈ result, ∃ t ∈ ir'.types, t.kind = .helper ∧ t.name = v.messageType := by
  induction variants generalizing i ir result with
  | nil =>
      obtain ⟨rfl, rfl⟩ := pure_ok.mp h
      exact ⟨.refl ir, fun v hv => by contradiction⟩
  | cons variant variants ih =>
      obtain ⟨name, discriminator, payload⟩ := variant
      rw [buildEnumVariants] at h
      by_cases hexplicit : discriminator.any (· ≠ i) = true
      · rw [if_pos hexplicit] at h
        obtain ⟨_, _, hthrow, -⟩ := bind_ok.mp h
        exact (throw_ok.mp hthrow).elim
      · rw [if_neg hexplicit] at h
        obtain ⟨fields, grown, hfields, h⟩ := bind_ok.mp h
        obtain ⟨messageType, pushed, hpush, h⟩ := bind_ok.mp h
        obtain ⟨rest, _, hrest, hpure⟩ := bind_ok.mp h
        obtain ⟨rfl, rfl⟩ := pure_ok.mp hpure
        have hgrown := buildEnumVariantPayload_grows _ _ hfields
        have hnumbered := buildEnumVariantPayload_yields _ _ hfields
        obtain ⟨hpushed, t, ht, hkind, hname⟩ := pushUniqueType_run rfl hnumbered hpush
        obtain ⟨hadds, hvariants⟩ := ih hrest
        refine ⟨(hgrown.trans hpushed).trans hadds, fun v hv => ?_⟩
        rcases List.mem_cons.mp hv with rfl | hv
        · exact ⟨t, hadds.mem ht, hkind, hname⟩
        · exact hvariants v hv

/-- A defined type of its own message, or a union with its message, or nothing. -/
structure DefinedTypeAdded (names : List Name) (before after : SchemaIr) : Prop where
  types : Adds (·.kind = .definedType) before after
  accounts : after.accountNames = before.accountNames
  oneofs : ∃ enums, after.oneofs = before.oneofs ++ enums ∧ ∀ oneof ∈ enums, IsEnum names after oneof

namespace DefinedTypeAdded

variable {names : List Name} {before after : SchemaIr}

theorem refl (ir : SchemaIr) : DefinedTypeAdded names ir ir :=
  ⟨.refl ir, rfl, [], by simp, by simp⟩

theorem trans {middle : SchemaIr} (h : DefinedTypeAdded names before middle)
    (hnext : DefinedTypeAdded names middle after) : DefinedTypeAdded names before after := by
  obtain ⟨first, honeofs, hfirst⟩ := h.oneofs
  obtain ⟨second, honeofs', hsecond⟩ := hnext.oneofs
  refine ⟨h.types.trans hnext.types, hnext.accounts.trans h.accounts, first ++ second, ?_, ?_⟩
  · rw [honeofs', honeofs, List.append_assoc]
  · intro oneof hmem
    rcases List.mem_append.mp hmem with hmem | hmem
    · exact (hfirst oneof hmem).mono fun t ht => hnext.types.mem ht
    · exact hsecond oneof hmem

/-- The message of a defined type, behind the helpers of its fields. -/
theorem of_push {middle : SchemaIr} {t : TypeIr} (h : AddsHelpers before middle)
    (ht : t.kind = .definedType) (hnumbered : NumberedFrom 1 t.fields) :
    DefinedTypeAdded names before (middle.push t) := by
  refine ⟨h.adds.trans (adds_push ht hnumbered middle), ?_, [], ?_, fun _ hmem => by contradiction⟩
  · rw [SchemaIr.accountNames, namesOf_push, h.namesOf rfl, ht]
    exact List.append_nil _
  · rw [List.append_nil]
    exact h.oneofs

end DefinedTypeAdded

theorem buildDefinedTypeEnum_run {names : List Name} {enumName : Name}
    {variants : List EnumVariantTypeNode} {size : NestedTypeNode NumberTypeNode} {ir ir' : SchemaIr}
    {u : Unit} (hname : enumName ∈ names)
    (h : buildDefinedTypeEnum enumName variants size ir = .ok (u, ir')) :
    DefinedTypeAdded names ir ir' := by
  obtain ⟨built, grown, hvariants, h⟩ := bind_ok.mp h
  obtain ⟨⟨⟩, pushed, hpush, h⟩ := bind_ok.mp h
  obtain ⟨hadds, hmessages⟩ := buildEnumVariants_run hvariants
  obtain rfl := pushType_run hpush
  cases size with
  | wrapped wrapper inner => exact (throw_ok.mp h).elim
  | value number =>
      obtain rfl := pushOneof_run h
      have hadded : DefinedTypeAdded names ir (grown.push ⟨enumName, [], .definedType⟩) :=
        .of_push hadds rfl rfl
      refine ⟨⟨hadded.types.types, hadded.types.reserved⟩, hadded.accounts,
        [⟨enumName, "kind".toList, built, .enum number⟩], ?_, ?_⟩
      · rw [← hadds.oneofs]
        rfl
      · intro oneof hmem
        obtain rfl := List.mem_singleton.mp hmem
        refine ⟨⟨number, rfl⟩, hname, fun v hv => ?_⟩
        obtain ⟨t, ht, hhelper⟩ := hmessages v hv
        exact ⟨t, List.mem_append_left _ ht, hhelper⟩

theorem buildDefinedType_run {names : List Name} {definedType : DefinedTypeNode}
    {ir ir' : SchemaIr} {u : Unit}
    (hname : isConcrete definedType.type = true → toPascalCase definedType.name ∈ names)
    (h : buildDefinedType definedType ir = .ok (u, ir')) : DefinedTypeAdded names ir ir' := by
  obtain ⟨name, node⟩ := definedType
  have hdone (hpure : (pure () : Build Unit) ir = .ok (u, ir')) : DefinedTypeAdded names ir ir' := by
    obtain ⟨-, rfl⟩ := pure_ok.mp hpure
    exact .refl ir
  cases node with
  | struct fields =>
      obtain ⟨fields, grown, hfields, hpush⟩ := bind_ok.mp h
      obtain rfl := pushType_run hpush
      exact .of_push (buildFieldsIr_grows _ _ hfields) rfl (buildFieldsIr_yields _ _ hfields)
  | enum variants size => exact buildDefinedTypeEnum_run (hname rfl) h
  | tuple items =>
      have htuple (hrun : buildDefinedTypeTuple (toPascalCase name) items ir = .ok (u, ir')) :
          DefinedTypeAdded names ir ir' := by
        obtain ⟨fields, grown, hfields, hpush⟩ := bind_ok.mp hrun
        obtain rfl := pushType_run hpush
        exact .of_push (buildItems_grows _ _ hfields) rfl (buildItems_yields _ _ hfields)
      match items, htuple, h with
      | [], htuple, h => exact htuple h
      | [_], _, h => exact hdone h
      | _ :: _ :: _, htuple, h => exact htuple h
  | _ => exact hdone h

/-- The tables that the loops over the defined types fill are others. -/
theorem foldl_register {f : SchemaIr → DefinedTypeNode → SchemaIr}
    (hf : ∀ ir definedType, (f ir definedType).types = ir.types ∧
      (f ir definedType).oneofs = ir.oneofs ∧
      (f ir definedType).reservedTypeNames = ir.reservedTypeNames)
    (definedTypes : List DefinedTypeNode) (ir : SchemaIr) :
    (definedTypes.foldl f ir).types = ir.types ∧ (definedTypes.foldl f ir).oneofs = ir.oneofs ∧
      (definedTypes.foldl f ir).reservedTypeNames = ir.reservedTypeNames := by
  induction definedTypes generalizing ir with
  | nil => exact ⟨rfl, rfl, rfl⟩
  | cons definedType definedTypes ih =>
      obtain ⟨htypes, honeofs, hreserved⟩ := ih (f ir definedType)
      obtain ⟨htypes', honeofs', hreserved'⟩ := hf ir definedType
      exact ⟨htypes.trans htypes', honeofs.trans honeofs', hreserved.trans hreserved'⟩

theorem registerAlias_untouched (ir : SchemaIr) (definedType : DefinedTypeNode) :
    (registerAlias ir definedType).types = ir.types ∧
      (registerAlias ir definedType).oneofs = ir.oneofs ∧
      (registerAlias ir definedType).reservedTypeNames = ir.reservedTypeNames := by
  rw [registerAlias]
  split <;> exact ⟨rfl, rfl, rfl⟩

theorem discard_grows {α : Type} {x : Build α} (h : Grows x) : Grows (discard x) := by
  intro ir u ir' hrun
  obtain ⟨a, hx, -⟩ := map_ok.mp hrun
  exact h hx

/-- The names of the defined types are reserved before any helper is made. -/
theorem buildDefinedTypes_run {definedTypes : List DefinedTypeNode} {ir ir' : SchemaIr} {u : Unit}
    (h : buildDefinedTypes definedTypes ir = .ok (u, ir')) :
    DefinedTypeAdded (concreteNames definedTypes)
      (ir.reserveTypeNames (concreteNames definedTypes)) ir' := by
  obtain ⟨⟨⟩, registered, hregister, h₁⟩ := bind_ok.mp h
  obtain ⟨⟨⟩, reserved, hreserve, h₂⟩ := bind_ok.mp h₁
  obtain ⟨⟨⟩, aliased, halias, h₃⟩ := bind_ok.mp h₂
  obtain ⟨⟨⟩, materialized, hmaterialize, hbuild⟩ := bind_ok.mp h₃
  obtain rfl := modify_ok.mp hregister
  obtain rfl := modify_ok.mp hreserve
  obtain rfl := modify_ok.mp halias
  obtain ⟨htypes, honeofs, hreserved⟩ :=
    foldl_register (f := registerDefined) (fun _ _ => ⟨rfl, rfl, rfl⟩) definedTypes ir
  obtain ⟨htypes', honeofs', hreserved'⟩ := foldl_register registerAlias_untouched definedTypes
    ((definedTypes.foldl registerDefined ir).reserveTypeNames (concreteNames definedTypes))
  have haliased : AddsHelpers (ir.reserveTypeNames (concreteNames definedTypes)) _ :=
    .of_eq (htypes'.trans htypes) (honeofs'.trans honeofs)
      (hreserved'.trans (congrArg (· ++ concreteNames definedTypes) hreserved))
  have hmaterialized : AddsHelpers (ir.reserveTypeNames (concreteNames definedTypes))
      materialized := by
    refine forM_induction (P := fun _ mid => AddsHelpers
      (ir.reserveTypeNames (concreteNames definedTypes)) mid) haliased ?_ hmaterialize
    intro done name before after _ hbefore hrun
    exact hbefore.trans (discard_grows (aliasField_grows name) hrun)
  have hstart : DefinedTypeAdded (concreteNames definedTypes)
      (ir.reserveTypeNames (concreteNames definedTypes)) materialized :=
    ⟨hmaterialized.adds, hmaterialized.namesOf rfl, [], by simp [hmaterialized.oneofs], by simp⟩
  refine forM_induction (P := fun _ mid => DefinedTypeAdded (concreteNames definedTypes)
    (ir.reserveTypeNames (concreteNames definedTypes)) mid) hstart ?_ hbuild
  intro done definedType before after hmem hbefore hrun
  refine hbefore.trans (buildDefinedType_run (fun hconcrete => ?_) hrun)
  exact List.mem_map_of_mem (List.mem_filter.mpr ⟨hmem, hconcrete⟩)

/-! ## Accounts -/

theorem buildAccounts_run {accounts : List AccountNode} {ir ir' : SchemaIr} {u : Unit}
    (h : buildAccounts accounts ir = .ok (u, ir')) :
    Adds (·.kind = .account) ir ir' ∧ ir'.oneofs = ir.oneofs ∧
      ir'.accountNames = ir.accountNames ++ accounts.map (toPascalCase ·.name) := by
  refine forM_induction (P := fun done mid => Adds (·.kind = .account) ir mid ∧
    mid.oneofs = ir.oneofs ∧
    mid.accountNames = ir.accountNames ++ done.map (toPascalCase ·.name))
    ⟨.refl ir, rfl, (List.append_nil _).symm⟩ ?_ h
  rintro done account before after - ⟨hadds, honeofs, hnames⟩ hrun
  obtain ⟨struct, _, hlift, hrun⟩ := bind_ok.mp hrun
  obtain ⟨-, rfl⟩ := lift_ok.mp hlift
  obtain ⟨fields, grown, hfields, hpush⟩ := bind_ok.mp hrun
  obtain rfl := pushType_run hpush
  have hgrown := buildFieldsIr_grows _ _ hfields
  have hpushed : Adds (·.kind = .account) grown
      (grown.push ⟨toPascalCase account.name, fields, .account⟩) :=
    adds_push (P := (·.kind = .account)) rfl (buildFieldsIr_yields _ _ hfields) grown
  refine ⟨(hadds.trans hgrown.adds).trans hpushed, hgrown.oneofs.trans honeofs, ?_⟩
  rw [SchemaIr.accountNames, namesOf_push, hgrown.namesOf rfl]
  rw [SchemaIr.accountNames] at hnames
  rw [hnames, List.map_append, List.append_assoc]
  rfl

/-! ## Instructions and events -/

/-- A message of an instruction or event of the name. -/
def IsMessageOf (kind : TypeKindIr) (name : Name) (t : TypeIr) : Prop :=
  t.kind = kind ∧
    (t.name = accountsName name ∨ t.name = argsName name ∨ t = ⟨name, payloadFields name, kind⟩)

/-- The messages of an instruction or event of the name. A defined type may stand for the
arguments. -/
structure HasMessages (kind : TypeKindIr) (name : Name) (ir : SchemaIr) : Prop where
  accounts : accountsName name ∈ ir.namesOf (· = kind)
  args : argsName name ∈ ir.namesOf (· = kind) ∨ argsName name ∈ ir.namesOf (· = .definedType)
  payload : ⟨name, payloadFields name, kind⟩ ∈ ir.types

theorem HasMessages.mono {kind : TypeKindIr} {name : Name} {before after : SchemaIr}
    (h : HasMessages kind name before) (hmem : ∀ t ∈ before.types, t ∈ after.types) :
    HasMessages kind name after := by
  have hnames : ∀ {other : TypeKindIr → Bool} {n : Name}, n ∈ before.namesOf other →
      n ∈ after.namesOf other := by
    intro other n hn
    obtain ⟨t, ht, hkind⟩ := mem_namesOf.mp hn
    exact mem_namesOf.mpr ⟨t, hmem t ht, hkind⟩
  exact ⟨hnames h.accounts, h.args.imp hnames hnames, hmem _ h.payload⟩

/-- The messages of the names are added, and nothing else but helpers. -/
structure MessagesAdded (kind : TypeKindIr) (names : List Name) (before after : SchemaIr) :
    Prop where
  types : Adds (fun t => ∃ name ∈ names, IsMessageOf kind name t) before after
  oneofs : after.oneofs = before.oneofs
  accounts : after.accountNames = before.accountNames
  messages : ∀ name ∈ names, HasMessages kind name after

theorem MessagesAdded.nil (kind : TypeKindIr) (ir : SchemaIr) : MessagesAdded kind [] ir ir :=
  ⟨.refl ir, rfl, rfl, by simp⟩

theorem MessagesAdded.concat {kind : TypeKindIr} {names : List Name} {name : Name}
    {before middle after : SchemaIr} (h : MessagesAdded kind names before middle)
    (hnext : MessagesAdded kind [name] middle after) :
    MessagesAdded kind (names ++ [name]) before after := by
  have htypes := h.types.mono fun t ⟨n, hn, ht⟩ => (⟨n, List.mem_append_left [name] hn, ht⟩ :
    ∃ n ∈ names ++ [name], IsMessageOf kind n t)
  have htypes' := hnext.types.mono fun t ⟨n, hn, ht⟩ => (⟨n, List.mem_append_right names hn, ht⟩ :
    ∃ n ∈ names ++ [name], IsMessageOf kind n t)
  refine ⟨htypes.trans htypes', hnext.oneofs.trans h.oneofs, hnext.accounts.trans h.accounts, ?_⟩
  intro n hn
  rcases List.mem_append.mp hn with hn | hn
  · exact (h.messages n hn).mono fun t ht => hnext.types.mem ht
  · exact hnext.messages n hn

/-- Accounts, the helpers of the arguments, the arguments, and the message around both. -/
theorem messagesAdded_of {kind : TypeKindIr} (hkind : kind.isAccount = false) {name : Name}
    {fields : List FieldIr} (hfields : NumberedFrom 1 fields) {ir grown middle : SchemaIr}
    (hgrown : AddsHelpers (ir.push ⟨accountsName name, fields, kind⟩) grown)
    (hmiddle : (middle = grown ∧ argsName name ∈ grown.namesOf (· = .definedType)) ∨
      ∃ args, NumberedFrom 1 args ∧ middle = grown.push ⟨argsName name, args, kind⟩) :
    MessagesAdded kind [name] ir (middle.push ⟨name, payloadFields name, kind⟩) := by
  let P : TypeIr → Prop := fun t => ∃ n ∈ [name], IsMessageOf kind n t
  have haccounts : Adds P ir (ir.push ⟨accountsName name, fields, kind⟩) :=
    adds_push (P := P) ⟨name, by simp, rfl, .inl rfl⟩ hfields ir
  have hpayload : Adds P middle (middle.push ⟨name, payloadFields name, kind⟩) :=
    adds_push (P := P) ⟨name, by simp, rfl, .inr (.inr rfl)⟩ rfl middle
  have hargs : Adds P grown middle ∧ middle.oneofs = grown.oneofs ∧
      middle.accountNames = grown.accountNames ∧
      (argsName name ∈ middle.namesOf (· = kind) ∨
        argsName name ∈ middle.namesOf (· = .definedType)) := by
    rcases hmiddle with ⟨rfl, hdefined⟩ | ⟨args, hargs, rfl⟩
    · exact ⟨.refl _, rfl, rfl, .inr hdefined⟩
    · refine ⟨adds_push (P := P) ⟨name, by simp, rfl, .inr (.inl rfl)⟩ hargs grown, rfl, ?_,
        .inl ?_⟩
      · rw [SchemaIr.accountNames, namesOf_push, hkind]
        exact List.append_nil _
      · exact mem_namesOf.mpr ⟨_, mem_push _ grown, by simp, rfl⟩
  obtain ⟨hadds, honeofs, hnames, hfound⟩ := hargs
  refine ⟨((haccounts.trans hgrown.adds).trans hadds).trans hpayload,
    honeofs.trans hgrown.oneofs, ?_, ?_⟩
  · have hsame : grown.accountNames = ir.accountNames := by
      rw [SchemaIr.accountNames, hgrown.namesOf rfl, namesOf_push, hkind]
      exact List.append_nil _
    rw [SchemaIr.accountNames, namesOf_push, hkind]
    exact (List.append_nil _).trans (hnames.trans hsame)
  · intro n hn
    obtain rfl := List.mem_singleton.mp hn
    refine ⟨?_, ?_, mem_push _ middle⟩
    · have hmem := hadds.mem (hgrown.mem (mem_push ⟨accountsName n, fields, kind⟩ ir))
      exact mem_namesOf.mpr ⟨_, hpayload.mem hmem, by simp, rfl⟩
    · have hmore : ∀ {other : TypeKindIr → Bool} {m : Name}, m ∈ middle.namesOf other →
          m ∈ (middle.push ⟨n, payloadFields n, kind⟩).namesOf other := by
        intro other m hm
        rw [namesOf_push]
        exact List.mem_append_left _ hm
      exact hfound.imp hmore hmore

theorem accountFields_numbered (accounts : List InstructionAccountNode) :
    NumberedFrom 1 (accountFields accounts) := by
  have hdeclared : NumberedFrom 1 (accounts.mapIdx accountField) := by
    rw [NumberedFrom]
    refine List.ext_getElem (by simp) fun i _ _ => ?_
    simp [accountField, Nat.add_comm]
  rw [accountFields]
  split
  · exact hdeclared
  · rw [NumberedFrom, List.map_append, hdeclared, List.length_append, List.length_singleton,
      List.range'_concat, Nat.one_mul, Nat.add_comm]
    rfl

theorem buildInstructionMessages_run {ix : InstructionNode} {ir ir' : SchemaIr} {u : Unit}
    (h : buildInstructionMessages ix ir = .ok (u, ir')) :
    MessagesAdded .instruction [toPascalCase ix.name] ir ir' := by
  obtain ⟨⟨⟩, withAccounts, haccounts, h₁⟩ := bind_ok.mp h
  obtain ⟨argFields, grown, hfields, h₂⟩ := bind_ok.mp h₁
  obtain ⟨_, _, hget, h₃⟩ := bind_ok.mp h₂
  obtain ⟨rfl, rfl⟩ := get_ok.mp hget
  obtain rfl := pushType_run haccounts
  have hgrown := buildFieldsIr_grows _ _ hfields
  by_cases hcollides : collidesWithDefinedType grown (argsName (toPascalCase ix.name)) = true
  · rw [if_pos hcollides] at h₃
    obtain rfl := pushType_run h₃
    have hdefined : argsName (toPascalCase ix.name) ∈ grown.namesOf (· = .definedType) := by
      rw [mem_namesOf]
      simpa [collidesWithDefinedType, and_comm] using hcollides
    exact messagesAdded_of rfl (accountFields_numbered _) hgrown (.inl ⟨rfl, hdefined⟩)
  · rw [if_neg hcollides] at h₃
    obtain ⟨⟨⟩, middle, hargs, hpush⟩ := bind_ok.mp h₃
    obtain rfl := pushType_run hargs
    obtain rfl := pushType_run hpush
    exact messagesAdded_of rfl (accountFields_numbered _) hgrown
      (.inr ⟨argFields, buildFieldsIr_yields _ _ hfields, rfl⟩)

theorem buildEventMessages_run {ev : EventNode} {ir ir' : SchemaIr} {u : Unit}
    (h : buildEventMessages ev ir = .ok (u, ir')) :
    MessagesAdded .event [toPascalCase ev.name] ir ir' := by
  obtain ⟨⟨⟩, withAccounts, haccounts, h₁⟩ := bind_ok.mp h
  obtain ⟨struct, _, hlift, h₂⟩ := bind_ok.mp h₁
  obtain ⟨-, rfl⟩ := lift_ok.mp hlift
  obtain ⟨argFields, grown, hfields, h₃⟩ := bind_ok.mp h₂
  obtain ⟨⟨⟩, middle, hargs, hpush⟩ := bind_ok.mp h₃
  obtain rfl := pushType_run haccounts
  obtain rfl := pushType_run hargs
  obtain rfl := pushType_run hpush
  have haccounts : NumberedFrom 1 [remainingAccounts 1] := rfl
  exact messagesAdded_of rfl haccounts (buildFieldsIr_grows _ _ hfields)
    (.inr ⟨argFields, buildFieldsIr_yields _ _ hfields, rfl⟩)

theorem messages_run {ι : Type} {kind : TypeKindIr} (name : ι → Name) {build : ι → Build Unit}
    (hbuild : ∀ i ir ir' u, build i ir = .ok (u, ir') → MessagesAdded kind [name i] ir ir')
    {items : List ι} {ir ir' : SchemaIr} {u : Unit} (h : items.forM build ir = .ok (u, ir')) :
    MessagesAdded kind (items.map name) ir ir' := by
  refine forM_induction (P := fun done mid => MessagesAdded kind (done.map name) ir mid)
    (.nil kind ir) ?_ h
  intro done i before after _ hbefore hrun
  rw [List.map_append]
  exact hbefore.concat (hbuild i before after _ hrun)

/-! ## The whole schema -/

def SchemaIr.withOneofs (ir : SchemaIr) (oneofs : List OneofIr) : SchemaIr :=
  { ir with oneofs := ir.oneofs ++ oneofs }

/-- The union of a dispatch. -/
def dispatchOneof (parent field : Name) (names : List Name) (kind : OneofKindIr) : OneofIr :=
  ⟨parent, field, dispatchVariants names, kind⟩

def instructionDispatch (program : ProgramNode) : List OneofIr :=
  if program.instructions.isEmpty then []
  else [dispatchOneof "Instructions".toList "instruction".toList
    (program.instructions.map (·.name)) .instructionDispatch]

def eventDispatch (programEvents : Bool) (events : List EventNode) : List OneofIr :=
  if hasEvents programEvents events then
    [dispatchOneof "ProgramEvents".toList "event".toList (events.map (·.name)) .eventDispatch]
  else []

theorem buildInstructionsSchema_run {program : ProgramNode} {ir ir' : SchemaIr} {u : Unit}
    (h : buildInstructionsSchema program.instructions ir = .ok (u, ir')) :
    ∃ middle, MessagesAdded .instruction (program.instructions.map (toPascalCase ·.name)) ir middle ∧
      ir' = middle.withOneofs (instructionDispatch program) := by
  obtain ⟨⟨⟩, middle, hmessages, hdispatch⟩ := bind_ok.mp h
  refine ⟨middle, messages_run (toPascalCase ·.name) (fun _ _ _ _ => buildInstructionMessages_run)
    hmessages, ?_⟩
  rw [buildInstructionDispatchOneof] at hdispatch
  rw [instructionDispatch]
  by_cases hempty : program.instructions.isEmpty = true
  · rw [if_pos hempty] at hdispatch ⊢
    obtain ⟨-, rfl⟩ := pure_ok.mp hdispatch
    rw [SchemaIr.withOneofs, List.append_nil]
  · rw [if_neg hempty] at hdispatch ⊢
    exact pushOneof_run hdispatch

section

variable (programEvents : Bool) (program : ProgramNode) (events : List EventNode)

/-- Defined types, and the payloads of events that are linked to. -/
def allDefinedTypes : List DefinedTypeNode :=
  program.definedTypes ++ linkedEventPayloads programEvents program events

/-- The events that have messages. -/
def emittedEvents : List EventNode := if hasEvents programEvents events then events else []

/-- What `build_schema_ir` leaves behind. -/
structure Built (programName : Name) (ir : SchemaIr) : Prop where
  types : ∀ t ∈ ir.types, t.kind = .definedType ∨ t.kind = .account ∨
    (∃ ix ∈ program.instructions, IsMessageOf .instruction (toPascalCase ix.name) t) ∨
    (∃ ev ∈ emittedEvents programEvents events, IsMessageOf .event (toPascalCase ev.name) t) ∨
    (t.kind = .helper ∧
      t.name ∉ directMessageNames programEvents program events programName ∧
      t.name ∉ concreteNames (allDefinedTypes programEvents program events))
  instructionMessages : ∀ ix ∈ program.instructions, HasMessages .instruction (toPascalCase ix.name) ir
  eventMessages : ∀ ev ∈ emittedEvents programEvents events,
    HasMessages .event (toPascalCase ev.name) ir
  numbered : Numbered ir
  accounts : ir.accountNames = program.accounts.map (toPascalCase ·.name)
  oneofs : ∃ enums, ir.oneofs =
      enums ++ instructionDispatch program ++ eventDispatch programEvents events ∧
    ∀ oneof ∈ enums, IsEnum (concreteNames (allDefinedTypes programEvents program events)) ir oneof

variable {programEvents program events}

theorem events_run {ir ir' : SchemaIr} {u : Unit}
    (h : (if hasEvents programEvents events then buildEventsSchema events else pure ()) ir =
      .ok (u, ir')) :
    ∃ middle, MessagesAdded .event
        ((emittedEvents programEvents events).map (toPascalCase ·.name)) ir middle ∧
      ir' = middle.withOneofs (eventDispatch programEvents events) := by
  rw [emittedEvents, eventDispatch]
  by_cases hevents : hasEvents programEvents events = true
  · rw [if_pos hevents] at h ⊢
    obtain ⟨⟨⟩, middle, hmessages, hdispatch⟩ := bind_ok.mp h
    rw [if_pos hevents]
    exact ⟨middle, messages_run (toPascalCase ·.name) (fun _ _ _ _ => buildEventMessages_run) hmessages,
      pushOneof_run hdispatch⟩
  · rw [if_neg hevents] at h ⊢
    obtain ⟨-, rfl⟩ := pure_ok.mp h
    rw [if_neg hevents]
    exact ⟨ir, .nil .event ir, by rw [SchemaIr.withOneofs, List.append_nil]⟩

theorem buildSchemaIr_run {programName : Name} {ir : SchemaIr} {u : Unit}
    (h : buildSchemaIr programEvents program events programName .default = .ok (u, ir)) :
    Built programEvents program events programName ir := by
  obtain ⟨⟨⟩, reserved, hreserve, h₁⟩ := bind_ok.mp h
  obtain ⟨⟨⟩, defined, hdefined, h₂⟩ := bind_ok.mp h₁
  obtain ⟨⟨⟩, withAccounts, haccounts, h₃⟩ := bind_ok.mp h₂
  obtain ⟨⟨⟩, withInstructions, hinstructions, hevents⟩ := bind_ok.mp h₃
  obtain rfl := modify_ok.mp hreserve
  obtain ⟨hdefinedTypes, hdefinedNames, enums, henums, hisEnum⟩ := buildDefinedTypes_run hdefined
  obtain ⟨haccountTypes, haccountOneofs, haccountNames⟩ := buildAccounts_run haccounts
  obtain ⟨ixMiddle, hix, rfl⟩ := buildInstructionsSchema_run hinstructions
  obtain ⟨evMiddle, hev, rfl⟩ := events_run hevents
  have hmore : ∀ t ∈ ixMiddle.types, t ∈ evMiddle.types := fun t ht => hev.types.mem ht
  have hreserved₁ := hdefinedTypes.reserved
  have hreserved₂ := haccountTypes.reserved.trans hreserved₁
  have hreserved₃ : ixMiddle.reservedTypeNames = _ := hix.types.reserved.trans hreserved₂
  have hfree : ∀ {name : Name}, name ∉ ((SchemaIr.default.reserveTypeNames
      (directMessageNames programEvents program events programName)).reserveTypeNames
        (concreteNames (program.definedTypes ++
          linkedEventPayloads programEvents program events))).reservedTypeNames →
      name ∉ directMessageNames programEvents program events programName ∧
        name ∉ concreteNames (allDefinedTypes programEvents program events) := by
    intro name hname
    exact not_or.mp (List.mem_append.not.mp hname)
  have hnumbered : Numbered evMiddle := by
    refine hev.types.numbered (hix.types.numbered (haccountTypes.numbered (hdefinedTypes.numbered ?_)))
    exact fun t ht => by contradiction
  refine ⟨?_, ?_, ?_, hnumbered, ?_, enums, ?_, ?_⟩
  · intro t ht
    rcases hev.types.cases_mem ht with ht | ⟨name, hname, ht⟩ | ⟨hkind, hname⟩
    · rcases hix.types.cases_mem ht with ht | ⟨name, hname, ht⟩ | ⟨hkind, hname⟩
      · rcases haccountTypes.cases_mem ht with ht | ht | ⟨hkind, hname⟩
        · rcases hdefinedTypes.cases_mem ht with ht | ht | ⟨hkind, hname⟩
          · contradiction
          · exact .inl ht
          · exact .inr (.inr (.inr (.inr ⟨hkind, hfree hname⟩)))
        · exact .inr (.inl ht)
        · exact .inr (.inr (.inr (.inr ⟨hkind, hfree (hreserved₁ ▸ hname)⟩)))
      · obtain ⟨ix, hix, rfl⟩ := List.mem_map.mp hname
        exact .inr (.inr (.inl ⟨ix, hix, ht⟩))
      · exact .inr (.inr (.inr (.inr ⟨hkind, hfree (hreserved₂ ▸ hname)⟩)))
    · obtain ⟨ev, hev, rfl⟩ := List.mem_map.mp hname
      exact .inr (.inr (.inr (.inl ⟨ev, hev, ht⟩)))
    · exact .inr (.inr (.inr (.inr ⟨hkind, hfree (hreserved₃ ▸ hname)⟩)))
  · intro ix hmem
    exact (hix.messages _ (List.mem_map_of_mem hmem)).mono hmore
  · intro ev hmem
    exact (hev.messages _ (List.mem_map_of_mem hmem)).mono fun t ht => ht
  · have hnone : defined.accountNames = [] := hdefinedNames
    exact hev.accounts.trans (hix.accounts.trans (haccountNames.trans (by rw [hnone]; rfl)))
  · show evMiddle.oneofs ++ _ = _
    rw [hev.oneofs]
    show ixMiddle.oneofs ++ _ ++ _ = _
    rw [hix.oneofs, haccountOneofs, henums]
    rfl
  · intro oneof hmem
    refine (hisEnum oneof hmem).mono fun t ht => ?_
    exact hmore t (hix.types.mem (haccountTypes.mem ht))

end

end Shipstern.Codegen
