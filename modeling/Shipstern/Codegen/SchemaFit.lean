import Shipstern.Codegen.SchemaModules

/-!
# When the schema fits the code

`schema_matches_iff`: the messages of a schema are those that the generated code encodes if and
only if the schema is `Consistent`.
-/

namespace Shipstern.Codegen

open Codama

/-! ## The fields of the message of a type -/

section HasFields

variable {programName : Name} {ir : SchemaIr} {t u : TypeIr} {shapes : List FieldShape}

theorem hasFields_of_firstOf (hfirst : ir.firstOf t = some u)
    (hparent : protoTypeName ir t ∉ ir.oneofParents) :
    HasFields (ir.allMessages programName) (protoTypeName ir t) (ir.renderedShapes u) := by
  refine ⟨renderType ir u, ?_, (SchemaIr.firstOf_eq_some hfirst).2, ?_⟩
  · exact SchemaIr.mem_allMessages.mpr (.inl ⟨u, SchemaIr.isRendered_firstOf hfirst hparent, rfl⟩)
  · rw [renderType, ProtoBody.shapes, List.map_map]
    rfl

/-- A message that is not fixed has the fields of the first type of its name. -/
theorem firstOf_of_hasFields (hfixed : protoTypeName ir t ∉ ir.fixedNames programName)
    (h : HasFields (ir.allMessages programName) (protoTypeName ir t) shapes) :
    ∃ u, ir.firstOf t = some u ∧ ir.renderedShapes u = shapes := by
  obtain ⟨m, hm, hname, hshapes⟩ := h
  rcases SchemaIr.mem_allMessages.mp hm with ⟨u, hrendered, rfl⟩ | hm
  · have hfirst := (SchemaIr.isRendered_iff.mp hrendered).2
    refine ⟨u, (SchemaIr.firstOf_congr hname) ▸ hfirst, ?_⟩
    rw [renderType, ProtoBody.shapes, List.map_map] at hshapes
    exact Option.some.inj hshapes
  · have hmem := List.mem_map_of_mem (f := (·.name)) hm
    rw [SchemaIr.fixedMessages_names, hname] at hmem
    exact absurd hmem hfixed

theorem renderOneofParent_mem {oneof : OneofIr} (h : oneof ∈ ir.oneofs) :
    renderOneofParent ir oneof ∈ ir.allMessages programName := by
  rw [SchemaIr.mem_allMessages, SchemaIr.fixedMessages]
  simp only [List.mem_cons, List.mem_append]
  exact .inr (.inr (.inl (.inr (List.mem_map_of_mem h))))

variable (hnodup : ((ir.allMessages programName).map (·.name)).Nodup)

include hnodup

theorem eq_renderOneofParent {oneof : OneofIr} (h : oneof ∈ ir.oneofs) {m : ProtoMessage}
    (hm : m ∈ ir.allMessages programName) (hname : m.name = oneof.parentMessage) :
    m = renderOneofParent ir oneof :=
  List.inj_on_of_nodup_map hnodup hm (renderOneofParent_mem h) hname

/-- The message of a union has no fields of its own. -/
theorem not_mem_fixedNames_of_hasFields (ht : t ∈ ir.types)
    (h : HasFields (ir.allMessages programName) (protoTypeName ir t) shapes) :
    protoTypeName ir t ∉ ir.fixedNames programName := by
  intro hfixed
  have hparent := (SchemaIr.nodup_allMessages_iff.mp hnodup).2 t ht hfixed
  obtain ⟨oneof, honeof, hname⟩ := List.mem_map.mp hparent
  obtain ⟨m, hm, hmname, hshapes⟩ := h
  obtain rfl := eq_renderOneofParent hnodup honeof hm (hmname.trans hname.symm)
  contradiction

end HasFields

/-! ## Impls that are described -/

/-- Every type that is encoded has a message with what is encoded. -/
def TypesDescribed (messages : List ProtoMessage) (ir : SchemaIr) : Prop :=
  ∀ t ∈ ir.types, ir.isEncoded t = true →
    HasFields messages (protoTypeName ir t) (ir.encodedShapes t)

section Described

variable {messages : List ProtoMessage} {ir : SchemaIr} {t : TypeIr}

theorem protoNameOf_scopeOf (ir : SchemaIr) (t : TypeIr) :
    protoNameOf ir ((ir.scopeOf t).path t.name) = protoTypeName ir t := by
  rw [SchemaIr.scopeOf, protoTypeName]
  cases t.kind <;> rfl

theorem structImpl_described_iff :
    (prostStructImpl (ir.scopeOf t) t).Described ir messages ↔
      HasFields messages (protoTypeName ir t) (ir.encodedShapes t) := by
  change HasFields messages (protoNameOf ir ((ir.scopeOf t).path t.name))
    ((t.fields.map (emitProstField (ir.scopeOf t))).map (·.shape ir)) ↔ _
  rw [protoNameOf_scopeOf, List.map_map]
  rfl

theorem isEncoded_of_inside (h : t.kind.isTopLevel = false) : ir.isEncoded t = true := by
  rw [SchemaIr.isEncoded, h]
  rfl

theorem scopeOf_of_isTopLevel (h : t.kind.isTopLevel = true) : ir.scopeOf t = .outside := by
  rw [SchemaIr.scopeOf]
  cases hkind : t.kind <;> first | rfl | (rw [hkind] at h; contradiction)

/-- The impls of a union. -/
theorem mem_dispatchImpls {oneof : OneofIr} {path : Name → RustPath} {payloads : List TypeIr}
    {localNames collisions : List Name} {impl : ProstImpl} :
    impl ∈ dispatchImpls oneof path payloads localNames collisions ↔
      (∃ t ∈ payloads, prostStructImpl
        (dispatchScope path localNames collisions (oneof.variants.map (·.messageType)) t) t = impl) ∨
      impl = ⟨.dispatch oneof.parentMessage,
        .dispatch (oneof.variants.map (dispatchVariant path localNames))⟩ := by
  rw [dispatchImpls, List.mem_append, List.mem_map, List.mem_singleton]

theorem mem_payloadTypes {kind : TypeKindIr} :
    t ∈ ir.payloadTypes (· = kind) ↔
      t ∈ ir.types ∧ t.kind = kind ∧ t.name ∉ ir.dispatchOneofParents := by
  simp [SchemaIr.payloadTypes, and_comm]

end Described

section Dispatch

variable {programName : Name} {ir : SchemaIr} {kind : TypeKindIr} {dispatch : OneofKindIr}
  {parent : Name} {path : Name → RustPath} {rename : RenameMap} {oneof : OneofIr}
  (hmodule : ModuleOf ir kind dispatch path rename)
  (hdispatch : DispatchOf ir kind dispatch parent oneof)

include hmodule hdispatch

theorem scope_eq {t : TypeIr} (ht : t.kind = kind) :
    dispatchScope path (ir.namesOf (· = kind)) ir.collidingNames
      (oneof.variants.map (·.messageType)) t = ir.scopeOf t := by
  rw [hmodule.scope t ht, hdispatch.wrappers]

/-- The messages of the variants are those that the schema names. -/
theorem dispatch_variants :
    (renderOneofParent ir oneof).body.variants =
      some ((oneof.variants.map (·.tag)).zip
        (oneof.variants.map fun v => protoTypeName ir (payloadType v.messageType kind))) := by
  rw [renderOneofParent, ProtoBody.variants, List.zip_map', List.map_map]
  refine congrArg some (List.map_congr_left fun v _ => ?_)
  rw [hmodule.typeName _ rfl, Function.comp_apply, hdispatch.kind_eq, hmodule.rename]
  rfl

theorem dispatch_described (htypes : TypesDescribed (ir.allMessages programName) ir) :
    ∀ impl ∈ oneofImpls ir oneof, impl.Described ir (ir.allMessages programName) := by
  intro impl himpl
  rw [hmodule.impls oneof hdispatch.kind_eq] at himpl
  rcases mem_dispatchImpls.mp himpl with ⟨t, ht, rfl⟩ | rfl
  · obtain ⟨hmem, hkind, -⟩ := mem_payloadTypes.mp ht
    rw [scope_eq hmodule hdispatch hkind, structImpl_described_iff]
    exact htypes t hmem (isEncoded_of_inside (hkind ▸ hmodule.inside))
  · refine ⟨oneof.variants.map fun v => protoTypeName ir (payloadType v.messageType kind),
      ⟨_, renderOneofParent_mem hdispatch.mem, rfl, ?_⟩, ?_⟩
    · rw [dispatch_variants hmodule hdispatch, List.map_map]
      rfl
    rw [List.forall₂_map_left_iff, List.forall₂_map_right_iff, List.forall₂_same]
    intro v hv
    have hmessages := hdispatch.messages v hv
    have hwrapper : v.messageType ∈ ir.dispatchWrappers dispatch :=
      hdispatch.wrappers ▸ List.mem_map_of_mem hv
    rw [← hmodule.payload_shapes hwrapper hmessages]
    exact htypes _ hmessages.payload (isEncoded_of_inside hmodule.inside)

/-- The message of a variant, from the impl of the dispatch. -/
theorem payload_hasFields (hnodup : ((ir.allMessages programName).map (·.name)).Nodup)
    (hdescribed : ∀ impl ∈ oneofImpls ir oneof, impl.Described ir (ir.allMessages programName))
    {v : OneofVariantIr} (hv : v ∈ oneof.variants) :
    HasFields (ir.allMessages programName) (protoTypeName ir (payloadType v.messageType kind))
      (ir.encodedShapes (payloadType v.messageType kind)) := by
  rw [hmodule.impls oneof hdispatch.kind_eq] at hdescribed
  obtain ⟨types, ⟨m, hm, hname, hvariants⟩, hfields⟩ :=
    hdescribed _ (mem_dispatchImpls.mpr (.inr rfl))
  -- the message is that of the union, so its types are those of the variants
  obtain rfl := eq_renderOneofParent hnodup hdispatch.mem hm hname
  rw [dispatch_variants hmodule hdispatch, Option.some.injEq, List.map_map] at hvariants
  have htypes : oneof.variants.map (fun v => protoTypeName ir (payloadType v.messageType kind)) =
      types := by
    have hsnd := congrArg (List.map Prod.snd) hvariants
    rw [List.map_snd_zip (by simp), List.map_snd_zip] at hsnd
    · exact hsnd
    · simpa using hfields.length_eq.ge
  rw [← htypes, List.forall₂_map_left_iff, List.forall₂_map_right_iff, List.forall₂_same] at hfields
  have hwrapper : v.messageType ∈ ir.dispatchWrappers dispatch :=
    hdispatch.wrappers ▸ List.mem_map_of_mem hv
  rw [hmodule.payload_shapes hwrapper (hdispatch.messages v hv)]
  exact hfields v hv

/-- Accounts and arguments have impls of their own. -/
theorem inside_hasFields (hnodup : ((ir.allMessages programName).map (·.name)).Nodup)
    (hparents : ∀ name, accountsName name ∉ ir.dispatchOneofParents ∧
      argsName name ∉ ir.dispatchOneofParents)
    (hdescribed : ∀ impl ∈ oneofImpls ir oneof, impl.Described ir (ir.allMessages programName))
    {v : OneofVariantIr} (hv : v ∈ oneof.variants) {t : TypeIr} (ht : t ∈ ir.types)
    (hmessage : IsMessageOf kind v.messageType t) :
    HasFields (ir.allMessages programName) (protoTypeName ir t) (ir.encodedShapes t) := by
  obtain ⟨hkind, hname⟩ := hmessage
  have himpl (hfree : t.name ∉ ir.dispatchOneofParents) :
      HasFields (ir.allMessages programName) (protoTypeName ir t) (ir.encodedShapes t) := by
    rw [← structImpl_described_iff, ← scope_eq hmodule hdispatch hkind]
    refine hdescribed _ ?_
    rw [hmodule.impls oneof hdispatch.kind_eq]
    exact mem_dispatchImpls.mpr (.inl ⟨t, mem_payloadTypes.mpr ⟨ht, hkind, hfree⟩, rfl⟩)
  rcases hname with hname | hname | rfl
  · exact himpl (hname ▸ (hparents _).1)
  · exact himpl (hname ▸ (hparents _).2)
  · exact payload_hasFields hmodule hdispatch hnodup hdescribed hv

end Dispatch

/-! ## The impls of a program -/

section Program

variable {programEvents : Bool} {name : Name} {program : ProgramNode} {events : List EventNode}
  {e : Expansion}

/-- The parents of dispatches have other endings than accounts and arguments. -/
theorem Built.dispatchOneofParents {programName : Name} {ir : SchemaIr}
    (h : Built programEvents program events programName ir) (base : Name) :
    accountsName base ∉ ir.dispatchOneofParents ∧ argsName base ∉ ir.dispatchOneofParents := by
  have hparents : ∀ parent ∈ ir.dispatchOneofParents,
      parent = "Instructions".toList ∨ parent = "ProgramEvents".toList := by
    intro parent hparent
    obtain ⟨oneof, hmem, rfl⟩ := List.mem_map.mp hparent
    obtain ⟨honeof, hkind⟩ := List.mem_filter.mp hmem
    rcases h.oneof_cases honeof with ⟨⟨number, henum⟩, -, -⟩ | hmem | hmem
    · simp [henum] at hkind
    · exact .inl (h.instructionDispatchOf hmem).parent
    · exact .inr (h.eventDispatchOf hmem).parent
  have hsuffix : ∀ {suffix : Name}, ¬suffix <:+ "Instructions".toList →
      ¬suffix <:+ "ProgramEvents".toList → base ++ suffix ∉ ir.dispatchOneofParents := by
    intro suffix hinstructions hevents hparent
    rcases hparents _ hparent with heq | heq
    · exact hinstructions ⟨base, heq⟩
    · exact hevents ⟨base, heq⟩
  exact ⟨hsuffix (by decide) (by decide), hsuffix (by decide) (by decide)⟩

theorem exists_dispatchVariant {names : List Name} {base : Name} (h : base ∈ names) :
    ∃ v ∈ dispatchVariants names, v.messageType = toPascalCase base := by
  obtain ⟨i, hi, rfl⟩ := List.mem_iff_getElem.mp h
  exact ⟨_, List.mem_mapIdx.mpr ⟨i, hi, rfl⟩, rfl⟩

theorem mem_emittedEvents {ev : EventNode} :
    ev ∈ emittedEvents programEvents events ↔ hasEvents programEvents events = true ∧ ev ∈ events := by
  rw [emittedEvents]
  split
  next hevents => simp [hevents]
  next hevents => simp [hevents]

theorem mem_impls (h : Expanded programEvents name program events e) {impl : ProstImpl} :
    impl ∈ e.impls ↔
      (∃ t ∈ e.schemaIr.types, e.schemaIr.isRenderedOutside t = true ∧
        prostStructImpl .outside t = impl) ∨
      (∃ oneof ∈ e.schemaIr.oneofs, impl ∈ oneofImpls e.schemaIr oneof) ∨
      impl ∈ accountParserImpls (toPascalCase name) program.accounts ∨
      (hasEvents programEvents events = true ∧
        impl = programEventOutputImpl !program.instructions.isEmpty) := by
  rw [h.impls]
  simp only [List.mem_append, List.mem_map, List.mem_filter, List.mem_flatMap, or_assoc, and_assoc]
  split
  next hevents => simp [hevents]
  next hevents => simp [hevents]

/-- The type is encoded, so its message has the fields. -/
theorem typesDescribed_of_described (h : Expanded programEvents name program events e)
    (hnodup : ((e.schemaIr.allMessages (toPascalCase name)).map (·.name)).Nodup)
    (hdescribed : ∀ impl ∈ e.impls,
      impl.Described e.schemaIr (e.schemaIr.allMessages (toPascalCase name))) :
    TypesDescribed (e.schemaIr.allMessages (toPascalCase name)) e.schemaIr := by
  intro t ht hencoded
  have hparents := h.built.dispatchOneofParents
  have honeof {oneof : OneofIr} (hmem : oneof ∈ e.schemaIr.oneofs) (impl : ProstImpl)
      (himpl : impl ∈ oneofImpls e.schemaIr oneof) :
      impl.Described e.schemaIr (e.schemaIr.allMessages (toPascalCase name)) :=
    hdescribed impl ((mem_impls h).mpr (.inr (.inl ⟨oneof, hmem, himpl⟩)))
  have houtside (htop : t.kind.isTopLevel = true) : HasFields
      (e.schemaIr.allMessages (toPascalCase name)) (protoTypeName e.schemaIr t)
        (e.schemaIr.encodedShapes t) := by
    rw [SchemaIr.isEncoded, htop, Bool.not_true, Bool.false_or] at hencoded
    rw [← structImpl_described_iff, scopeOf_of_isTopLevel htop]
    exact hdescribed _ ((mem_impls h).mpr (.inl ⟨t, ht, hencoded, rfl⟩))
  rcases h.built.types t ht with hkind | hkind | ⟨ix, hix, hmessage⟩ | ⟨ev, hev, hmessage⟩ |
    ⟨hkind, -, -⟩
  · exact houtside (by rw [hkind]; rfl)
  · exact houtside (by rw [hkind]; rfl)
  · have hmem : dispatchOneof "Instructions".toList "instruction".toList
        (program.instructions.map (·.name)) .instructionDispatch ∈ instructionDispatch program := by
      rw [instructionDispatch, if_neg (by simpa using List.ne_nil_of_mem hix)]
      exact List.mem_singleton_self _
    obtain ⟨v, hv, hname⟩ := exists_dispatchVariant (List.mem_map_of_mem (f := (·.name)) hix)
    have hdispatch := h.built.instructionDispatchOf hmem
    rw [← hname] at hmessage
    exact inside_hasFields (instructionModule _) hdispatch hnodup hparents (honeof hdispatch.mem) hv ht
      hmessage
  · obtain ⟨hevents, hev⟩ := mem_emittedEvents.mp hev
    have hmem : dispatchOneof "ProgramEvents".toList "event".toList (events.map (·.name))
        .eventDispatch ∈ eventDispatch programEvents events := by
      rw [eventDispatch, if_pos hevents]
      exact List.mem_singleton_self _
    obtain ⟨v, hv, hname⟩ := exists_dispatchVariant (List.mem_map_of_mem (f := (·.name)) hev)
    have hdispatch := h.built.eventDispatchOf hmem
    rw [← hname] at hmessage
    exact inside_hasFields (eventModule _) hdispatch hnodup hparents (honeof hdispatch.mem) hv ht
      hmessage
  · exact houtside (by rw [hkind]; rfl)

/-- The messages of helpers are the variants of an enum. -/
theorem enum_described {programName : Name} {ir : SchemaIr} {names : List Name} {oneof : OneofIr}
    (henum : IsEnum names ir oneof) (hmem : oneof ∈ ir.oneofs) :
    ∀ impl ∈ oneofImpls ir oneof, impl.Described ir (ir.allMessages programName) := by
  obtain ⟨number, hkind⟩ := henum.kind
  intro impl himpl
  rw [oneofImpls, hkind] at himpl
  obtain rfl := List.mem_singleton.mp himpl
  refine ⟨_, renderOneofParent_mem hmem, rfl, ?_⟩
  rw [renderOneofParent, ProtoBody.variants, hkind, List.map_map, List.map_map]
  rfl

theorem account_described {programName : Name} {ir : SchemaIr} {accounts : List AccountNode}
    (haccounts : ir.accountNames = accounts.map (toPascalCase ·.name)) :
    ∀ impl ∈ accountParserImpls programName accounts,
      impl.Described ir (ir.allMessages programName) := by
  intro impl himpl
  rw [accountParserImpls, ← haccounts] at himpl
  split at himpl
  · contradiction
  next hempty =>
    obtain rfl := List.mem_singleton.mp himpl
    refine ⟨accountDispatchMessage programName ir.accountNames, ?_, rfl, ?_⟩
    · rw [SchemaIr.mem_allMessages, SchemaIr.fixedMessages, SchemaIr.accountMessages, if_neg hempty]
      simp
    · rw [accountDispatchMessage, ProtoBody.variants]
      refine congrArg some (List.ext_getElem (by simp) fun i _ _ => ?_)
      simp [protoNameOf]

/-- The output is encode-only, and has a message when there are instructions. -/
theorem output_described_iff {programName : Name} {ir : SchemaIr} (hnumbered : Numbered ir)
    (hevents : ir.hasDispatch .eventDispatch = true) :
    (programEventOutputImpl (ir.hasDispatch .instructionDispatch)).Described ir
      (ir.allMessages programName) ↔ ir.hasDispatch .instructionDispatch = true := by
  cases hinstructions : ir.hasDispatch .instructionDispatch with
  | true =>
      refine iff_of_true ⟨programEventOutputMessage, ?_, rfl, rfl⟩ rfl
      rw [SchemaIr.mem_allMessages, SchemaIr.fixedMessages, SchemaIr.outputMessages, hevents,
        hinstructions]
      simp
  | false =>
      refine iff_of_false ?_ Bool.false_ne_true
      -- the only field has number two, but the fields of a type start with one
      rintro ⟨m, hm, -, hshapes⟩
      change m.body.shapes =
        some [⟨2, .repeated, false, .message "ProgramEvents".toList⟩] at hshapes
      have hnone : ir.outputMessages = [] := by
        rw [SchemaIr.outputMessages, hinstructions, Bool.and_false, if_neg Bool.false_ne_true]
      rcases SchemaIr.mem_allMessages.mp hm with ⟨t, hrendered, rfl⟩ | hm
      · have ht := (SchemaIr.firstOf_eq_some (SchemaIr.isRendered_iff.mp hrendered).2).1
        have htwo := congrArg (List.map FieldShape.tag) (Option.some.inj hshapes)
        rw [List.map_map, List.map_map] at htwo
        have hone : List.range' 1 t.fields.length = [2] := (hnumbered t ht).symm.trans htwo
        cases hlength : t.fields.length <;> simp [hlength] at hone
      · rw [SchemaIr.fixedMessages, hnone, List.append_nil] at hm
        rcases List.mem_cons.mp hm with rfl | hm
        · have htwo : some [1] = some [2] :=
            congrArg (Option.map (List.map FieldShape.tag)) hshapes
          simp at htwo
        · rcases List.mem_append.mp hm with hm | hm
          · rw [SchemaIr.accountMessages] at hm
            split at hm
            · contradiction
            · obtain rfl := List.mem_singleton.mp hm
              contradiction
          · obtain ⟨oneof, -, rfl⟩ := List.mem_map.mp hm
            contradiction

theorem described_iff (h : Expanded programEvents name program events e)
    (hnodup : ((e.schemaIr.allMessages (toPascalCase name)).map (·.name)).Nodup) :
    (∀ impl ∈ e.impls, impl.Described e.schemaIr (e.schemaIr.allMessages (toPascalCase name))) ↔
      TypesDescribed (e.schemaIr.allMessages (toPascalCase name)) e.schemaIr ∧
        (e.schemaIr.hasDispatch .eventDispatch = true →
          e.schemaIr.hasDispatch .instructionDispatch = true) := by
  have houtput (hevents : e.schemaIr.hasDispatch .eventDispatch = true) :
      (programEventOutputImpl !program.instructions.isEmpty).Described e.schemaIr
        (e.schemaIr.allMessages (toPascalCase name)) ↔
          e.schemaIr.hasDispatch .instructionDispatch = true := by
    rw [← h.built.hasDispatch_instruction]
    exact output_described_iff h.built.numbered hevents
  constructor
  · intro hdescribed
    refine ⟨typesDescribed_of_described h hnodup hdescribed, fun hevents => ?_⟩
    refine (houtput hevents).mp (hdescribed _ ((mem_impls h).mpr (.inr (.inr (.inr ⟨?_, rfl⟩)))))
    rw [← h.built.hasDispatch_event, hevents]
  · rintro ⟨htypes, hboth⟩ impl himpl
    rcases (mem_impls h).mp himpl with ⟨t, ht, hrendered, rfl⟩ | ⟨oneof, hmem, himpl⟩ | himpl |
      ⟨hevents, rfl⟩
    · have htop : t.kind.isTopLevel = true := by
        simp only [SchemaIr.isRenderedOutside, Bool.and_eq_true] at hrendered
        exact hrendered.1.2
      rw [← scopeOf_of_isTopLevel htop, structImpl_described_iff]
      exact htypes t ht (by rw [SchemaIr.isEncoded, hrendered, Bool.or_true])
    · rcases h.built.oneof_cases hmem with henum | hdispatch | hdispatch
      · exact enum_described henum hmem impl himpl
      · exact dispatch_described (instructionModule _) (h.built.instructionDispatchOf hdispatch) htypes
          impl himpl
      · exact dispatch_described (eventModule _) (h.built.eventDispatchOf hdispatch) htypes impl himpl
    · exact account_described h.built.accounts impl himpl
    · rw [← h.built.hasDispatch_event] at hevents
      exact (houtput hevents).mpr (hboth hevents)

end Program

/-! ## References -/

section References

variable {programName : Name} {ir : SchemaIr}

theorem publicKey_mem : "PublicKey".toList ∈ ir.messageNames programName :=
  List.mem_append_left _ List.mem_cons_self

theorem oneofParent_mem {parent : Name} (h : parent ∈ ir.oneofParents) :
    parent ∈ ir.messageNames programName := List.mem_append_left _ (SchemaIr.oneofParents_subset h)

theorem protoTypeName_mem {t : TypeIr} (h : t ∈ ir.types) :
    protoTypeName ir t ∈ ir.messageNames programName :=
  List.mem_append_right _ (List.mem_map_of_mem h)

/-- Keys have a message, so only the names in fields matter. -/
theorem renderType_references {t : TypeIr} :
    (∀ ref ∈ (renderType ir t).references, ref ∈ ir.messageNames programName) ↔
      ∀ ref ∈ ir.protoReferences t, ref ∈ ir.messageNames programName := by
  have href (field : FieldIr) :
      (∀ ref, (protoField (fieldRename ir t) field).type.reference = some ref →
        ref ∈ ir.messageNames programName) ↔
      ∀ name, field.fieldType.reference = some name →
        resolveProtoName name (fieldRename ir t) ∈ ir.messageNames programName := by
    obtain ⟨fieldName, tag, label, fieldType⟩ := field
    cases fieldType with
    | message name => simp [protoField, ProtoType.reference, FieldTypeIr.reference]
    | scalar s =>
        refine iff_of_true (fun ref hscalar => ?_) (fun name hname => by contradiction)
        cases s with
        | publicKey =>
            obtain rfl := Option.some.inj hscalar
            exact publicKey_mem
        | _ => contradiction
  constructor
  · intro h ref hmem
    obtain ⟨name, hname, rfl⟩ := List.mem_map.mp hmem
    obtain ⟨field, hfield, hreference⟩ := List.mem_filterMap.mp hname
    refine (href field).mp (fun ref hscalar => h ref ?_) name hreference
    exact List.mem_filterMap.mpr ⟨_, List.mem_map_of_mem hfield, hscalar⟩
  · intro h ref hmem
    obtain ⟨_, hrendered, hscalar⟩ := List.mem_filterMap.mp hmem
    obtain ⟨field, hfield, rfl⟩ := List.mem_map.mp hrendered
    refine (href field).mpr (fun name hname => h _ ?_) ref hscalar
    exact List.mem_map_of_mem (List.mem_filterMap.mpr ⟨field, hfield, hname⟩)

/-- The variants of a dispatch are types of its module. -/
theorem dispatch_references {kind : TypeKindIr} {dispatch : OneofKindIr} {parent : Name}
    {path : Name → RustPath} {rename : RenameMap} {oneof : OneofIr}
    (hmodule : ModuleOf ir kind dispatch path rename)
    (hdispatch : DispatchOf ir kind dispatch parent oneof) :
    ∀ ref ∈ (renderOneofParent ir oneof).references, ref ∈ ir.messageNames programName := by
  intro ref href
  obtain ⟨member, hmember, rfl⟩ := List.mem_map.mp href
  obtain ⟨v, hv, rfl⟩ := List.mem_map.mp hmember
  have hname := hmodule.typeName (payloadType v.messageType kind) rfl
  rw [hdispatch.kind_eq, hmodule.rename]
  exact hname ▸ protoTypeName_mem (hdispatch.messages v hv).payload

theorem enum_references {names : List Name} {oneof : OneofIr} (henum : IsEnum names ir oneof) :
    ∀ ref ∈ (renderOneofParent ir oneof).references, ref ∈ ir.messageNames programName := by
  obtain ⟨number, hkind⟩ := henum.kind
  intro ref href
  obtain ⟨member, hmember, rfl⟩ := List.mem_map.mp href
  obtain ⟨v, hv, rfl⟩ := List.mem_map.mp hmember
  obtain ⟨t, ht, hhelper, hname⟩ := henum.variants v hv
  have htop : protoTypeName ir t = t.name :=
    protoTypeName_of_isTopLevel ir (by rw [hhelper]; rfl)
  rw [hkind]
  exact hname ▸ htop ▸ protoTypeName_mem ht

theorem account_references :
    ∀ m ∈ ir.accountMessages programName, ∀ ref ∈ m.references, ref ∈ ir.messageNames programName := by
  intro m hm ref href
  rw [SchemaIr.accountMessages] at hm
  split at hm
  · contradiction
  · obtain rfl := List.mem_singleton.mp hm
    obtain ⟨member, hmember, rfl⟩ := List.mem_map.mp href
    obtain ⟨i, hi, rfl⟩ := List.mem_mapIdx.mp hmember
    obtain ⟨t, ht, hkind, hname⟩ := mem_namesOf.mp (List.getElem_mem hi)
    have htop : protoTypeName ir t = t.name := by
      refine protoTypeName_of_isTopLevel ir ?_
      rw [TypeKindIr.isAccount, decide_eq_true_eq] at hkind
      rw [hkind]
      rfl
    exact hname ▸ htop ▸ protoTypeName_mem ht

variable {programEvents : Bool} {program : ProgramNode} {events : List EventNode}

theorem Built.instructions_mem (h : Built programEvents program events programName ir)
    (hdispatch : ir.hasDispatch .instructionDispatch = true) :
    "Instructions".toList ∈ ir.oneofParents := by
  obtain ⟨oneof, hmem⟩ := List.exists_mem_of_ne_nil _ (hasDispatch_iff.mp hdispatch)
  rw [h.filter_instructionDispatch] at hmem
  obtain ⟨hmem, -, hparent, -, -⟩ := h.instructionDispatchOf hmem
  exact hparent ▸ List.mem_map_of_mem hmem

theorem Built.programEvents_mem (h : Built programEvents program events programName ir)
    (hdispatch : ir.hasDispatch .eventDispatch = true) :
    "ProgramEvents".toList ∈ ir.oneofParents := by
  obtain ⟨oneof, hmem⟩ := List.exists_mem_of_ne_nil _ (hasDispatch_iff.mp hdispatch)
  rw [h.filter_eventDispatch] at hmem
  obtain ⟨hmem, -, hparent, -, -⟩ := h.eventDispatchOf hmem
  exact hparent ▸ List.mem_map_of_mem hmem

theorem output_references (h : Built programEvents program events programName ir) :
    ∀ m ∈ ir.outputMessages, ∀ ref ∈ m.references, ref ∈ ir.messageNames programName := by
  intro m hm
  rw [SchemaIr.outputMessages] at hm
  split at hm
  next hboth =>
    rw [Bool.and_eq_true] at hboth
    obtain rfl := List.mem_singleton.mp hm
    change ∀ ref ∈ ["Instructions".toList, "ProgramEvents".toList], _
    rw [List.forall_mem_cons, List.forall_mem_singleton]
    exact ⟨oneofParent_mem (h.instructions_mem hboth.2),
      oneofParent_mem (h.programEvents_mem hboth.1)⟩
  · contradiction

/-- Only the fields of types can refer to what is not there. -/
theorem declared_iff (h : Built programEvents program events programName ir) :
    (∀ m ∈ ir.allMessages programName, ∀ ref ∈ m.references,
        ref ∈ (ir.allMessages programName).map (·.name)) ↔
      ∀ t ∈ ir.types, ir.isRendered t = true →
        ∀ ref ∈ ir.protoReferences t, ref ∈ ir.messageNames programName := by
  simp only [SchemaIr.mem_allMessages_names]
  constructor
  · intro hall t ht hrendered
    rw [← renderType_references]
    exact hall _ (SchemaIr.mem_allMessages.mpr (.inl ⟨t, hrendered, rfl⟩))
  · intro hlinked m hm
    rcases SchemaIr.mem_allMessages.mp hm with ⟨t, hrendered, rfl⟩ | hm
    · have ht := (SchemaIr.firstOf_eq_some (SchemaIr.isRendered_iff.mp hrendered).2).1
      exact renderType_references.mpr (hlinked t ht hrendered)
    · rw [SchemaIr.fixedMessages, List.mem_cons, List.mem_append, List.mem_append] at hm
      rcases hm with rfl | (hm | hm) | hm
      · exact fun ref href => by contradiction
      · exact account_references m hm
      · obtain ⟨oneof, hmem, rfl⟩ := List.mem_map.mp hm
        rcases h.oneof_cases hmem with henum | hdispatch | hdispatch
        · exact enum_references henum
        · exact dispatch_references (instructionModule _) (h.instructionDispatchOf hdispatch)
        · exact dispatch_references (eventModule _) (h.eventDispatchOf hdispatch)
      · exact output_references h m hm

end References

/-! ## The condition -/

section Condition

variable {programEvents : Bool} {program : ProgramNode} {events : List EventNode}
  {programName : Name} {ir : SchemaIr} (h : Built programEvents program events programName ir)

include h

/-- The builders reserve the name of every message that is not that of a type. -/
theorem Built.fixedNames_reserved {name : Name} (hname : name ∈ ir.fixedNames programName) :
    name ∈ directMessageNames programEvents program events programName ∨
      name ∈ concreteNames (allDefinedTypes programEvents program events) := by
  rw [SchemaIr.fixedNames, List.mem_cons, List.mem_append, List.mem_append] at hname
  rcases hname with rfl | (hname | hname) | hname
  · refine .inl ?_
    iterate 5 refine List.mem_append_left _ ?_
    exact List.mem_cons_self
  · rw [SchemaIr.accountWrappers, h.accounts] at hname
    refine .inl ?_
    iterate 3 refine List.mem_append_left _ ?_
    exact List.mem_append_right _ hname
  · obtain ⟨oneof, hmem, rfl⟩ := List.mem_map.mp hname
    rcases h.oneof_cases hmem with henum | hmem | hmem
    · exact .inr henum.parent
    · obtain ⟨hinstructions, rfl⟩ := mem_instructionDispatch hmem
      refine .inl (List.mem_append_left _ (List.mem_append_right _ ?_))
      rw [if_neg (by simpa using hinstructions)]
      exact List.mem_cons_self
    · obtain ⟨hevents, rfl⟩ := mem_eventDispatch hmem
      refine .inl (List.mem_append_right _ ?_)
      rw [if_pos hevents]
      exact List.mem_append_left _ (List.mem_append_right _ List.mem_cons_self)
  · rw [SchemaIr.outputNames, h.hasDispatch_event, h.hasDispatch_instruction] at hname
    split at hname
    next hboth =>
      rw [Bool.and_eq_true, Bool.not_eq_true'] at hboth
      refine .inl (List.mem_append_right _ ?_)
      rw [if_pos hboth.1, if_neg (by rw [hboth.2]; exact Bool.false_ne_true)]
      exact List.mem_append_right _ hname
    · contradiction

theorem Built.helper_free {t : TypeIr} (ht : t ∈ ir.types) (hkind : t.kind = .helper) :
    t.name ∉ ir.fixedNames programName := by
  intro hname
  have htypes := h.types t ht
  simp only [IsMessageOf, hkind, reduceCtorEq, false_and, and_false, exists_false, false_or,
    true_and] at htypes
  exact (h.fixedNames_reserved hname).elim htypes.1 htypes.2

/-- Distinct names, and no type of an instruction or event in the place of a union. -/
theorem Built.namesApart_iff :
    NamesApart programName ir ↔ ((ir.allMessages programName).map (·.name)).Nodup ∧
      ∀ t ∈ ir.types, t.kind.isTopLevel = false →
        protoTypeName ir t ∉ ir.fixedNames programName := by
  rw [SchemaIr.nodup_allMessages_iff]
  constructor
  · rintro ⟨hfixed, houtside, hinside⟩
    refine ⟨⟨hfixed, fun t ht hname => ?_⟩, hinside⟩
    by_cases htop : t.kind.isTopLevel = true
    · rw [protoTypeName_of_isTopLevel ir htop] at hname ⊢
      cases hkind : t.kind with
      | definedType => exact houtside t ht (.inl hkind) hname
      | account => exact houtside t ht (.inr hkind) hname
      | helper => exact absurd hname (h.helper_free ht hkind)
      | instruction | event =>
          rw [hkind] at htop
          contradiction
    · exact absurd hname (hinside t ht (Bool.eq_false_iff.mpr htop))
  · rintro ⟨⟨hfixed, htypes⟩, hinside⟩
    refine ⟨hfixed, fun t ht hkind hname => ?_, hinside⟩
    have htop : protoTypeName ir t = t.name := by
      refine protoTypeName_of_isTopLevel ir ?_
      rcases hkind with hkind | hkind <;> rw [hkind] <;> rfl
    exact htop ▸ htypes t ht (htop ▸ hname)

omit h in
theorem isEncoded_event {t : TypeIr} (hkind : t.kind = .event) : ir.isEncoded t = true :=
  isEncoded_of_inside (by rw [hkind]; rfl)

omit h in
/-- Types are described when their names are apart and types of one name are alike. -/
theorem typesDescribed_iff (hnodup : ((ir.allMessages programName).map (·.name)).Nodup) :
    TypesDescribed (ir.allMessages programName) ir ↔
      (∀ t ∈ ir.types, t.kind.isTopLevel = false →
        protoTypeName ir t ∉ ir.fixedNames programName) ∧
      (∀ t ∈ ir.types, ir.isEncoded t = true → ∀ u ∈ ir.types, ir.firstOf t = some u → u ≠ t →
        ir.renderedShapes u = ir.encodedShapes t) ∧
      ∀ t ∈ ir.types, ir.isRendered t = true → t.kind = .event →
        t.name ∉ ir.dispatchWrappers .eventDispatch → ∀ name ∈ t.references, name ∉ ir.twinNames := by
  constructor
  · intro hdescribed
    have hfirst : ∀ t ∈ ir.types, ir.isEncoded t = true → ∀ u, ir.firstOf t = some u →
        ir.renderedShapes u = ir.encodedShapes t := by
      intro t ht hencoded u hu
      have hfields := hdescribed t ht hencoded
      have hfixed := not_mem_fixedNames_of_hasFields hnodup ht hfields
      obtain ⟨v, hv, hshapes⟩ := firstOf_of_hasFields hfixed hfields
      obtain rfl := Option.some.inj (hu.symm.trans hv)
      exact hshapes
    refine ⟨fun t ht hinside => ?_, fun t ht hencoded u _ hu _ => hfirst t ht hencoded u hu, ?_⟩
    · exact not_mem_fixedNames_of_hasFields hnodup ht (hdescribed t ht (isEncoded_of_inside hinside))
    · intro t ht hrendered hkind
      have hshapes := hfirst t ht (isEncoded_event hkind) t (SchemaIr.isRendered_iff.mp hrendered).2
      exact shapes_eq_iff.mp hshapes hkind
  · rintro ⟨hinside, hshared, hpayloads⟩ t ht hencoded
    have hparent : protoTypeName ir t ∉ ir.oneofParents := by
      by_cases htop : t.kind.isTopLevel = true
      · rw [SchemaIr.isEncoded, htop, Bool.not_true, Bool.false_or, SchemaIr.isRenderedOutside] at hencoded
        rw [protoTypeName_of_isTopLevel ir htop]
        simp only [Bool.and_eq_true, Bool.not_eq_true'] at hencoded
        simpa using hencoded.1.1
      · exact fun hparent => hinside t ht (Bool.eq_false_iff.mpr htop)
          (SchemaIr.oneofParents_subset hparent)
    obtain ⟨u, hu⟩ := SchemaIr.exists_firstOf ht
    have hshapes : ir.renderedShapes u = ir.encodedShapes t := by
      by_cases hsame : u = t
      · subst hsame
        exact shapes_eq_iff.mpr fun hkind =>
          hpayloads u ht (SchemaIr.isRendered_iff.mpr ⟨hparent, hu⟩) hkind
      · exact hshared t ht hencoded u (SchemaIr.firstOf_eq_some hu).1 hu hsame
    exact hshapes ▸ hasFields_of_firstOf hu hparent

end Condition

/-! ## The schema and the code -/

section Fit

variable {programEvents : Bool} {name : Name} {program : ProgramNode} {events : List EventNode}
  {e : Expansion}

theorem Expanded.messages (h : Expanded programEvents name program events e) :
    e.proto.messages = e.schemaIr.allMessages (toPascalCase name) := by
  rw [h.proto]
  exact protoSchemaString_messages h.variants

/-- Where names are distinct, the indexes are the positions of their messages. -/
theorem Expanded.indexes (h : Expanded programEvents name program events e)
    (hnodup : ((e.schemaIr.allMessages (toPascalCase name)).map (·.name)).Nodup) :
    (e.proto.accountDispatchIndex = if program.accounts.isEmpty then none
      else positionOf e.proto.messages
        (accountWrapperName (toPascalCase name) (program.accounts.map (toPascalCase ·.name)))) ∧
    (e.proto.instructionDispatchIndex = if program.instructions.isEmpty then none
      else positionOf e.proto.messages "Instructions".toList) ∧
    (e.proto.programEventOutputIndex =
      if program.instructions.isEmpty || !hasEvents programEvents events then none
      else positionOf e.proto.messages "ProgramEventOutput".toList) := by
  have hparent : ∀ oneof ∈ e.schemaIr.oneofs, oneof.kind = .instructionDispatch →
      oneof.parentMessage = "Instructions".toList := by
    intro oneof hmem hkind
    have hfilter : oneof ∈ e.schemaIr.oneofs.filter (·.kind = .instructionDispatch) :=
      List.mem_filter.mpr ⟨hmem, by simpa using hkind⟩
    rw [h.built.filter_instructionDispatch] at hfilter
    exact (h.built.instructionDispatchOf hfilter).parent
  rw [h.messages, h.proto, accountDispatchIndex_eq hnodup,
    instructionDispatchIndex_eq hnodup h.variants hparent, programEventOutputIndex_eq hnodup h.variants,
    h.built.accounts, h.built.hasDispatch_instruction, h.built.hasDispatch_event]
  refine ⟨by rw [List.isEmpty_map], ?_, ?_⟩
  · cases program.instructions.isEmpty <;> rfl
  · cases program.instructions.isEmpty <;> cases hasEvents programEvents events <;> rfl

/-- The schema and the code describe the same messages if and only if the schema is consistent. -/
theorem schema_matches_iff (h : expand programEvents name program events = .ok e) :
    SchemaMatches programEvents name program events e ↔ Consistent (toPascalCase name) e.schemaIr := by
  have hexpanded := expand_eq h
  have hbuilt := hexpanded.built
  constructor
  · rintro ⟨hdistinct, hdeclared, hdescribed, -, -, -⟩
    rw [hexpanded.messages] at hdistinct hdeclared hdescribed
    obtain ⟨htypes, houtput⟩ := (described_iff hexpanded hdistinct).mp hdescribed
    obtain ⟨hinside, hshared, hpayloads⟩ := (typesDescribed_iff hdistinct).mp htypes
    exact
      { names := hbuilt.namesApart_iff.mpr ⟨hdistinct, hinside⟩
        shared := hshared
        payloads := hpayloads
        linked := (declared_iff hbuilt).mp hdeclared
        output := houtput }
  · rintro ⟨hnames, hshared, hpayloads, hlinked, houtput⟩
    obtain ⟨hdistinct, hinside⟩ := hbuilt.namesApart_iff.mp hnames
    have htypes := (typesDescribed_iff hdistinct).mpr ⟨hinside, hshared, hpayloads⟩
    obtain ⟨haccount, hinstruction, hevent⟩ := hexpanded.indexes hdistinct
    refine ⟨?_, ?_, ?_, haccount, hinstruction, hevent⟩
    · rw [hexpanded.messages]
      exact hdistinct
    · rw [hexpanded.messages]
      exact (declared_iff hbuilt).mpr hlinked
    · rw [hexpanded.messages]
      exact (described_iff hexpanded hdistinct).mpr ⟨htypes, houtput⟩

end Fit

/-- A swap with an event of its name, an account, and an enum. -/
def swapProgram : ProgramNode :=
  let events : List EventNode :=
    [⟨"swap".toList, .struct [⟨"amount".toList, none, .number ⟨.u64, .le⟩, none⟩], []⟩]
  { publicKey := []
    accounts :=
      [⟨"pool".toList, .value
        [⟨"owner".toList, none, .publicKey, none⟩, ⟨"side".toList, none, .link "side".toList, none⟩],
        []⟩]
    instructions :=
      [⟨"swap".toList, [⟨"payer".toList, none, none⟩],
        [⟨"amount".toList, none, .number ⟨.u64, .le⟩, none⟩], []⟩]
    definedTypes :=
      [⟨"side".toList, .enum [⟨"bid".toList, none, .empty⟩, ⟨"ask".toList, none, .empty⟩]
        (.value ⟨.u8, .le⟩)⟩]
    events
    constants := [] }

theorem swapProgram_matches :
    ∃ e, expand true "demo".toList swapProgram swapProgram.events = .ok e ∧
      SchemaMatches true "demo".toList swapProgram swapProgram.events e := by
  have hrun : ((expand true "demo".toList swapProgram swapProgram.events).toOption.any fun e =>
      decide (Consistent (toPascalCase "demo".toList) e.schemaIr)) = true := by decide +kernel
  cases h : expand true "demo".toList swapProgram swapProgram.events with
  | error panic =>
      rw [h] at hrun
      contradiction
  | ok e =>
      rw [h] at hrun
      exact ⟨e, rfl, (schema_matches_iff h).mpr (of_decide_eq_true hrun)⟩

/-! ## An account and a defined type of one name -/

instance (messages : List ProtoMessage) (name : Name) (shapes : List FieldShape) :
    Decidable (HasFields messages name shapes) :=
  inferInstanceAs (Decidable (∃ m ∈ messages, m.name = name ∧ m.body.shapes = some shapes))

/-- The schema has the defined type, and the code has the account. -/
def marginProgram : ProgramNode :=
  { publicKey := []
    accounts :=
      [⟨"margin".toList, .value [⟨"balance".toList, none, .number ⟨.u64, .le⟩, none⟩], []⟩]
    instructions := []
    definedTypes :=
      [⟨"margin".toList, .struct [⟨"level".toList, none, .number ⟨.u8, .le⟩, none⟩]⟩]
    events := []
    constants := [] }

/-- The impl of the account. -/
def marginImpl : ProstImpl :=
  ⟨.topLevel "Margin".toList, .fields [⟨1, .singular, .scalar .uint64⟩]⟩

theorem marginProgram_mismatch :
    ∃ e, expand false "demo".toList marginProgram [] = .ok e ∧
      ¬SchemaMatches false "demo".toList marginProgram [] e := by
  have hrun : ((expand false "demo".toList marginProgram []).toOption.any fun e =>
      decide (marginImpl ∈ e.impls ∧ ¬HasFields e.proto.messages "Margin".toList
        [⟨1, .singular, false, .scalar .uint64⟩])) = true := by decide +kernel
  cases h : expand false "demo".toList marginProgram [] with
  | error panic =>
      rw [h] at hrun
      contradiction
  | ok e =>
      rw [h] at hrun
      obtain ⟨himpl, hfields⟩ := of_decide_eq_true hrun
      exact ⟨e, rfl, fun hmatches => hfields (hmatches.described marginImpl himpl)⟩

end Shipstern.Codegen
