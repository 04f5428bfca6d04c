import Shipstern.Codegen.CodecRoundTrip
import Shipstern.Codegen.SchemaFit

/-!
# The codecs of a program

The messages that the macro renders for a schema, as a crate: what each path of the generated code
stands for. The builders number fields and variants from one on, so the tags of each message differ
and all that the generated code writes is read back. The output with the events of an instruction
is written only, and left out.
-/

namespace Shipstern.Codegen

open Codama Stateful

/-! ## The crate of a schema -/

/-- What a path means that has no type. Code that mentions it does not compile. -/
def noMessage : MessageDecl := .struct .outside ⟨[], [], .helper⟩

namespace SchemaIr

variable (ir : SchemaIr)

/-- The enum of a name. -/
def enumOf (name : Name) : Option OneofIr :=
  ir.oneofs.find? fun oneof =>
    oneof.kind ≠ .instructionDispatch ∧ oneof.kind ≠ .eventDispatch ∧ oneof.parentMessage = name

/-- The type of a name outside of the modules, and inside of one. -/
def outsideOf (name : Name) : Option TypeIr :=
  ir.types.find? fun t => ir.isRenderedOutside t ∧ t.name = name

def insideOf (kind : TypeKindIr) (name : Name) : Option TypeIr :=
  (ir.payloadTypes (· = kind)).find? (·.name = name)

def structDecl (t : TypeIr) : MessageDecl := .struct (ir.scopeOf t) t

def enumDecl (oneof : OneofIr) : MessageDecl :=
  match oneof.variants with
  | first :: rest => .enum first rest
  | [] => noMessage

/-- The types that `rust_types_from_ir` renders. -/
def crate : Crate
  | .topLevel name =>
      match ir.enumOf name with
      | some oneof => enumDecl oneof
      | none => (ir.outsideOf name).elim noMessage ir.structDecl
  | .instruction name => (ir.insideOf .instruction name).elim noMessage ir.structDecl
  | .event name => (ir.insideOf .event name).elim noMessage ir.structDecl
  | .dispatch _ => noMessage

def dispatchDecl (oneof : OneofIr) : Option WrapperDecl :=
  match oneof.kind with
  | .instructionDispatch =>
      some (.dispatch ⟨.instruction, ir.instructionNames⟩ "Instruction".toList oneof.variants)
  | .eventDispatch => some (.dispatch ⟨.event, ir.eventNames⟩ "Event".toList oneof.variants)
  | .enum _ => none

/-- The wrappers: of the instructions, the events and the accounts. -/
def wrappers (programName : Name) : List (RustPath × WrapperDecl) :=
  ir.oneofs.filterMap (fun oneof =>
      (ir.dispatchDecl oneof).map fun d => (.dispatch oneof.parentMessage, d)) ++
    (ir.accountWrappers programName).map fun name => (.topLevel name, .account ir.accountNames)

end SchemaIr

/-! ## Numbers of variants -/

def VariantsNumbered (oneof : OneofIr) : Prop :=
  oneof.variants.map (·.tag) = List.range' 1 oneof.variants.length

def OneofsNumbered (ir : SchemaIr) : Prop := ∀ oneof ∈ ir.oneofs, VariantsNumbered oneof

theorem OneofsNumbered.of_eq {before after : SchemaIr} (h : OneofsNumbered before)
    (honeofs : after.oneofs = before.oneofs) : OneofsNumbered after := by
  rw [OneofsNumbered, honeofs]
  exact h

theorem OneofsNumbered.withOneofs {ir : SchemaIr} {oneofs : List OneofIr} (h : OneofsNumbered ir)
    (hnew : ∀ oneof ∈ oneofs, VariantsNumbered oneof) : OneofsNumbered (ir.withOneofs oneofs) := by
  intro oneof hmem
  exact (List.mem_append.mp hmem).elim (h oneof) (hnew oneof)

/-- Variants get the numbers after their positions. -/
theorem buildEnumVariants_yields (enumName : Name) (i : Nat) (variants : List EnumVariantTypeNode) :
    Yields (fun result : List OneofVariantIr =>
        result.map (·.tag) = List.range' (i + 1) result.length)
      (buildEnumVariants enumName i variants) := by
  induction variants generalizing i with
  | nil =>
      intro ir result ir' h
      obtain ⟨rfl, -⟩ := pure_ok.mp h
      rfl
  | cons variant variants ih =>
      obtain ⟨name, discriminator, payload⟩ := variant
      intro ir result ir' h
      rw [buildEnumVariants] at h
      by_cases hexplicit : discriminator.any (· ≠ i) = true
      · rw [if_pos hexplicit] at h
        obtain ⟨_, _, hthrow, -⟩ := bind_ok.mp h
        exact (throw_ok.mp hthrow).elim
      · rw [if_neg hexplicit] at h
        obtain ⟨fields, _, -, h⟩ := bind_ok.mp h
        obtain ⟨messageType, _, -, h⟩ := bind_ok.mp h
        obtain ⟨rest, _, hrest, hpure⟩ := bind_ok.mp h
        obtain ⟨rfl, -⟩ := pure_ok.mp hpure
        rw [List.map_cons, List.length_cons, List.range'_succ, ih (i + 1) hrest]

theorem dispatchVariants_numbered (parent field : Name) (names : List Name) (kind : OneofKindIr) :
    VariantsNumbered (dispatchOneof parent field names kind) := by
  rw [VariantsNumbered]
  refine List.ext_getElem (by simp [dispatchOneof, dispatchVariants]) fun i _ _ => ?_
  simp [dispatchOneof, dispatchVariants, Nat.add_comm]

theorem buildDefinedType_numbers {definedType : DefinedTypeNode} {ir ir' : SchemaIr} {u : Unit}
    (h : buildDefinedType definedType ir = .ok (u, ir')) (hbefore : OneofsNumbered ir) :
    OneofsNumbered ir' := by
  obtain ⟨name, node⟩ := definedType
  have hdone (hpure : (pure () : Build Unit) ir = .ok (u, ir')) : OneofsNumbered ir' := by
    obtain ⟨-, rfl⟩ := pure_ok.mp hpure
    exact hbefore
  cases node with
  | struct fields =>
      obtain ⟨fields, grown, hfields, hpush⟩ := bind_ok.mp h
      obtain rfl := pushType_run hpush
      exact hbefore.of_eq (buildFieldsIr_grows _ _ hfields).oneofs
  | enum variants size =>
      obtain ⟨built, grown, hvariants, h⟩ := bind_ok.mp h
      obtain ⟨⟨⟩, pushed, hpush, h⟩ := bind_ok.mp h
      obtain rfl := pushType_run hpush
      cases size with
      | wrapped wrapper inner => exact (throw_ok.mp h).elim
      | value number =>
          obtain rfl := pushOneof_run h
          have hgrown := hbefore.of_eq (buildEnumVariants_run hvariants).1.oneofs
          have hpushed : OneofsNumbered (grown.push ⟨toPascalCase name, [], .definedType⟩) :=
            hgrown.of_eq rfl
          refine hpushed.withOneofs fun oneof hmem => ?_
          obtain rfl := List.mem_singleton.mp hmem
          exact buildEnumVariants_yields _ 0 variants hvariants
  | tuple items =>
      have htuple (hrun : buildDefinedTypeTuple (toPascalCase name) items ir = .ok (u, ir')) :
          OneofsNumbered ir' := by
        obtain ⟨fields, grown, hfields, hpush⟩ := bind_ok.mp hrun
        obtain rfl := pushType_run hpush
        exact hbefore.of_eq (buildItems_grows _ _ hfields).oneofs
      rcases items with _ | ⟨item, _ | ⟨next, items⟩⟩
      · exact htuple h
      · exact hdone h
      · exact htuple h
  | _ => exact hdone h

theorem buildDefinedTypes_numbers {definedTypes : List DefinedTypeNode} {ir ir' : SchemaIr}
    {u : Unit} (h : buildDefinedTypes definedTypes ir = .ok (u, ir')) (hbefore : OneofsNumbered ir) :
    OneofsNumbered ir' := by
  obtain ⟨⟨⟩, registered, hregister, h₁⟩ := bind_ok.mp h
  obtain ⟨⟨⟩, reserved, hreserve, h₂⟩ := bind_ok.mp h₁
  obtain ⟨⟨⟩, aliased, halias, h₃⟩ := bind_ok.mp h₂
  obtain ⟨⟨⟩, materialized, hmaterialize, hbuild⟩ := bind_ok.mp h₃
  obtain rfl := modify_ok.mp hregister
  obtain rfl := modify_ok.mp hreserve
  obtain rfl := modify_ok.mp halias
  have hregistered := (foldl_register (f := registerDefined) (fun _ _ => ⟨rfl, rfl, rfl⟩)
    definedTypes ir).2.1
  have haliased := (foldl_register registerAlias_untouched definedTypes
    ((definedTypes.foldl registerDefined ir).reserveTypeNames (concreteNames definedTypes))).2.1
  have hmaterialized : OneofsNumbered materialized :=
    forM_induction (P := fun _ mid => OneofsNumbered mid)
      (hbefore.of_eq (haliased.trans hregistered))
      (fun _ _ _ _ _ hmid hrun => hmid.of_eq (discard_grows (aliasField_grows _) hrun).oneofs)
      hmaterialize
  exact forM_induction (P := fun _ mid => OneofsNumbered mid) hmaterialized
    (fun _ _ _ _ _ hmid hrun => buildDefinedType_numbers hrun hmid) hbuild

section

variable {programEvents : Bool} {program : ProgramNode} {events : List EventNode}

theorem buildSchemaIr_numbers {programName : Name} {ir : SchemaIr} {u : Unit}
    (h : buildSchemaIr programEvents program events programName .default = .ok (u, ir)) :
    OneofsNumbered ir := by
  obtain ⟨⟨⟩, reserved, hreserve, h₁⟩ := bind_ok.mp h
  obtain ⟨⟨⟩, defined, hdefined, h₂⟩ := bind_ok.mp h₁
  obtain ⟨⟨⟩, withAccounts, haccounts, h₃⟩ := bind_ok.mp h₂
  obtain ⟨⟨⟩, withInstructions, hinstructions, hevents⟩ := bind_ok.mp h₃
  obtain rfl := modify_ok.mp hreserve
  have hstart : OneofsNumbered (SchemaIr.default.reserveTypeNames
      (directMessageNames programEvents program events programName)) :=
    fun oneof hmem => by contradiction
  have hnumbered := (buildDefinedTypes_numbers hdefined hstart).of_eq (buildAccounts_run haccounts).2.1
  obtain ⟨ixMiddle, hix, rfl⟩ := buildInstructionsSchema_run hinstructions
  obtain ⟨evMiddle, hev, rfl⟩ := events_run hevents
  have hix : OneofsNumbered (ixMiddle.withOneofs (instructionDispatch program)) := by
    refine (hnumbered.of_eq hix.oneofs).withOneofs fun oneof hmem => ?_
    rw [(mem_instructionDispatch hmem).2]
    exact dispatchVariants_numbered _ _ _ _
  refine (hix.of_eq hev.oneofs).withOneofs fun oneof hmem => ?_
  rw [(mem_eventDispatch hmem).2]
  exact dispatchVariants_numbered _ _ _ _

end

/-! ## Tags -/

/-- A message with as many fields or variants has no tag left for the last. -/
structure SchemaIr.TagsFit (ir : SchemaIr) : Prop where
  fields : ∀ t ∈ ir.types, t.fields.length < 2 ^ 29
  variants : ∀ oneof ∈ ir.oneofs, oneof.variants.length < 2 ^ 29
  accounts : ir.accountNames.length < 2 ^ 29

theorem wellTagged_range {n : Nat} (h : n < 2 ^ 29) : WellTagged (List.range' 1 n) := by
  refine ⟨List.nodup_range', fun tag htag => ?_⟩
  obtain ⟨hfirst, hlast⟩ := List.mem_range'_1.mp htag
  exact ⟨hfirst, by omega⟩

theorem numbered_tags (names : List Name) :
    (numbered names).map (·.1) = List.range' 1 names.length :=
  List.ext_getElem (by simp [numbered]) fun i _ _ => by simp [numbered, Nat.add_comm]

section Tags

variable {ir : SchemaIr} (hnumbered : Numbered ir) (honeofs : OneofsNumbered ir) (hfit : ir.TagsFit)

include hnumbered hfit in
theorem structDecl_wellTagged {t : TypeIr} (ht : t ∈ ir.types) :
    WellTagged (ir.structDecl t).tags := by
  show WellTagged (t.fields.map (·.tag))
  rw [hnumbered t ht]
  exact wellTagged_range (hfit.fields t ht)

include honeofs hfit in
theorem enumDecl_wellTagged {oneof : OneofIr} (hmem : oneof ∈ ir.oneofs) :
    WellTagged (SchemaIr.enumDecl oneof).tags := by
  have hvariants := honeofs oneof hmem
  have hlength := hfit.variants oneof hmem
  rw [SchemaIr.enumDecl]
  cases honeof : oneof.variants with
  | nil => exact show WellTagged [] by decide
  | cons first rest =>
      rw [VariantsNumbered, honeof] at hvariants
      rw [honeof] at hlength
      show WellTagged ((first :: rest).map (·.tag))
      rw [hvariants]
      exact wellTagged_range hlength

include hnumbered hfit in
theorem found_wellTagged {p : TypeIr → Bool} {types : List TypeIr} (hsub : ∀ t ∈ types, t ∈ ir.types) :
    WellTagged ((types.find? p).elim noMessage ir.structDecl).tags := by
  cases hfind : types.find? p with
  | none => exact show WellTagged [] by decide
  | some t => exact structDecl_wellTagged hnumbered hfit (hsub t (List.mem_of_find?_eq_some hfind))

include hnumbered honeofs hfit

theorem crate_tagsDiffer : ir.crate.TagsDiffer := by
  have hpayload (kind : TypeKindIr) : ∀ t ∈ ir.payloadTypes (· = kind), t ∈ ir.types :=
    fun t ht => List.mem_of_mem_filter (List.mem_of_mem_filter ht)
  intro path
  cases path with
  | topLevel name =>
      rw [SchemaIr.crate]
      cases hfind : ir.enumOf name with
      | some oneof => exact enumDecl_wellTagged honeofs hfit (List.mem_of_find?_eq_some hfind)
      | none => exact found_wellTagged hnumbered hfit fun t ht => ht
  | instruction name => exact found_wellTagged hnumbered hfit (hpayload .instruction)
  | event name => exact found_wellTagged hnumbered hfit (hpayload .event)
  | dispatch parent => exact show WellTagged [] by decide

omit hnumbered in
theorem wrappers_wellTagged {programName : Name} {wrapper : RustPath × WrapperDecl}
    (hmem : wrapper ∈ ir.wrappers programName) : WellTagged wrapper.2.tags := by
  rcases List.mem_append.mp hmem with hmem | hmem
  · obtain ⟨oneof, honeof, hdecl⟩ := List.mem_filterMap.mp hmem
    have htagged : WellTagged (oneof.variants.map (·.tag)) := by
      rw [honeofs oneof honeof]
      exact wellTagged_range (hfit.variants oneof honeof)
    obtain ⟨d, hd, rfl⟩ := Option.map_eq_some_iff.mp hdecl
    rw [SchemaIr.dispatchDecl] at hd
    split at hd
    · obtain rfl := Option.some.inj hd
      exact htagged
    · obtain rfl := Option.some.inj hd
      exact htagged
    · contradiction
  · obtain ⟨name, -, rfl⟩ := List.mem_map.mp hmem
    show WellTagged ((numbered ir.accountNames).map (·.1))
    rw [numbered_tags]
    exact wellTagged_range hfit.accounts

end Tags
/-! ## The impls of the crate -/

/-- The impl of a declaration, under its path. -/
def MessageDecl.impl (path : RustPath) : MessageDecl → ProstImpl
  | .struct scope t => prostStructImpl scope t
  | .enum first rest =>
      ⟨path, .oneof ((first :: rest).map fun v => (v.tag, .topLevel v.messageType))⟩

def WrapperDecl.impl (path : RustPath) : WrapperDecl → ProstImpl
  | .dispatch scope _ variants =>
      ⟨path, .dispatch (variants.map fun v =>
        ⟨v.tag, scope.resolveMsg (accountsName v.messageType),
          scope.resolveMsg (argsName v.messageType)⟩)⟩
  | .account names => ⟨path, .oneof ((numbered names).map fun v => (v.1, .topLevel v.2))⟩

/-- The declaration of an impl: a type of the crate, or a wrapper. -/
inductive SchemaIr.Declares (ir : SchemaIr) (programName : Name) (impl : ProstImpl) : Prop
  | type (h : (ir.crate impl.type).impl impl.type = impl)
  | wrapper (d : WrapperDecl) (hmem : (impl.type, d) ∈ ir.wrappers programName)
      (h : d.impl impl.type = impl)

theorem scopeOf_outside {ir : SchemaIr} {t : TypeIr} (h : t.kind.isTopLevel = true) :
    ir.scopeOf t = .outside := by
  rw [SchemaIr.scopeOf]
  cases hkind : t.kind with
  | definedType | account | helper => rfl
  | instruction | event =>
      rw [hkind] at h
      contradiction

section Impls

variable {programEvents : Bool} {name : Name} {program : ProgramNode} {events : List EventNode}
  {e : Expansion} (h : Expanded programEvents name program events e)
  (hdistinct : (e.impls.map (·.type)).Nodup)

include h

theorem Expanded.mem_outside {t : TypeIr} (ht : t ∈ e.schemaIr.types)
    (houtside : e.schemaIr.isRenderedOutside t = true) : prostStructImpl .outside t ∈ e.impls := by
  rw [h.impls]
  refine List.mem_append_left _ (List.mem_append_left _ (List.mem_append_left _ ?_))
  exact List.mem_map_of_mem (List.mem_filter.mpr ⟨ht, houtside⟩)

theorem Expanded.mem_oneof {oneof : OneofIr} (hmem : oneof ∈ e.schemaIr.oneofs) {impl : ProstImpl}
    (himpl : impl ∈ oneofImpls e.schemaIr oneof) : impl ∈ e.impls := by
  rw [h.impls]
  refine List.mem_append_left _ (List.mem_append_left _ (List.mem_append_right _ ?_))
  exact List.mem_flatMap.mpr ⟨oneof, hmem, himpl⟩

include hdistinct

/-- A type is rendered once, so the first of its name is the type itself. -/
theorem Expanded.declares_outside {t : TypeIr} (ht : t ∈ e.schemaIr.types)
    (houtside : e.schemaIr.isRenderedOutside t = true) :
    e.schemaIr.Declares (toPascalCase name) (prostStructImpl .outside t) := by
  have hrendered := houtside
  rw [SchemaIr.isRenderedOutside, Bool.and_eq_true, Bool.and_eq_true] at hrendered
  have hparent : t.name ∉ e.schemaIr.oneofParents := by simpa using hrendered.1.1
  have henum : e.schemaIr.enumOf t.name = none := by
    refine List.find?_eq_none.mpr fun oneof hmem hsome => hparent ?_
    have hname : oneof.parentMessage = t.name := (of_decide_eq_true hsome).2.2
    exact hname ▸ List.mem_map_of_mem hmem
  obtain ⟨u, hfind⟩ : ∃ u, e.schemaIr.outsideOf t.name = some u :=
    Option.isSome_iff_exists.mp (List.find?_isSome.mpr ⟨t, ht, by simp [houtside]⟩)
  have hu := List.find?_some hfind
  obtain ⟨huOutside, huName⟩ : e.schemaIr.isRenderedOutside u = true ∧ u.name = t.name := by
    simpa using hu
  have hmem := h.mem_outside (List.mem_of_find?_eq_some hfind) huOutside
  have hsame : prostStructImpl .outside u = prostStructImpl .outside t :=
    List.inj_on_of_nodup_map hdistinct hmem (h.mem_outside ht houtside)
      (congrArg RustPath.topLevel huName)
  have hscope : e.schemaIr.scopeOf u = .outside := by
    rw [SchemaIr.isRenderedOutside, Bool.and_eq_true, Bool.and_eq_true] at huOutside
    exact scopeOf_outside huOutside.1.2
  have hcrate : e.schemaIr.crate (.topLevel t.name) = e.schemaIr.structDecl u := by
    rw [SchemaIr.crate, henum, hfind]
    rfl
  refine .type ?_
  show (e.schemaIr.crate (.topLevel t.name)).impl _ = _
  rw [hcrate, SchemaIr.structDecl, hscope]
  exact hsame

theorem Expanded.declares_enum {oneof : OneofIr} (hmem : oneof ∈ e.schemaIr.oneofs)
    {number : NumberTypeNode} (hkind : oneof.kind = .enum number) {impl : ProstImpl}
    (himpl : impl ∈ oneofImpls e.schemaIr oneof) :
    e.schemaIr.Declares (toPascalCase name) impl := by
  have himpls {o : OneofIr} {n : NumberTypeNode} (ho : o.kind = .enum n) :
      oneofImpls e.schemaIr o = [⟨.topLevel o.parentMessage,
        .oneof (o.variants.map fun v => (v.tag, .topLevel v.messageType))⟩] := by
    rw [oneofImpls, ho]
  obtain ⟨found, hfind⟩ : ∃ found, e.schemaIr.enumOf oneof.parentMessage = some found :=
    Option.isSome_iff_exists.mp (List.find?_isSome.mpr ⟨oneof, hmem, by simp [hkind]⟩)
  have hfound := List.mem_of_find?_eq_some hfind
  obtain ⟨hinstruction, hevent, hname⟩ : found.kind ≠ .instructionDispatch ∧
      found.kind ≠ .eventDispatch ∧ found.parentMessage = oneof.parentMessage := by
    simpa using List.find?_some hfind
  obtain ⟨foundNumber, hfoundKind⟩ : ∃ n, found.kind = .enum n := by
    cases hfoundKind : found.kind with
    | enum n => exact ⟨n, rfl⟩
    | instructionDispatch => exact absurd hfoundKind hinstruction
    | eventDispatch => exact absurd hfoundKind hevent
  have hfoundMem := h.mem_oneof hfound (himpls hfoundKind ▸ List.mem_singleton_self _)
  have hoccurs := h.mem_oneof hmem himpl
  rw [himpls hkind, List.mem_singleton] at himpl
  have hsame := List.inj_on_of_nodup_map hdistinct hfoundMem hoccurs
    (by rw [himpl]; exact congrArg RustPath.topLevel hname)
  refine .type ?_
  have hcrate : e.schemaIr.crate impl.type = SchemaIr.enumDecl found := by
    rw [himpl]
    show SchemaIr.crate _ (.topLevel oneof.parentMessage) = _
    rw [SchemaIr.crate, hfind]
  rw [hcrate, ← hsame, SchemaIr.enumDecl]
  cases hvariants : found.variants with
  | nil => exact absurd hvariants (h.variants found hfound)
  | cons first rest => rfl

/-- The payloads and the wrapper of a module. -/
theorem Expanded.declares_dispatch {kind : TypeKindIr} {dispatch : OneofKindIr}
    {path : Name → RustPath} {rename : RenameMap} {parent text : Name} {oneof : OneofIr}
    (hmodule : ModuleOf e.schemaIr kind dispatch path rename)
    (honeof : DispatchOf e.schemaIr kind dispatch parent oneof)
    (hcrate : ∀ n, e.schemaIr.crate (path n) =
      (e.schemaIr.insideOf kind n).elim noMessage e.schemaIr.structDecl)
    (hdecl : e.schemaIr.dispatchDecl oneof =
      some (.dispatch ⟨path, e.schemaIr.namesOf (· = kind)⟩ text oneof.variants))
    {impl : ProstImpl} (himpl : impl ∈ oneofImpls e.schemaIr oneof) :
    e.schemaIr.Declares (toPascalCase name) impl := by
  have hall : ∀ impl ∈ oneofImpls e.schemaIr oneof, impl ∈ e.impls := fun _ => h.mem_oneof honeof.mem
  have himpls := hmodule.impls oneof honeof.kind_eq
  rw [dispatchImpls, ← honeof.wrappers] at himpls
  have hscope : ∀ t ∈ e.schemaIr.payloadTypes (· = kind), e.schemaIr.scopeOf t =
      dispatchScope path (e.schemaIr.namesOf (· = kind)) e.schemaIr.collidingNames
        (e.schemaIr.dispatchWrappers dispatch) t := by
    intro t ht
    have hkind := (List.mem_filter.mp (List.mem_of_mem_filter ht)).2
    exact hmodule.scope t (of_decide_eq_true hkind)
  have hpayload : ∀ t ∈ e.schemaIr.payloadTypes (· = kind),
      prostStructImpl (e.schemaIr.scopeOf t) t ∈ oneofImpls e.schemaIr oneof := by
    intro t ht
    rw [himpls, hscope t ht]
    exact List.mem_append_left _ (List.mem_map.mpr ⟨t, ht, rfl⟩)
  have hpath : ∀ t ∈ e.schemaIr.payloadTypes (· = kind),
      (prostStructImpl (e.schemaIr.scopeOf t) t).type = path t.name := by
    intro t ht
    rw [hscope t ht]
    rfl
  rw [himpls] at himpl
  rcases List.mem_append.mp himpl with himpl | himpl
  · obtain ⟨t, ht, rfl⟩ := List.mem_map.mp himpl
    rw [← hscope t ht]
    obtain ⟨u, hfind⟩ : ∃ u, e.schemaIr.insideOf kind t.name = some u :=
      Option.isSome_iff_exists.mp (List.find?_isSome.mpr ⟨t, ht, by simp⟩)
    have hu := List.mem_of_find?_eq_some hfind
    have huName : u.name = t.name := by simpa using List.find?_some hfind
    have hsame := List.inj_on_of_nodup_map hdistinct (hall _ (hpayload u hu))
      (hall _ (hpayload t ht)) (by rw [hpath u hu, hpath t ht, huName])
    refine .type ?_
    rw [hpath t ht, hcrate, hfind]
    exact hsame
  · obtain rfl := List.mem_singleton.mp himpl
    let d : WrapperDecl := .dispatch ⟨path, e.schemaIr.namesOf (· = kind)⟩ text oneof.variants
    refine .wrapper d (List.mem_append_left _ ?_) ?_
    · exact List.mem_filterMap.mpr ⟨oneof, honeof.mem, by rw [hdecl]; rfl⟩
    · refine congrArg (fun variants => ProstImpl.mk _ (.dispatch variants)) ?_
      refine List.map_congr_left fun v hv => ?_
      have haccounts := (honeof.messages v hv).accounts
      rw [dispatchVariant, Scope.resolveMsg, if_pos (List.contains_iff_mem.mpr haccounts)]
      rfl

theorem Expanded.declares {impl : ProstImpl} (hmem : impl ∈ e.impls)
    (houtput : impl ≠ programEventOutputImpl !program.instructions.isEmpty) :
    e.schemaIr.Declares (toPascalCase name) impl := by
  have himpl := hmem
  rw [h.impls, List.mem_append, List.mem_append, List.mem_append] at himpl
  rcases himpl with ((himpl | himpl) | himpl) | himpl
  · obtain ⟨t, ht, rfl⟩ := List.mem_map.mp himpl
    obtain ⟨ht, houtside⟩ := List.mem_filter.mp ht
    exact h.declares_outside hdistinct ht houtside
  · obtain ⟨oneof, honeof, himpl⟩ := List.mem_flatMap.mp himpl
    rcases h.built.oneof_cases honeof with ⟨⟨number, hkind⟩, -, -⟩ | hdispatch | hdispatch
    · exact h.declares_enum hdistinct honeof hkind himpl
    · have hkind := (h.built.instructionDispatchOf hdispatch).kind_eq
      exact h.declares_dispatch hdistinct (instructionModule _)
        (h.built.instructionDispatchOf hdispatch) (fun _ => rfl)
        (by rw [SchemaIr.dispatchDecl, hkind]; rfl) himpl
    · have hkind := (h.built.eventDispatchOf hdispatch).kind_eq
      exact h.declares_dispatch hdistinct (eventModule _)
        (h.built.eventDispatchOf hdispatch) (fun _ => rfl)
        (by rw [SchemaIr.dispatchDecl, hkind]; rfl) himpl
  · have hnames := h.built.accounts
    rw [accountParserImpls, ← hnames] at himpl
    split at himpl
    · contradiction
    next hsome =>
      obtain rfl := List.mem_singleton.mp himpl
      refine .wrapper (.account e.schemaIr.accountNames) (List.mem_append_right _ ?_) ?_
      · rw [SchemaIr.accountWrappers, if_neg hsome]
        exact List.mem_singleton_self _
      · refine congrArg (fun variants => ProstImpl.mk _ (.oneof variants)) ?_
        exact List.ext_getElem (by simp [numbered]) fun i _ _ => by simp [numbered]
  · split at himpl
    · exact absurd (List.mem_singleton.mp himpl) houtput
    · contradiction

end Impls
/-! ## The round trip of a program -/

instance (ir : SchemaIr) : Decidable ir.TagsFit :=
  decidable_of_iff
    ((∀ t ∈ ir.types, t.fields.length < 2 ^ 29) ∧
      (∀ oneof ∈ ir.oneofs, oneof.variants.length < 2 ^ 29) ∧ ir.accountNames.length < 2 ^ 29)
    ⟨fun h => ⟨h.1, h.2.1, h.2.2⟩, fun h => ⟨h.fields, h.variants, h.accounts⟩⟩

section

variable {prost : Prost} (laws : prost.Lawful) {programEvents : Bool} {name : Name}
  {program : ProgramNode} {events : List EventNode} {e : Expansion}

/-- The builders number all fields and variants after their positions. -/
theorem expand_numbers (h : expand programEvents name program events = .ok e) :
    Numbered e.schemaIr ∧ OneofsNumbered e.schemaIr := by
  refine ⟨(expand_eq h).built.numbered, ?_⟩
  obtain ⟨⟨⟨⟩, ir⟩, hbuild, hrest⟩ := Fallible.bind_eq_ok.mp h
  obtain ⟨impls, -, hpure⟩ := Fallible.bind_eq_ok.mp hrest
  obtain rfl := Except.ok.inj hpure
  exact buildSchemaIr_numbers hbuild

include laws in
/-- Fields and variants are numbered from one on, and all that the code of a program writes is read
back, down to the recursion limit, but for the output with events. No two of its types may have one
name, since it does not compile then. -/
theorem expand_readsBack (h : expand programEvents name program events = .ok e)
    (hfit : e.schemaIr.TagsFit) (hdistinct : (e.impls.map (·.type)).Nodup) (levels : Nat) :
    let crate := e.schemaIr.crate
    (∀ impl ∈ e.impls, impl ≠ programEventOutputImpl !program.instructions.isEmpty →
      e.schemaIr.Declares (toPascalCase name) impl) ∧
    (Numbered e.schemaIr ∧ OneofsNumbered e.schemaIr) ∧
    (∀ path, let m := crate.message prost levels path
      m.ReadsBack (fun start _ => start = m.default) crate.KeepsZeros) ∧
    ∀ wrapper ∈ e.schemaIr.wrappers (toPascalCase name),
      (wrapper.2.message prost (crate.message prost levels)).ReadsBack
        (wrapper.2.FreshFor prost (crate.message prost levels)) crate.KeepsZeros := by
  have hnumbers := expand_numbers h
  have htags := crate_tagsDiffer hnumbers.1 hnumbers.2 hfit
  exact ⟨fun impl => (expand_eq h).declares hdistinct, hnumbers,
    Crate.message_readsBack laws htags levels,
    fun wrapper hmem => WrapperDecl.message_readsBack laws htags levels
      (wrappers_wellTagged hnumbers.2 hfit hmem)⟩

end

theorem swapProgram_readsBack :
    ∃ e, expand true "demo".toList swapProgram swapProgram.events = .ok e ∧
      ∀ path, let m := e.schemaIr.crate.message prostWire 3 path
        m.ReadsBack (fun start _ => start = m.default) e.schemaIr.crate.KeepsZeros := by
  have hrun : ((expand true "demo".toList swapProgram swapProgram.events).toOption.any fun e =>
      decide (e.schemaIr.TagsFit ∧ (e.impls.map (·.type)).Nodup)) = true := by decide +kernel
  cases h : expand true "demo".toList swapProgram swapProgram.events with
  | error panic =>
      rw [h] at hrun
      contradiction
  | ok e =>
      rw [h] at hrun
      obtain ⟨hfit, hdistinct⟩ := of_decide_eq_true hrun
      exact ⟨e, rfl, (expand_readsBack ProstWire.prostWire_lawful h hfit hdistinct 3).2.2.1⟩

end Shipstern.Codegen
