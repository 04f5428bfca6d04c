import Shipstern.Codegen.SchemaMessages
import Shipstern.Lib.Fallible

/-!
# The impls of a schema

Which impls the generated code has, and when the messages of the schema describe them. Fields of a
type are rendered as they are encoded, but for the arguments of an event that name a message of an
event that an instruction has, too.
-/

namespace Shipstern.Codegen

open Codama

/-! ## Names in fields -/

section Names

variable {ir : SchemaIr} {t : TypeIr} {name : Name}

theorem resolve_instruction_eq (hwrapper : t.name ∉ ir.dispatchWrappers .instructionDispatch)
    (hkind : t.kind = .instruction) :
    protoNameOf ir ((ir.scopeOf t).resolveMsg name) = name := by
  have hscope : ir.scopeOf t =
      ⟨.instruction, ir.instructionNames.filter (!ir.collidingNames.contains ·)⟩ := by
    rw [SchemaIr.scopeOf, hkind]
    dsimp only
    rw [dispatchScope, if_neg (by simpa using hwrapper)]
  rw [hscope, Scope.resolveMsg]
  split
  next hlocal =>
    have hlocal : name ∈ ir.instructionNames ∧ name ∉ ir.collidingNames := by simpa using hlocal
    rw [protoNameOf, resolve_instruction, if_neg]
    rintro ⟨hname, htop⟩
    exact hlocal.2 (SchemaIr.mem_collidingNames.mpr ⟨SchemaIr.instructionNames_subset hname, htop⟩)
  · rfl

theorem resolve_event_eq_iff (hwrapper : t.name ∉ ir.dispatchWrappers .eventDispatch)
    (hkind : t.kind = .event) :
    protoNameOf ir ((ir.scopeOf t).resolveMsg name) = name ↔ name ∉ ir.twinNames := by
  have hscope : ir.scopeOf t = ⟨.event, ir.eventNames.filter (!ir.collidingNames.contains ·)⟩ := by
    rw [SchemaIr.scopeOf, hkind]
    dsimp only
    rw [dispatchScope, if_neg (by simpa using hwrapper)]
  rw [hscope, Scope.resolveMsg, SchemaIr.mem_twinNames]
  by_cases hlocal : name ∈ ir.eventNames ∧ name ∉ ir.collidingNames
  · obtain ⟨hevent, hapart⟩ := hlocal
    have htop : name ∉ ir.topLevelNames := fun htop =>
      hapart (SchemaIr.mem_collidingNames.mpr ⟨SchemaIr.eventNames_subset hevent, htop⟩)
    rw [if_pos (by simp [hevent, hapart]), protoNameOf, resolve_event]
    by_cases htwin : name ∈ ir.instructionNames
    · have hrenamed : "Evt".toList ++ name ≠ name := fun h =>
        absurd (List.append_left_eq_self.mp h) (by decide)
      rw [if_pos ⟨hevent, .inr htwin⟩]
      exact iff_of_false hrenamed fun h => h ⟨hevent, htwin, htop⟩
    · rw [if_neg fun h => h.2.elim htop htwin]
      exact iff_of_true rfl fun h => htwin h.2.1
  · rw [if_neg (by simpa using hlocal)]
    have htwin : ¬(name ∈ ir.eventNames ∧ name ∈ ir.instructionNames ∧ name ∉ ir.topLevelNames) := by
      rintro ⟨hevent, -, htop⟩
      exact hlocal ⟨hevent, fun hcolliding => htop (SchemaIr.mem_collidingNames.mp hcolliding).2⟩
    exact iff_of_true rfl htwin

/-- A name in a field means the message that the code encodes there, unless a type of an event
means a message of an event that the schema names otherwise. -/
theorem resolve_eq_iff :
    resolveProtoName name (fieldRename ir t) = protoNameOf ir ((ir.scopeOf t).resolveMsg name) ↔
      (t.kind = .event → t.name ∉ ir.dispatchWrappers .eventDispatch → name ∉ ir.twinNames) := by
  cases hkind : t.kind with
  | definedType | account | helper =>
      simp [fieldRename, SchemaIr.scopeOf, hkind, resolveProtoName_nil, Scope.resolveMsg,
        Scope.outside, protoNameOf]
  | instruction =>
      by_cases hwrapper : t.name ∈ ir.dispatchWrappers .instructionDispatch
      · have hlocals : (ir.scopeOf t) = ⟨.instruction, ir.instructionNames⟩ := by
          simp [SchemaIr.scopeOf, hkind, dispatchScope, hwrapper]
        have hrename : fieldRename ir t = buildInstructionRenameMap ir := by
          simp [fieldRename, hkind, hwrapper]
        rw [hlocals, hrename, Scope.resolveMsg]
        split
        · simp [protoNameOf]
        next hlocal =>
          rw [protoNameOf, resolve_instruction_of_not_mem ir (by simpa using hlocal)]
          simp
      · have hrename : fieldRename ir t = [] := by simp [fieldRename, hkind, hwrapper]
        rw [hrename, resolveProtoName_nil, resolve_instruction_eq hwrapper hkind]
        simp
  | event =>
      by_cases hwrapper : t.name ∈ ir.dispatchWrappers .eventDispatch
      · have hlocals : (ir.scopeOf t) = ⟨.event, ir.eventNames⟩ := by
          simp [SchemaIr.scopeOf, hkind, dispatchScope, hwrapper]
        have hrename : fieldRename ir t = buildEventRenameMap ir := by
          simp [fieldRename, hkind, hwrapper]
        rw [hlocals, hrename, Scope.resolveMsg]
        split
        · simp [protoNameOf, hwrapper]
        next hlocal =>
          rw [protoNameOf, resolve_event_of_not_mem ir (by simpa using hlocal)]
          simp [hwrapper]
      · have hrename : fieldRename ir t = [] := by simp [fieldRename, hkind, hwrapper]
        rw [hrename, resolveProtoName_nil, eq_comm, resolve_event_eq_iff hwrapper hkind]
        simp [hwrapper]

/-! ## Fields -/

/-- Scalars and labels are the same in the schema and in the code. -/
theorem shape_eq_iff {rename : RenameMap} {scope : Scope} {field : FieldIr} :
    (protoField rename field).shape = (emitProstField scope field).shape ir ↔
      ∀ name, field.fieldType.reference = some name →
        resolveProtoName name rename = protoNameOf ir (scope.resolveMsg name) := by
  obtain ⟨fieldName, tag, label, fieldType⟩ := field
  cases fieldType with
  | scalar s =>
      simp only [FieldTypeIr.reference, reduceCtorEq, false_implies, implies_true, iff_true]
      cases label <;> cases s <;> rfl
  | message name =>
      simp only [FieldTypeIr.reference, Option.some.injEq, forall_eq']
      cases label <;>
        simp [protoField, ProtoField.shape, emitProstField, ImplField.shape, protoLabel, implLabel,
          repeatedLabel, ImplLabel.toProto, ProtoType.isPackable]

theorem shapes_eq_iff :
    ir.renderedShapes t = ir.encodedShapes t ↔
      (t.kind = .event → t.name ∉ ir.dispatchWrappers .eventDispatch →
        ∀ name ∈ t.references, name ∉ ir.twinNames) := by
  rw [SchemaIr.renderedShapes, SchemaIr.encodedShapes, List.map_inj_left]
  simp only [shape_eq_iff, resolve_eq_iff, TypeIr.references, List.mem_filterMap]
  constructor
  · rintro h hkind hwrapper name ⟨field, hfield, hname⟩
    exact h field hfield name hname hkind hwrapper
  · intro h field hfield name hname hkind hwrapper
    exact h hkind hwrapper name ⟨field, hfield, hname⟩

end Names

/-! ## The impls that there are -/

section Impls

variable {ir : SchemaIr}

def dispatchImpls (oneof : OneofIr) (path : Name → RustPath) (payloadTypes : List TypeIr)
    (localNames collisions : List Name) : List ProstImpl :=
  payloadTypes.map (fun t =>
      prostStructImpl
        (dispatchScope path localNames collisions (oneof.variants.map (·.messageType)) t) t) ++
    [⟨.dispatch oneof.parentMessage,
      .dispatch (oneof.variants.map (dispatchVariant path localNames))⟩]

def oneofImpls (ir : SchemaIr) (oneof : OneofIr) : List ProstImpl :=
  match oneof.kind with
  | .instructionDispatch =>
      dispatchImpls oneof .instruction (ir.payloadTypes TypeKindIr.isInstruction)
        ir.instructionNames ir.collidingNames
  | .eventDispatch =>
      dispatchImpls oneof .event (ir.payloadTypes TypeKindIr.isEvent) ir.eventNames
        ir.collidingNames
  | .enum _ =>
      [⟨.topLevel oneof.parentMessage,
        .oneof (oneof.variants.map fun v => (v.tag, .topLevel v.messageType))⟩]

theorem renderStructType_eq {scope : Scope} {t : TypeIr} {impl : ProstImpl}
    (h : renderStructType scope t = .ok impl) : impl = prostStructImpl scope t := by
  obtain ⟨_, -, hpure⟩ := Fallible.bind_eq_ok.mp h
  exact (Except.ok.inj hpure).symm

theorem renderDispatch_eq {oneof : OneofIr} {path : Name → RustPath} {payloadTypes : List TypeIr}
    {localNames collisions : List Name} {impls : List ProstImpl}
    (h : renderDispatch oneof path payloadTypes localNames collisions = .ok impls) :
    impls = dispatchImpls oneof path payloadTypes localNames collisions := by
  obtain ⟨types, htypes, hpure⟩ := Fallible.bind_eq_ok.mp h
  obtain rfl := Except.ok.inj hpure
  rw [Fallible.mapM_eq_map (fun _ _ => renderStructType_eq) htypes]
  rfl

theorem renderOneof_eq {oneof : OneofIr} {impls : List ProstImpl}
    (h : renderOneof ir oneof = .ok impls) : impls = oneofImpls ir oneof := by
  rw [renderOneof] at h
  rw [oneofImpls]
  cases hkind : oneof.kind with
  | instructionDispatch | eventDispatch =>
      rw [hkind] at h
      exact renderDispatch_eq h
  | enum number =>
      rw [hkind] at h
      obtain ⟨_, -, hrest⟩ := Fallible.bind_eq_ok.mp h
      cases hvariants : oneof.variants with
      | nil =>
          rw [hvariants] at hrest
          contradiction
      | cons v variants =>
          rw [hvariants] at hrest
          exact (Except.ok.inj hrest).symm

/-- An enum without variants stops the expansion. -/
theorem variants_of_renderOneof {oneof : OneofIr} {impls : List ProstImpl} {number : NumberTypeNode}
    (hkind : oneof.kind = .enum number) (h : renderOneof ir oneof = .ok impls) :
    oneof.variants ≠ [] := by
  rw [renderOneof, hkind] at h
  obtain ⟨_, -, hrest⟩ := Fallible.bind_eq_ok.mp h
  intro hvariants
  rw [hvariants] at hrest
  contradiction

end Impls

section

variable {programEvents : Bool} {name : Name} {program : ProgramNode} {events : List EventNode}

theorem Built.oneof_cases {programName : Name} {ir : SchemaIr}
    (h : Built programEvents program events programName ir) {oneof : OneofIr}
    (hmem : oneof ∈ ir.oneofs) :
    IsEnum (concreteNames (allDefinedTypes programEvents program events)) ir oneof ∨
      oneof ∈ instructionDispatch program ∨ oneof ∈ eventDispatch programEvents events := by
  obtain ⟨enums, honeofs, henums⟩ := h.oneofs
  rw [honeofs, List.mem_append, List.mem_append] at hmem
  rcases hmem with (hmem | hmem) | hmem
  · exact .inl (henums oneof hmem)
  · exact .inr (.inl hmem)
  · exact .inr (.inr hmem)

theorem mem_instructionDispatch {oneof : OneofIr} (h : oneof ∈ instructionDispatch program) :
    program.instructions ≠ [] ∧
      oneof = dispatchOneof "Instructions".toList "instruction".toList
        (program.instructions.map (·.name)) .instructionDispatch := by
  rw [instructionDispatch] at h
  split at h
  · contradiction
  next hempty => exact ⟨by simpa using hempty, List.mem_singleton.mp h⟩

theorem mem_eventDispatch {oneof : OneofIr} (h : oneof ∈ eventDispatch programEvents events) :
    hasEvents programEvents events = true ∧
      oneof = dispatchOneof "ProgramEvents".toList "event".toList (events.map (·.name))
        .eventDispatch := by
  rw [eventDispatch] at h
  split at h
  next hevents => exact ⟨hevents, List.mem_singleton.mp h⟩
  · contradiction

/-- What `expand` returns. -/
structure Expanded (programEvents : Bool) (name : Name) (program : ProgramNode)
    (events : List EventNode) (e : Expansion) : Prop where
  built : Built programEvents program events (toPascalCase name) e.schemaIr
  variants : ∀ oneof ∈ e.schemaIr.oneofs, oneof.variants ≠ []
  impls : e.impls = (e.schemaIr.types.filter e.schemaIr.isRenderedOutside).map
      (prostStructImpl .outside) ++ e.schemaIr.oneofs.flatMap (oneofImpls e.schemaIr) ++
    accountParserImpls (toPascalCase name) program.accounts ++
    if hasEvents programEvents events then [programEventOutputImpl !program.instructions.isEmpty]
    else []
  proto : e.proto = protoSchemaString e.schemaIr (toSnakeCase name) (toPascalCase name)

theorem dispatchVariants_ne_nil {names : List Name} (h : names ≠ []) : dispatchVariants names ≠ [] := by
  simpa [dispatchVariants] using h

theorem expand_eq {e : Expansion} (h : expand programEvents name program events = .ok e) :
    Expanded programEvents name program events e := by
  obtain ⟨⟨⟨⟩, ir⟩, hbuild, hrest⟩ := Fallible.bind_eq_ok.mp h
  obtain ⟨impls, hrust, hpure⟩ := Fallible.bind_eq_ok.mp hrest
  obtain rfl := Except.ok.inj hpure
  obtain ⟨types, htypes, hrust⟩ := Fallible.bind_eq_ok.mp hrust
  obtain ⟨oneofs, honeofs, hpure⟩ := Fallible.bind_eq_ok.mp hrust
  obtain rfl := Except.ok.inj hpure
  have hbuilt := buildSchemaIr_run hbuild
  refine ⟨hbuilt, ?_, ?_, rfl⟩
  · intro oneof hmem
    rcases hbuilt.oneof_cases hmem with ⟨⟨number, hkind⟩, -, -⟩ | hmem | hmem
    · obtain ⟨impls, himpls⟩ := Fallible.mapM_ok_mem honeofs hmem
      exact variants_of_renderOneof hkind himpls
    · obtain ⟨hinstructions, rfl⟩ := mem_instructionDispatch hmem
      exact dispatchVariants_ne_nil (by simpa using hinstructions)
    · obtain ⟨hevents, rfl⟩ := mem_eventDispatch hmem
      rw [hasEvents, Bool.and_eq_true] at hevents
      exact dispatchVariants_ne_nil (by simpa using hevents.2)
  · rw [Fallible.mapM_eq_map (fun _ _ => renderStructType_eq) htypes,
      Fallible.mapM_eq_map (fun _ _ => renderOneof_eq) honeofs, List.flatMap_def]

end

end Shipstern.Codegen
