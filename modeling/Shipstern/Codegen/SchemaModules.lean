import Shipstern.Codegen.SchemaImpls

/-!
# The modules of instructions and events

Both modules are one construction at two kinds of type: `ModuleOf`. Their dispatches have a message
for every variant: `DispatchOf`.
-/

namespace Shipstern.Codegen

open Codama

/-- The module of a kind of type: where its types are, and what the schema names them. -/
structure ModuleOf (ir : SchemaIr) (kind : TypeKindIr) (dispatch : OneofKindIr)
    (path : Name → RustPath) (rename : RenameMap) : Prop where
  inside : kind.isTopLevel = false
  scope : ∀ t, t.kind = kind → ir.scopeOf t =
    dispatchScope path (ir.namesOf (· = kind)) ir.collidingNames (ir.dispatchWrappers dispatch) t
  typeName : ∀ t, t.kind = kind → protoTypeName ir t = resolveProtoName t.name rename
  pathName : ∀ name, protoNameOf ir (path name) = resolveProtoName name rename
  rename : oneofRename ir dispatch = rename
  impls : ∀ oneof, oneof.kind = dispatch → oneofImpls ir oneof =
    dispatchImpls oneof path (ir.payloadTypes (· = kind)) (ir.namesOf (· = kind)) ir.collidingNames

theorem instructionModule (ir : SchemaIr) :
    ModuleOf ir .instruction .instructionDispatch .instruction (buildInstructionRenameMap ir) where
  inside := rfl
  scope t ht := by
    rw [SchemaIr.scopeOf, ht]
    rfl
  typeName t ht := by rw [protoTypeName, ht]
  pathName _ := rfl
  rename := rfl
  impls oneof hkind := by
    rw [oneofImpls, hkind]
    rfl

theorem eventModule (ir : SchemaIr) :
    ModuleOf ir .event .eventDispatch .event (buildEventRenameMap ir) where
  inside := rfl
  scope t ht := by
    rw [SchemaIr.scopeOf, ht]
    rfl
  typeName t ht := by rw [protoTypeName, ht]
  pathName _ := rfl
  rename := rfl
  impls oneof hkind := by
    rw [oneofImpls, hkind]
    rfl

/-- The union of a dispatch, with the messages of its variants. -/
structure DispatchOf (ir : SchemaIr) (kind : TypeKindIr) (dispatch : OneofKindIr) (parent : Name)
    (oneof : OneofIr) : Prop where
  mem : oneof ∈ ir.oneofs
  kind_eq : oneof.kind = dispatch
  parent : oneof.parentMessage = parent
  wrappers : ir.dispatchWrappers dispatch = oneof.variants.map (·.messageType)
  messages : ∀ v ∈ oneof.variants, HasMessages kind v.messageType ir

/-! ## The dispatches of a program -/

section

variable {programEvents : Bool} {program : ProgramNode} {events : List EventNode}
  {programName : Name} {ir : SchemaIr} (h : Built programEvents program events programName ir)

include h

/-- Enums are no dispatches. -/
theorem Built.filter_oneofs {dispatch : OneofKindIr} (hdispatch : ∀ number, dispatch ≠ .enum number) :
    ir.oneofs.filter (·.kind = dispatch) =
      (instructionDispatch program ++ eventDispatch programEvents events).filter
        (·.kind = dispatch) := by
  obtain ⟨enums, honeofs, henums⟩ := h.oneofs
  have hnone : enums.filter (·.kind = dispatch) = [] := by
    rw [List.filter_eq_nil_iff]
    intro oneof hmem
    obtain ⟨number, hkind⟩ := (henums oneof hmem).kind
    simpa [hkind] using (hdispatch number).symm
  rw [honeofs, List.append_assoc, List.filter_append, hnone, List.nil_append]

theorem Built.filter_instructionDispatch :
    ir.oneofs.filter (·.kind = .instructionDispatch) = instructionDispatch program := by
  rw [h.filter_oneofs (by simp), instructionDispatch, eventDispatch]
  split <;> split <;> rfl

theorem Built.filter_eventDispatch :
    ir.oneofs.filter (·.kind = .eventDispatch) = eventDispatch programEvents events := by
  rw [h.filter_oneofs (by simp), instructionDispatch, eventDispatch]
  split <;> split <;> rfl

omit h in
theorem hasDispatch_iff {dispatch : OneofKindIr} :
    ir.hasDispatch dispatch = true ↔ ir.oneofs.filter (·.kind = dispatch) ≠ [] := by
  rw [SchemaIr.hasDispatch, List.any_eq_true, ne_eq, List.filter_eq_nil_iff]
  simp

theorem Built.hasDispatch_instruction :
    ir.hasDispatch .instructionDispatch = !program.instructions.isEmpty := by
  rw [Bool.eq_iff_iff, hasDispatch_iff, h.filter_instructionDispatch, instructionDispatch]
  split
  next hempty => simp [hempty]
  next hempty => simp [hempty]

theorem Built.hasDispatch_event : ir.hasDispatch .eventDispatch = hasEvents programEvents events := by
  rw [Bool.eq_iff_iff, hasDispatch_iff, h.filter_eventDispatch, eventDispatch]
  split
  next hevents => simp [hevents]
  next hevents => simp [hevents]

omit h in
theorem exists_of_mem_dispatchVariants {names : List Name} {v : OneofVariantIr}
    (hv : v ∈ dispatchVariants names) : ∃ name ∈ names, v.messageType = toPascalCase name := by
  obtain ⟨i, hi, rfl⟩ := List.mem_mapIdx.mp hv
  exact ⟨names[i], List.getElem_mem hi, rfl⟩

theorem Built.instructionDispatchOf {oneof : OneofIr} (hmem : oneof ∈ instructionDispatch program) :
    DispatchOf ir .instruction .instructionDispatch "Instructions".toList oneof := by
  have hfilter := h.filter_instructionDispatch
  obtain ⟨hinstructions, rfl⟩ := mem_instructionDispatch hmem
  rw [instructionDispatch, if_neg (by simpa using hinstructions)] at hfilter
  refine ⟨List.mem_of_mem_filter (hfilter ▸ List.mem_singleton_self _), rfl, rfl, ?_, ?_⟩
  · rw [SchemaIr.dispatchWrappers, hfilter, List.flatMap_singleton]
  · intro v hv
    obtain ⟨name, hname, hmessage⟩ := exists_of_mem_dispatchVariants hv
    obtain ⟨ix, hix, rfl⟩ := List.mem_map.mp hname
    rw [hmessage]
    exact h.instructionMessages ix hix

theorem Built.eventDispatchOf {oneof : OneofIr}
    (hmem : oneof ∈ eventDispatch programEvents events) :
    DispatchOf ir .event .eventDispatch "ProgramEvents".toList oneof := by
  have hfilter := h.filter_eventDispatch
  obtain ⟨hevents, rfl⟩ := mem_eventDispatch hmem
  rw [eventDispatch, if_pos hevents] at hfilter
  refine ⟨List.mem_of_mem_filter (hfilter ▸ List.mem_singleton_self _), rfl, rfl, ?_, ?_⟩
  · rw [SchemaIr.dispatchWrappers, hfilter, List.flatMap_singleton]
  · intro v hv
    obtain ⟨name, hname, hmessage⟩ := exists_of_mem_dispatchVariants hv
    obtain ⟨ev, hev, rfl⟩ := List.mem_map.mp hname
    rw [hmessage]
    refine h.eventMessages ev ?_
    rw [emittedEvents, if_pos hevents]
    exact hev

end

/-! ## The message of a variant -/

section

variable {ir : SchemaIr} {kind : TypeKindIr} {dispatch : OneofKindIr} {path : Name → RustPath}
  {rename : RenameMap} (hmodule : ModuleOf ir kind dispatch path rename)

/-- The message around accounts and arguments. -/
def payloadType (name : Name) (kind : TypeKindIr) : TypeIr := ⟨name, payloadFields name, kind⟩

include hmodule

/-- What a variant of a dispatch encodes are the fields of its message. -/
theorem ModuleOf.payload_shapes {v : OneofVariantIr}
    (hwrapper : v.messageType ∈ ir.dispatchWrappers dispatch)
    (hmessages : HasMessages kind v.messageType ir) :
    ir.encodedShapes (payloadType v.messageType kind) =
      (dispatchVariant path (ir.namesOf (· = kind)) v).shapes ir := by
  have hscope : ir.scopeOf (payloadType v.messageType kind) = ⟨path, ir.namesOf (· = kind)⟩ := by
    rw [hmodule.scope _ rfl, dispatchScope]
    exact congrArg (Scope.mk path) (if_pos (List.contains_iff_mem.mpr hwrapper))
  have haccounts := hmessages.accounts
  rw [SchemaIr.encodedShapes, hscope]
  simp [payloadType, payloadFields, DispatchVariant.shapes, dispatchVariant, emitProstField,
    ImplField.shape, implLabel, ImplLabel.toProto, Scope.resolveMsg, haccounts]

end

end Shipstern.Codegen
