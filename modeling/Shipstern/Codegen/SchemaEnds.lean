import Shipstern.Codegen.AliasMaterialization
import Shipstern.Codegen.ProstImpls
import Shipstern.Lib.Fallible

/-!
# The builders of a schema come to an end

The model gives up a search for a name, or a chain of aliases, that would not end. The source has
no such panic, and needs none: a helper is tried under one name more than are taken, and an alias
is not entered twice.
-/

namespace Shipstern.Codegen

open Codama Anchor Stateful Fallible

/-- Any panic of the source. -/
def Ends (panic : BuildPanic) : Prop := panic ≠ .endless

variable {definitions : List (Name × TypeAliasDefinitionIr)}

theorem allowsCycles_ends : AllowsCycles Ends definitions :=
  ⟨fun _ hother => hother.1, fun _ _ => nofun⟩

/-! ## Accounts, instructions and events -/

theorem pushType_leaves (type : TypeIr) : Leaves Ends definitions [] (pushType type) :=
  .modify fun _ hir => hir

theorem pushOneof_leaves (oneof : OneofIr) : Leaves Ends definitions [] (pushOneof oneof) :=
  .modify fun _ hir => hir

theorem unwrapNestedStruct_ends {node : NestedTypeNode (List StructFieldTypeNode)}
    {panic : BuildPanic} (h : unwrapNestedStruct node = .error panic) : Ends panic := by
  induction node with
  | value fields => cases h
  | wrapped wrapper inner ih =>
      cases wrapper with
      | fixedSize | hiddenPrefix | hiddenSuffix | sizePrefix => exact ih h
      | _ =>
          cases h
          exact nofun

theorem buildAccount_leaves (account : AccountNode) :
    Leaves Ends definitions [] (buildAccount account) :=
  (Ensures.lift fun _ => unwrapNestedStruct_ends).bind fun _ =>
    (buildFieldsIr_leaves allowsCycles_ends _ _).bind fun _ => pushType_leaves _

theorem buildInstructionMessages_leaves (ix : InstructionNode) :
    Leaves Ends definitions [] (buildInstructionMessages ix) := by
  refine (pushType_leaves _).bind fun _ =>
    (buildFieldsIr_leaves allowsCycles_ends _ _).bind fun fields => leaves_get fun ir _ => ?_
  split
  · exact (Ensures.pure _).bind fun _ => pushType_leaves _
  · exact (pushType_leaves _).bind fun _ => pushType_leaves _

theorem eventFields_ends {ev : EventNode} {panic : BuildPanic}
    (h : eventFields ev = .error panic) : Ends panic := by
  rw [eventFields] at h
  split at h
  · cases h
  · cases h
    exact nofun

theorem buildEventMessages_leaves (ev : EventNode) :
    Leaves Ends definitions [] (buildEventMessages ev) :=
  (pushType_leaves _).bind fun _ => (Ensures.lift fun _ => eventFields_ends).bind fun _ =>
    (buildFieldsIr_leaves allowsCycles_ends _ _).bind fun _ =>
      (pushType_leaves _).bind fun _ => pushType_leaves _

/-! ## The schema -/

theorem buildAccounts_leaves (accounts : List AccountNode) :
    Leaves Ends definitions [] (buildAccounts accounts) :=
  .forM fun account _ => buildAccount_leaves account

theorem buildInstructionsSchema_leaves (instructions : List InstructionNode) :
    Leaves Ends definitions [] (buildInstructionsSchema instructions) := by
  have hmessages : Leaves Ends definitions [] (instructions.forM buildInstructionMessages) :=
    .forM fun ix _ => buildInstructionMessages_leaves ix
  refine hmessages.bind fun _ => ?_
  rw [buildInstructionDispatchOneof]
  split
  · exact .pure _
  · exact pushOneof_leaves _

theorem buildEventsSchema_leaves (events : List EventNode) :
    Leaves Ends definitions [] (buildEventsSchema events) := by
  have hmessages : Leaves Ends definitions [] (events.forM buildEventMessages) :=
    .forM fun ev _ => buildEventMessages_leaves ev
  exact hmessages.bind fun _ => pushOneof_leaves _

section

variable (programEvents : Bool) (program : ProgramNode) (events : List EventNode)

theorem buildSchemaIr_leaves (programName : Name) :
    Ensures (Entered [] []) (Entered (registeredAliases
        (program.definedTypes ++ linkedEventPayloads programEvents program events)) []) Ends
      (buildSchemaIr programEvents program events programName) := by
  have hreserved : Ensures (Entered [] []) (Entered [] []) Ends (modify (·.reserveTypeNames
      (directMessageNames programEvents program events programName)) : Build Unit) :=
    .modify fun _ hir => hir
  refine hreserved.bind fun _ => (buildDefinedTypes_leaves allowsCycles_ends).bind fun _ =>
    (buildAccounts_leaves _).bind fun _ => (buildInstructionsSchema_leaves _).bind fun _ => ?_
  split
  · exact buildEventsSchema_leaves events
  · exact .pure _

/-- Whatever the program, its schema is built, or a builder panics. -/
theorem buildSchemaIr_ends {programName : Name} {panic : BuildPanic}
    (h : buildSchemaIr programEvents program events programName .default = .error panic) :
    Ends panic := by
  have hends := buildSchemaIr_leaves programEvents program events programName .default ⟨rfl, rfl⟩
  rwa [h] at hends

end

/-! ## The rendered types -/

section

variable {panic : BuildPanic}

theorem checkPrefix_ends {field : Name} {number : NumberTypeNode}
    (h : checkPrefix field number = .error panic) : Ends panic := by
  rw [checkPrefix] at h
  split at h
  · split at h <;> cases h
    exact nofun
  all_goals cases h
  exact nofun

theorem checkField_ends {field : FieldIr} (h : checkField field = .error panic) : Ends panic := by
  rw [checkField] at h
  split at h
  · cases h
  · rcases bind_eq_error.mp h with hfirst | ⟨⟨⟩, -, hlabel⟩
    · exact checkPrefix_ends hfirst
    · split at hlabel
      · split at hlabel <;> cases hlabel
        exact nofun
      · cases hlabel

theorem renderStructType_ends {scope : Scope} {t : TypeIr}
    (h : renderStructType scope t = .error panic) : Ends panic := by
  rcases bind_eq_error.mp h with hfields | ⟨⟨⟩, -, hpure⟩
  · obtain ⟨field, -, hfield⟩ := exists_of_forM_eq_error hfields
    exact checkField_ends hfield
  · cases hpure

theorem renderDispatch_ends {oneof : OneofIr} {path : Name → RustPath} {payloads : List TypeIr}
    {localNames collisions : List Name}
    (h : renderDispatch oneof path payloads localNames collisions = .error panic) : Ends panic := by
  rcases bind_eq_error.mp h with htypes | ⟨types, -, hpure⟩
  · obtain ⟨t, -, ht⟩ := exists_of_mapM_eq_error htypes
    exact renderStructType_ends ht
  · cases hpure

theorem renderEnumOneof_ends {oneof : OneofIr} {number : NumberTypeNode}
    (h : renderEnumOneof oneof number = .error panic) : Ends panic := by
  rcases bind_eq_error.mp h with htag | ⟨⟨⟩, -, hvariants⟩
  · rw [enumTagType] at htag
    split at htag
    · split at htag <;> cases htag
      exact nofun
    all_goals cases htag
    all_goals exact nofun
  · split at hvariants <;> cases hvariants
    exact nofun

theorem renderOneof_ends {ir : SchemaIr} {oneof : OneofIr}
    (h : renderOneof ir oneof = .error panic) : Ends panic := by
  rw [renderOneof] at h
  split at h
  · exact renderDispatch_ends h
  · exact renderDispatch_ends h
  · exact renderEnumOneof_ends h

/-- The model of the macro has no failures but the panics of the source. -/
theorem expand_ends {programEvents : Bool} {name : Name} {program : ProgramNode}
    {events : List EventNode} (h : expand programEvents name program events = .error panic) :
    Ends panic := by
  rcases bind_eq_error.mp h with hbuild | ⟨⟨⟨⟩, ir⟩, -, hrest⟩
  · exact buildSchemaIr_ends programEvents program events hbuild
  · rcases bind_eq_error.mp hrest with hrender | ⟨types, -, hpure⟩
    · rcases bind_eq_error.mp hrender with htypes | ⟨types, -, honeofs⟩
      · obtain ⟨t, -, ht⟩ := exists_of_mapM_eq_error htypes
        exact renderStructType_ends ht
      · rcases bind_eq_error.mp honeofs with honeofs | ⟨oneofs, -, hpure⟩
        · obtain ⟨oneof, -, honeof⟩ := exists_of_mapM_eq_error honeofs
          exact renderOneof_ends honeof
        · cases hpure
    · cases hpure

end

end Shipstern.Codegen
