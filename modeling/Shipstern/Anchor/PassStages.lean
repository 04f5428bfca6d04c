import Shipstern.Anchor.PassWalks

/-!
# A run of the passes

What each pass leaves of a program: which types it replaces by which, and what it does not touch.
A run that succeeds is these steps one after the other.
-/

namespace Shipstern.Anchor

open Codama Fallible Levels

/-! ## The types of a program -/

/-- The types of the seeds in the default value of an account. -/
def seedTypes (account : InstructionAccountNode) : List TypeNode :=
  match inPlacePda account with
  | some pda => pda.seeds.map seedType
  | none => []

def argumentTypes (ix : InstructionNode) : List TypeNode := ix.arguments.map (·.type)

def instructionTypes (ix : InstructionNode) : List TypeNode :=
  argumentTypes ix ++ ix.accounts.flatMap seedTypes

/-- The types in a program outside of wrapped nodes. -/
def rootTypes (program : ProgramNode) : List TypeNode :=
  program.accounts.flatMap dataTypes ++ program.events.map (·.data) ++
  program.definedTypes.map (·.type) ++ program.constants.map (·.type) ++
  program.instructions.flatMap instructionTypes

/-- A property of all types in a program. -/
structure OnTypes (P : TypeNode → Prop) (program : ProgramNode) : Prop where
  accounts : ∀ account ∈ program.accounts, ∀ ty ∈ dataTypes account, P ty
  events : ∀ event ∈ program.events, P event.data
  types : ∀ ty ∈ program.definedTypes, P ty.type
  constants : ∀ constant ∈ program.constants, P constant.type
  instructions : ∀ ix ∈ program.instructions, ∀ ty ∈ instructionTypes ix, P ty

theorem onTypes_iff {P : TypeNode → Prop} {program : ProgramNode} :
    OnTypes P program ↔ ∀ ty ∈ rootTypes program, P ty := by
  simp only [rootTypes, List.forall_mem_append, List.forall_mem_flatMap, List.forall_mem_map]
  constructor
  · exact fun h => ⟨⟨⟨⟨h.accounts, h.events⟩, h.types⟩, h.constants⟩, h.instructions⟩
  · rintro ⟨⟨⟨⟨haccounts, hevents⟩, htypes⟩, hconstants⟩, hinstructions⟩
    exact ⟨haccounts, hevents, htypes, hconstants, hinstructions⟩

/-! ## Addresses -/

theorem inPlacePda_default (account : InstructionAccountNode) :
    inPlacePda (setAccountDefaultValue account) = inPlacePda account := by
  rw [setAccountDefaultValue]
  split
  · rfl
  · next hdefault =>
      have hnone : account.defaultValue = none := by
        cases hvalue : account.defaultValue with
        | none => rfl
        | some value => simp [hvalue] at hdefault
      split
      · rfl
      · rw [inPlacePda, inPlacePda, hnone]

/-- Setting an address changes no type and no use of one. -/
theorem countedTypes_default (program : ProgramNode) :
    countedTypes (setInstructionAccountDefaultValues program) = countedTypes program := by
  simp only [countedTypes, setInstructionAccountDefaultValues, List.flatMap_map,
    List.filterMap_map, Function.comp_def, inPlacePda_default]

theorem directLinks_default (program : ProgramNode) :
    directLinks (setInstructionAccountDefaultValues program) = directLinks program := by
  simp only [directLinks, setInstructionAccountDefaultValues, List.flatMap_map]

theorem isInlined_default (program : ProgramNode) :
    isInlined (setInstructionAccountDefaultValues program) = isInlined program := by
  have huses : uses (setInstructionAccountDefaultValues program) = uses program := by
    funext name
    rw [uses, uses, countedTypes_default, directLinks_default]
  funext ty
  rw [isInlined, isInlined, huses]

theorem inlineDefs_default (program : ProgramNode) :
    inlineDefs (setInstructionAccountDefaultValues program) = inlineDefs program := by
  rw [inlineDefs, inlineDefs, isInlined_default]
  rfl

/-! ## Instructions -/

/-- An instruction with other types in place of its own. -/
structure InstructionRetyped (P : TypeNode → TypeNode → Prop) (ix ix' : InstructionNode) :
    Prop where
  name : ix'.name = ix.name
  arguments : ArgumentsRetyped P ix.arguments ix'.arguments
  seeds : List.Forall₂ P (ix.accounts.flatMap seedTypes) (ix'.accounts.flatMap seedTypes)

section Instructions

variable {f : TypeNode → Option TypeNode}

theorem seedTypesMut_retyped {account account' : InstructionAccountNode}
    (h : seedTypesMut f account = some account') :
    List.Forall₂ (Gives f) (seedTypes account) (seedTypes account') := by
  rw [seedTypesMut] at h
  split at h
  · next pda hdefault =>
    obtain ⟨seeds, hseeds, h⟩ := Option.bind_eq_some_iff.mp h
    cases h
    rw [seedTypes, seedTypes, inPlacePda, hdefault]
    simp only [inPlacePda]
    rw [List.forall₂_map_left_iff, List.forall₂_map_right_iff]
    refine (mapM_eq_some.mp hseeds).imp fun seed seed' hseed => ?_
    cases seed <;> obtain ⟨type, htype, rfl⟩ := Option.map_eq_some_iff.mp hseed <;> exact htype
  · next hother =>
    cases h
    have hnone : inPlacePda account = none := by
      rw [inPlacePda]
      split
      · next pda hdefault => exact absurd hdefault (hother pda)
      · rfl
    rw [seedTypes, hnone]
    exact .nil

theorem instructionTypesMut_retyped {ix ix' : InstructionNode}
    (h : instructionTypesMut f ix = some ix') : InstructionRetyped (Gives f) ix ix' := by
  obtain ⟨arguments, harguments, h⟩ := Option.bind_eq_some_iff.mp h
  obtain ⟨accounts, haccounts, h⟩ := Option.bind_eq_some_iff.mp h
  cases h
  exact
    { name := rfl
      arguments := retyped_of_mapM harguments
      seeds := List.rel_flatMap (mapM_eq_some.mp haccounts) fun _ _ => seedTypesMut_retyped }

theorem InstructionRetyped.imp {P Q : TypeNode → TypeNode → Prop} {ix ix' : InstructionNode}
    (h : InstructionRetyped P ix ix')
    (himp : ∀ ty ∈ instructionTypes ix, ∀ ty', P ty ty' → Q ty ty') :
    InstructionRetyped Q ix ix' where
  name := h.name
  arguments := h.arguments.imp fun ty hty => himp ty (List.mem_append_left _ hty)
  seeds := forall₂_imp_mem h.seeds fun ty hty => himp ty (List.mem_append_right _ hty)

theorem InstructionRetyped.types {P : TypeNode → TypeNode → Prop} {ix ix' : InstructionNode}
    (h : InstructionRetyped P ix ix') :
    List.Forall₂ P (instructionTypes ix) (instructionTypes ix') :=
  List.rel_append (h.arguments.types fun _ _ => rfl) h.seeds

end Instructions

/-! ## Structs in place of links -/

/-- What a type becomes when links are replaced. -/
def Inlines (program : ProgramNode) (ty ty' : TypeNode) : Prop :=
  ∃ room, inlineLinks (inlineDefs program) room ty = some ty'

theorem LinksKept.inlines {program : ProgramNode} {ty : TypeNode}
    (h : LinksKept (inlineDefs program) ty) : Inlines program ty ty := by
  obtain ⟨ty', hrun⟩ := h.settles
  obtain ⟨room, hrun⟩ := hrun.exists
  have heq : ty' = ty := h.inlineLinks_eq hrun
  exact ⟨room, heq ▸ hrun⟩

structure Unwraps (program unwrapped : ProgramNode) : Prop where
  rest : unwrapped =
    { program with
      definedTypes := program.definedTypes.filter fun ty => !isInlined program ty
      instructions := unwrapped.instructions }
  instructions : List.Forall₂ (InstructionRetyped (Inlines program)) program.instructions
    unwrapped.instructions

theorem unwrap_spec {room : Nat} {program unwrapped : ProgramNode}
    (h : unwrapInstructionArgsDefinedTypes room program = some unwrapped) :
    Unwraps program unwrapped := by
  simp only [unwrapInstructionArgsDefinedTypes, List.partition_eq_filter_filter] at h
  split at h
  · next hnone =>
    cases h
    have hempty : inlineDefs program = [] := by
      rw [inlineDefs, List.isEmpty_iff.mp hnone]
      rfl
    have hkept : ∀ ty, LinksKept (inlineDefs program) ty := by
      intro ty name hname
      rw [hempty]
      rfl
    refine ⟨rfl, List.forall₂_same.mpr fun ix _ => ⟨rfl, ?_, ?_⟩⟩
    · exact List.forall₂_same.mpr fun arg _ => ⟨arg.type, (hkept arg.type).inlines, rfl⟩
    · exact List.forall₂_same.mpr fun ty _ => (hkept ty).inlines
  · obtain ⟨instructions, hinstructions, h⟩ := Option.bind_eq_some_iff.mp h
    cases h
    refine ⟨rfl, (mapM_eq_some.mp hinstructions).imp fun ix ix' hix => ?_⟩
    exact (instructionTypesMut_retyped hix).imp fun ty _ ty' hgives => ⟨room, hgives⟩

/-! ## Arguments of struct type -/

/-- The types of the arguments in place of one of the type. -/
def partTypes : TypeNode → List TypeNode
  | .struct fields => fields.map (·.type)
  | ty => [ty]

theorem flattenedArgument_types {arg : InstructionArgumentNode}
    {flattened : List InstructionArgumentNode} (h : flattenedArgument arg = .ok flattened) :
    flattened.map (·.type) = partTypes arg.type := by
  rw [flattenedArgument] at h
  split at h
  · next fields htype =>
    rw [htype, partTypes]
    have htypes : List.Forall₂ (fun (type : TypeNode) type' => type' = type)
        (fields.map (·.type)) (flattened.map (·.type)) := by
      rw [List.forall₂_map_left_iff, List.forall₂_map_right_iff]
      refine (mapM_eq_ok.mp h).imp fun field arg' hfield => ?_
      obtain ⟨name, -, hfield⟩ := bind_eq_ok.mp hfield
      cases hfield
      rfl
    exact forall₂_eq htypes fun _ _ _ heq => heq
  · next hother =>
    cases h
    rw [List.map_singleton]
    cases htype : arg.type with
    | struct fields => exact absurd htype (hother fields)
    | _ => rfl

structure Flattens (ix ix' : InstructionNode) : Prop where
  name : ix'.name = ix.name
  accounts : ix'.accounts = ix.accounts
  types : argumentTypes ix' = (argumentTypes ix).flatMap partTypes
  distinct : (ix'.arguments.map (·.name)).Nodup

theorem repeatedNames_eq_nil {seen names : List Name} (h : repeatedNames seen names = []) :
    names.Nodup ∧ ∀ name ∈ names, name ∉ seen := by
  induction names generalizing seen with
  | nil => exact ⟨.nil, by simp⟩
  | cons name names ih =>
      rw [repeatedNames] at h
      split at h
      · cases h
      · next hnew =>
        obtain ⟨hnodup, hunseen⟩ := ih h
        refine ⟨List.nodup_cons.mpr ⟨fun hmem => hunseen name hmem List.mem_cons_self, hnodup⟩, ?_⟩
        refine List.forall_mem_cons.mpr ⟨hnew, fun other hother hseen => ?_⟩
        exact hunseen other hother (List.mem_cons_of_mem _ hseen)

theorem flattenInstruction_spec {ix ix' : InstructionNode} (h : flattenInstruction ix = .ok ix') :
    Flattens ix ix' := by
  obtain ⟨flattened, hflattened, h⟩ := bind_eq_ok.mp h
  simp only at h
  split at h
  · next hnone =>
    cases h
    refine ⟨rfl, rfl, ?_, (repeatedNames_eq_nil (List.isEmpty_iff.mp hnone)).1⟩
    have htypes : List.Forall₂ (fun arg args => args.map (·.type) = partTypes arg.type)
        ix.arguments flattened :=
      (mapM_eq_ok.mp hflattened).imp fun arg args harg => flattenedArgument_types harg
    rw [argumentTypes, argumentTypes, List.map_flatten, List.flatMap_map]
    clear h hflattened hnone
    generalize ix.arguments = args at htypes
    induction htypes with
    | nil => rfl
    | cons hfirst _ ih => rw [List.map_cons, List.flatten_cons, List.flatMap_cons, hfirst, ih]
  · cases h

theorem flatten_spec {program flattened : ProgramNode}
    (h : flattenInstructionDataArguments program = .ok flattened) :
    flattened = { program with instructions := flattened.instructions } ∧
      List.Forall₂ Flattens program.instructions flattened.instructions := by
  obtain ⟨instructions, hinstructions, h⟩ := bind_eq_ok.mp h
  cases h
  exact ⟨rfl, (mapM_eq_ok.mp hinstructions).imp fun ix ix' => flattenInstruction_spec⟩

/-! ## Arrays of bytes -/

/-- A program with other types in place of its own. -/
structure ProgramRetyped (P : TypeNode → TypeNode → Prop) (program program' : ProgramNode) :
    Prop where
  accounts : List.Forall₂ (fun account account' => account'.name = account.name ∧
    (∀ fields, account.data = .value fields → ∃ fields', account'.data = .value fields') ∧
    List.Forall₂ P (dataTypes account) (dataTypes account')) program.accounts program'.accounts
  events : List.Forall₂ (fun event event' => event'.name = event.name ∧ P event.data event'.data)
    program.events program'.events
  types : List.Forall₂ (fun ty ty' => ty'.name = ty.name ∧ P ty.type ty'.type)
    program.definedTypes program'.definedTypes
  constants : List.Forall₂ (fun constant constant' => P constant.type constant'.type)
    program.constants program'.constants
  instructions : List.Forall₂ (InstructionRetyped P) program.instructions program'.instructions

theorem accountTypesMut_retyped {f : TypeNode → Option TypeNode} {account account' : AccountNode}
    (h : accountTypesMut f account = some account') :
    account'.name = account.name ∧
      (∀ fields, account.data = .value fields → ∃ fields', account'.data = .value fields') ∧
      List.Forall₂ (Gives f) (dataTypes account) (dataTypes account') := by
  rw [accountTypesMut] at h
  split at h
  · next fields hdata =>
    obtain ⟨fields', hfields, rfl⟩ := Option.map_eq_some_iff.mp h
    refine ⟨rfl, fun _ _ => ⟨fields', rfl⟩, ?_⟩
    rw [dataTypes, dataTypes, hdata]
    exact (retyped_of_mapM hfields).types fun _ _ => rfl
  · next hdata =>
    cases h
    refine ⟨rfl, fun fields hfields => ⟨fields, hfields⟩, ?_⟩
    rw [dataTypes, hdata]
    exact .nil

theorem transform_retyped {room : Nat} {program program' : ProgramNode}
    (h : transformU8ArraysToBytes room program = some program') :
    ProgramRetyped (Gives (u8ArraysToBytes room)) program program' := by
  obtain ⟨accounts, haccounts, h⟩ := Option.bind_eq_some_iff.mp h
  obtain ⟨instructions, hinstructions, h⟩ := Option.bind_eq_some_iff.mp h
  obtain ⟨types, htypes, h⟩ := Option.bind_eq_some_iff.mp h
  obtain ⟨events, hevents, h⟩ := Option.bind_eq_some_iff.mp h
  obtain ⟨constants, hconstants, h⟩ := Option.bind_eq_some_iff.mp h
  cases h
  refine ⟨?_, ?_, ?_, ?_, ?_⟩
  · exact (mapM_eq_some.mp haccounts).imp fun _ _ => accountTypesMut_retyped
  · refine (mapM_eq_some.mp hevents).imp fun event event' hevent => ?_
    obtain ⟨data, hdata, rfl⟩ := Option.map_eq_some_iff.mp hevent
    exact ⟨rfl, hdata⟩
  · refine (mapM_eq_some.mp htypes).imp fun ty ty' hty => ?_
    obtain ⟨type, htype, rfl⟩ := Option.map_eq_some_iff.mp hty
    exact ⟨rfl, htype⟩
  · refine (mapM_eq_some.mp hconstants).imp fun constant constant' hconstant => ?_
    obtain ⟨type, htype, rfl⟩ := Option.map_eq_some_iff.mp hconstant
    exact htype
  · exact (mapM_eq_some.mp hinstructions).imp fun _ _ => instructionTypesMut_retyped

end Shipstern.Anchor
