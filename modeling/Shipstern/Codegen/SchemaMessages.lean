import Shipstern.Codegen.SchemaAgreement

/-!
# The messages of a schema

Which messages `proto_schema_string` renders when no union is empty, and under which names. The
names are distinct when those of types are apart from the others.
-/

namespace Shipstern.Codegen

open Codama Firsts

/-! ## Renamed types -/

theorem resolveProtoName_map (names : List Name) (f : Name → Name) (name : Name) :
    resolveProtoName name (names.map fun n => (n, f n)) = if name ∈ names then f name else name := by
  rw [resolveProtoName]
  induction names with
  | nil => rfl
  | cons n names ih =>
      rw [List.map_cons, List.lookup_cons]
      by_cases hname : name = n
      · subst hname
        simp
      · have hne : (name == n) = false := by simpa using hname
        simp [hne, hname, ih]

theorem resolveProtoName_nil (name : Name) : resolveProtoName name [] = name := rfl

namespace SchemaIr

variable {ir : SchemaIr} {name : Name}

theorem mem_collidingNames :
    name ∈ ir.collidingNames ↔ name ∈ ir.namesOf (!·.isTopLevel) ∧ name ∈ ir.topLevelNames := by
  simp [collidingNames]

theorem instructionNames_subset (h : name ∈ ir.instructionNames) :
    name ∈ ir.namesOf (!·.isTopLevel) := by
  obtain ⟨t, ht, hkind, hname⟩ := mem_namesOf.mp h
  exact mem_namesOf.mpr ⟨t, ht, by simp [TypeKindIr.isTopLevel, hkind], hname⟩

theorem eventNames_subset (h : name ∈ ir.eventNames) : name ∈ ir.namesOf (!·.isTopLevel) := by
  obtain ⟨t, ht, hkind, hname⟩ := mem_namesOf.mp h
  exact mem_namesOf.mpr ⟨t, ht, by simp [TypeKindIr.isTopLevel, hkind], hname⟩

/-- A name of a type that is not of an event is one of the top level or of an instruction. -/
theorem mem_nonEventNames :
    name ∈ ir.namesOf (!·.isEvent) ↔ name ∈ ir.topLevelNames ∨ name ∈ ir.instructionNames := by
  simp only [topLevelNames, instructionNames, mem_namesOf, ← exists_or]
  refine exists_congr fun t => ?_
  cases t.kind <;> simp [TypeKindIr.isTopLevel, TypeKindIr.isEvent, TypeKindIr.isInstruction]

theorem mem_twinNames :
    name ∈ ir.twinNames ↔
      name ∈ ir.eventNames ∧ name ∈ ir.instructionNames ∧ name ∉ ir.topLevelNames := by
  simp [twinNames]

end SchemaIr

section Renaming

variable (ir : SchemaIr) {name : Name}

theorem resolve_instruction :
    resolveProtoName name (buildInstructionRenameMap ir) =
      if name ∈ ir.instructionNames ∧ name ∈ ir.topLevelNames then "Ix".toList ++ name
      else name := by
  have hmem : name ∈ ir.instructionNames.filter (ir.collidingNames.contains ·) ↔
      name ∈ ir.instructionNames ∧ name ∈ ir.topLevelNames := by
    rw [List.mem_filter, List.contains_iff_mem, SchemaIr.mem_collidingNames]
    exact ⟨fun h => ⟨h.1, h.2.2⟩,
      fun h => ⟨h.1, SchemaIr.instructionNames_subset h.1, h.2⟩⟩
  rw [buildInstructionRenameMap, resolveProtoName_map]
  simp only [hmem]

theorem resolve_event :
    resolveProtoName name (buildEventRenameMap ir) =
      if name ∈ ir.eventNames ∧ (name ∈ ir.topLevelNames ∨ name ∈ ir.instructionNames) then
        "Evt".toList ++ name
      else name := by
  have hmem : name ∈ ir.eventNames.filter ((ir.namesOf (!·.isEvent)).contains ·) ↔
      name ∈ ir.eventNames ∧ (name ∈ ir.topLevelNames ∨ name ∈ ir.instructionNames) := by
    rw [List.mem_filter, List.contains_iff_mem, SchemaIr.mem_nonEventNames]
  rw [buildEventRenameMap, resolveProtoName_map]
  simp only [hmem]

theorem resolve_instruction_of_not_mem (h : name ∉ ir.instructionNames) :
    resolveProtoName name (buildInstructionRenameMap ir) = name := by
  rw [resolve_instruction, if_neg fun hmem => h hmem.1]

theorem resolve_event_of_not_mem (h : name ∉ ir.eventNames) :
    resolveProtoName name (buildEventRenameMap ir) = name := by
  rw [resolve_event, if_neg fun hmem => h hmem.1]

end Renaming

theorem protoTypeName_of_isTopLevel (ir : SchemaIr) {t : TypeIr} (h : t.kind.isTopLevel = true) :
    protoTypeName ir t = t.name := by
  rw [protoTypeName]
  cases hkind : t.kind <;> simp_all [TypeKindIr.isTopLevel, TypeKindIr.isInstruction,
    TypeKindIr.isEvent]

/-! ## What the messages of types are -/

/-- The types whose fields are rendered. -/
def SchemaIr.renderedTypes (ir : SchemaIr) : List TypeIr :=
  firsts (protoTypeName ir) []
    (ir.types.filter fun t => !ir.oneofParents.contains (protoTypeName ir t))

theorem typeMessages_eq (ir : SchemaIr) (seen : List Name) (types : List TypeIr) :
    typeMessages ir seen types =
      (firsts (protoTypeName ir) seen
        (types.filter fun t => !ir.oneofParents.contains (protoTypeName ir t))).map
          (renderType ir) := by
  induction types generalizing seen with
  | nil => rfl
  | cons t types ih =>
      rw [typeMessages]
      by_cases hparent : ir.oneofParents.contains (protoTypeName ir t) = true
      · rw [if_pos hparent, List.filter_cons_of_neg (by simpa using hparent), ih]
      · rw [if_neg hparent, List.filter_cons_of_pos (by simpa using hparent), firsts]
        by_cases hseen : protoTypeName ir t ∈ seen
        · rw [if_pos (List.contains_iff_mem.mpr hseen), if_pos hseen, ih]
        · rw [if_neg (mt List.contains_iff_mem.mp hseen), if_neg hseen, List.map_cons, ih]

namespace SchemaIr

variable {ir : SchemaIr} {t u : TypeIr}

theorem firstOf_eq_some (h : ir.firstOf t = some u) :
    u ∈ ir.types ∧ protoTypeName ir u = protoTypeName ir t :=
  ⟨List.mem_of_find?_eq_some h, by simpa using List.find?_some h⟩

theorem exists_firstOf (ht : t ∈ ir.types) : ∃ u, ir.firstOf t = some u :=
  Option.isSome_iff_exists.mp (List.find?_isSome.mpr ⟨t, ht, by simp⟩)

theorem firstOf_congr (h : protoTypeName ir u = protoTypeName ir t) : ir.firstOf u = ir.firstOf t := by
  rw [firstOf, firstOf, h]

theorem isRendered_iff :
    ir.isRendered t = true ↔ protoTypeName ir t ∉ ir.oneofParents ∧ ir.firstOf t = some t := by
  simp [isRendered]

/-- The first of a name is the same among the types that are not those of unions. -/
theorem find?_filter_parents (hparent : protoTypeName ir t ∉ ir.oneofParents) :
    (ir.types.filter fun u => !ir.oneofParents.contains (protoTypeName ir u)).find?
      (fun u => protoTypeName ir u = protoTypeName ir t) = ir.firstOf t := by
  rw [List.find?_filter, firstOf]
  congr 1
  funext u
  by_cases hname : protoTypeName ir u = protoTypeName ir t
  · simp [hname, hparent]
  · simp [hname]

theorem mem_renderedTypes : t ∈ ir.renderedTypes ↔ ir.isRendered t = true := by
  rw [renderedTypes, mem_firsts, and_iff_right List.not_mem_nil, isRendered_iff]
  constructor
  · intro hfind
    have hmem := List.mem_of_find?_eq_some hfind
    have hparent : protoTypeName ir t ∉ ir.oneofParents := by
      simpa using (List.mem_filter.mp hmem).2
    exact ⟨hparent, find?_filter_parents hparent ▸ hfind⟩
  · rintro ⟨hparent, hfirst⟩
    rw [find?_filter_parents hparent, hfirst]

theorem mem_renderedNames {name : Name} :
    name ∈ ir.renderedTypes.map (protoTypeName ir) ↔
      name ∉ ir.oneofParents ∧ ∃ t ∈ ir.types, protoTypeName ir t = name := by
  rw [renderedTypes, mem_map_firsts, and_iff_right List.not_mem_nil, List.mem_map]
  constructor
  · rintro ⟨t, ht, rfl⟩
    obtain ⟨hmem, hparent⟩ := List.mem_filter.mp ht
    exact ⟨by simpa using hparent, t, hmem, rfl⟩
  · rintro ⟨hparent, t, ht, rfl⟩
    exact ⟨t, List.mem_filter.mpr ⟨ht, by simpa using hparent⟩, rfl⟩

/-- The first type of a name is rendered, unless the message is that of a union. -/
theorem isRendered_firstOf (hfirst : ir.firstOf t = some u)
    (hparent : protoTypeName ir t ∉ ir.oneofParents) : ir.isRendered u = true := by
  have hname := (firstOf_eq_some hfirst).2
  exact isRendered_iff.mpr ⟨hname ▸ hparent, (firstOf_congr hname).trans hfirst⟩

end SchemaIr

/-! ## The loop over the unions -/

/-- The loop when no union is empty. The index is that of an instruction dispatch. -/
structure Scanned (ir : SchemaIr) (count : Nat) (oneofs : List OneofIr) (scan : OneofScan) :
    Prop where
  messages : scan.messages = oneofs.map (renderOneofParent ir)
  events : scan.hasEventDispatch = oneofs.any (·.kind = .eventDispatch)
  instructions : scan.instructionDispatchIndex.isSome = oneofs.any (·.kind = .instructionDispatch)
  index : ∀ i ∈ scan.instructionDispatchIndex, ∃ k oneof, i = count + k ∧
    oneofs[k]? = some oneof ∧ oneof.kind = .instructionDispatch

theorem Scanned.step {ir : SchemaIr} {count : Nat} {oneofs : List OneofIr} {scan : OneofScan}
    (h : Scanned ir count oneofs scan) {oneof : OneofIr} (hvariants : oneof.variants ≠ []) :
    Scanned ir count (oneofs ++ [oneof]) (scanOneof ir count scan oneof) := by
  obtain ⟨hmessages, hevents, hinstructions, hindex⟩ := h
  rw [scanOneof, if_neg (by simpa using hvariants)]
  refine ⟨by simp [hmessages], by simp [hevents], ?_, ?_⟩
  · by_cases hkind : oneof.kind = .instructionDispatch
    · simp [hkind]
    · simp [hkind, hinstructions]
  · intro i hi
    by_cases hkind : oneof.kind = .instructionDispatch
    · simp only [hkind, if_true, Option.mem_def, Option.some.injEq] at hi
      refine ⟨oneofs.length, oneof, ?_, by simp, hkind⟩
      rw [← hi, hmessages, List.length_map]
    · simp only [hkind, if_false] at hi
      obtain ⟨k, found, hcount, hget, hfound⟩ := hindex i hi
      refine ⟨k, found, hcount, ?_, hfound⟩
      rw [List.getElem?_append_left (List.getElem?_eq_some_iff.mp hget).1, hget]

theorem scanned {ir : SchemaIr} {count : Nat} {oneofs : List OneofIr}
    (hvariants : ∀ oneof ∈ oneofs, oneof.variants ≠ []) :
    Scanned ir count oneofs (oneofs.foldl (scanOneof ir count) ⟨[], none, false⟩) := by
  induction oneofs using List.reverseRecOn with
  | nil => exact ⟨rfl, rfl, rfl, fun i hi => by contradiction⟩
  | append_singleton oneofs oneof ih =>
      rw [List.foldl_append]
      exact (ih fun o ho => hvariants o (List.mem_append_left _ ho)).step
        (hvariants oneof (by simp))

/-! ## All messages -/

namespace SchemaIr

variable (programName : Name) (ir : SchemaIr)

def accountMessages : List ProtoMessage :=
  if ir.accountNames.isEmpty then [] else [accountDispatchMessage programName ir.accountNames]

def outputMessages : List ProtoMessage :=
  if ir.hasDispatch .eventDispatch && ir.hasDispatch .instructionDispatch then
    [programEventOutputMessage]
  else []

/-- The messages that are not those of types. -/
def fixedMessages : List ProtoMessage :=
  publicKeyMessage ::
    (ir.accountMessages programName ++ ir.oneofs.map (renderOneofParent ir) ++ ir.outputMessages)

/-- The messages in the order of the file. -/
def allMessages : List ProtoMessage :=
  publicKeyMessage :: (ir.renderedTypes.map (renderType ir) ++
    (ir.accountMessages programName ++ ir.oneofs.map (renderOneofParent ir) ++ ir.outputMessages))

variable {programName ir}

theorem fixedMessages_names :
    (ir.fixedMessages programName).map (·.name) = ir.fixedNames programName := by
  have haccounts : (ir.accountMessages programName).map (·.name) = ir.accountWrappers programName := by
    rw [accountMessages, accountWrappers]
    split <;> rfl
  have houtput : ir.outputMessages.map (·.name) = ir.outputNames := by
    rw [outputMessages, outputNames]
    split <;> rfl
  rw [fixedMessages, fixedNames, List.map_cons, List.map_append, List.map_append, haccounts, houtput,
    List.map_map]
  rfl

theorem allMessages_perm :
    (ir.allMessages programName).Perm
      (ir.renderedTypes.map (renderType ir) ++ ir.fixedMessages programName) :=
  List.perm_middle.symm

theorem mem_allMessages {m : ProtoMessage} :
    m ∈ ir.allMessages programName ↔
      (∃ t, ir.isRendered t = true ∧ renderType ir t = m) ∨ m ∈ ir.fixedMessages programName := by
  rw [allMessages_perm.mem_iff, List.mem_append, List.mem_map]
  simp only [mem_renderedTypes]

theorem allMessages_names_perm :
    ((ir.allMessages programName).map (·.name)).Perm
      (ir.renderedTypes.map (protoTypeName ir) ++ ir.fixedNames programName) := by
  have hperm := (@allMessages_perm programName ir).map (·.name)
  rw [List.map_append, fixedMessages_names, List.map_map] at hperm
  exact hperm

theorem oneofParents_subset {name : Name} (h : name ∈ ir.oneofParents) :
    name ∈ ir.fixedNames programName := by
  rw [fixedNames]
  simp [h]

/-- Names of unions are found, whether a type has them or not. -/
theorem mem_allMessages_names {name : Name} :
    name ∈ (ir.allMessages programName).map (·.name) ↔ name ∈ ir.messageNames programName := by
  rw [allMessages_names_perm.mem_iff, messageNames, List.mem_append, List.mem_append, or_comm,
    mem_renderedNames, List.mem_map]
  constructor
  · exact Or.imp_right And.right
  · rintro (hfixed | ⟨t, ht, rfl⟩)
    · exact .inl hfixed
    · by_cases hparent : protoTypeName ir t ∈ ir.oneofParents
      · exact .inl (oneofParents_subset hparent)
      · exact .inr ⟨hparent, t, ht, rfl⟩

/-- Names are distinct when a type with another message's name is that of a union. -/
theorem nodup_allMessages_iff :
    ((ir.allMessages programName).map (·.name)).Nodup ↔
      (ir.fixedNames programName).Nodup ∧
        ∀ t ∈ ir.types, protoTypeName ir t ∈ ir.fixedNames programName →
          protoTypeName ir t ∈ ir.oneofParents := by
  rw [allMessages_names_perm.nodup_iff, List.nodup_append]
  constructor
  · rintro ⟨-, hfixed, hdisjoint⟩
    refine ⟨hfixed, fun t ht hname => ?_⟩
    by_contra hparent
    exact hdisjoint _ (mem_renderedNames.mpr ⟨hparent, t, ht, rfl⟩) _ hname rfl
  · rintro ⟨hfixed, htypes⟩
    refine ⟨nodup_firsts [] _, hfixed, ?_⟩
    rintro name hname _ hfixedName rfl
    obtain ⟨hparent, t, ht, rfl⟩ := mem_renderedNames.mp hname
    exact hparent (htypes t ht hfixedName)

end SchemaIr

/-- What `proto_schema_string` renders when no union is empty. -/
theorem protoSchemaString_messages {ir : SchemaIr} {package programName : Name}
    (hvariants : ∀ oneof ∈ ir.oneofs, oneof.variants ≠ []) :
    (protoSchemaString ir package programName).messages = ir.allMessages programName := by
  have hscan := @scanned ir ((publicKeyMessage :: typeMessages ir [] ir.types).length +
    (ir.accountMessages programName).length) _ hvariants
  rw [SchemaIr.allMessages, SchemaIr.outputMessages, SchemaIr.hasDispatch, SchemaIr.hasDispatch,
    ← hscan.events, ← hscan.instructions, ← hscan.messages, SchemaIr.renderedTypes,
    ← typeMessages_eq]
  rfl

/-! ## Positions -/

theorem positionOf_eq {messages : List ProtoMessage} (hnodup : (messages.map (·.name)).Nodup)
    {i : Nat} {m : ProtoMessage} (h : messages[i]? = some m) :
    positionOf messages m.name = some i := by
  obtain ⟨hlength, hget⟩ := List.getElem?_eq_some_iff.mp h
  rw [positionOf, List.findIdx?_eq_some_iff_getElem]
  refine ⟨hlength, by simp [hget], fun j hj => ?_⟩
  -- an earlier message has another name
  have hi : i < (messages.map (·.name)).length := by rwa [List.length_map]
  have hne : (messages.map (·.name))[j] ≠ (messages.map (·.name))[i] := by
    rw [ne_eq, hnodup.getElem_inj_iff]
    exact hj.ne
  simpa [hget] using hne

section Positions

variable {ir : SchemaIr} {package programName : Name}

theorem protoSchemaString_accountDispatchIndex :
    (protoSchemaString ir package programName).accountDispatchIndex =
      if ir.accountNames.isEmpty then none else some (ir.renderedTypes.length + 1) := by
  have hlength : (typeMessages ir [] ir.types).length = ir.renderedTypes.length := by
    rw [typeMessages_eq, List.length_map, SchemaIr.renderedTypes]
  rw [protoSchemaString, ← hlength]
  rfl

/-- The messages before those of the unions. -/
def SchemaIr.oneofOffset (programName : Name) (ir : SchemaIr) : Nat :=
  ir.renderedTypes.length + 1 + (ir.accountMessages programName).length

theorem getElem?_oneofOffset (k : Nat) :
    (ir.allMessages programName)[ir.oneofOffset programName + k]? =
      (ir.oneofs.map (renderOneofParent ir) ++ ir.outputMessages)[k]? := by
  have hsplit : ir.allMessages programName =
      (publicKeyMessage :: ir.renderedTypes.map (renderType ir) ++ ir.accountMessages programName) ++
        (ir.oneofs.map (renderOneofParent ir) ++ ir.outputMessages) := by
    simp [SchemaIr.allMessages]
  have hlength : (publicKeyMessage :: ir.renderedTypes.map (renderType ir) ++
      ir.accountMessages programName).length = ir.oneofOffset programName := by
    rw [List.length_append, List.length_cons, List.length_map]
    rfl
  rw [hsplit, ← hlength, List.getElem?_append_right (Nat.le_add_right _ _), Nat.add_sub_cancel_left]

theorem protoSchemaString_scanned (hvariants : ∀ oneof ∈ ir.oneofs, oneof.variants ≠ []) :
    ∃ scan, Scanned ir (ir.oneofOffset programName) ir.oneofs scan ∧
      (protoSchemaString ir package programName).instructionDispatchIndex =
        scan.instructionDispatchIndex ∧
      (protoSchemaString ir package programName).programEventOutputIndex =
        if ir.hasDispatch .eventDispatch && ir.hasDispatch .instructionDispatch then
          some (ir.oneofOffset programName + ir.oneofs.length)
        else none := by
  have hlength : (publicKeyMessage :: typeMessages ir [] ir.types).length +
      (ir.accountMessages programName).length = ir.oneofOffset programName := by
    rw [typeMessages_eq, List.length_cons, List.length_map]
    rfl
  have hscan : Scanned ir (ir.oneofOffset programName) ir.oneofs _ := scanned hvariants
  refine ⟨_, hscan, ?_, ?_⟩
  · rw [← hlength]
    rfl
  · rw [SchemaIr.hasDispatch, SchemaIr.hasDispatch, ← hscan.events, ← hscan.instructions,
      ← List.length_map (renderOneofParent ir), ← hscan.messages, ← hlength]
    rfl

variable (hnodup : ((ir.allMessages programName).map (·.name)).Nodup)

include hnodup

theorem accountDispatchIndex_eq :
    (protoSchemaString ir package programName).accountDispatchIndex =
      if ir.accountNames.isEmpty then none
      else positionOf (ir.allMessages programName)
        (accountWrapperName programName ir.accountNames) := by
  rw [protoSchemaString_accountDispatchIndex]
  split
  · rfl
  next hempty =>
    have hget : (ir.allMessages programName)[ir.renderedTypes.length + 1]? =
        some (accountDispatchMessage programName ir.accountNames) := by
      rw [SchemaIr.allMessages, SchemaIr.accountMessages, if_neg hempty, List.getElem?_cons_succ]
      simp
    exact (positionOf_eq hnodup hget).symm

variable (hvariants : ∀ oneof ∈ ir.oneofs, oneof.variants ≠ [])

include hvariants

theorem instructionDispatchIndex_eq {parent : Name}
    (hparent : ∀ oneof ∈ ir.oneofs, oneof.kind = .instructionDispatch → oneof.parentMessage = parent) :
    (protoSchemaString ir package programName).instructionDispatchIndex =
      if ir.hasDispatch .instructionDispatch then positionOf (ir.allMessages programName) parent
      else none := by
  obtain ⟨scan, hscan, hindex, -⟩ := @protoSchemaString_scanned ir package programName hvariants
  rw [hindex, SchemaIr.hasDispatch, ← hscan.instructions]
  cases hi : scan.instructionDispatchIndex with
  | none => rfl
  | some i =>
      obtain ⟨k, oneof, rfl, hget, hkind⟩ := hscan.index i hi
      have hmessage : (ir.allMessages programName)[ir.oneofOffset programName + k]? =
          some (renderOneofParent ir oneof) := by
        rw [getElem?_oneofOffset, List.getElem?_append_left, List.getElem?_map, hget, Option.map_some]
        rw [List.length_map]
        exact (List.getElem?_eq_some_iff.mp hget).1
      have hname : (renderOneofParent ir oneof).name = parent :=
        hparent oneof (List.mem_of_getElem? hget) hkind
      exact (hname ▸ positionOf_eq hnodup hmessage).symm

theorem programEventOutputIndex_eq :
    (protoSchemaString ir package programName).programEventOutputIndex =
      if ir.hasDispatch .eventDispatch && ir.hasDispatch .instructionDispatch then
        positionOf (ir.allMessages programName) "ProgramEventOutput".toList
      else none := by
  obtain ⟨-, -, -, houtput⟩ := @protoSchemaString_scanned ir package programName hvariants
  rw [houtput]
  split
  next hboth =>
    have hget : (ir.allMessages programName)[ir.oneofOffset programName + ir.oneofs.length]? =
        some programEventOutputMessage := by
      rw [getElem?_oneofOffset, List.getElem?_append_right (by simp), SchemaIr.outputMessages,
        if_pos hboth]
      simp
    exact (positionOf_eq hnodup hget).symm
  · rfl

end Positions

end Shipstern.Codegen
