import Shipstern.Core.Build
import Shipstern.Lib.Fallible

/-!
# The instruction tree is the flat list, reshaped

Whatever the stack heights are, nesting only moves an instruction under the one before it,
so the preorder of the tree stays the flat list. `visitAll` therefore yields an outer
instruction and then the instructions of all its groups, in their order, and the flat
indices number them.
-/

namespace Shipstern.Core

open InstructionUpdate

/-- A forest under construction: its roots with their stack heights. -/
abbrev Roots := List (InstructionUpdate × Option Nat)

/-- One turn of the nesting loop, seen from the parent: the roots that follow it are
already nested. -/
def place (parent : InstructionUpdate × Option Nat) (roots : Roots) : Roots :=
  match parent with
  | (ix, none) => (ix, none) :: roots
  | (ix, some height) =>
      let (ix, rest) := adopt height ix roots
      (ix, some height) :: rest

/-- A root that ran deeper than `height`. -/
def deeper (height : Nat) (root : InstructionUpdate × Option Nat) : Bool :=
  root.2.any (height < ·)

theorem adopt_eq (height : Nat) (parent : InstructionUpdate) (roots : Roots) :
    adopt height parent roots =
      ({ parent with inner := parent.inner ++ (roots.takeWhile (deeper height)).map Prod.fst },
        roots.dropWhile (deeper height)) := by
  induction roots generalizing parent with
  | nil => simp [adopt]
  | cons root roots ih =>
      obtain ⟨child, h⟩ := root
      rw [adopt]
      by_cases hdeep : h.any (height < ·)
      · have hdeeper : deeper height (child, h) = true := hdeep
        simp [hdeep, ih, hdeeper]
      · have hflat : deeper height (child, h) = false := by simpa [deeper] using hdeep
        simp [hdeep, hflat]

theorem place_some (ix : InstructionUpdate) (height : Nat) (roots : Roots) :
    place (ix, some height) roots =
      ({ ix with inner := ix.inner ++ (roots.takeWhile (deeper height)).map Prod.fst },
        some height) :: roots.dropWhile (deeper height) := by
  simp [place, adopt_eq]

theorem nestStep_append (front : Roots) (parent : InstructionUpdate × Option Nat) (roots : Roots) :
    nestStep front.length (front ++ parent :: roots) = front ++ place parent roots := by
  obtain ⟨ix, height⟩ := parent
  cases height with
  | none => simp [nestStep, place]
  | some height => simp [nestStep, place]

/-- The loop over indexes is a fold from the right. -/
theorem nestLoop_append (front roots : Roots) :
    nestLoop front.length (front ++ roots) = front.foldr place roots := by
  induction front using List.reverseRecOn generalizing roots with
  | nil => rfl
  | append_singleton front parent ih =>
      rw [List.append_assoc, List.singleton_append, List.length_append, List.length_singleton,
        nestLoop, nestStep_append, ih, List.foldr_append]
      rfl

theorem nestInner_eq (inner : Roots) : nestInner inner = inner.foldr place [] := by
  induction inner using List.reverseRecOn with
  | nil => rfl
  | append_singleton front last ih =>
      have hlast : place last [] = [last] := by
        obtain ⟨ix, height⟩ := last
        cases height with
        | none => rfl
        | some height => simp [place, adopt]
      rw [nestInner, List.length_append, List.length_singleton, Nat.add_sub_cancel,
        nestLoop_append, List.foldr_append, List.foldr_cons, List.foldr_nil, hlast]

namespace InstructionUpdate

/-- An instruction by itself, without what it invoked and without its log range. -/
def alone (ix : InstructionUpdate) : InstructionUpdate :=
  { ix with inner := [], logRange := ⟨0, 0⟩ }

@[simp] theorem alone_inner (ix : InstructionUpdate) (inner : List InstructionUpdate) :
    alone { ix with inner := inner } = ix.alone := rfl

theorem alone_stripLogs (ix : InstructionUpdate) : ix.stripLogs.alone = ix.alone := by
  rw [stripLogs_eq]
  rfl

/-- The instructions of a tree in preorder, each by itself. -/
def flat (ix : InstructionUpdate) : List InstructionUpdate := ix.preorder.map alone

theorem flat_eq (ix : InstructionUpdate) : ix.flat = ix.alone :: ix.inner.flatMap flat := by
  rw [flat, preorder_eq, List.map_cons, List.map_flatMap]
  rfl

theorem flat_stripLogs (ix : InstructionUpdate) : ix.stripLogs.flat = ix.flat := by
  rw [flat, flat, preorder_stripLogs, List.map_map]
  exact List.map_congr_left fun child _ => alone_stripLogs child

end InstructionUpdate

/-- The instructions below the roots of a forest, each by itself. -/
def Roots.flat (roots : Roots) : List InstructionUpdate :=
  roots.flatMap fun root => root.1.flat

theorem Roots.flat_cons (root : InstructionUpdate × Option Nat) (roots : Roots) :
    Roots.flat (root :: roots) = root.1.flat ++ roots.flat := rfl

theorem Roots.flat_append (front back : Roots) :
    Roots.flat (front ++ back) = front.flat ++ back.flat :=
  List.flatMap_append

theorem Roots.flatMap_flat (roots : Roots) :
    (roots.map Prod.fst).flatMap InstructionUpdate.flat = roots.flat := by
  rw [List.flatMap_map]
  rfl

/-- Roots appended below an instruction follow in its flat list. -/
theorem flat_inner_append (ix : InstructionUpdate) (roots : Roots) :
    InstructionUpdate.flat { ix with inner := ix.inner ++ roots.map Prod.fst } =
      ix.flat ++ roots.flat := by
  rw [flat_eq, flat_eq, List.flatMap_append, Roots.flatMap_flat]
  rfl

/-- Moving roots under the parent they follow keeps the preorder. -/
theorem flat_place (parent : InstructionUpdate × Option Nat) (roots : Roots) :
    Roots.flat (place parent roots) = Roots.flat (parent :: roots) := by
  obtain ⟨ix, height⟩ := parent
  cases height with
  | none => rfl
  | some height =>
      let moved : Roots := roots.takeWhile (deeper height)
      let kept : Roots := roots.dropWhile (deeper height)
      have hsplit : moved ++ kept = roots := List.takeWhile_append_dropWhile
      calc
        Roots.flat (place (ix, some height) roots) = (ix.flat ++ moved.flat) ++ kept.flat := by
          rw [place_some, Roots.flat_cons, flat_inner_append]
        _ = Roots.flat ((ix, some height) :: roots) := by
          rw [List.append_assoc, ← Roots.flat_append, hsplit, Roots.flat_cons]

theorem flat_nestInner (inner : Roots) : Roots.flat (nestInner inner) = inner.flat := by
  rw [nestInner_eq]
  induction inner with
  | nil => rfl
  | cons parent inner ih => rw [List.foldr_cons, flat_place, Roots.flat_cons, ih, Roots.flat_cons]

/-! ## What a successful build did -/

theorem buildInstruction_eq_ok {shared : InstructionShared} {programIdIndex : Nat}
    {accounts data : List UInt8} {path : Path} {ix : InstructionUpdate}
    (h : buildInstruction shared programIdIndex accounts data path = .ok ix) :
    ∃ program keys, shared.accounts.get programIdIndex = .ok program ∧
      List.Forall₂ (fun i key => shared.accounts.get i.toNat = .ok key) accounts keys ∧
      ix = ⟨program, keys, data, shared, [], path, ⟨0, 0⟩⟩ := by
  obtain ⟨program, hprogram, h⟩ := Fallible.bind_eq_ok.mp h
  obtain ⟨keys, hkeys, h⟩ := Fallible.bind_eq_ok.mp h
  cases h
  refine ⟨program, keys, Fallible.mapError_eq_ok.mp hprogram, ?_, rfl⟩
  exact (Fallible.mapM_eq_ok.mp hkeys).imp fun _ _ h => Fallible.mapError_eq_ok.mp h

/-- Looking up the second list at the position of each item pairs the two lists. -/
theorem mapFinIdx_eq_zip {α β γ : Type} (items : List α) (others : List β)
    (hlength : others.length = items.length) (f : α → β → γ) :
    (items.mapFinIdx fun idx item hidx => f item (others.get ⟨idx, hlength ▸ hidx⟩)) =
      (items.zip others).map fun entry => f entry.1 entry.2 := by
  refine List.ext_getElem (by simp [hlength]) ?_
  intro idx hleft hright
  rw [List.getElem_mapFinIdx, List.getElem_map, List.getElem_zip]
  rfl

theorem attachGroup_eq_ok {shared : InstructionShared} {outer outer' : List InstructionUpdate}
    {group : InnerInstructions} (h : attachGroup shared outer group = .ok outer') :
    ∃ parent inner, outer[group.index]? = some parent ∧
      List.Forall₂ (fun entry root => buildInnerInstruction shared entry.1 entry.2 = .ok root)
        (group.instructions.zip (derivePathsFromStackheights
          (group.instructions.map (·.stackHeight)) group.index)) inner ∧
      outer' = outer.set group.index
        { parent with inner := parent.inner ++ (nestInner inner).map Prod.fst } := by
  rw [attachGroup] at h
  split at h
  · contradiction
  · next parent hparent =>
      obtain ⟨inner, hinner, h⟩ := Fallible.bind_eq_ok.mp h
      cases h
      refine ⟨parent, inner, hparent, ?_, rfl⟩
      have hbuilt := Fallible.mapM_eq_ok.mp hinner
      have hpaths := length_derivePaths (group.instructions.map (·.stackHeight)) group.index
      rwa [mapFinIdx_eq_zip group.instructions _ (hpaths.trans (List.length_map _))
        (buildInnerInstruction shared), List.forall₂_map_left_iff] at hbuilt

/-- The parts of a transaction update that a successful build has read. -/
structure Parts where
  info : SubscribeUpdateTransactionInfo
  transaction : Transaction
  status : TransactionStatusMeta
  message : Message
  header : MessageHeader

namespace Parts

/-- The parts are those of the update, and none is missing. -/
structure Of (parts : Parts) (txn : TransactionUpdate) : Prop where
  info : txn.transaction = some parts.info
  transaction : parts.info.transaction = some parts.transaction
  status : parts.info.statusMeta = some parts.status
  message : parts.transaction.message = some parts.message
  header : parts.message.header = some parts.header

/-- The data shared by the instructions of the update. -/
def shared (parts : Parts) (txn : TransactionUpdate) : InstructionShared where
  slot := txn.slot
  signature := parts.info.signature
  isVote := parts.info.isVote
  txnIndex := parts.info.index
  err := parts.status.err
  logMessages := parts.status.logMessages
  accounts :=
    { staticKeys := parts.message.accountKeys
      dynamicRw := parts.status.loadedWritableAddresses
      dynamicRo := parts.status.loadedReadonlyAddresses }
  messageHeader := parts.header

/-- The flat lists of the update for outer instruction `k`: the instruction itself, then
the instructions of all groups with that index, in group order and list order. -/
def flatInstructions (parts : Parts) (k : Nat) : List CompiledInstruction :=
  parts.message.instructions[k]?.toList ++ innerOf k parts.status.innerInstructions
where
  /-- The instructions of the groups with index `k`. -/
  innerOf (k : Nat) (groups : List InnerInstructions) : List CompiledInstruction :=
    (groups.filter (·.index = k)).flatMap fun group =>
      group.instructions.map fun ins => ⟨ins.programIdIndex, ins.accounts, ins.data⟩

end Parts

theorem okOrMissing_eq_ok {α : Type} {field : Missing} {x : Option α} {a : α} :
    okOrMissing field x = .ok a ↔ x = some a := by
  cases x with
  | none => simp [okOrMissing]
  | some b => simp [okOrMissing]

theorem buildFromTxn_eq_ok {bs58 : Bs58} {txn : TransactionUpdate} {ixs : List InstructionUpdate}
    (h : buildFromTxn bs58 txn = .ok ixs) :
    ∃ (parts : Parts) (outer attached : List InstructionUpdate), parts.Of txn ∧
      List.Forall₂ (fun entry ix =>
          buildOuterInstruction (parts.shared txn) entry.1 [entry.2] = .ok ix)
        parts.message.instructions.zipIdx outer ∧
      attachInnerInstructions (parts.shared txn) parts.status.innerInstructions outer =
        .ok attached ∧
      ixs = assignLogMessages bs58 parts.status.logMessages attached := by
  obtain ⟨info, hinfo, h⟩ := Fallible.bind_eq_ok.mp h
  obtain ⟨transaction, htransaction, h⟩ := Fallible.bind_eq_ok.mp h
  obtain ⟨status, hstatus, h⟩ := Fallible.bind_eq_ok.mp h
  obtain ⟨message, hmessage, h⟩ := Fallible.bind_eq_ok.mp h
  obtain ⟨header, hheader, h⟩ := Fallible.bind_eq_ok.mp h
  obtain ⟨outer, houter, h⟩ := Fallible.bind_eq_ok.mp h
  obtain ⟨attached, hattached, h⟩ := Fallible.bind_eq_ok.mp h
  cases h
  refine ⟨⟨info, transaction, status, message, header⟩, outer, attached, ?_,
    Fallible.mapM_eq_ok.mp houter, hattached, rfl⟩
  constructor
  · exact okOrMissing_eq_ok.mp hinfo
  · exact okOrMissing_eq_ok.mp htransaction
  · exact okOrMissing_eq_ok.mp hstatus
  · exact okOrMissing_eq_ok.mp hmessage
  · exact okOrMissing_eq_ok.mp hheader

/-! ## Lossless reshaping -/

/-- `ix` is what building the flat instruction `ins` gives: its keys are looked up in the
shared account keys and its payload is kept. -/
structure Builds (shared : InstructionShared) (ins : CompiledInstruction)
    (ix : InstructionUpdate) : Prop where
  program : shared.accounts.get ins.programIdIndex = .ok ix.program
  accounts : List.Forall₂ (fun i key => shared.accounts.get i.toNat = .ok key)
    ins.accounts ix.accounts
  data : ix.data = ins.data
  shared : ix.shared = shared

theorem builds_alone {shared : InstructionShared} {ins : CompiledInstruction}
    {ix : InstructionUpdate} : Builds shared ins ix.alone ↔ Builds shared ins ix :=
  ⟨fun h => ⟨h.program, h.accounts, h.data, h.shared⟩,
    fun h => ⟨h.program, h.accounts, h.data, h.shared⟩⟩

theorem forall₂_builds_flat {shared : InstructionShared} {flat : List CompiledInstruction}
    {ix : InstructionUpdate} :
    List.Forall₂ (Builds shared) flat ix.flat ↔ List.Forall₂ (Builds shared) flat ix.preorder := by
  rw [InstructionUpdate.flat, List.forall₂_map_right_iff]
  simp only [builds_alone]

theorem buildInstruction_builds {shared : InstructionShared} {programIdIndex : Nat}
    {accounts data : List UInt8} {path : Path} {ix : InstructionUpdate}
    (h : buildInstruction shared programIdIndex accounts data path = .ok ix) :
    Builds shared ⟨programIdIndex, accounts, data⟩ ix ∧ ix.inner = [] ∧ ix.path = path := by
  obtain ⟨program, keys, hprogram, hkeys, rfl⟩ := buildInstruction_eq_ok h
  exact ⟨⟨hprogram, hkeys, rfl, rfl⟩, rfl, rfl⟩

theorem buildInnerInstruction_builds {shared : InstructionShared} {ins : InnerInstruction}
    {path : Path} {root : InstructionUpdate × Option Nat}
    (h : buildInnerInstruction shared ins path = .ok root) :
    Builds shared ⟨ins.programIdIndex, ins.accounts, ins.data⟩ root.1 ∧ root.1.inner = [] ∧
      root.1.path = path ∧ root.2 = ins.stackHeight := by
  obtain ⟨ix, hix, rfl⟩ := Fallible.map_eq_ok.mp h
  obtain ⟨hbuilds, hinner, hpath⟩ := buildInstruction_builds hix
  exact ⟨hbuilds, hinner, hpath, rfl⟩

/-- The nested forest of a group lists the instructions of the group. -/
theorem flat_nestInner_group {shared : InstructionShared} {instructions : List InnerInstruction}
    {paths : List Path} {inner : Roots} (hlength : instructions.length = paths.length)
    (h : List.Forall₂ (fun entry root => buildInnerInstruction shared entry.1 entry.2 = .ok root)
      (instructions.zip paths) inner) :
    List.Forall₂ (Builds shared)
      (instructions.map fun ins => ⟨ins.programIdIndex, ins.accounts, ins.data⟩)
      (Roots.flat (nestInner inner)) := by
  have hbuilt : List.Forall₂ (fun (ins : InnerInstruction) root =>
      Builds shared ⟨ins.programIdIndex, ins.accounts, ins.data⟩ root.1 ∧ root.1.inner = [])
      instructions inner := by
    rw [← List.map_fst_zip hlength.le, List.forall₂_map_left_iff]
    refine h.imp fun entry root hbuild => ?_
    obtain ⟨hbuilds, hinner, -, -⟩ := buildInnerInstruction_builds hbuild
    exact ⟨hbuilds, hinner⟩
  rw [flat_nestInner]
  clear h hlength
  induction hbuilt with
  | nil => exact .nil
  | @cons ins root instructions inner hroot hrest ih =>
      have hflat : root.1.flat = [root.1.alone] := by rw [flat_eq, hroot.2, List.flatMap_nil]
      rw [Roots.flat_cons, hflat]
      exact .cons (builds_alone.mpr hroot.1) ih

/-- The outer instructions after the groups `done` have been attached. -/
def Attached (shared : InstructionShared) (instructions : List CompiledInstruction)
    (done : List InnerInstructions) (outer : List InstructionUpdate) : Prop :=
  outer.length = instructions.length ∧ ∀ k ix, outer[k]? = some ix → ix.path = [k] ∧
    List.Forall₂ (Builds shared)
      (instructions[k]?.toList ++ Parts.flatInstructions.innerOf k done) ix.flat

theorem attached_outer {shared : InstructionShared} {instructions : List CompiledInstruction}
    {outer : List InstructionUpdate}
    (h : List.Forall₂ (fun entry ix => buildOuterInstruction shared entry.1 [entry.2] = .ok ix)
      instructions.zipIdx outer) : Attached shared instructions [] outer := by
  have hlength : instructions.length = outer.length := by simpa using h.length_eq
  refine ⟨hlength.symm, ?_⟩
  intro k ix hix
  obtain ⟨hk, rfl⟩ := List.getElem?_eq_some_iff.mp hix
  have hbuild := h.get (i := k) (by simpa [hlength] using hk) hk
  simp only [List.get_eq_getElem, List.getElem_zipIdx, Nat.zero_add] at hbuild
  obtain ⟨hbuilds, hinner, hpath⟩ := buildInstruction_builds hbuild
  refine ⟨hpath, ?_⟩
  rw [flat_eq, hinner, List.getElem?_eq_getElem (hlength ▸ hk)]
  exact .cons (builds_alone.mpr hbuilds) .nil

/-- Attaching a group appends its instructions below its outer instruction and leaves the
other outer instructions alone. -/
theorem attached_group {shared : InstructionShared} {instructions : List CompiledInstruction}
    {done : List InnerInstructions} {group : InnerInstructions}
    {outer outer' : List InstructionUpdate} (hdone : Attached shared instructions done outer)
    (h : attachGroup shared outer group = .ok outer') :
    Attached shared instructions (done ++ [group]) outer' := by
  obtain ⟨parent, inner, hparent, hinner, rfl⟩ := attachGroup_eq_ok h
  have hgroup := flat_nestInner_group (by simp [length_derivePaths]) hinner
  refine ⟨by simpa using hdone.1, ?_⟩
  intro k ix hix
  by_cases hk : group.index = k
  · subst hk
    obtain ⟨hpath, hflat⟩ := hdone.2 _ parent hparent
    have hlt := (List.getElem?_eq_some_iff.mp hparent).1
    rw [List.getElem?_set_self hlt] at hix
    cases hix
    refine ⟨hpath, ?_⟩
    rw [flat_inner_append, Parts.flatInstructions.innerOf, List.filter_append, List.flatMap_append,
      ← List.append_assoc]
    refine List.rel_append hflat ?_
    simpa using hgroup
  · obtain ⟨hpath, hflat⟩ := hdone.2 k ix (by rwa [List.getElem?_set_ne hk] at hix)
    refine ⟨hpath, ?_⟩
    simpa [Parts.flatInstructions.innerOf, List.filter_append, hk] using hflat

theorem assignLogMessages_getElem? {bs58 : Bs58} {logs : List LogLine}
    {outer : List InstructionUpdate} {k : Nat} {ix : InstructionUpdate}
    (h : (assignLogMessages bs58 logs outer)[k]? = some ix) :
    ∃ built, outer[k]? = some built ∧ ix.stripLogs = built.stripLogs := by
  have hstrip := congrArg (·[k]?) (assignLogMessages_stripLogs logs bs58 outer)
  simp only [List.getElem?_map, h, Option.map_some] at hstrip
  obtain ⟨built, hbuilt, hsame⟩ := Option.map_eq_some_iff.mp hstrip.symm
  exact ⟨built, hbuilt, hsame.symm⟩

theorem path_eq_of_stripLogs {ix built : InstructionUpdate} (h : ix.stripLogs = built.stripLogs) :
    ix.path = built.path := by
  have hpath := congrArg InstructionUpdate.path h
  rwa [stripLogs_eq, stripLogs_eq] at hpath

/-- Outer instruction `k` has the path `[k]`, and its tree lists the flat instructions of `k`. -/
theorem attached_of_buildFromTxn {bs58 : Bs58} {txn : TransactionUpdate}
    {ixs : List InstructionUpdate} (h : buildFromTxn bs58 txn = .ok ixs) :
    ∃ parts : Parts, parts.Of txn ∧ ixs.length = parts.message.instructions.length ∧
      ∀ k ix, ixs[k]? = some ix → ix.path = [k] ∧
        List.Forall₂ (Builds (parts.shared txn)) (parts.flatInstructions k) ix.preorder := by
  obtain ⟨parts, outer, attached, hparts, houter, hattach, rfl⟩ := buildFromTxn_eq_ok h
  have hattached : Attached (parts.shared txn) parts.message.instructions
      parts.status.innerInstructions attached :=
    Fallible.foldlM_induction (attached_outer houter)
      (fun _ _ _ _ hdone hstep => attached_group hdone hstep) hattach
  refine ⟨parts, hparts, ?_, ?_⟩
  · have hlength := congrArg List.length
      (assignLogMessages_stripLogs parts.status.logMessages bs58 attached)
    rw [List.length_map, List.length_map] at hlength
    rw [hlength, hattached.1]
  · intro k ix hix
    obtain ⟨built, hbuilt, hsame⟩ := assignLogMessages_getElem? hix
    obtain ⟨hpath, hflat⟩ := hattached.2 k built hbuilt
    rw [← flat_stripLogs built, ← hsame, flat_stripLogs, forall₂_builds_flat] at hflat
    rw [← path_eq_of_stripLogs hsame] at hpath
    exact ⟨hpath, hflat⟩

/-- The tree of every outer instruction lists the outer instruction and then the
instructions of all its groups, in group order and list order, each once; the flat indices
number them below the outer index. -/
theorem visitAll_of_buildFromTxn (bs58 : Bs58) (txn : TransactionUpdate)
    (ixs : List InstructionUpdate) (h : buildFromTxn bs58 txn = .ok ixs) :
    ∃ parts : Parts, parts.Of txn ∧ ixs.length = parts.message.instructions.length ∧
      ∀ k ix, ixs[k]? = some ix →
        List.Forall₂ (Builds (parts.shared txn)) (parts.flatInstructions k) ix.visitAll ∧
        ix.visitAllWithFlatIndices =
          ix.visitAll.zip ([k] :: (List.range (ix.visitAll.length - 1)).map fun j => [k, j]) := by
  obtain ⟨parts, hparts, hlength, htree⟩ := attached_of_buildFromTxn h
  refine ⟨parts, hparts, hlength, ?_⟩
  intro k ix hix
  obtain ⟨hpath, hflat⟩ := htree k ix hix
  refine ⟨by rwa [visitAll_eq], ?_⟩
  rw [visitAllWithFlatIndices_eq ix hpath, visitAll_eq, preorder_eq]
  rfl

/-- Two outer instructions. The second has two groups, with a missing height, a jump of two
levels and a group that does not start at height 2. -/
def looseHeights : TransactionUpdate where
  transaction := some
    { signature := []
      isVote := false
      transaction := some
        { message := some
            { header := some ⟨1, 0, 1⟩
              accountKeys := [List.replicate 32 1, List.replicate 32 2]
              instructions := [⟨0, [1], [7]⟩, ⟨1, [], [8]⟩] } }
      statusMeta := some
        { err := none
          innerInstructions :=
            [⟨1, [⟨0, [], [20], some 2⟩, ⟨0, [], [21], some 4⟩, ⟨1, [0], [22], none⟩,
                ⟨0, [], [23], some 3⟩]⟩,
              ⟨1, [⟨0, [1, 0], [24], some 3⟩]⟩]
          logMessages := []
          loadedWritableAddresses := []
          loadedReadonlyAddresses := [] }
      index := 5 }
  slot := 9

theorem visitAll_of_looseHeights :
    ∃ ixs, buildFromTxn .bitcoin looseHeights = .ok ixs ∧
      ∃ parts : Parts, parts.Of looseHeights ∧
        ixs.length = parts.message.instructions.length ∧
        ∀ k ix, ixs[k]? = some ix →
          List.Forall₂ (Builds (parts.shared looseHeights)) (parts.flatInstructions k)
            ix.visitAll ∧
          ix.visitAllWithFlatIndices =
            ix.visitAll.zip
              ([k] :: (List.range (ix.visitAll.length - 1)).map fun j => [k, j]) := by
  exact ⟨_, rfl, visitAll_of_buildFromTxn .bitcoin looseHeights _ rfl⟩

end Shipstern.Core
