import Mathlib
import Shipstern.Core.InstructionTree

/-!
# Paths are positions

The forward scan that derives the paths and the backward merge that nests the instructions
share no code. For the stack heights of a call trace they agree: the path of an instruction
is its position in the tree.

The proof follows the merge. A forest whose roots come from a scan is `Labeled`: the stack
that a scan has at the next root is the path of the root before it, as far as the next root
looks at it.
-/

namespace Shipstern.Core

open InstructionUpdate

/-- Stack heights of a call trace below an outer instruction: all are present, the first
is 2, every one is at least 2, and each is at most one more than its predecessor. -/
def ValidTrace (heights : List (Option Nat)) : Prop :=
  ∃ trace : List Nat, heights = trace.map some ∧ (∀ h ∈ trace.head?, h = 2) ∧
    (∀ h ∈ trace, 2 ≤ h) ∧ trace.IsChain fun prev current => current ≤ prev + 1

theorem length_bumpLast (stack : Path) : (bumpLast stack).length = stack.length := by
  rw [bumpLast]
  split
  · rfl
  · next last hlast =>
      have hpos : 0 < stack.length := List.length_pos_of_mem (List.mem_of_getLast? hlast)
      rw [List.length_append, List.length_dropLast, List.length_singleton]
      omega

@[simp] theorem bumpLast_append (stack : Path) (n : Nat) :
    bumpLast (stack ++ [n]) = stack ++ [n + 1] := by
  simp [bumpLast]

/-- The stack of a scan that stands at the height of its stack. -/
def push (stack : Path) (height : Nat) : Path :=
  nextStack stack (some stack.length) (some height)

theorem push_of_le {stack : Path} {height : Nat} (h : height ≤ stack.length) :
    push stack height = bumpLast (stack.take height) := by
  obtain hlt | heq := Nat.lt_or_eq_of_le h
  · simp [push, nextStack, Nat.compare_eq_lt.mpr hlt]
  · simp [push, nextStack, heq]

theorem push_of_gt {stack : Path} {height : Nat} (h : stack.length < height) :
    push stack height = stack ++ [0] := by
  simp [push, nextStack, Nat.compare_eq_gt.mpr h]

theorem length_push {stack : Path} {height : Nat} (h : height ≤ stack.length + 1) :
    (push stack height).length = height := by
  obtain hle | hgt := le_or_gt height stack.length
  · rw [push_of_le hle, length_bumpLast, List.length_take]
    omega
  · rw [push_of_gt hgt, List.length_append, List.length_singleton]
    omega

/-- Below the last entry of the stack a scan does not see that entry. -/
theorem push_append {stack : Path} {n height : Nat} (h : height ≤ stack.length) :
    push (stack ++ [n]) height = push stack height := by
  have hlong : height ≤ (stack ++ [n]).length := by
    rw [List.length_append]
    omega
  rw [push_of_le hlong, push_of_le h, List.take_append_of_le_length h]

namespace InstructionUpdate

/-- Below the instruction every path is its parent's path followed by the position. -/
def Positioned (ix : InstructionUpdate) : Prop :=
  ∀ parent ∈ ix.preorder, ∀ j child, parent.inner[j]? = some child →
    child.path = parent.path ++ [j]

theorem positioned_iff {ix : InstructionUpdate} :
    ix.Positioned ↔ (∀ j child, ix.inner[j]? = some child → child.path = ix.path ++ [j]) ∧
      ∀ child ∈ ix.inner, child.Positioned := by
  constructor
  · intro h
    refine ⟨h ix (by rw [preorder_eq]; exact List.mem_cons_self), ?_⟩
    intro child hchild parent hparent
    refine h parent ?_
    rw [preorder_eq]
    exact List.mem_cons_of_mem _ (List.mem_flatMap.mpr ⟨child, hchild, hparent⟩)
  · rintro ⟨hhere, hbelow⟩ parent hparent
    rw [preorder_eq] at hparent
    obtain rfl | hparent := List.mem_cons.mp hparent
    · exact hhere
    · obtain ⟨child, hchild, hmem⟩ := List.mem_flatMap.mp hparent
      exact hbelow child hchild parent hmem

theorem positioned_stripLogs {ix : InstructionUpdate} : ix.stripLogs.Positioned ↔ ix.Positioned := by
  have hinner : ∀ parent : InstructionUpdate,
      parent.stripLogs.inner = parent.inner.map stripLogs := fun parent => by rw [stripLogs_eq]
  have hpath : ∀ parent : InstructionUpdate, parent.stripLogs.path = parent.path :=
    fun parent => by rw [stripLogs_eq]
  simp only [Positioned, preorder_stripLogs, List.forall_mem_map, hinner, hpath,
    List.getElem?_map, Option.map_eq_some_iff]
  constructor
  · intro h parent hparent j child hchild
    rw [← h parent hparent j child.stripLogs ⟨child, hchild, rfl⟩, hpath]
  · rintro h parent hparent j - ⟨child, hchild, rfl⟩
    rw [hpath, h parent hparent j child hchild]

end InstructionUpdate

/-- Instructions that a scan has given their paths, from the given stack on. -/
def Scanned : Path → Roots → Prop
  | _, [] => True
  | stack, (ix, h) :: rest =>
      ∃ height, h = some height ∧ 2 ≤ height ∧ height ≤ stack.length + 1 ∧ ix.inner = [] ∧
        ix.path = push stack height ∧ Scanned ix.path rest

/-- Roots of a nested forest whose paths come from a scan: heights do not increase from
`bound` on, and the next path continues from the path of the root before. -/
def Labeled : Path → Nat → Roots → Prop
  | _, _, [] => True
  | stack, bound, (ix, h) :: roots =>
      ∃ height, h = some height ∧ 2 ≤ height ∧ height ≤ bound ∧ ix.path = push stack height ∧
        ix.Positioned ∧ Labeled ix.path height roots

theorem deeper_of_labeled {stack : Path} {bound : Nat} {roots : Roots}
    (h : Labeled stack bound roots) : ∀ root ∈ roots, deeper 1 root = true := by
  induction roots generalizing stack bound with
  | nil => simp
  | cons root roots ih =>
      obtain ⟨ix, h'⟩ := root
      obtain ⟨height, rfl, htwo, -, -, -, hrest⟩ := h
      rw [List.forall_mem_cons]
      refine ⟨?_, ih hrest⟩
      have hone : 1 < height := by omega
      simpa [deeper] using hone

/-- The stack after `n` children of the instruction at `path`. -/
def childStack (path : Path) : Nat → Path
  | 0 => path
  | n + 1 => path ++ [n]

theorem push_childStack (path : Path) (n : Nat) :
    push (childStack path n) (path.length + 1) = path ++ [n] := by
  cases n with
  | zero => exact push_of_gt (Nat.lt_succ_self _)
  | succ n =>
      have hlength : (path ++ [n]).length = path.length + 1 := by simp
      rw [childStack, ← hlength, push_of_le le_rfl, List.take_length, bumpLast_append]

theorem push_childStack_of_le {path : Path} {height : Nat} (n : Nat) (h : height ≤ path.length) :
    push (childStack path n) height = push path height := by
  cases n with
  | zero => rfl
  | succ n => exact push_append h

/-- What the parent at `path` takes from a labeled forest are its children in order, and
what it leaves is labeled from the parent on. -/
theorem Labeled.adopted {path : Path} {n : Nat} {roots : Roots}
    (h : Labeled (childStack path n) (path.length + 1) roots) :
    (∀ j child, ((roots.takeWhile (deeper path.length)).map Prod.fst)[j]? = some child →
      child.path = path ++ [n + j] ∧ child.Positioned) ∧
    Labeled path path.length (roots.dropWhile (deeper path.length)) := by
  induction roots generalizing n with
  | nil => simp [Labeled]
  | cons root roots ih =>
      obtain ⟨ix, h'⟩ := root
      obtain ⟨height, rfl, htwo, hbound, hpath, hpositioned, hrest⟩ := h
      obtain hle | hgt := le_or_gt height path.length
      · have hflat : deeper path.length (ix, some height) = false := by
          simpa [deeper] using hle
        simp only [List.takeWhile_cons, List.dropWhile_cons, hflat]
        refine ⟨by simp, ?_⟩
        refine ⟨height, rfl, htwo, hle, ?_, hpositioned, hrest⟩
        rw [hpath, push_childStack_of_le n hle]
      · have hheight : height = path.length + 1 := by omega
        subst hheight
        have hdeep : deeper path.length (ix, some (path.length + 1)) = true := by
          simp [deeper]
        rw [push_childStack] at hpath
        have hnext : Labeled (childStack path (n + 1)) (path.length + 1) roots := by
          rwa [hpath] at hrest
        obtain ⟨hmoved, hkept⟩ := ih hnext
        simp only [List.takeWhile_cons, List.dropWhile_cons, hdeep, if_true, List.map_cons]
        refine ⟨?_, hkept⟩
        intro j child hchild
        cases j with
        | zero =>
            cases hchild
            exact ⟨hpath, hpositioned⟩
        | succ j =>
            have hlater := hmoved j child hchild
            rwa [Nat.add_right_comm, Nat.add_assoc] at hlater

/-- Nesting scanned instructions gives a labeled forest. -/
theorem Scanned.labeled {stack : Path} {inner : Roots} (h : Scanned stack inner) :
    Labeled stack (stack.length + 1) (inner.foldr place []) := by
  induction inner generalizing stack with
  | nil => trivial
  | cons root rest ih =>
      obtain ⟨ix, h'⟩ := root
      obtain ⟨height, rfl, htwo, hbound, hinner, hpath, hrest⟩ := h
      have hlength : ix.path.length = height := by rw [hpath, length_push hbound]
      obtain ⟨hmoved, hkept⟩ := Labeled.adopted (n := 0) (ih hrest)
      rw [hlength] at hmoved hkept
      rw [List.foldr_cons, place_some, hinner, List.nil_append]
      refine ⟨height, rfl, htwo, hbound, hpath, ?_, hkept⟩
      rw [positioned_iff]
      constructor
      · intro j child hchild
        rw [(hmoved j child hchild).1, Nat.zero_add]
      · intro child hchild
        obtain ⟨j, hj⟩ := List.mem_iff_getElem?.mp hchild
        exact (hmoved j child hj).2

theorem scanned_of_built {shared : InstructionShared} {stack : Path}
    {instructions : List InnerInstruction} {trace : List Nat} {inner : Roots}
    (hheights : instructions.map (·.stackHeight) = trace.map some) (htwo : ∀ h ∈ trace, 2 ≤ h)
    (hchain : (stack.length :: trace).IsChain fun prev current => current ≤ prev + 1)
    (h : List.Forall₂ (fun entry root => buildInnerInstruction shared entry.1 entry.2 = .ok root)
      (instructions.zip (derivePathsLoop stack (some stack.length) (trace.map some))) inner) :
    Scanned stack inner := by
  induction trace generalizing stack instructions inner with
  | nil =>
      obtain rfl : instructions = [] := by simpa using hheights
      cases h
      trivial
  | cons height trace ih =>
      cases instructions with
      | nil => simp at hheights
      | cons ins instructions =>
          obtain ⟨hheight, hheights⟩ := List.cons.inj hheights
          obtain ⟨hbound, hchain⟩ := List.isChain_cons_cons.mp hchain
          rw [List.forall_mem_cons] at htwo
          have hlength : (push stack height).length = height := length_push hbound
          cases h with
          | @cons _ root _ rest hroot hrest =>
              obtain ⟨-, hinner, hpath, hsome⟩ := buildInnerInstruction_builds hroot
              refine ⟨height, hsome.trans hheight, htwo.1, hbound, hinner, hpath, ?_⟩
              change root.1.path = push stack height at hpath
              rw [hpath]
              refine ih hheights htwo.2 (by rwa [hlength]) ?_
              rw [hlength]
              exact hrest

/-- The children of an outer instruction after a group with a valid trace has been nested. -/
theorem positions_of_group {shared : InstructionShared} {group : InnerInstructions}
    {inner : Roots} (hvalid : ValidTrace (group.instructions.map (·.stackHeight)))
    (h : List.Forall₂ (fun entry root => buildInnerInstruction shared entry.1 entry.2 = .ok root)
      (group.instructions.zip (derivePathsFromStackheights
        (group.instructions.map (·.stackHeight)) group.index)) inner) :
    ∀ j child, ((nestInner inner).map Prod.fst)[j]? = some child →
      child.path = [group.index, j] ∧ child.Positioned := by
  obtain ⟨trace, hheights, hfirst, htwo, hchain⟩ := hvalid
  have hscan : derivePathsFromStackheights (trace.map some) group.index =
      derivePathsLoop [group.index] (some 1) (trace.map some) := by
    cases trace with
    | nil => rfl
    | cons first trace =>
        obtain rfl : first = 2 := hfirst first rfl
        rfl
  have hstart : (1 :: trace).IsChain fun prev current => current ≤ prev + 1 := by
    rw [List.isChain_cons]
    exact ⟨fun first hmem => (hfirst first hmem).le, hchain⟩
  rw [hheights, hscan] at h
  have hscanned : Scanned [group.index] inner := scanned_of_built hheights htwo hstart h
  have hlabeled := hscanned.labeled
  obtain ⟨hmoved, -⟩ := Labeled.adopted (n := 0) hlabeled
  have hall : (nestInner inner).takeWhile (deeper 1) = nestInner inner := by
    rw [List.takeWhile_eq_self_iff, nestInner_eq]
    exact deeper_of_labeled hlabeled
  rw [← hall, nestInner_eq]
  intro j child hchild
  obtain ⟨hpath, hpositioned⟩ := hmoved j child hchild
  refine ⟨?_, hpositioned⟩
  rw [hpath, Nat.zero_add]
  rfl

theorem Parts.Of.unique {parts parts' : Parts} {txn : TransactionUpdate} (h : parts.Of txn)
    (h' : parts'.Of txn) : parts = parts' := by
  obtain ⟨info, transaction, status, message, header⟩ := parts
  obtain ⟨info', transaction', status', message', header'⟩ := parts'
  obtain rfl : info = info' := Option.some.inj (h.info.symm.trans h'.info)
  obtain rfl : transaction = transaction' :=
    Option.some.inj (h.transaction.symm.trans h'.transaction)
  obtain rfl : status = status' := Option.some.inj (h.status.symm.trans h'.status)
  obtain rfl : message = message' := Option.some.inj (h.message.symm.trans h'.message)
  obtain rfl : header = header' := Option.some.inj (h.header.symm.trans h'.header)
  rfl

/-- There is a tree for every outer instruction, and it lists every flat instruction of it. -/
theorem visitAll_of_parts {bs58 : Bs58} {txn : TransactionUpdate} {parts : Parts}
    {ixs : List InstructionUpdate} (hparts : parts.Of txn) (h : buildFromTxn bs58 txn = .ok ixs) :
    ixs.length = parts.message.instructions.length ∧ ∀ k ix, ixs[k]? = some ix →
      List.Forall₂ (Builds (parts.shared txn)) (parts.flatInstructions k) ix.visitAll := by
  obtain ⟨parts', hparts', hlength, htree⟩ := attached_of_buildFromTxn h
  obtain rfl := hparts.unique hparts'
  refine ⟨hlength, ?_⟩
  intro k ix hix
  rw [visitAll_eq]
  exact (htree k ix hix).2

/-- The outer instructions after the groups `done`, each with a valid trace and an index of
its own: an outer instruction that has no group yet has no children. -/
def OuterPositioned (done : List InnerInstructions) (outer : List InstructionUpdate) : Prop :=
  (done.map (·.index)).Nodup → (∀ group ∈ done, ValidTrace (group.instructions.map (·.stackHeight))) →
    ∀ k ix, outer[k]? = some ix →
      ix.path = [k] ∧ ix.Positioned ∧ (k ∉ done.map (·.index) → ix.inner = [])

theorem outerPositioned_start {shared : InstructionShared}
    {instructions : List CompiledInstruction} {outer : List InstructionUpdate}
    (h : List.Forall₂ (fun entry ix => buildOuterInstruction shared entry.1 [entry.2] = .ok ix)
      instructions.zipIdx outer) : OuterPositioned [] outer := by
  intro _ _ k ix hix
  obtain ⟨hk, rfl⟩ := List.getElem?_eq_some_iff.mp hix
  have hlength : instructions.length = outer.length := by simpa using h.length_eq
  have hbuild := h.get (i := k) (by simpa [hlength] using hk) hk
  simp only [List.get_eq_getElem, List.getElem_zipIdx, Nat.zero_add] at hbuild
  obtain ⟨-, hinner, hpath⟩ := buildInstruction_builds hbuild
  refine ⟨hpath, ?_, fun _ => hinner⟩
  rw [positioned_iff, hinner]
  simp

theorem outerPositioned_group {shared : InstructionShared} {done : List InnerInstructions}
    {group : InnerInstructions} {outer outer' : List InstructionUpdate}
    (hdone : OuterPositioned done outer) (h : attachGroup shared outer group = .ok outer') :
    OuterPositioned (done ++ [group]) outer' := by
  intro hnodup hvalid k ix hix
  obtain ⟨parent, inner, hparent, hinner, rfl⟩ := attachGroup_eq_ok h
  rw [List.map_append, List.nodup_append] at hnodup
  have hearlier := hdone hnodup.1 fun g hg => hvalid g (List.mem_append_left _ hg)
  by_cases hk : group.index = k
  · subst hk
    have hnew : group.index ∉ done.map (·.index) :=
      fun hmem => hnodup.2.2 _ hmem group.index (by simp) rfl
    obtain ⟨hpath, -, hempty⟩ := hearlier _ parent hparent
    have hchildren := positions_of_group (hvalid group (by simp)) hinner
    rw [List.getElem?_set_self (List.getElem?_eq_some_iff.mp hparent).1] at hix
    cases hix
    refine ⟨hpath, ?_, fun hmem => absurd (by simp) hmem⟩
    rw [hempty hnew, List.nil_append, positioned_iff]
    constructor
    · intro j child hchild
      rw [(hchildren j child hchild).1, hpath]
      rfl
    · intro child hchild
      obtain ⟨j, hj⟩ := List.mem_iff_getElem?.mp hchild
      exact (hchildren j child hj).2
  · rw [List.getElem?_set_ne hk] at hix
    obtain ⟨hpath, hpositioned, hempty⟩ := hearlier k ix hix
    refine ⟨hpath, hpositioned, fun hmem => hempty fun hin => hmem ?_⟩
    rw [List.map_append]
    exact List.mem_append_left _ hin

/-- Two independent reconstructions agree: the path that the scan of the stack heights gave
an instruction is the position that the nesting gave it. No instruction of the update is left
out: the trees list all of them. -/
theorem path_eq_position (bs58 : Bs58) (txn : TransactionUpdate) (parts : Parts)
    (ixs : List InstructionUpdate) (hparts : parts.Of txn) (h : buildFromTxn bs58 txn = .ok ixs)
    (honce : (parts.status.innerInstructions.map (·.index)).Nodup)
    (hvalid : ∀ group ∈ parts.status.innerInstructions,
      ValidTrace (group.instructions.map (·.stackHeight))) :
    ixs.length = parts.message.instructions.length ∧
      ∀ (k : Nat) (ix : InstructionUpdate), ixs[k]? = some ix → ix.path = [k] ∧
        List.Forall₂ (Builds (parts.shared txn)) (parts.flatInstructions k) ix.visitAll ∧
        ∀ parent ∈ ix.visitAll, ∀ (j : Nat) (child : InstructionUpdate),
          parent.inner[j]? = some child → child.path = parent.path ++ [j] := by
  obtain ⟨hlength, hlisted⟩ := visitAll_of_parts hparts h
  refine ⟨hlength, ?_⟩
  obtain ⟨parts', outer, attached, hparts', houter, hattach, rfl⟩ := buildFromTxn_eq_ok h
  obtain rfl := hparts.unique hparts'
  have hattached : OuterPositioned parts.status.innerInstructions attached :=
    Fallible.foldlM_induction (outerPositioned_start houter)
      (fun _ _ _ _ hdone hstep => outerPositioned_group hdone hstep) hattach
  intro k ix hix
  obtain ⟨built, hbuilt, hsame⟩ := assignLogMessages_getElem? hix
  obtain ⟨hpath, hpositioned, -⟩ := hattached honce hvalid k built hbuilt
  rw [← positioned_stripLogs, ← hsame, positioned_stripLogs] at hpositioned
  refine ⟨(path_eq_of_stripLogs hsame).trans hpath, hlisted k ix hix, ?_⟩
  rw [visitAll_eq]
  exact hpositioned

/-- The call trace 2, 3, 4, 2, 3: a return that skips a level. -/
def deepGroup : InnerInstructions :=
  ⟨1, [⟨0, [], [], some 2⟩, ⟨1, [], [], some 3⟩, ⟨0, [], [], some 4⟩, ⟨0, [], [], some 2⟩,
    ⟨1, [], [], some 3⟩]⟩

/-- Two outer instructions, the second with the group `deepGroup`. -/
def deepTrace : TransactionUpdate where
  transaction := some
    { signature := []
      isVote := false
      transaction := some
        { message := some
            { header := some ⟨1, 0, 1⟩
              accountKeys := [List.replicate 32 1, List.replicate 32 2]
              instructions := [⟨0, [], [1]⟩, ⟨1, [], [2]⟩] } }
      statusMeta := some
        { err := none
          innerInstructions := [deepGroup]
          logMessages := []
          loadedWritableAddresses := []
          loadedReadonlyAddresses := [] }
      index := 0 }
  slot := 9

theorem path_eq_position_of_deepTrace :
    ∃ ixs, buildFromTxn .bitcoin deepTrace = .ok ixs ∧ ixs.length = 2 ∧
      ∀ (k : Nat) (ix : InstructionUpdate), ixs[k]? = some ix → ix.path = [k] ∧
        ix.visitAll.length = [1, 6][k]?.getD 0 ∧
        ∀ parent ∈ ix.visitAll, ∀ (j : Nat) (child : InstructionUpdate),
          parent.inner[j]? = some child → child.path = parent.path ++ [j] := by
  have hvalid : ∀ group ∈ [deepGroup], ValidTrace (group.instructions.map (·.stackHeight)) := by
    intro group hgroup
    obtain rfl := List.mem_singleton.mp hgroup
    exact ⟨[2, 3, 4, 2, 3], rfl, by decide, by decide, by decide⟩
  obtain ⟨hlength, htrees⟩ := path_eq_position .bitcoin deepTrace ⟨_, _, _, _, _⟩ _
    ⟨rfl, rfl, rfl, rfl, rfl⟩ rfl (by decide) hvalid
  refine ⟨_, rfl, hlength, ?_⟩
  intro k ix hix
  obtain ⟨hpath, hlisted, hpositions⟩ := htrees k ix hix
  refine ⟨hpath, ?_, hpositions⟩
  rw [← hlisted.length_eq]
  have hk : k < 2 := (List.getElem?_eq_some_iff.mp hix).1.trans_eq hlength
  interval_cases k
  · rfl
  · rfl

end Shipstern.Core
