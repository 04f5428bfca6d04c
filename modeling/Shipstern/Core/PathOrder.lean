import Mathlib
import Shipstern.Core.Paths

/-!
# Paths are in execution order

The scan of the stack heights may truncate its stack at any height and pushes one entry for a
jump of any size, so the length of the stack drifts from the height. What survives is the
order: a push extends the path, and everything else increases an entry of it below the outer
index. Derived paths therefore increase strictly, and a tree lists its paths as its group was
scanned.
-/

namespace Shipstern.Core

open InstructionUpdate

/-! ## One step of the scan -/

theorem bumpLast_gt {stack : Path} (h : stack ≠ []) (back : Path) : stack ++ back < bumpLast stack := by
  obtain ⟨front, last, rfl⟩ := List.eq_nil_or_concat' stack |>.resolve_left h
  rw [bumpLast_append, List.append_assoc]
  exact List.append_left_lt (.rel (Nat.lt_succ_self last))

/-- A path below the outer instruction. -/
def Below (outer : Nat) (stack : Path) : Prop :=
  ∃ front last, stack = outer :: front ++ [last]

theorem Below.bumpLast {outer : Nat} {stack : Path} (h : Below outer stack) :
    Below outer (bumpLast stack) := by
  obtain ⟨front, last, rfl⟩ := h
  exact ⟨front, last + 1, bumpLast_append _ last⟩

theorem Below.take {outer height : Nat} {stack : Path} (h : Below outer stack)
    (htwo : 2 ≤ height) : Below outer (stack.take height) := by
  obtain ⟨front, last, rfl⟩ := h
  obtain ⟨rest, rfl⟩ := Nat.exists_eq_add_of_le' htwo
  obtain ⟨middle, last', hmiddle⟩ := List.eq_nil_or_concat' ((front ++ [last]).take (rest + 1))
    |>.resolve_left (by simp)
  exact ⟨middle, last', by rw [List.cons_append, List.take_succ_cons, hmiddle]; rfl⟩

theorem Below.ne_nil {outer : Nat} {stack : Path} (h : Below outer stack) : stack ≠ [] := by
  obtain ⟨front, last, rfl⟩ := h
  exact List.cons_ne_nil _ _

theorem Below.head? {outer : Nat} {stack : Path} (h : Below outer stack) :
    stack.head? = some outer := by
  obtain ⟨front, last, rfl⟩ := h
  rfl

theorem Below.outer_lt {outer : Nat} {stack : Path} (h : Below outer stack) : [outer] < stack := by
  obtain ⟨front, last, rfl⟩ := h
  have hbelow : [] < front ++ [last] := by
    cases front with
    | nil => exact .nil
    | cons next front => exact .nil
  have hlt : [outer] ++ [] < [outer] ++ (front ++ [last]) := List.append_left_lt hbelow
  exact hlt

/-- Whatever the two heights are, the path moves forward below the outer instruction. -/
theorem nextStack_forward {outer : Nat} {stack : Path} (h : Below outer stack)
    (prev : Option Nat) {current : Option Nat} (htwo : ∀ height ∈ current, 2 ≤ height) :
    stack < nextStack stack prev current ∧ Below outer (nextStack stack prev current) := by
  have hbump : stack < bumpLast stack ∧ Below outer (bumpLast stack) := by
    have hgt := bumpLast_gt h.ne_nil []
    rw [List.append_nil] at hgt
    exact ⟨hgt, h.bumpLast⟩
  cases current with
  | none => exact hbump
  | some current =>
      cases prev with
      | none => exact hbump
      | some prev =>
          rw [nextStack]
          cases hcompare : compare current prev with
          | eq => exact hbump
          | gt =>
              refine ⟨?_, ?_⟩
              · have hpush : stack ++ [] < stack ++ [0] := List.append_left_lt .nil
                rwa [List.append_nil] at hpush
              · obtain ⟨front, last, rfl⟩ := h
                exact ⟨front ++ [last], 0, rfl⟩
          | lt =>
              have hcut := h.take (htwo current rfl)
              refine ⟨?_, hcut.bumpLast⟩
              have hgt := bumpLast_gt hcut.ne_nil (stack.drop current)
              rwa [List.take_append_drop] at hgt

/-! ## The whole scan -/

theorem derivePathsLoop_ascending {outer : Nat} {stack : Path} (h : Below outer stack)
    (prev : Option Nat) {heights : List (Option Nat)}
    (htwo : ∀ height ∈ heights, ∀ x ∈ height, 2 ≤ x) :
    (stack :: derivePathsLoop stack prev heights).Pairwise (· < ·) ∧
      ∀ path ∈ derivePathsLoop stack prev heights, Below outer path := by
  induction heights generalizing stack prev with
  | nil => simp [derivePathsLoop]
  | cons current heights ih =>
      rw [List.forall_mem_cons] at htwo
      obtain ⟨hlt, hbelow⟩ := nextStack_forward h prev htwo.1
      obtain ⟨hascending, hrest⟩ := ih hbelow current htwo.2
      rw [derivePathsLoop, List.pairwise_cons, List.forall_mem_cons, List.forall_mem_cons]
      refine ⟨⟨⟨hlt, ?_⟩, hascending⟩, hbelow, hrest⟩
      intro path hpath
      exact lt_trans hlt ((List.pairwise_cons.mp hascending).1 path hpath)

theorem derivePaths_ascending (outer : Nat) {heights : List (Option Nat)}
    (htwo : ∀ height ∈ heights, ∀ x ∈ height, 2 ≤ x) :
    (derivePathsFromStackheights heights outer).Pairwise (· < ·) ∧
      ∀ path ∈ derivePathsFromStackheights heights outer, Below outer path := by
  cases heights with
  | nil => exact ⟨.nil, by simp [derivePathsFromStackheights]⟩
  | cons first heights =>
      rw [List.forall_mem_cons] at htwo
      have hfirst : Below outer [outer, 0] := ⟨[], 0, rfl⟩
      obtain ⟨hascending, hbelow⟩ := derivePathsLoop_ascending hfirst first htwo.2
      rw [derivePathsFromStackheights, List.forall_mem_cons]
      exact ⟨hascending, hfirst, hbelow⟩

/-! ## The trees -/

/-- The paths of outer instruction `k`: its own, and those derived for its groups. -/
def treePaths (k : Nat) (groups : List InnerInstructions) : List Path :=
  [k] :: (groups.filter (·.index = k)).flatMap fun group =>
    derivePathsFromStackheights (group.instructions.map (·.stackHeight)) group.index

/-- The trees list their paths as the groups `done` were scanned. -/
def PathsOf (done : List InnerInstructions) (outer : List InstructionUpdate) : Prop :=
  ∀ (k : Nat) (ix : InstructionUpdate), outer[k]? = some ix →
    ix.flat.map (·.path) = treePaths k done

theorem pathsOf_outer {shared : InstructionShared} {instructions : List CompiledInstruction}
    {outer : List InstructionUpdate}
    (h : List.Forall₂ (fun entry ix => buildOuterInstruction shared entry.1 [entry.2] = .ok ix)
      instructions.zipIdx outer) : PathsOf [] outer := by
  intro k ix hix
  obtain ⟨hk, rfl⟩ := List.getElem?_eq_some_iff.mp hix
  have hlength : instructions.length = outer.length := by simpa using h.length_eq
  have hbuild := h.get (i := k) (by simpa [hlength] using hk) hk
  simp only [List.get_eq_getElem, List.getElem_zipIdx, Nat.zero_add] at hbuild
  obtain ⟨-, hinner, hpath⟩ := buildInstruction_builds hbuild
  rw [flat_eq, hinner, List.flatMap_nil, List.map_singleton, treePaths]
  exact congrArg (fun path => [path]) hpath

theorem flat_nestInner_paths {shared : InstructionShared} {instructions : List InnerInstruction}
    {paths : List Path} {inner : Roots} (hlength : instructions.length = paths.length)
    (h : List.Forall₂ (fun entry root => buildInnerInstruction shared entry.1 entry.2 = .ok root)
      (instructions.zip paths) inner) :
    (Roots.flat (nestInner inner)).map (·.path) = paths := by
  rw [flat_nestInner]
  induction instructions generalizing paths inner with
  | nil =>
      obtain rfl : paths = [] := by simpa using hlength.symm
      cases h
      rfl
  | cons ins instructions ih =>
      cases paths with
      | nil => simp at hlength
      | cons path paths =>
          cases h with
          | @cons _ root _ rest hroot hrest =>
              obtain ⟨-, hleaf, hpath, -⟩ := buildInnerInstruction_builds hroot
              have hflat : root.1.flat = [root.1.alone] := by
                rw [flat_eq, hleaf, List.flatMap_nil]
              rw [Roots.flat_cons, hflat, List.map_append, ih (by simpa using hlength) hrest]
              exact congrArg (· :: paths) hpath

theorem pathsOf_group {shared : InstructionShared} {done : List InnerInstructions}
    {group : InnerInstructions} {outer outer' : List InstructionUpdate}
    (hdone : PathsOf done outer) (h : attachGroup shared outer group = .ok outer') :
    PathsOf (done ++ [group]) outer' := by
  obtain ⟨parent, inner, hparent, hinner, rfl⟩ := attachGroup_eq_ok h
  have hgroup := flat_nestInner_paths (by simp [length_derivePaths]) hinner
  intro k ix hix
  by_cases hk : group.index = k
  · subst hk
    have hpaths := hdone _ parent hparent
    rw [List.getElem?_set_self (List.getElem?_eq_some_iff.mp hparent).1] at hix
    cases hix
    rw [flat_inner_append, List.map_append, hpaths, hgroup]
    simp [treePaths, List.filter_append]
  · rw [List.getElem?_set_ne hk] at hix
    rw [hdone k ix hix]
    simp [treePaths, List.filter_append, hk]

/-- The paths of one tree increase and start with its outer index. -/
theorem treePaths_ascending {k : Nat} {groups : List InnerInstructions}
    (honce : (groups.map (·.index)).Nodup)
    (htwo : ∀ group ∈ groups, ∀ ins ∈ group.instructions, ∀ height ∈ ins.stackHeight, 2 ≤ height) :
    (treePaths k groups).Pairwise (· < ·) ∧ ∀ path ∈ treePaths k groups, path.head? = some k := by
  have hgroup : ∀ group ∈ groups.filter (·.index = k),
      (derivePathsFromStackheights (group.instructions.map (·.stackHeight)) group.index).Pairwise
          (· < ·) ∧
        ∀ path ∈ derivePathsFromStackheights (group.instructions.map (·.stackHeight)) group.index,
          Below k path := by
    intro group hmem
    obtain ⟨hin, hindex⟩ := List.mem_filter.mp hmem
    obtain rfl : group.index = k := by simpa using hindex
    refine derivePaths_ascending group.index ?_
    rw [List.forall_mem_map]
    exact htwo group hin
  have hbelow : ∀ path ∈ (groups.filter (·.index = k)).flatMap fun group =>
      derivePathsFromStackheights (group.instructions.map (·.stackHeight)) group.index,
      Below k path := by
    intro path hpath
    obtain ⟨group, hmem, hpath⟩ := List.mem_flatMap.mp hpath
    exact (hgroup group hmem).2 path hpath
  rw [treePaths, List.pairwise_cons, List.forall_mem_cons]
  refine ⟨⟨fun path hpath => (hbelow path hpath).outer_lt, ?_⟩, rfl,
    fun path hpath => (hbelow path hpath).head?⟩
  rw [List.pairwise_flatMap]
  refine ⟨fun group hmem => (hgroup group hmem).1, ?_⟩
  -- two groups of one index would be ordered: there is at most one
  have hone : (groups.filter (·.index = k)).Pairwise fun group next =>
      group.index ≠ next.index := (List.pairwise_map.mp honce).filter _
  refine hone.imp_of_mem ?_
  intro group next hmem hmem' hne
  have hindex : group.index = k := by simpa using (List.mem_filter.mp hmem).2
  have hindex' : next.index = k := by simpa using (List.mem_filter.mp hmem').2
  exact absurd (hindex.trans hindex'.symm) hne

theorem lt_of_head?_lt {path path' : Path} {k k' : Nat} (h : path.head? = some k)
    (h' : path'.head? = some k') (hlt : k < k') : path < path' := by
  obtain ⟨rest, rfl⟩ := List.head?_eq_some_iff.mp h
  obtain ⟨rest', rfl⟩ := List.head?_eq_some_iff.mp h'
  exact .rel hlt

/-- Walking all outer instructions in order visits every instruction of the update, and visits
the paths in strictly increasing order; none occurs twice, and each starts with the index of
its outer instruction. -/
theorem paths_strictly_increasing (bs58 : Bs58) (txn : TransactionUpdate) (parts : Parts)
    (ixs : List InstructionUpdate) (hparts : parts.Of txn) (h : buildFromTxn bs58 txn = .ok ixs)
    (honce : (parts.status.innerInstructions.map (·.index)).Nodup)
    (htwo : ∀ group ∈ parts.status.innerInstructions, ∀ ins ∈ group.instructions,
      ∀ height ∈ ins.stackHeight, 2 ≤ height) :
    ixs.length = parts.message.instructions.length ∧
      ((ixs.flatMap visitAll).map (·.path)).Pairwise (· < ·) ∧
      ((ixs.flatMap visitAll).map (·.path)).Nodup ∧
      ∀ (k : Nat) (ix : InstructionUpdate), ixs[k]? = some ix →
        List.Forall₂ (Builds (parts.shared txn)) (parts.flatInstructions k) ix.visitAll ∧
        ∀ inner ∈ ix.visitAll, inner.path.head? = some k := by
  obtain ⟨hlength, hlisted⟩ := visitAll_of_parts hparts h
  obtain ⟨parts', outer, attached, hparts', houter, hattach, rfl⟩ := buildFromTxn_eq_ok h
  obtain rfl := hparts.unique hparts'
  have hattached : PathsOf parts.status.innerInstructions attached :=
    Fallible.foldlM_induction (pathsOf_outer houter)
      (fun _ _ _ _ hdone hstep => pathsOf_group hdone hstep) hattach
  have htree : ∀ (k : Nat) (ix : InstructionUpdate),
      (assignLogMessages bs58 parts.status.logMessages attached)[k]? = some ix →
        (ix.visitAll.map (·.path)).Pairwise (· < ·) ∧
          ∀ path ∈ ix.visitAll.map (·.path), path.head? = some k := by
    intro k ix hix
    obtain ⟨built, hbuilt, hsame⟩ := assignLogMessages_getElem? hix
    have hpaths : ix.visitAll.map (·.path) = ix.flat.map (·.path) := by
      rw [visitAll_eq, flat, List.map_map]
      rfl
    rw [hpaths, ← flat_stripLogs ix, hsame, flat_stripLogs, hattached k built hbuilt]
    exact treePaths_ascending honce htwo
  have hascending : (((assignLogMessages bs58 parts.status.logMessages attached).flatMap
      visitAll).map (·.path)).Pairwise (· < ·) := by
    rw [List.map_flatMap, List.pairwise_flatMap]
    constructor
    · intro ix hmem
      obtain ⟨k, hk⟩ := List.mem_iff_getElem?.mp hmem
      exact (htree k ix hk).1
    · rw [List.pairwise_iff_getElem]
      intro i j hi hj hij path hpath path' hpath'
      exact lt_of_head?_lt ((htree i _ (List.getElem?_eq_getElem hi)).2 path hpath)
        ((htree j _ (List.getElem?_eq_getElem hj)).2 path' hpath') hij
  refine ⟨hlength, hascending, hascending.imp fun hlt => hlt.ne, ?_⟩
  intro k ix hix
  refine ⟨hlisted k ix hix, ?_⟩
  intro inner hinner
  exact (htree k ix hix).2 inner.path (List.mem_map_of_mem hinner)

/-- A missing height after a nested instruction, a jump of two levels and a return to a height
that is not the depth; the other outer instruction has a group of its own. -/
def driftingHeights : TransactionUpdate where
  transaction := some
    { signature := []
      isVote := false
      transaction := some
        { message := some
            { header := some ⟨1, 0, 1⟩
              accountKeys := [List.replicate 32 1, List.replicate 32 2]
              instructions := [⟨0, [], [1]⟩, ⟨1, [], [2]⟩] } }
      statusMeta := some
        { err := none
          innerInstructions :=
            [⟨1, [⟨0, [], [], some 2⟩, ⟨1, [], [], some 3⟩, ⟨0, [], [], none⟩,
                ⟨1, [], [], some 3⟩, ⟨0, [], [], some 5⟩, ⟨1, [], [], some 4⟩]⟩,
              ⟨0, [⟨0, [], [], none⟩, ⟨1, [], [], some 3⟩]⟩]
          logMessages := []
          loadedWritableAddresses := []
          loadedReadonlyAddresses := [] }
      index := 0 }
  slot := 9

theorem paths_strictly_increasing_of_driftingHeights :
    ∃ ixs, buildFromTxn .bitcoin driftingHeights = .ok ixs ∧ ixs.length = 2 ∧
      ((ixs.flatMap visitAll).map (·.path)).Pairwise (· < ·) ∧
      ∀ ix, ixs[1]? = some ix → ix.visitAll.length = 7 := by
  obtain ⟨hlength, hascending, -, htrees⟩ := paths_strictly_increasing .bitcoin driftingHeights
    ⟨_, _, _, _, _⟩ _ ⟨rfl, rfl, rfl, rfl, rfl⟩ rfl (by decide) (by decide)
  refine ⟨_, rfl, hlength, hascending, ?_⟩
  intro ix hix
  rw [← (htrees 1 ix hix).1.length_eq]
  rfl

end Shipstern.Core
