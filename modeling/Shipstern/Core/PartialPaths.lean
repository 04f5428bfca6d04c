import Shipstern.Core.PathOrder

/-!
# Paths and positions of any group

Both passes over a group of inner instructions cope with missing heights and with jumps, each
in its own way. The nesting gives an instruction the depth of the frames that are open when it
runs: a frame is open until a later instruction of the same run of present heights is not
deeper. The positions in the tree are the scan of these depths, so the derived paths are the
positions exactly if the two scans take the same step everywhere.
-/

namespace Shipstern.Core

open InstructionUpdate

/-! ## Open frames -/

/-- The heights of the open frames, the deepest first, after an instruction. -/
def enter (frames : List Nat) : Option Nat → List Nat
  | none => []
  | some height => height :: frames.dropWhile (height ≤ ·)

/-- The depth of an instruction: the outer one, the open frames, and an instruction without a
height directly below the outer one. -/
def depthOf (frames : List Nat) : Option Nat → Nat
  | none => 2
  | some height => (enter frames (some height)).length + 1

/-- The positions of the instructions of a group, from the position of the one before. -/
def scanPositions : Path → List Nat → List (Option Nat) → List Path
  | _, _, [] => []
  | stack, frames, height :: rest =>
      let position := push stack (depthOf frames height)
      position :: scanPositions position (enter frames height) rest

namespace InstructionUpdate

/-! ## Positions in a tree -/

/-- The positions in a tree whose root is at `position`, in preorder. -/
def positions (position : Path) : InstructionUpdate → List Path
  | ⟨_, _, _, _, inner, _, _⟩ => position :: positionsBelow position 0 inner
where
  positionsBelow (position : Path) (n : Nat) : List InstructionUpdate → List Path
    | [] => []
    | child :: rest => child.positions (position ++ [n]) ++ positionsBelow position (n + 1) rest

theorem positions_eq (position : Path) (ix : InstructionUpdate) :
    ix.positions position = position :: positions.positionsBelow position 0 ix.inner := by
  cases ix
  rfl

theorem length_positions (ix : InstructionUpdate) (position : Path) :
    (ix.positions position).length = ix.preorder.length := by
  induction ix using tree_induction generalizing position with
  | step ix ih =>
      have hbelow : ∀ (inner : List InstructionUpdate) (n : Nat),
          (∀ child ∈ inner, ∀ position, (child.positions position).length =
            child.preorder.length) →
          (positions.positionsBelow position n inner).length = (inner.flatMap preorder).length := by
        intro inner
        induction inner with
        | nil => simp [positions.positionsBelow]
        | cons child rest ihrest =>
            intro n h
            rw [List.forall_mem_cons] at h
            rw [positions.positionsBelow, List.length_append, h.1, ihrest (n + 1) h.2,
              List.flatMap_cons, List.length_append]
      rw [positions_eq, preorder_eq, List.length_cons, List.length_cons, hbelow ix.inner 0 ih]

/-- The paths of a forest are its positions exactly if every tree has its position and is
positioned itself. -/
theorem paths_eq_positionsBelow_iff {position : Path} {inner : List InstructionUpdate} {n : Nat}
    (h : ∀ child ∈ inner, ∀ position, child.preorder.map (·.path) = child.positions position ↔
      child.path = position ∧ child.Positioned) :
    (inner.flatMap preorder).map (·.path) = positions.positionsBelow position n inner ↔
      (∀ j child, inner[j]? = some child → child.path = position ++ [n + j]) ∧
        ∀ child ∈ inner, child.Positioned := by
  induction inner generalizing n with
  | nil => simp [positions.positionsBelow]
  | cons child rest ih =>
      rw [List.forall_mem_cons] at h
      have hlength : (child.preorder.map (·.path)).length =
          (child.positions (position ++ [n])).length := by
        rw [List.length_map, length_positions]
      have hsplit : ∀ paths below : List Path,
          child.preorder.map (·.path) ++ paths = child.positions (position ++ [n]) ++ below ↔
            child.preorder.map (·.path) = child.positions (position ++ [n]) ∧ paths = below :=
        fun _ _ => ⟨fun heq => List.append_inj heq hlength, fun heq => by rw [heq.1, heq.2]⟩
      rw [List.flatMap_cons, List.map_append, positions.positionsBelow, hsplit, h.1, ih h.2,
        List.forall_mem_cons]
      constructor
      · rintro ⟨⟨hpath, hchild⟩, hpaths, hrest⟩
        refine ⟨?_, hchild, hrest⟩
        rintro (_ | j) other hother
        · cases hother
          exact hpath
        · rw [hpaths j other hother, Nat.add_assoc, Nat.add_comm 1]
      · rintro ⟨hpaths, hchild, hrest⟩
        refine ⟨⟨hpaths 0 child rfl, hchild⟩, ?_, hrest⟩
        intro j other hother
        rw [hpaths (j + 1) other hother, Nat.add_assoc, Nat.add_comm 1]

theorem paths_eq_positions_iff (ix : InstructionUpdate) (position : Path) :
    ix.preorder.map (·.path) = ix.positions position ↔ ix.path = position ∧ ix.Positioned := by
  induction ix using tree_induction generalizing position with
  | step ix ih =>
      rw [preorder_eq, List.map_cons, positions_eq, List.cons.injEq, positioned_iff,
        paths_eq_positionsBelow_iff ih]
      simp only [Nat.zero_add]
      constructor
      · rintro ⟨rfl, hpaths, hinner⟩
        exact ⟨rfl, hpaths, hinner⟩
      · rintro ⟨rfl, hpaths, hinner⟩
        exact ⟨rfl, hpaths, hinner⟩

end InstructionUpdate

/-! ## Positions in a nested group -/

/-- The positions in a nested group, root by root. -/
def rootPositions : Path → List Nat → Roots → List Path
  | _, _, [] => []
  | stack, frames, (ix, height) :: rest =>
      let position := push stack (depthOf frames height)
      ix.positions position ++ rootPositions position (enter frames height) rest

/-- Roots of a nested group: no root is deeper than the one before it. -/
def Descending (roots : Roots) : Prop :=
  roots.IsChain fun root next => ∀ height ∈ root.2, deeper height next = false

theorem descending_place {parent : InstructionUpdate × Option Nat} {roots : Roots}
    (h : Descending roots) : Descending (place parent roots) := by
  obtain ⟨ix, height⟩ := parent
  cases height with
  | none =>
      rw [place, Descending, List.isChain_cons]
      exact ⟨fun next _ height hheight => by contradiction, h⟩
  | some height =>
      rw [place_some, Descending, List.isChain_cons]
      refine ⟨?_, h.suffix (List.dropWhile_suffix _)⟩
      intro next hnext above habove
      cases habove
      have hkept := List.head?_dropWhile_not (deeper height) roots
      rw [Option.mem_def.mp hnext] at hkept
      simpa using hkept

theorem descending_nested (inner : Roots) : Descending (inner.foldr place []) := by
  induction inner with
  | nil => exact .nil
  | cons parent inner ih => exact descending_place ih

section Adopt

variable {path : Path} {top : Nat} {tail : List Nat}

/-- Frames above the parent's, if any: those of its child that was entered last. -/
inductive Above (top : Nat) (tail : List Nat) : Option Nat → List Nat → Prop
  | parent : Above top tail none (top :: tail)
  | child {height : Nat} (hdeep : top < height) :
      Above top tail (some height) (height :: top :: tail)

/-- An instruction that is not deeper than the parent leaves the parent's children. -/
theorem Above.enter_of_not_deeper {last : Option Nat} {frames : List Nat}
    (h : Above top tail last frames) {height : Option Nat} (hflat : ∀ x ∈ height, x ≤ top) :
    enter frames height = enter (top :: tail) height := by
  cases h with
  | parent => rfl
  | @child deep hdeep =>
      cases height with
      | none => rfl
      | some x =>
          have hx : x ≤ top := hflat x rfl
          have hpop : x ≤ deep := by omega
          rw [enter, enter, List.dropWhile_cons_of_pos (by simpa using hpop)]

/-- A deeper one that is not below the last child is the next child. -/
theorem Above.enter_of_deeper {last : Option Nat} {frames : List Nat}
    (h : Above top tail last frames) {x : Nat} (hdeep : top < x) (hlast : ∀ y ∈ last, x ≤ y) :
    enter frames (some x) = x :: top :: tail := by
  have hkeep : ¬ x ≤ top := by omega
  cases h with
  | parent => rw [enter, List.dropWhile_cons_of_neg (by simpa using hkeep)]
  | @child deep hdeep' =>
      have hpop : x ≤ deep := hlast deep rfl
      rw [enter, List.dropWhile_cons_of_pos (by simpa using hpop),
        List.dropWhile_cons_of_neg (by simpa using hkeep)]

theorem depthOf_le_of_not_deeper {height : Option Nat} (hflat : ∀ x ∈ height, x ≤ top) :
    depthOf (top :: tail) height ≤ tail.length + 2 := by
  cases height with
  | none => exact Nat.le_add_left 2 _
  | some x =>
      have hpop : x ≤ top := hflat x rfl
      have hlength := (List.dropWhile_suffix (l := tail) (x ≤ ·)).length_le
      rw [depthOf, enter, List.dropWhile_cons_of_pos (by simpa using hpop), List.length_cons]
      omega

/-- The roots that the parent adopts are its children in order, and the others continue from
the parent. -/
theorem rootPositions_adopt (hpath : path.length = tail.length + 2) {roots : Roots} {n : Nat}
    {last : Option Nat} {frames : List Nat} (h : Above top tail last frames)
    (hlast : ∀ root ∈ roots.head?, ∀ y ∈ last, deeper y root = false)
    (hdescending : Descending roots) :
    rootPositions (childStack path n) frames roots =
      InstructionUpdate.positions.positionsBelow path n
          ((roots.takeWhile (deeper top)).map Prod.fst) ++
        rootPositions path (top :: tail) (roots.dropWhile (deeper top)) := by
  induction roots generalizing n last frames with
  | nil => simp [rootPositions, InstructionUpdate.positions.positionsBelow]
  | cons root roots ih =>
      obtain ⟨ix, height⟩ := root
      rw [Descending, List.isChain_cons] at hdescending
      obtain ⟨hnext, hdescending⟩ := hdescending
      cases hdeep : deeper top (ix, height) with
      | false =>
          have hflat : ∀ x ∈ height, x ≤ top := by
            rintro x rfl
            simpa [deeper] using hdeep
          have hdepth : depthOf frames height = depthOf (top :: tail) height := by
            cases height with
            | none => rfl
            | some x => rw [depthOf, depthOf, h.enter_of_not_deeper hflat]
          have hle : depthOf (top :: tail) height ≤ tail.length + 2 :=
            depthOf_le_of_not_deeper hflat
          simp only [List.takeWhile_cons, List.dropWhile_cons, hdeep, Bool.false_eq_true, if_false,
            List.map_nil, InstructionUpdate.positions.positionsBelow, List.nil_append,
            rootPositions, hdepth, h.enter_of_not_deeper hflat,
            push_childStack_of_le n (hpath ▸ hle)]
      | true =>
          cases height with
          | none => simp [deeper] at hdeep
          | some x =>
              have htop : top < x := by simpa [deeper] using hdeep
              have hbelow : ∀ y ∈ last, x ≤ y := by
                intro y hy
                simpa [deeper] using hlast _ rfl y hy
              have henter := h.enter_of_deeper htop hbelow
              have hdepth : depthOf frames (some x) = path.length + 1 := by
                rw [depthOf, henter, hpath, List.length_cons, List.length_cons]
              have hrest := ih (n := n + 1) (.child htop)
                (fun root hroot y hy => hnext root hroot y hy) hdescending
              simp only [List.takeWhile_cons, List.dropWhile_cons, hdeep, if_true, List.map_cons,
                InstructionUpdate.positions.positionsBelow, rootPositions, hdepth,
                push_childStack, henter, List.append_assoc]
              rw [← hrest]
              rfl

end Adopt

theorem depthOf_le (frames : List Nat) (height : Option Nat) :
    depthOf frames height ≤ frames.length + 2 := by
  cases height with
  | none => exact Nat.le_add_left 2 _
  | some x =>
      have hlength := (List.dropWhile_suffix (l := frames) (x ≤ ·)).length_le
      rw [depthOf, enter, List.length_cons]
      omega

/-- The stack of a scan reaches to the open frames. -/
theorem length_position {stack : Path} {frames : List Nat} (h : frames.length + 1 ≤ stack.length)
    (height : Option Nat) : (push stack (depthOf frames height)).length = depthOf frames height ∧
      (enter frames height).length + 1 ≤ depthOf frames height := by
  have hdepth := depthOf_le frames height
  refine ⟨length_push (by omega), ?_⟩
  cases height with
  | none => exact Nat.le_succ 1
  | some x => exact le_rfl

/-- Nesting a group puts its instructions at the positions of the scan. -/
theorem rootPositions_nested {inner : Roots} (hinner : ∀ root ∈ inner, root.1.inner = [])
    {stack : Path} {frames : List Nat} (hstack : frames.length + 1 ≤ stack.length) :
    rootPositions stack frames (inner.foldr place []) =
      scanPositions stack frames (inner.map Prod.snd) := by
  induction inner generalizing stack frames with
  | nil => rfl
  | cons root inner ih =>
      obtain ⟨ix, height⟩ := root
      rw [List.forall_mem_cons] at hinner
      obtain ⟨hleaf, hinner⟩ := hinner
      obtain ⟨hlength, hframes⟩ := length_position hstack height
      have hrest := ih hinner (hlength ▸ hframes)
      rw [List.foldr_cons, List.map_cons, scanPositions, ← hrest]
      cases height with
      | none =>
          rw [place, rootPositions, InstructionUpdate.positions_eq, hleaf]
          rfl
      | some height =>
          have hparent : Above height (frames.dropWhile (height ≤ ·)) none
              (enter frames (some height)) := .parent
          have hadopt := rootPositions_adopt (n := 0) hlength hparent
            (fun root _ y hy => by contradiction) (descending_nested inner)
          rw [place_some, rootPositions, InstructionUpdate.positions_eq, hleaf, List.nil_append,
            List.cons_append]
          congr 1
          exact hadopt.symm

/-- The roots of a group are the children of its outer instruction. -/
theorem rootPositions_roots {outer n : Nat} {frames : List Nat} {roots : Roots}
    (hdescending : Descending roots)
    (hframes : frames = [] ∨ ∃ y, frames = [y] ∧ ∀ root ∈ roots.head?, deeper y root = false) :
    rootPositions (childStack [outer] n) frames roots =
      InstructionUpdate.positions.positionsBelow [outer] n (roots.map Prod.fst) := by
  induction roots generalizing n frames with
  | nil => rfl
  | cons root roots ih =>
      obtain ⟨ix, height⟩ := root
      rw [Descending, List.isChain_cons] at hdescending
      obtain ⟨hnext, hdescending⟩ := hdescending
      have henter : enter frames height = height.toList := by
        cases height with
        | none => rfl
        | some x =>
            obtain rfl | ⟨y, rfl, hlast⟩ := hframes
            · rfl
            · have hpop : x ≤ y := by simpa [deeper] using hlast _ rfl
              rw [enter, List.dropWhile_cons_of_pos (by simpa using hpop)]
              rfl
      have hdepth : depthOf frames height = [outer].length + 1 := by
        cases height with
        | none => rfl
        | some x =>
            rw [depthOf, henter]
            rfl
      have hrest : rootPositions (childStack [outer] (n + 1)) height.toList roots =
          InstructionUpdate.positions.positionsBelow [outer] (n + 1) (roots.map Prod.fst) :=
        ih hdescending (by
        cases height with
        | none => exact .inl rfl
        | some x => exact .inr ⟨x, rfl, fun next hmem => hnext next hmem x rfl⟩)
      rw [rootPositions, hdepth, push_childStack, henter, List.map_cons,
        InstructionUpdate.positions.positionsBelow, ← hrest]
      rfl

/-! ## Where the scans agree -/

/-- The derived path of the next instruction is its position: a missing height follows an
instruction that is not nested, and a drop lands on an instruction that runs at the height of
its depth or does not leave a call. -/
def StepFits (frames : List Nat) : Option Nat → Prop
  | none => frames.length ≤ 1
  | some height => ∀ previous ∈ frames.head?, height < previous →
      depthOf frames (some height) = height ∨
        (enter frames (some height)).length = frames.length

def HeightsFit : List Nat → List (Option Nat) → Prop
  | _, [] => True
  | frames, height :: rest => StepFits frames height ∧ HeightsFit (enter frames height) rest

instance (frames : List Nat) (height : Option Nat) : Decidable (StepFits frames height) :=
  match height with
  | none => inferInstanceAs (Decidable (frames.length ≤ 1))
  | some _ => inferInstanceAs (Decidable (∀ previous ∈ frames.head?, _ → _))

instance decidableHeightsFit : (frames : List Nat) → (heights : List (Option Nat)) →
    Decidable (HeightsFit frames heights)
  | _, [] => inferInstanceAs (Decidable True)
  | frames, height :: rest =>
      haveI := decidableHeightsFit (enter frames height) rest
      inferInstanceAs (Decidable (StepFits frames height ∧ HeightsFit (enter frames height) rest))

/-- Open frames get less deep towards the outer instruction, and all are calls. -/
structure Frames (frames : List Nat) : Prop where
  descending : frames.Pairwise (· > ·)
  calls : ∀ height ∈ frames, 2 ≤ height

theorem Frames.length_le {height : Nat} {frames : List Nat} (h : Frames (height :: frames)) :
    frames.length + 2 ≤ height := by
  obtain ⟨hdescending, hcalls⟩ := h
  induction frames generalizing height with
  | nil => exact hcalls height List.mem_cons_self
  | cons next frames ih =>
      have hlt := (List.pairwise_cons.mp hdescending).1 next List.mem_cons_self
      have hnext := ih (List.pairwise_cons.mp hdescending).2
        fun x hx => hcalls x (List.mem_cons_of_mem _ hx)
      rw [List.length_cons]
      omega

theorem Frames.enter {frames : List Nat} (h : Frames frames) {height : Option Nat}
    (htwo : ∀ x ∈ height, 2 ≤ x) : Frames (Core.enter frames height) := by
  cases height with
  | none => exact ⟨.nil, by simp [Core.enter]⟩
  | some x =>
      have hsuffix := List.dropWhile_suffix (l := frames) (x ≤ ·)
      have hkept := h.descending.sublist hsuffix.sublist
      constructor
      · rw [Core.enter, List.pairwise_cons]
        refine ⟨?_, hkept⟩
        intro y hy
        have hhead := List.head?_dropWhile_not (x ≤ ·) frames
        cases hframes : frames.dropWhile (x ≤ ·) with
        | nil => simp [hframes] at hy
        | cons top tail =>
            rw [hframes] at hkept hy hhead
            have htop : top < x := by simpa using hhead
            obtain rfl | hy := List.mem_cons.mp hy
            · exact htop
            · exact lt_trans ((List.pairwise_cons.mp hkept).1 y hy) htop
      · rw [Core.enter, List.forall_mem_cons]
        exact ⟨htwo x rfl, fun y hy => h.calls y (hsuffix.subset hy)⟩

/-- Entering the height of the deepest frame replaces that frame. -/
theorem enter_top {top : Nat} {frames : List Nat} (h : Frames (top :: frames)) :
    enter (top :: frames) (some top) = top :: frames := by
  have hkeep : frames.dropWhile (top ≤ ·) = frames := by
    rw [List.dropWhile_eq_self_iff]
    intro hpos
    have hlt := (List.pairwise_cons.mp h.descending).1 _ (List.getElem_mem hpos)
    simpa using hlt
  rw [enter, List.dropWhile_cons_of_pos (by simp), hkeep]

/-- Two levels of a stack give the same path exactly if they cut it at the same place. -/
theorem bumpLast_take_eq_iff {stack : Path} {a b : Nat} :
    bumpLast (stack.take a) = bumpLast (stack.take b) ↔
      min a stack.length = min b stack.length := by
  constructor
  · intro heq
    have hlength := congrArg List.length heq
    rwa [length_bumpLast, length_bumpLast, List.length_take, List.length_take] at hlength
  · intro heq
    rw [List.take_eq_take_iff.mpr heq]

/-- The scans take the same step exactly if the step fits the open frames. -/
theorem nextStack_eq_push_iff {stack : Path} {frames : List Nat} (h : Frames frames)
    (hstack : stack.length = max 2 (frames.length + 1)) {height : Option Nat}
    (htwo : ∀ x ∈ height, 2 ≤ x) :
    nextStack stack frames.head? height = push stack (depthOf frames height) ↔
      StepFits frames height := by
  cases height with
  | none =>
      have hnext : nextStack stack frames.head? none = bumpLast (stack.take stack.length) := by
        rw [List.take_length]
        rfl
      rw [hnext, depthOf, push_of_le (by omega), bumpLast_take_eq_iff, StepFits]
      omega
  | some x =>
      have hx : 2 ≤ x := htwo x rfl
      cases frames with
      | nil =>
          have hnext : nextStack stack none (some x) = bumpLast (stack.take stack.length) := by
            rw [List.take_length]
            rfl
          have hdepth : depthOf [] (some x) = 2 := rfl
          have htwo : stack.length = 2 := by simpa using hstack
          rw [List.head?_nil, hnext, hdepth, push_of_le htwo.ge, htwo]
          simp [StepFits]
      | cons top frames =>
          have hlength : stack.length = frames.length + 2 := by
            rw [hstack, List.length_cons]
            omega
          rw [List.head?_cons]
          obtain hlt | rfl | hgt := lt_trichotomy x top
          · -- a return: the source cuts the stack at the height itself
            have hpop : x ≤ top := hlt.le
            have hbound : (enter (top :: frames) (some x)).length ≤ frames.length + 1 := by
              rw [enter, List.dropWhile_cons_of_pos (by simpa using hpop), List.length_cons]
              exact Nat.succ_le_succ (List.dropWhile_suffix _).length_le
            have hentered : Frames (enter (top :: frames) (some x)) :=
              h.enter (by rintro y ⟨⟩; exact hx)
            have hcall : (enter (top :: frames) (some x)).length + 1 ≤ x := hentered.length_le
            have hnext : nextStack stack (some top) (some x) = bumpLast (stack.take x) := by
              simp [nextStack, Nat.compare_eq_lt.mpr hlt]
            have hfits : StepFits (top :: frames) (some x) ↔
                depthOf (top :: frames) (some x) = x ∨
                  (enter (top :: frames) (some x)).length = (top :: frames).length := by
              simp [StepFits, hlt]
            rw [hnext, hfits, depthOf, push_of_le (by omega), bumpLast_take_eq_iff,
              List.length_cons]
            omega
          · have hnext : nextStack stack (some x) (some x) = bumpLast (stack.take stack.length) := by
              simp [nextStack]
            have hdepth : depthOf (x :: frames) (some x) = stack.length := by
              rw [depthOf, enter_top h, hlength, List.length_cons]
            rw [hnext, hdepth, push_of_le le_rfl]
            simp [StepFits]
          · have hkeep : ¬ x ≤ top := by omega
            have hnext : nextStack stack (some top) (some x) = stack ++ [0] := by
              simp [nextStack, Nat.compare_eq_gt.mpr hgt]
            have hdepth : depthOf (top :: frames) (some x) = stack.length + 1 := by
              rw [depthOf, enter, List.dropWhile_cons_of_neg (by simpa using hkeep), hlength]
              rfl
            have hnodrop : ¬ x < top := by omega
            rw [hnext, hdepth, push_of_gt (Nat.lt_succ_self _)]
            simp [StepFits, hnodrop]

theorem head?_enter (frames : List Nat) (height : Option Nat) :
    (enter frames height).head? = height := by
  cases height with
  | none => rfl
  | some x => rfl

/-- The next stack of the positions has the length that the step lemma needs. -/
theorem length_push_depthOf {stack : Path} {frames : List Nat}
    (hstack : stack.length = max 2 (frames.length + 1)) (height : Option Nat) :
    (push stack (depthOf frames height)).length = max 2 ((enter frames height).length + 1) := by
  rw [(length_position (by omega) height).1]
  cases height with
  | none => rfl
  | some x =>
      rw [depthOf, enter, List.length_cons]
      omega

theorem derivePathsLoop_eq_iff {stack : Path} {frames : List Nat} (h : Frames frames)
    (hstack : stack.length = max 2 (frames.length + 1)) {heights : List (Option Nat)}
    (htwo : ∀ height ∈ heights, ∀ x ∈ height, 2 ≤ x) :
    derivePathsLoop stack frames.head? heights = scanPositions stack frames heights ↔
      HeightsFit frames heights := by
  induction heights generalizing stack frames with
  | nil => simp [derivePathsLoop, scanPositions, HeightsFit]
  | cons height rest ih =>
      rw [List.forall_mem_cons] at htwo
      have hrest := ih (h.enter htwo.1) (length_push_depthOf hstack height) htwo.2
      rw [head?_enter] at hrest
      rw [derivePathsLoop, scanPositions, HeightsFit, List.cons.injEq,
        ← nextStack_eq_push_iff h hstack htwo.1, ← hrest]
      constructor
      · rintro ⟨hstep, hpaths⟩
        rw [hstep] at hpaths
        exact ⟨hstep, hpaths⟩
      · rintro ⟨hstep, hpaths⟩
        rw [hstep]
        exact ⟨rfl, hpaths⟩

/-- The derived paths of a group are its positions exactly if all its steps fit. -/
theorem derivePaths_eq_iff (outer : Nat) {heights : List (Option Nat)}
    (htwo : ∀ height ∈ heights, ∀ x ∈ height, 2 ≤ x) :
    derivePathsFromStackheights heights outer = scanPositions [outer] [] heights ↔
      HeightsFit [] heights := by
  cases heights with
  | nil => simp [derivePathsFromStackheights, scanPositions, HeightsFit]
  | cons first rest =>
      rw [List.forall_mem_cons] at htwo
      have hdepth : depthOf [] first = 2 := by
        cases first with
        | none => rfl
        | some x => rfl
      have hfits : StepFits [] first := by
        cases first with
        | none => exact Nat.zero_le 1
        | some x => simp [StepFits]
      have hfirst : push [outer] 2 = [outer, 0] := push_of_gt (by simp)
      have hlength : [outer, 0].length = max 2 ((enter [] first).length + 1) := by
        cases first with
        | none => rfl
        | some x => rfl
      have hloop := derivePathsLoop_eq_iff
        ((Frames.mk .nil (by simp)).enter htwo.1) hlength htwo.2
      rw [head?_enter] at hloop
      rw [derivePathsFromStackheights, scanPositions, HeightsFit, hdepth, hfirst,
        List.cons.injEq, hloop]
      simp [hfits]

/-! ## The trees of a group -/

/-- Every tree is at its place below the outer instruction, the first one at index `n`, and so
is everything below it. -/
def PlacedFrom (outer : Path) (n : Nat) (trees : List InstructionUpdate) : Prop :=
  ∀ j child, trees[j]? = some child → child.path = outer ++ [n + j] ∧ child.Positioned

theorem placedFrom_iff {outer : Path} {n : Nat} {trees : List InstructionUpdate} :
    PlacedFrom outer n trees ↔
      (trees.flatMap preorder).map (·.path) =
        InstructionUpdate.positions.positionsBelow outer n trees := by
  rw [paths_eq_positionsBelow_iff fun child _ position => paths_eq_positions_iff child position]
  constructor
  · intro h
    refine ⟨fun j child hchild => (h j child hchild).1, ?_⟩
    intro child hchild
    obtain ⟨j, hj⟩ := List.mem_iff_getElem?.mp hchild
    exact (h j child hj).2
  · rintro ⟨hpaths, hpositioned⟩ j child hchild
    exact ⟨hpaths j child hchild, hpositioned child (List.mem_of_getElem? hchild)⟩

theorem placedFrom_stripLogs {outer : Path} {n : Nat} {trees : List InstructionUpdate} :
    PlacedFrom outer n (trees.map stripLogs) ↔ PlacedFrom outer n trees := by
  have hpath : ∀ child : InstructionUpdate, child.stripLogs.path = child.path :=
    fun child => by rw [stripLogs_eq]
  simp only [PlacedFrom, List.getElem?_map, Option.map_eq_some_iff]
  constructor
  · intro h j child hchild
    obtain ⟨hplace, hpositioned⟩ := h j _ ⟨child, hchild, rfl⟩
    exact ⟨(hpath child).symm.trans hplace, positioned_stripLogs.mp hpositioned⟩
  · rintro h j - ⟨child, hchild, rfl⟩
    obtain ⟨hplace, hpositioned⟩ := h j child hchild
    exact ⟨(hpath child).trans hplace, positioned_stripLogs.mpr hpositioned⟩

/-- Before the nesting nothing is nested, and the heights are those of the group. -/
theorem built_group {shared : InstructionShared} {instructions : List InnerInstruction}
    {paths : List Path} {inner : Roots} (hlength : instructions.length = paths.length)
    (h : List.Forall₂ (fun entry root => buildInnerInstruction shared entry.1 entry.2 = .ok root)
      (instructions.zip paths) inner) :
    (∀ root ∈ inner, root.1.inner = []) ∧
      inner.map Prod.snd = instructions.map (·.stackHeight) := by
  have hbuilt : List.Forall₂ (fun (ins : InnerInstruction) root =>
      root.2 = ins.stackHeight ∧ root.1.inner = []) instructions inner := by
    rw [← List.map_fst_zip hlength.le, List.forall₂_map_left_iff]
    refine h.imp fun entry root hbuild => ?_
    obtain ⟨-, hinner, -, hheight⟩ := buildInnerInstruction_builds hbuild
    exact ⟨hheight, hinner⟩
  clear h hlength
  induction hbuilt with
  | nil => simp
  | @cons ins root instructions inner hroot hrest ih =>
      rw [List.forall_mem_cons, List.map_cons, List.map_cons, ih.2, hroot.1]
      exact ⟨⟨hroot.2, ih.1⟩, rfl⟩

/-- The paths of a forest are those of its flat list. -/
theorem map_path_preorder (trees : List InstructionUpdate) :
    (trees.flatMap preorder).map (·.path) = (trees.flatMap flat).map (·.path) := by
  have hflat : trees.flatMap flat = (trees.flatMap preorder).map alone := by
    rw [List.map_flatMap]
    rfl
  rw [hflat, List.map_map]
  rfl

/-- A nested group is at its place exactly if its heights fit and it comes first. -/
theorem placedFrom_group_iff {shared : InstructionShared} {group : InnerInstructions}
    {inner : Roots} {n : Nat} (hnonempty : group.instructions ≠ [])
    (htwo : ∀ ins ∈ group.instructions, ∀ height ∈ ins.stackHeight, 2 ≤ height)
    (h : List.Forall₂ (fun entry root => buildInnerInstruction shared entry.1 entry.2 = .ok root)
      (group.instructions.zip (derivePathsFromStackheights
        (group.instructions.map (·.stackHeight)) group.index)) inner) :
    PlacedFrom [group.index] n ((nestInner inner).map Prod.fst) ↔
      HeightsFit [] (group.instructions.map (·.stackHeight)) ∧ n = 0 := by
  obtain ⟨hleaf, hheights⟩ := built_group (by simp [length_derivePaths]) h
  have htrees := flat_nestInner_paths (by simp [length_derivePaths]) h
  rw [← Roots.flatMap_flat, ← map_path_preorder] at htrees
  have hpresent : ∀ height ∈ group.instructions.map (·.stackHeight), ∀ x ∈ height, 2 ≤ x := by
    rw [List.forall_mem_map]
    exact htwo
  obtain rfl | hlater := Nat.eq_zero_or_pos n
  · have hpositions : rootPositions (childStack [group.index] 0) [] (inner.foldr place []) =
        InstructionUpdate.positions.positionsBelow [group.index] 0
          ((inner.foldr place []).map Prod.fst) :=
      rootPositions_roots (descending_nested inner) (.inl rfl)
    have hscan : rootPositions [group.index] [] (inner.foldr place []) =
        scanPositions [group.index] [] (inner.map Prod.snd) :=
      rootPositions_nested hleaf (by simp)
    rw [hheights] at hscan
    rw [placedFrom_iff, htrees, nestInner_eq, ← hpositions, ← derivePaths_eq_iff group.index hpresent,
      and_iff_left rfl]
    exact Eq.congr_right hscan
  · -- the derived paths start at index 0 again
    have hfirst : ∀ tree ∈ ((nestInner inner).map Prod.fst).head?,
        tree.path = [group.index, 0] := by
      intro tree htree
      have hhead := congrArg List.head? htrees
      cases htrees' : (nestInner inner).map Prod.fst with
      | nil => simp [htrees'] at htree
      | cons first trees =>
          rw [htrees'] at htree hhead
          cases htree
          cases hinstructions : group.instructions with
          | nil => contradiction
          | cons ins instructions =>
              rw [hinstructions, List.flatMap_cons, preorder_eq] at hhead
              simpa [derivePathsFromStackheights] using hhead
    have hsome : (nestInner inner).map Prod.fst ≠ [] := by
      intro hempty
      rw [hempty] at htrees
      have hlength := congrArg List.length htrees
      rw [List.length_map, length_derivePaths, List.length_map] at hlength
      exact hnonempty (List.length_eq_zero_iff.mp hlength.symm)
    constructor
    · intro hplaced
      obtain ⟨first, trees, htrees'⟩ := List.exists_cons_of_ne_nil hsome
      rw [htrees'] at hfirst hplaced
      have hplace := (hplaced 0 first rfl).1
      rw [hfirst first rfl] at hplace
      simp at hplace
      omega
    · rintro ⟨-, hzero⟩
      omega

/-! ## The group in its transaction -/

/-- Outer instructions keep their paths and only get further inner instructions. -/
def Extends (outer outer' : List InstructionUpdate) : Prop :=
  ∀ (k : Nat) (ix : InstructionUpdate), outer[k]? = some ix →
    ∃ ix' back, outer'[k]? = some ix' ∧ ix'.path = ix.path ∧ ix'.inner = ix.inner ++ back

theorem Extends.refl (outer : List InstructionUpdate) : Extends outer outer :=
  fun _ ix hix => ⟨ix, [], hix, rfl, (List.append_nil _).symm⟩

theorem Extends.group {shared : InstructionShared} {group : InnerInstructions}
    {outer outer' outer'' : List InstructionUpdate} (hdone : Extends outer outer')
    (h : attachGroup shared outer' group = .ok outer'') : Extends outer outer'' := by
  obtain ⟨parent, inner, hparent, -, rfl⟩ := attachGroup_eq_ok h
  intro k ix hix
  obtain ⟨ix', back, hix', hpath, hinner⟩ := hdone k ix hix
  by_cases hk : group.index = k
  · subst hk
    obtain rfl : parent = ix' := Option.some.inj (hparent.symm.trans hix')
    refine ⟨_, back ++ (nestInner inner).map Prod.fst,
      List.getElem?_set_self (List.getElem?_eq_some_iff.mp hparent).1, hpath, ?_⟩
    change parent.inner ++ _ = _
    rw [hinner, List.append_assoc]
  · exact ⟨ix', back, by rwa [List.getElem?_set_ne hk], hpath, hinner⟩

/-- Where a group stands below its outer instruction: after the instructions of the earlier
groups with its index. -/
theorem group_attached {shared : InstructionShared} {instructions : List CompiledInstruction}
    {before after : List InnerInstructions} {group : InnerInstructions}
    {outer attached : List InstructionUpdate} (houter : Attached shared instructions [] outer)
    (h : attachInnerInstructions shared (before ++ group :: after) outer = .ok attached) :
    ∃ ix front inner back, attached[group.index]? = some ix ∧ ix.path = [group.index] ∧
      ix.inner = front ++ (nestInner inner).map Prod.fst ++ back ∧
      List.Forall₂ (Builds shared) (Parts.flatInstructions.innerOf group.index before)
        (front.flatMap flat) ∧
      List.Forall₂ (fun entry root => buildInnerInstruction shared entry.1 entry.2 = .ok root)
        (group.instructions.zip (derivePathsFromStackheights
          (group.instructions.map (·.stackHeight)) group.index)) inner := by
  rw [attachInnerInstructions, List.foldlM_append] at h
  obtain ⟨earlier, hbefore, h⟩ := Fallible.bind_eq_ok.mp h
  rw [List.foldlM_cons] at h
  obtain ⟨mid, hgroup, hafter⟩ := Fallible.bind_eq_ok.mp h
  have hearlier : Attached shared instructions before earlier :=
    Fallible.foldlM_induction houter (fun _ _ _ _ hdone hstep => attached_group hdone hstep) hbefore
  have hlater : Extends mid attached :=
    Fallible.foldlM_induction (P := fun _ outer => Extends mid outer) (Extends.refl mid)
      (fun _ _ _ _ hdone hstep => hdone.group hstep) hafter
  obtain ⟨parent, inner, hparent, hinner, rfl⟩ := attachGroup_eq_ok hgroup
  have hlt := (List.getElem?_eq_some_iff.mp hparent).1
  obtain ⟨ix, back, hix, hpath, hback⟩ := hlater _ _ (List.getElem?_set_self hlt)
  obtain ⟨hparentPath, hflat⟩ := hearlier.2 _ parent hparent
  refine ⟨ix, parent.inner, inner, back, hix, hpath.trans hparentPath, hback, ?_, hinner⟩
  rw [flat_eq, List.getElem?_eq_getElem (hearlier.1 ▸ hlt)] at hflat
  exact (List.forall₂_cons.mp hflat).2

theorem flatMap_flat_stripLogs (trees : List InstructionUpdate) :
    (trees.map stripLogs).flatMap flat = trees.flatMap flat := by
  rw [List.flatMap_map]
  exact List.flatMap_congr fun child _ => flat_stripLogs child

theorem forall₂_builds_flatMap {shared : InstructionShared} {flat : List CompiledInstruction}
    {trees : List InstructionUpdate} :
    List.Forall₂ (Builds shared) flat (trees.flatMap InstructionUpdate.flat) ↔
      List.Forall₂ (Builds shared) flat (trees.flatMap preorder) := by
  have hflat : trees.flatMap InstructionUpdate.flat = (trees.flatMap preorder).map alone := by
    rw [List.map_flatMap]
    rfl
  rw [hflat, List.forall₂_map_right_iff]
  simp only [builds_alone]

/-- The derived paths of a group of inner instructions are their positions in the tree exactly
if its heights fit and no earlier group of the same outer instruction has instructions. -/
theorem groupPaths_eq_positions_iff (bs58 : Bs58) (txn : TransactionUpdate) (parts : Parts)
    (ixs : List InstructionUpdate) (before after : List InnerInstructions)
    (group : InnerInstructions) (hparts : parts.Of txn) (h : buildFromTxn bs58 txn = .ok ixs)
    (hgroups : parts.status.innerInstructions = before ++ group :: after)
    (hnonempty : group.instructions ≠ [])
    (htwo : ∀ ins ∈ group.instructions, ∀ height ∈ ins.stackHeight, 2 ≤ height) :
    ∃ ix front trees back, ixs[group.index]? = some ix ∧ ix.inner = front ++ trees ++ back ∧
      List.Forall₂ (Builds (parts.shared txn))
        (Parts.flatInstructions.innerOf group.index before) (front.flatMap preorder) ∧
      List.Forall₂ (Builds (parts.shared txn))
        (group.instructions.map fun ins => ⟨ins.programIdIndex, ins.accounts, ins.data⟩)
        (trees.flatMap preorder) ∧
      ((∀ j child, trees[j]? = some child →
          child.path = ix.path ++ [front.length + j] ∧ child.Positioned) ↔
        HeightsFit [] (group.instructions.map (·.stackHeight)) ∧
          Parts.flatInstructions.innerOf group.index before = []) := by
  obtain ⟨parts', outer, attached, hparts', houter, hattach, rfl⟩ := buildFromTxn_eq_ok h
  obtain rfl := hparts.unique hparts'
  rw [hgroups] at hattach
  obtain ⟨built, front, inner, back, hbuilt, hpath, hinner, hfront, hgroup⟩ :=
    group_attached (attached_outer houter) hattach
  have hiff := placedFrom_group_iff (n := front.length) hnonempty htwo hgroup
  have hbuilds := flat_nestInner_group (by simp [length_derivePaths]) hgroup
  rw [← Roots.flatMap_flat] at hbuilds
  have hzero : front.length = 0 ↔ Parts.flatInstructions.innerOf group.index before = [] := by
    constructor
    · intro hfrontNil
      rw [List.length_eq_zero_iff.mp hfrontNil] at hfront
      exact List.forall₂_nil_right_iff.mp hfront
    · intro hnone
      rw [hnone, List.forall₂_nil_left_iff] at hfront
      cases front with
      | nil => rfl
      | cons first front => simp [flat_eq] at hfront
  -- the log ranges change nothing of this
  have hstrip := congrArg (·[group.index]?)
    (assignLogMessages_stripLogs parts.status.logMessages bs58 attached)
  simp only [List.getElem?_map, hbuilt, Option.map_some] at hstrip
  obtain ⟨ix, hix, hsame⟩ := Option.map_eq_some_iff.mp hstrip
  have hsameInner : ix.inner.map stripLogs = built.inner.map stripLogs := by
    have hfield := congrArg InstructionUpdate.inner hsame
    rwa [stripLogs_eq, stripLogs_eq] at hfield
  rw [hinner, List.map_append, List.map_append] at hsameInner
  obtain ⟨start, back', hix', hstart, -⟩ := List.map_eq_append_iff.mp hsameInner
  obtain ⟨front', trees', rfl, hfront', htrees'⟩ := List.map_eq_append_iff.mp hstart
  have hlength : front'.length = front.length := by
    simpa using congrArg List.length hfront'
  refine ⟨ix, front', trees', back', hix, hix', ?_, ?_, ?_⟩
  · rw [← forall₂_builds_flatMap, ← flatMap_flat_stripLogs, hfront', flatMap_flat_stripLogs]
    exact hfront
  · rw [← forall₂_builds_flatMap, ← flatMap_flat_stripLogs, htrees', flatMap_flat_stripLogs]
    exact hbuilds
  · rw [path_eq_of_stripLogs hsame, hpath, hlength, ← hzero, ← hiff, ← placedFrom_stripLogs,
      ← htrees', placedFrom_stripLogs]
    exact Iff.rfl

/-- One outer instruction with a single group of inner instructions of the given heights; they
run the programs 3, 4, and so on. -/
def oneGroup (heights : List (Option Nat)) : TransactionUpdate where
  transaction := some
    { signature := List.replicate 64 9
      isVote := false
      transaction := some
        { message := some
            { header := some ⟨1, 0, 0⟩
              accountKeys := (List.range 8).map fun byte => List.replicate 32 byte.toUInt8
              instructions := [⟨0, [], []⟩] } }
      statusMeta := some
        { err := none
          innerInstructions :=
            [⟨0, heights.zipIdx.map fun (height, i) => ⟨i + 3, [], [], height⟩⟩]
          logMessages := []
          loadedWritableAddresses := []
          loadedReadonlyAddresses := [] }
      index := 0 }
  slot := 1

/-- After a nested instruction, the one without a height continues its level in the path but
stays flat in the tree: it is the second inner instruction, with the path of a second child of
the first. -/
theorem missingHeight_off_position :
    ∃ ixs ix child, buildFromTxn .bitcoin (oneGroup [some 2, some 3, none]) = .ok ixs ∧
      ixs[0]? = some ix ∧ ix.inner[1]? = some child ∧ child.path = [0, 0, 1] ∧
      child.path ≠ ix.path ++ [1] := by
  exact ⟨_, _, _, rfl, rfl, rfl, rfl, by decide⟩

theorem groupPaths_eq_positions_of_flatGap :
    ∃ ixs ix front trees back,
      buildFromTxn .bitcoin (oneGroup [some 2, none, some 2, some 3]) = .ok ixs ∧
      ixs[0]? = some ix ∧ ix.inner = front ++ trees ++ back ∧
      ∀ j child, trees[j]? = some child →
        child.path = ix.path ++ [front.length + j] ∧ child.Positioned := by
  obtain ⟨ix, front, trees, back, hix, hinner, -, -, hiff⟩ :=
    groupPaths_eq_positions_iff .bitcoin (oneGroup [some 2, none, some 2, some 3])
      ⟨_, _, _, _, _⟩ _ [] [] _ ⟨rfl, rfl, rfl, rfl, rfl⟩ rfl rfl (by decide) (by decide)
  exact ⟨_, ix, front, trees, back, rfl, hix, hinner, hiff.mpr ⟨by decide, rfl⟩⟩

end Shipstern.Core
