import Shipstern.Core.LogAttribution

/-!
# Log ranges of arbitrary logs

The log may be cut, unbalanced or forged, and the tree may have too few or too many inner
instructions. `Covers` follows the loop of the assignment over any lines: which ones it reads,
which children it gives a frame and where it stops. Ranges are therefore ordered and nested
whatever the lines are, and the direct view of an instruction stays out of the frames of its
children, so that no line belongs to two instructions.
-/

namespace Shipstern.Core

open InstructionUpdate

namespace LogRange

def NonEmpty (range : LogRange) : Prop := range.start < range.stop

def Contains (range inner : LogRange) : Prop :=
  range.start ≤ inner.start ∧ inner.stop ≤ range.stop

def Before (range next : LogRange) : Prop := range.stop ≤ next.start

end LogRange

namespace InstructionUpdate

/-- The indexes of the lines that `directLines` keeps; the first line has index `pos`. -/
def directIndexes : Nat → Nat → List LogLine → List Nat
  | _, _, [] => []
  | depth, pos, line :: rest =>
      match classifyLogLine line with
      | .invoke =>
          if depth + 1 = 1 then pos :: directIndexes (depth + 1) (pos + 1) rest
          else directIndexes (depth + 1) (pos + 1) rest
      | .close =>
          if depth = 1 then pos :: directIndexes (depth - 1) (pos + 1) rest
          else directIndexes (depth - 1) (pos + 1) rest
      | .other =>
          if depth = 1 then pos :: directIndexes depth (pos + 1) rest
          else directIndexes depth (pos + 1) rest

/-- The indexes of the lines that `directLogMessages` yields. -/
def directLogIndexes (ix : InstructionUpdate) : List Nat :=
  directIndexes 0 ix.logRange.start ix.logMessages

/-- No line is assigned to the instruction or to anything below it. -/
def Unassigned (logs : List LogLine) (ix : InstructionUpdate) : Prop :=
  ∀ d ∈ ix.visitAll, d.logRange.start = d.logRange.stop ∧ d.logRange.stop ≤ logs.length

end InstructionUpdate

section Direct

variable {logs : List LogLine}

theorem directIndexes_bounds {depth pos : Nat} {lines : List LogLine} :
    ∀ i ∈ directIndexes depth pos lines, pos ≤ i ∧ i < pos + lines.length := by
  induction lines generalizing depth pos with
  | nil => simp [directIndexes]
  | cons line lines ih =>
      have hrest : ∀ depth, ∀ i ∈ directIndexes depth (pos + 1) lines,
          pos ≤ i ∧ i < pos + (line :: lines).length := by
        intro depth i hi
        have hbounds := ih i hi
        rw [List.length_cons]
        omega
      have hkept : ∀ depth, ∀ i ∈ pos :: directIndexes depth (pos + 1) lines,
          pos ≤ i ∧ i < pos + (line :: lines).length := by
        intro depth i hi
        obtain rfl | hi := List.mem_cons.mp hi
        · rw [List.length_cons]
          omega
        · exact hrest depth i hi
      rw [directIndexes]
      cases classifyLogLine line with
      | invoke =>
          dsimp only
          split
          · exact hkept _
          · exact hrest _
      | close =>
          dsimp only
          split
          · exact hkept _
          · exact hrest _
      | other =>
          dsimp only
          split
          · exact hkept _
          · exact hrest _

theorem slice_cons {pos : Nat} (stop : Nat) {line : LogLine} (hline : logs[pos]? = some line)
    (hstop : pos < stop) :
    (logs.take stop).drop pos = line :: (logs.take stop).drop (pos + 1) := by
  have hget : (logs.take stop)[pos]? = some line := by rwa [List.getElem?_take_of_lt hstop]
  have hdrop := List.drop_eq_getElem?_toList_append (l := logs.take stop) (i := pos)
  rwa [hget] at hdrop

theorem slice_nil {pos stop : Nat} (h : stop ≤ pos ∨ logs.length ≤ pos) :
    (logs.take stop).drop pos = [] := by
  rw [List.drop_eq_nil_iff, List.length_take]
  omega

/-- The indexes are those of the lines in the slice. -/
theorem directLines_eq (depth pos stop : Nat) :
    directLines depth ((logs.take stop).drop pos) =
      (directIndexes depth pos ((logs.take stop).drop pos)).filterMap (logs[·]?) := by
  obtain ⟨n, hn⟩ : ∃ n, logs.length ≤ pos + n := ⟨logs.length, Nat.le_add_left _ _⟩
  induction n generalizing depth pos with
  | zero =>
      rw [slice_nil (.inr (show logs.length ≤ pos from hn))]
      rfl
  | succ n ih =>
      by_cases hstop : pos < stop
      · cases hline : logs[pos]? with
        | none =>
            rw [slice_nil (.inr (List.getElem?_eq_none_iff.mp hline))]
            rfl
        | some line =>
            have hrest := fun depth => ih depth (pos + 1) (by omega)
            rw [slice_cons _ hline hstop, directLines, directIndexes]
            cases classifyLogLine line with
            | invoke =>
                dsimp only
                split <;> simp [hrest, hline]
            | close =>
                dsimp only
                split <;> simp [hrest, hline]
            | other =>
                dsimp only
                split <;> simp [hrest, hline]
      · rw [slice_nil (.inl (by omega))]
        rfl

theorem directLogMessages_eq (ix : InstructionUpdate) :
    ix.directLogMessages = ix.directLogIndexes.filterMap (ix.shared.logMessages[·]?) :=
  directLines_eq ..

end Direct

/-! ## What the loop covers -/

/-- The loop of the assignment with `nested` frames open inside the own one, from the line at
`pos` on: the children that it gives frames, and where it stops. -/
inductive Covers (logs : List LogLine) : Nat → Nat → List InstructionUpdate → Nat → Prop
  | ended {nested pos : Nat} {inner : List InstructionUpdate} (hend : pos = logs.length)
      (hrest : ∀ ix ∈ inner, ix.Unassigned logs) : Covers logs nested pos inner pos
  | closed {pos : Nat} {inner : List InstructionUpdate} {line : LogLine}
      (hline : logs[pos]? = some line) (hclose : classifyLogLine line = .close)
      (hrest : ∀ ix ∈ inner, ix.Unassigned logs) : Covers logs 0 pos inner (pos + 1)
  | close {nested pos stop : Nat} {inner : List InstructionUpdate} {line : LogLine}
      (hline : logs[pos]? = some line) (hclose : classifyLogLine line = .close)
      (hrest : Covers logs nested (pos + 1) inner stop) : Covers logs (nested + 1) pos inner stop
  | other {nested pos stop : Nat} {inner : List InstructionUpdate} {line : LogLine}
      (hline : logs[pos]? = some line) (hother : classifyLogLine line = .other)
      (hrest : Covers logs nested (pos + 1) inner stop) : Covers logs nested pos inner stop
  | child {nested pos stop : Nat} {child : InstructionUpdate} {inner : List InstructionUpdate}
      {line : LogLine} (hline : logs[pos]? = some line) (hinvoke : classifyLogLine line = .invoke)
      (hstart : child.logRange.start = pos)
      (hbody : Covers logs 0 (pos + 1) child.inner child.logRange.stop)
      (hrest : Covers logs nested child.logRange.stop inner stop) :
      Covers logs nested pos (child :: inner) stop
  | surplus {nested pos stop : Nat} {line : LogLine} (hline : logs[pos]? = some line)
      (hinvoke : classifyLogLine line = .invoke)
      (hrest : Covers logs (nested + 1) (pos + 1) [] stop) : Covers logs nested pos [] stop

section Assign

variable {logs : List LogLine}

theorem unassigned_iff {ix : InstructionUpdate} : ix.Unassigned logs ↔
    (ix.logRange.start = ix.logRange.stop ∧ ix.logRange.stop ≤ logs.length) ∧
      ∀ child ∈ ix.inner, child.Unassigned logs := by
  simp only [Unassigned, visitAll_eq]
  rw [preorder_eq, List.forall_mem_cons]
  simp only [List.mem_flatMap]
  constructor
  · rintro ⟨hown, hbelow⟩
    exact ⟨hown, fun child hchild d hd => hbelow d ⟨child, hchild, hd⟩⟩
  · rintro ⟨hown, hbelow⟩
    exact ⟨hown, fun d ⟨child, hchild, hd⟩ => hbelow child hchild d hd⟩

theorem Covers.bounds {nested pos stop : Nat} {inner : List InstructionUpdate}
    (h : Covers logs nested pos inner stop) : pos ≤ stop ∧ stop ≤ logs.length := by
  induction h with
  | ended hend => exact ⟨le_rfl, hend.le⟩
  | closed hline => exact ⟨Nat.le_succ _, (List.getElem?_eq_some_iff.mp hline).1⟩
  | close _ _ _ ih => exact ⟨(Nat.le_succ _).trans ih.1, ih.2⟩
  | other _ _ _ ih => exact ⟨(Nat.le_succ _).trans ih.1, ih.2⟩
  | child _ _ _ _ _ ihbody ihrest =>
      exact ⟨((Nat.le_succ _).trans ihbody.1).trans ihrest.1, ihrest.2⟩
  | surplus _ _ _ ih => exact ⟨(Nat.le_succ _).trans ih.1, ih.2⟩

/-- The loop covers what is left of the children. -/
theorem assignLogsFrom_covers {pos : Nat} (hpos : pos ≤ logs.length) (invokePos nested : Nat)
    (ix : InstructionUpdate) (done rest : List InstructionUpdate) (hinner : ix.inner = done ++ rest)
    (hrest : ∀ child ∈ rest, child.Unassigned logs) :
    ∃ framed stop, assignLogsFrom logs invokePos (nested + 1) pos done.length ix =
        (stop, ix.inFrame (done ++ framed) invokePos stop) ∧
      Covers logs nested pos framed stop ∧ framed.length = rest.length := by
  obtain ⟨n, hn⟩ : ∃ n, logs.length = pos + n := Nat.exists_eq_add_of_le hpos
  induction n using Nat.strong_induction_on generalizing pos invokePos nested ix done rest with
  | _ n ih =>
      cases hline : logs[pos]? with
      | none =>
          have hend : logs.length ≤ pos := List.getElem?_eq_none_iff.mp hline
          refine ⟨rest, pos, ?_, .ended (by omega) hrest, rfl⟩
          rw [← hinner, assignLogsFrom]
          cases hfuel : logs.length with
          | zero => rfl
          | succ fuel => simp [assignLogsLoop, hline, InstructionUpdate.inFrame]
      | some line =>
          have hnext : pos + 1 ≤ logs.length := (List.getElem?_eq_some_iff.mp hline).1
          rw [assignLogsFrom_eq hline]
          cases hkind : classifyLogLine line with
          | other =>
              obtain ⟨framed, stop, hassign, hcovers, hlength⟩ :=
                ih (n - 1) (by omega) hnext invokePos nested ix done rest hinner
                  hrest (by omega)
              exact ⟨framed, stop, hassign, .other hline hkind hcovers, hlength⟩
          | close =>
              cases nested with
              | zero =>
                  refine ⟨rest, pos + 1, ?_, .closed hline hkind hrest, rfl⟩
                  rw [← hinner]
                  rfl
              | succ nested =>
                  obtain ⟨framed, stop, hassign, hcovers, hlength⟩ :=
                    ih (n - 1) (by omega) hnext invokePos nested ix done rest hinner
                      hrest (by omega)
                  exact ⟨framed, stop, hassign, .close hline hkind hcovers, hlength⟩
          | invoke =>
              cases rest with
              | nil =>
                  have hnone : ix.inner[done.length]? = none := by simp [hinner]
                  obtain ⟨framed, stop, hassign, hcovers, hlength⟩ :=
                    ih (n - 1) (by omega) hnext invokePos (nested + 1) ix done []
                      hinner hrest (by omega)
                  obtain rfl : framed = [] := List.length_eq_zero_iff.mp hlength
                  refine ⟨[], stop, ?_, .surplus hline hkind hcovers, rfl⟩
                  simp only [hnone]
                  exact hassign
              | cons child rest =>
                  rw [List.forall_mem_cons] at hrest
                  have hchild : ix.inner[done.length]? = some child := by simp [hinner]
                  obtain ⟨framedBelow, mid, hassignChild, hbody, -⟩ :=
                    ih (n - 1) (by omega) hnext pos 0 child [] child.inner rfl
                      (unassigned_iff.mp hrest.1).2 (by omega)
                  have hmid := hbody.bounds
                  obtain ⟨framed, stop, hassign, hcovers, hlength⟩ :=
                    ih (logs.length - mid) (by omega) hmid.2 invokePos nested
                      { ix with
                        inner := ix.inner.set done.length (child.inFrame framedBelow pos mid) }
                      (done ++ [child.inFrame framedBelow pos mid]) rest
                      (by simp [hinner]) hrest.2 (by omega)
                  refine ⟨child.inFrame framedBelow pos mid :: framed, stop, ?_,
                    .child hline hkind rfl hbody hcovers, by simpa using hlength⟩
                  simp only [hchild]
                  rw [List.length_nil, Nat.zero_add] at hassignChild
                  rw [List.length_append, List.length_singleton, List.append_assoc,
                    List.singleton_append] at hassign
                  rw [hassignChild]
                  exact hassign

end Assign

/-! ## Frames in order -/

/-- The range of the instruction starts at an invoke line and is what the loop covers from
there. -/
def InstructionUpdate.Framed (logs : List LogLine) (ix : InstructionUpdate) : Prop :=
  (∃ line, logs[ix.logRange.start]? = some line ∧ classifyLogLine line = .invoke) ∧
    Covers logs 0 (ix.logRange.start + 1) ix.inner ix.logRange.stop

/-- Instructions in the order of their frames, between two positions. -/
inductive Layout (logs : List LogLine) : Nat → List InstructionUpdate → Nat → Prop
  | done {low high : Nat} (hle : low ≤ high) (hhigh : high ≤ logs.length) : Layout logs low [] high
  | unassigned {low high : Nat} {ix : InstructionUpdate} {ixs : List InstructionUpdate}
      (hix : ix.Unassigned logs) (hrest : Layout logs low ixs high) :
      Layout logs low (ix :: ixs) high
  | framed {low high : Nat} {ix : InstructionUpdate} {ixs : List InstructionUpdate}
      (hlow : low ≤ ix.logRange.start) (hix : ix.Framed logs)
      (hrest : Layout logs ix.logRange.stop ixs high) : Layout logs low (ix :: ixs) high

section Layout

variable {logs : List LogLine}

theorem Layout.of_unassigned {low high : Nat} {ixs : List InstructionUpdate} (hle : low ≤ high)
    (hhigh : high ≤ logs.length) (h : ∀ ix ∈ ixs, ix.Unassigned logs) :
    Layout logs low ixs high := by
  induction ixs with
  | nil => exact .done hle hhigh
  | cons ix ixs ih =>
      rw [List.forall_mem_cons] at h
      exact .unassigned h.1 (ih h.2)

theorem Layout.weaken {low low' high : Nat} {ixs : List InstructionUpdate}
    (h : Layout logs low ixs high) (hle : low' ≤ low) : Layout logs low' ixs high := by
  induction h with
  | done hle' hhigh => exact .done (hle.trans hle') hhigh
  | unassigned hix _ ih => exact .unassigned hix (ih hle)
  | framed hlow hix hrest _ => exact .framed (hle.trans hlow) hix hrest

/-- The children that the loop covers are laid out one after the other. -/
theorem Covers.layout {nested pos stop : Nat} {inner : List InstructionUpdate}
    (h : Covers logs nested pos inner stop) : Layout logs pos inner stop := by
  induction h with
  | ended hend hrest => exact .of_unassigned le_rfl hend.le hrest
  | closed hline _ hrest =>
      exact .of_unassigned (Nat.le_succ _) (List.getElem?_eq_some_iff.mp hline).1 hrest
  | close _ _ _ ih => exact ih.weaken (Nat.le_succ _)
  | other _ _ _ ih => exact ih.weaken (Nat.le_succ _)
  | child hline hinvoke hstart hbody _ _ ih =>
      subst hstart
      exact .framed le_rfl ⟨⟨_, hline, hinvoke⟩, hbody⟩ ih
  | surplus _ _ _ ih => exact ih.weaken (Nat.le_succ _)

theorem InstructionUpdate.Framed.bounds {ix : InstructionUpdate} (h : ix.Framed logs) :
    ix.logRange.start < ix.logRange.stop ∧ ix.logRange.stop ≤ logs.length :=
  h.2.bounds

/-- Every instruction of a layout is unassigned, or framed between its ends. -/
theorem Layout.each {low high : Nat} {ixs : List InstructionUpdate}
    (h : Layout logs low ixs high) : low ≤ high ∧ high ≤ logs.length ∧
      ∀ ix ∈ ixs, ix.Unassigned logs ∨
        ix.Framed logs ∧ low ≤ ix.logRange.start ∧ ix.logRange.stop ≤ high := by
  induction h with
  | done hle hhigh => exact ⟨hle, hhigh, by simp⟩
  | unassigned hix _ ih =>
      rw [List.forall_mem_cons]
      exact ⟨ih.1, ih.2.1, .inl hix, ih.2.2⟩
  | @framed low high ix ixs hlow hix _ ih =>
      have hstart := hix.bounds.1
      rw [List.forall_mem_cons]
      refine ⟨by omega, ih.2.1, .inr ⟨hix, hlow, ih.1⟩, ?_⟩
      intro next hnext
      obtain hnext | ⟨hframed, hafter, hbefore⟩ := ih.2.2 next hnext
      · exact .inl hnext
      · exact .inr ⟨hframed, by omega, hbefore⟩

/-! ## The direct view stays out of the frames of the children -/

/-- Scanned from outside, what the loop covers is skipped as a whole. -/
theorem Covers.skip {nested pos mid : Nat} {inner : List InstructionUpdate}
    (h : Covers logs nested pos inner mid) {stop : Nat} (hstop : mid ≤ stop) (outside : Nat) :
    directIndexes (nested + outside + 2) pos ((logs.take stop).drop pos) =
      directIndexes (outside + 1) mid ((logs.take stop).drop mid) := by
  have hdeep : ∀ depth : Nat, depth + 2 ≠ 1 := fun depth => by omega
  induction h generalizing outside with
  | ended hend =>
      rw [slice_nil (.inr hend.ge)]
      rfl
  | @closed pos inner line hline hclose =>
      rw [slice_cons _ hline hstop, directIndexes, hclose, Nat.zero_add]
      simp only [hdeep, if_false]
      rfl
  | @close nested pos mid inner line hline hclose hrest ih =>
      have hlt := hrest.bounds.1
      have hdepth : nested + 1 + outside + 2 = nested + outside + 1 + 2 := by omega
      rw [slice_cons _ hline (by omega), directIndexes, hclose, hdepth]
      simp only [hdeep, if_false]
      exact ih hstop outside
  | @other nested pos mid inner line hline hother hrest ih =>
      have hlt := hrest.bounds.1
      rw [slice_cons _ hline (by omega), directIndexes, hother]
      simp only [hdeep, if_false]
      exact ih hstop outside
  | @child nested pos mid child inner line hline hinvoke hstart hbody hrest ihbody ihrest =>
      have hlt := hbody.bounds.1
      have hmid := hrest.bounds.1
      have hdepth : nested + outside + 2 + 1 = 0 + (nested + outside + 1) + 2 := by omega
      rw [slice_cons _ hline (by omega), directIndexes, hinvoke, hdepth]
      simp only [hdeep, if_false]
      rw [ihbody (by omega) (nested + outside + 1)]
      exact ihrest hstop outside
  | @surplus nested pos mid line hline hinvoke hrest ih =>
      have hlt := hrest.bounds.1
      have hdepth : nested + outside + 2 + 1 = nested + 1 + outside + 2 := by omega
      rw [slice_cons _ hline (by omega), directIndexes, hinvoke, hdepth]
      simp only [hdeep, if_false]
      exact ih hstop outside

/-- A line before everything in a layout is in no frame of it. -/
theorem Layout.not_holds_of_lt {low high i : Nat} {ixs : List InstructionUpdate}
    (h : Layout logs low ixs high) (hi : i < low) : ∀ ix ∈ ixs, ¬ ix.logRange.Holds i := by
  rintro ix hix ⟨hstart, hstop⟩
  obtain hunassigned | ⟨-, hlow, -⟩ := h.each.2.2 ix hix
  · have hempty := (unassigned_iff.mp hunassigned).1.1
    omega
  · omega

/-- The direct lines of the own frame are in no frame of a child. -/
theorem Covers.direct {nested pos stop : Nat} {inner : List InstructionUpdate}
    (h : Covers logs nested pos inner stop) :
    ∀ i ∈ directIndexes (nested + 1) pos ((logs.take stop).drop pos),
      ∀ ix ∈ inner, ¬ ix.logRange.Holds i := by
  induction h with
  | ended hend =>
      rw [slice_nil (.inl le_rfl)]
      simp [directIndexes]
  | @closed pos inner line hline hclose hrest =>
      intro i _ ix hix ⟨hstart, hstop⟩
      have hempty := (unassigned_iff.mp (hrest ix hix)).1.1
      omega
  | @close nested pos stop inner line hline hclose hrest ih =>
      have hlt := hrest.bounds.1
      rw [slice_cons _ hline hlt, directIndexes, hclose]
      simp only [Nat.add_eq_right, Nat.add_eq_zero_iff, one_ne_zero, and_false, if_false]
      exact ih
  | @other nested pos stop inner line hline hother hrest ih =>
      have hlt := hrest.bounds.1
      rw [slice_cons _ hline hlt, directIndexes, hother]
      dsimp only
      split
      · rw [List.forall_mem_cons]
        exact ⟨hrest.layout.not_holds_of_lt (Nat.lt_succ_self pos), ih⟩
      · exact ih
  | @child nested pos stop child inner line hline hinvoke hstart hbody hrest ihbody ihrest =>
      have hlt := hbody.bounds.1
      have hmid := hrest.bounds.1
      have hskip := hbody.skip hmid nested
      rw [Nat.zero_add] at hskip
      rw [slice_cons _ hline (by omega), directIndexes, hinvoke]
      simp only [Nat.add_eq_right, Nat.add_eq_zero_iff, one_ne_zero, and_false, if_false]
      rw [hskip]
      intro i hi
      rw [List.forall_mem_cons]
      refine ⟨?_, ihrest i hi⟩
      rintro ⟨-, hbefore⟩
      have hafter := (directIndexes_bounds i hi).1
      omega
  | surplus => simp

end Layout

/-! ## Whole trees -/

namespace InstructionUpdate

/-- Siblings that both have lines have them one after the other. -/
def InOrder (ix next : InstructionUpdate) : Prop :=
  ix.logRange.NonEmpty → next.logRange.NonEmpty → ix.logRange.Before next.logRange

/-- The direct lines of the range of an instruction in the given log. -/
def directIn (logs : List LogLine) (ix : InstructionUpdate) : List Nat :=
  directIndexes 0 ix.logRange.start ((logs.take ix.logRange.stop).drop ix.logRange.start)

/-- The ranges of a tree: inside the log, nested, in order, and no line is direct twice. -/
structure Sound (logs : List LogLine) (ix : InstructionUpdate) : Prop where
  inLogs : ∀ d ∈ ix.preorder, d.logRange.start ≤ d.logRange.stop ∧ d.logRange.stop ≤ logs.length
  inside : ∀ d ∈ ix.preorder, d.logRange.NonEmpty → ix.logRange.Contains d.logRange
  nested : ∀ d ∈ ix.preorder, ∀ child ∈ d.inner, child.logRange.NonEmpty →
    d.logRange.Contains child.logRange
  siblings : ∀ d ∈ ix.preorder, d.inner.Pairwise InOrder
  direct : ix.preorder.Pairwise fun d e => (d.directIn logs).Disjoint (e.directIn logs)

end InstructionUpdate

section Sound

variable {logs : List LogLine}

theorem has_of_mem_directIn {ix : InstructionUpdate} {i : Nat} (h : i ∈ ix.directIn logs) :
    ix.logRange.Holds i := by
  obtain ⟨hstart, hlt⟩ := directIndexes_bounds i h
  rw [List.length_drop, List.length_take] at hlt
  exact ⟨hstart, by omega⟩

theorem LogRange.Holds.nonEmpty {range : LogRange} {i : Nat} (h : range.Holds i) : range.NonEmpty :=
  lt_of_le_of_lt h.1 h.2

theorem LogRange.Contains.has {range inner : LogRange} (h : range.Contains inner) {i : Nat}
    (hi : inner.Holds i) : range.Holds i :=
  ⟨h.1.trans hi.1, lt_of_lt_of_le hi.2 h.2⟩

theorem LogRange.Contains.nonEmpty {range inner : LogRange} (h : range.Contains inner)
    (hinner : inner.NonEmpty) : range.NonEmpty :=
  lt_of_le_of_lt h.1 (lt_of_lt_of_le hinner h.2)

theorem InstructionUpdate.Unassigned.not_nonEmpty {ix : InstructionUpdate}
    (h : ix.Unassigned logs) : ¬ ix.logRange.NonEmpty := by
  rw [LogRange.NonEmpty, (unassigned_iff.mp h).1.1]
  exact lt_irrefl _

theorem InstructionUpdate.Unassigned.of_mem {ix d : InstructionUpdate} (h : ix.Unassigned logs)
    (hd : d ∈ ix.preorder) : d.Unassigned logs := by
  induction ix using tree_induction with
  | step ix ih =>
      rw [preorder_eq] at hd
      obtain rfl | hd := List.mem_cons.mp hd
      · exact h
      · obtain ⟨child, hchild, hd⟩ := List.mem_flatMap.mp hd
        exact ih child hchild ((unassigned_iff.mp h).2 child hchild) hd

theorem InstructionUpdate.Unassigned.sound {ix : InstructionUpdate} (h : ix.Unassigned logs) :
    ix.Sound logs := by
  have hempty : ∀ d ∈ ix.preorder, ¬ d.logRange.NonEmpty := fun d hd => (h.of_mem hd).not_nonEmpty
  constructor
  · intro d hd
    obtain ⟨heq, hle⟩ := (unassigned_iff.mp (h.of_mem hd)).1
    exact ⟨heq.le, hle⟩
  · exact fun d hd hd' => absurd hd' (hempty d hd)
  · intro d hd child hchild hchild'
    exact absurd hchild' ((unassigned_iff.mp (h.of_mem hd)).2 child hchild).not_nonEmpty
  · intro d hd
    refine List.pairwise_of_forall_mem_list ?_
    intro child hchild next _ hchild'
    exact absurd hchild' ((unassigned_iff.mp (h.of_mem hd)).2 child hchild).not_nonEmpty
  · refine List.pairwise_of_forall_mem_list ?_
    intro d hd e _ i hi
    exact absurd (has_of_mem_directIn hi).nonEmpty (hempty d hd)

/-- In a layout of sound trees, siblings are in order and no line is direct twice. -/
theorem Layout.forest {low high : Nat} {ixs : List InstructionUpdate}
    (h : Layout logs low ixs high) (hsound : ∀ ix ∈ ixs, ix.Sound logs) :
    ixs.Pairwise InOrder ∧
      (ixs.flatMap preorder).Pairwise fun d e => (d.directIn logs).Disjoint (e.directIn logs) := by
  induction h with
  | done => simp
  | @unassigned low high ix ixs hix hrest ih =>
      rw [List.forall_mem_cons] at hsound
      obtain ⟨hsiblings, hdirect⟩ := ih hsound.2
      rw [List.pairwise_cons, List.flatMap_cons, List.pairwise_append]
      refine ⟨⟨?_, hsiblings⟩, hsound.1.direct, hdirect, ?_⟩
      · exact fun next _ hix' => absurd hix' hix.not_nonEmpty
      · intro d hd e _ i hi
        exact absurd (has_of_mem_directIn hi).nonEmpty (hix.of_mem hd).not_nonEmpty
  | @framed low high ix ixs hlow hix hrest ih =>
      rw [List.forall_mem_cons] at hsound
      obtain ⟨hsiblings, hdirect⟩ := ih hsound.2
      have hlater : ∀ next ∈ ixs, next.logRange.NonEmpty → ix.logRange.Before next.logRange := by
        intro next hnext hsome
        obtain hunassigned | ⟨-, hafter, -⟩ := hrest.each.2.2 next hnext
        · exact absurd hsome hunassigned.not_nonEmpty
        · exact hafter
      rw [List.pairwise_cons, List.flatMap_cons, List.pairwise_append]
      refine ⟨⟨fun next hnext _ hsome => hlater next hnext hsome, hsiblings⟩, hsound.1.direct,
        hdirect, ?_⟩
      intro d hd e he i hi hi'
      obtain ⟨next, hnext, he⟩ := List.mem_flatMap.mp he
      have hhas := has_of_mem_directIn hi
      have hhas' := has_of_mem_directIn hi'
      have hinside := (hsound.1.inside d hd hhas.nonEmpty).has hhas
      have hcontains := (hsound.2 next hnext).inside e he hhas'.nonEmpty
      have hbefore := hlater next hnext (hcontains.nonEmpty hhas'.nonEmpty)
      exact absurd (lt_of_lt_of_le hinside.2 (hbefore.trans (hcontains.has hhas').1)) (lt_irrefl i)

/-- The direct lines of a framed instruction are in no frame of a child. -/
theorem InstructionUpdate.Framed.directIn_not_has {ix : InstructionUpdate} (h : ix.Framed logs) :
    ∀ i ∈ ix.directIn logs, ∀ child ∈ ix.inner, ¬ child.logRange.Holds i := by
  obtain ⟨⟨line, hline, hinvoke⟩, hcovers⟩ := h
  have hdirect : ix.directIn logs = ix.logRange.start ::
      directIndexes 1 (ix.logRange.start + 1)
        ((logs.take ix.logRange.stop).drop (ix.logRange.start + 1)) := by
    rw [directIn, slice_cons _ hline hcovers.bounds.1, directIndexes, hinvoke]
    rfl
  rw [hdirect, List.forall_mem_cons]
  exact ⟨hcovers.layout.not_holds_of_lt (Nat.lt_succ_self _), hcovers.direct⟩

theorem InstructionUpdate.Framed.sound {ix : InstructionUpdate} (h : ix.Framed logs) :
    ix.Sound logs := by
  induction ix using tree_induction with
  | step ix ih =>
      have hlayout := h.2.layout
      have heach := hlayout.each.2.2
      have hsound : ∀ child ∈ ix.inner, child.Sound logs := by
        intro child hchild
        obtain hunassigned | ⟨hframed, -, -⟩ := heach child hchild
        · exact hunassigned.sound
        · exact ih child hchild hframed
      have hchildren : ∀ child ∈ ix.inner, child.logRange.NonEmpty →
          ix.logRange.Contains child.logRange := by
        intro child hchild hsome
        obtain hunassigned | ⟨-, hafter, hbefore⟩ := heach child hchild
        · exact absurd hsome hunassigned.not_nonEmpty
        · exact ⟨(Nat.le_succ _).trans hafter, hbefore⟩
      have hinside : ∀ d ∈ ix.inner.flatMap preorder, d.logRange.NonEmpty →
          ∃ child ∈ ix.inner, child.logRange.Contains d.logRange ∧
            ix.logRange.Contains child.logRange := by
        intro d hd hsome
        obtain ⟨child, hchild, hd⟩ := List.mem_flatMap.mp hd
        have hcontains := (hsound child hchild).inside d hd hsome
        exact ⟨child, hchild, hcontains, hchildren child hchild (hcontains.nonEmpty hsome)⟩
      obtain ⟨hsiblings, hforest⟩ := hlayout.forest hsound
      have hbounds := h.bounds
      constructor <;> rw [preorder_eq]
      · rw [List.forall_mem_cons]
        refine ⟨⟨hbounds.1.le, hbounds.2⟩, ?_⟩
        intro d hd
        obtain ⟨child, hchild, hd⟩ := List.mem_flatMap.mp hd
        exact (hsound child hchild).inLogs d hd
      · rw [List.forall_mem_cons]
        refine ⟨fun _ => ⟨le_rfl, le_rfl⟩, ?_⟩
        intro d hd hsome
        obtain ⟨child, -, hcontains, hchild⟩ := hinside d hd hsome
        exact ⟨hchild.1.trans hcontains.1, hcontains.2.trans hchild.2⟩
      · rw [List.forall_mem_cons]
        refine ⟨hchildren, ?_⟩
        intro d hd
        obtain ⟨child, hchild, hd⟩ := List.mem_flatMap.mp hd
        exact (hsound child hchild).nested d hd
      · rw [List.forall_mem_cons]
        refine ⟨hsiblings, ?_⟩
        intro d hd
        obtain ⟨child, hchild, hd⟩ := List.mem_flatMap.mp hd
        exact (hsound child hchild).siblings d hd
      · rw [List.pairwise_cons]
        refine ⟨?_, hforest⟩
        intro d hd i hi hi'
        have hhas := has_of_mem_directIn hi'
        obtain ⟨child, hchild, hcontains, -⟩ := hinside d hd hhas.nonEmpty
        exact h.directIn_not_has i hi child hchild (hcontains.has hhas)

theorem Layout.sound {low high : Nat} {ixs : List InstructionUpdate}
    (h : Layout logs low ixs high) : ∀ ix ∈ ixs, ix.Sound logs := by
  intro ix hix
  obtain hunassigned | ⟨hframed, -, -⟩ := h.each.2.2 ix hix
  · exact hunassigned.sound
  · exact hframed.sound

end Sound

/-! ## The outer instructions -/

section Outer

variable {bs58 : Bs58} {logs : List LogLine}

theorem findOuterInvoke_eq_some {cursor pos : Nat} (h : findOuterInvoke logs cursor = some pos) :
    cursor ≤ pos ∧ ∃ line, logs[pos]? = some line ∧ isOuterInvoke line = true := by
  obtain ⟨i, hi, rfl⟩ := Option.map_eq_some_iff.mp h
  obtain ⟨hlt, houter, -⟩ := List.findIdx?_eq_some_iff_getElem.mp hi
  refine ⟨Nat.le_add_right _ _, _, ?_, houter⟩
  rw [← List.getElem?_drop, List.getElem?_eq_getElem hlt]

theorem classify_of_isOuterInvoke {line : LogLine} (h : isOuterInvoke line = true) :
    classifyLogLine line = .invoke := by
  simp only [isOuterInvoke, decide_eq_true_eq] at h
  exact h.1

/-- An outer instruction at its invoke line gets its frame. -/
theorem assignLogsRecursive_framed {pos : Nat} {line : LogLine} (hline : logs[pos]? = some line)
    (hinvoke : classifyLogLine line = .invoke) {ix : InstructionUpdate} (hix : ix.Unassigned logs) :
    (assignLogsRecursive logs pos ix).2.Framed logs ∧
      (assignLogsRecursive logs pos ix).2.logRange =
        ⟨pos, (assignLogsRecursive logs pos ix).1⟩ := by
  have hpos : pos + 1 ≤ logs.length := (List.getElem?_eq_some_iff.mp hline).1
  obtain ⟨framed, stop, hassign, hcovers, -⟩ :=
    assignLogsFrom_covers hpos pos 0 ix [] ix.inner rfl (unassigned_iff.mp hix).2
  have hresult : assignLogsRecursive logs pos ix = (stop, ix.inFrame framed pos stop) := hassign
  rw [hresult]
  exact ⟨⟨⟨line, hline, hinvoke⟩, hcovers⟩, rfl⟩

theorem assignOuterLoop_layout {cursor : Nat} (hcursor : cursor ≤ logs.length)
    {outer : List InstructionUpdate} (h : ∀ ix ∈ outer, ix.Unassigned logs) :
    Layout logs cursor (assignOuterLoop bs58 logs cursor outer) logs.length := by
  induction outer generalizing cursor with
  | nil => exact .done hcursor le_rfl
  | cons ix rest ih =>
      rw [List.forall_mem_cons] at h
      rw [assignOuterLoop]
      cases hfind : findOuterInvoke logs cursor with
      | none => exact .unassigned h.1 (.of_unassigned hcursor le_rfl h.2)
      | some pos =>
          obtain ⟨hle, line, hline, houter⟩ := findOuterInvoke_eq_some hfind
          dsimp only
          split
          · exact .unassigned h.1 (ih hcursor h.2)
          · obtain ⟨hframed, hrange⟩ :=
              assignLogsRecursive_framed hline (classify_of_isOuterInvoke houter) h.1
            have hbounds := hframed.bounds
            rw [hrange] at hbounds
            refine .framed (by rwa [hrange]) hframed ?_
            rw [hrange]
            exact ih hbounds.2 h.2

theorem assignLogMessages_layout (bs58 : Bs58) {outer : List InstructionUpdate}
    (h : ∀ ix ∈ outer, ix.Unassigned logs) :
    Layout logs 0 (assignLogMessages bs58 logs outer) logs.length := by
  rw [assignLogMessages]
  split
  · exact .of_unassigned (Nat.zero_le _) le_rfl h
  · exact assignOuterLoop_layout (Nat.zero_le _) h

end Outer

/-- Whatever the log lines are: every range lies inside the log, a child's range inside its
parent's, siblings' ranges are disjoint and in order, and no line index is yielded by the direct
views of two instructions. -/
theorem logRanges_safe (bs58 : Bs58) (logs : List LogLine) (outer : List InstructionUpdate)
    (hempty : ∀ ix ∈ outer, ix.Unassigned logs)
    (hshared : ∀ ix ∈ outer, ∀ d ∈ ix.visitAll, d.shared.logMessages = logs) :
    (∀ ix ∈ assignLogMessages bs58 logs outer, ∀ d ∈ ix.visitAll,
      (d.logRange.start ≤ d.logRange.stop ∧ d.logRange.stop ≤ logs.length) ∧
      (∀ child ∈ d.inner, child.logRange.NonEmpty → d.logRange.Contains child.logRange) ∧
      d.inner.Pairwise InOrder ∧
      d.directLogMessages = d.directLogIndexes.filterMap (logs[·]?)) ∧
    (assignLogMessages bs58 logs outer).Pairwise InOrder ∧
    ((assignLogMessages bs58 logs outer).flatMap visitAll).Pairwise fun d e =>
      d.directLogIndexes.Disjoint e.directLogIndexes := by
  have hlayout := assignLogMessages_layout bs58 hempty
  have hsound := hlayout.sound
  obtain ⟨hsiblings, hdirect⟩ := hlayout.forest hsound
  have hkept := assignLogMessages_shared bs58 logs (P := fun shared => shared.logMessages = logs)
    (by simpa only [visitAll_eq] using hshared)
  have hindexes : ∀ ix ∈ assignLogMessages bs58 logs outer, ∀ d ∈ ix.preorder,
      d.directLogIndexes = d.directIn logs := by
    intro ix hix d hd
    rw [directLogIndexes, InstructionUpdate.logMessages, hkept ix hix d hd]
    rfl
  rw [List.flatMap_congr fun ix _ => visitAll_eq ix]
  simp only [visitAll_eq]
  refine ⟨?_, hsiblings, ?_⟩
  · intro ix hix d hd
    have hlines := directLogMessages_eq d
    rw [hkept ix hix d hd] at hlines
    exact ⟨(hsound ix hix).inLogs d hd, (hsound ix hix).nested d hd,
      (hsound ix hix).siblings d hd, hlines⟩
  · refine hdirect.imp_of_mem ?_
    intro d e hd he hdisjoint
    obtain ⟨ix, hix, hd⟩ := List.mem_flatMap.mp hd
    obtain ⟨ix', hix', he⟩ := List.mem_flatMap.mp he
    rwa [hindexes ix hix d hd, hindexes ix' hix' e he]

theorem logRanges_safe_of_callLogs :
    (∀ ix ∈ assignLogMessages .bitcoin callLogs [callIx 3 [callIx 2 []], callIx 1 [callIx 2 []]],
      ∀ d ∈ ix.visitAll, d.logRange.start ≤ d.logRange.stop ∧ d.logRange.stop ≤ 6) ∧
      ((assignLogMessages .bitcoin callLogs
        [callIx 3 [callIx 2 []], callIx 1 [callIx 2 []]]).flatMap visitAll).Pairwise
          fun d e => d.directLogIndexes.Disjoint e.directLogIndexes := by
  obtain ⟨heach, -, hdirect⟩ :=
    logRanges_safe .bitcoin callLogs [callIx 3 [callIx 2 []], callIx 1 [callIx 2 []]]
      (by simp [Unassigned, visitAll_eq, preorder, preorder.below, callIx])
      (by simp [visitAll_eq, preorder, preorder.below, callIx])
  exact ⟨fun ix hix d hd => (heach ix hix d hd).1, hdirect⟩

end Shipstern.Core
