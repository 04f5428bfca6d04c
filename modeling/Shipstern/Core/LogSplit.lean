import Shipstern.Core.LogRanges

/-!
# The two log splitters agree

`splitLogsByOuterIx` counts frames over the lines and never looks at an instruction. The
assignment recurses into the tree, and where the tree has no further inner instruction it counts
as well. Both leave a frame at the same line, because frames that are closed one inside the
other are closed together: `frameLength_add`.
-/

namespace Shipstern.Core

open InstructionUpdate

/-- The variables of the loop of `split_logs_by_outer_ix`. -/
structure SplitState where
  result : List (List LogLine)
  current : List LogLine
  depth : Nat

namespace SplitState

/-- One line of the loop. -/
def step (state : SplitState) (line : LogLine) : SplitState :=
  if state.depth = 0 ∧ isOuterInvoke line then
    { result := if state.current.isEmpty then state.result else state.result ++ [state.current]
      current := [line]
      depth := 1 }
  else if 0 < state.depth then
    { state with
      current := state.current ++ [line]
      depth :=
        match classifyLogLine line with
        | .invoke => state.depth + 1
        | .close => state.depth - 1
        | .other => state.depth }
  else state

/-- What is returned after the loop. -/
def finish (state : SplitState) : List (List LogLine) :=
  if state.current.isEmpty then state.result else state.result ++ [state.current]

end SplitState

/-- Split transaction logs by outer instruction: one entry for each outer invoke line. -/
def splitLogsByOuterIx (logs : List LogLine) : List (List LogLine) :=
  (logs.foldl SplitState.step ⟨[], [], 0⟩).finish

/-! ## The end of a frame -/

/-- The number of lines until a frame is closed in which `nested` others are open, or of all
lines. -/
def frameLength : Nat → List LogLine → Nat
  | _, [] => 0
  | nested, line :: rest =>
      match classifyLogLine line with
      | .invoke => frameLength (nested + 1) rest + 1
      | .close => if nested = 0 then 1 else frameLength (nested - 1) rest + 1
      | .other => frameLength nested rest + 1

section FrameLength

variable {line : LogLine} {rest : List LogLine}

theorem frameLength_invoke (h : classifyLogLine line = .invoke) (nested : Nat) :
    frameLength nested (line :: rest) = frameLength (nested + 1) rest + 1 := by
  rw [frameLength, h]

theorem frameLength_closed (h : classifyLogLine line = .close) :
    frameLength 0 (line :: rest) = 1 := by
  rw [frameLength, h]
  rfl

theorem frameLength_close (h : classifyLogLine line = .close) (nested : Nat) :
    frameLength (nested + 1) (line :: rest) = frameLength nested rest + 1 := by
  rw [frameLength, h]
  rfl

theorem frameLength_other (h : classifyLogLine line = .other) (nested : Nat) :
    frameLength nested (line :: rest) = frameLength nested rest + 1 := by
  rw [frameLength, h]

end FrameLength

/-- Inner frames are closed first, and the outer ones after them. -/
theorem frameLength_add (nested inside : Nat) (lines : List LogLine) :
    frameLength (nested + inside + 1) lines =
      frameLength inside lines + frameLength nested (lines.drop (frameLength inside lines)) := by
  induction lines generalizing inside with
  | nil => rfl
  | cons line rest ih =>
      cases hkind : classifyLogLine line with
      | invoke =>
          have hrest : frameLength (nested + inside + 1 + 1) rest = _ := ih (inside + 1)
          rw [frameLength_invoke hkind, frameLength_invoke hkind, List.drop_succ_cons, hrest]
          omega
      | close =>
          cases inside with
          | zero =>
              rw [frameLength_closed hkind, frameLength_close hkind, List.drop_succ_cons,
                List.drop_zero, Nat.add_comm]
          | succ inside =>
              have hrest : frameLength (nested + (inside + 1)) rest = _ := ih inside
              rw [frameLength_close hkind, frameLength_close hkind, List.drop_succ_cons, hrest]
              omega
      | other =>
          rw [frameLength_other hkind, frameLength_other hkind, List.drop_succ_cons, ih inside]
          omega

section Assign

variable {logs : List LogLine}

/-- Wherever the tree takes the recursion, the loop ends with the frames that are open. -/
theorem assignLogsFrom_stop (invokePos nested pos innerIdx : Nat) (ix : InstructionUpdate) :
    (assignLogsFrom logs invokePos (nested + 1) pos innerIdx ix).1 =
        pos + frameLength nested (logs.drop pos) ∧
      (assignLogsFrom logs invokePos (nested + 1) pos innerIdx ix).2.logRange =
        ⟨invokePos, pos + frameLength nested (logs.drop pos)⟩ := by
  obtain ⟨n, hn⟩ : ∃ n, logs.length - pos = n := ⟨_, rfl⟩
  induction n using Nat.strong_induction_on generalizing invokePos nested pos innerIdx ix with
  | _ n ih =>
      cases hline : logs[pos]? with
      | none =>
          rw [List.drop_eq_nil_of_le (List.getElem?_eq_none_iff.mp hline), assignLogsFrom]
          cases hfuel : logs.length with
          | zero => exact ⟨rfl, rfl⟩
          | succ fuel => simp [assignLogsLoop, hline, frameLength]
      | some line =>
          have hlt : pos < logs.length := (List.getElem?_eq_some_iff.mp hline).1
          have hdrop : logs.drop pos = line :: logs.drop (pos + 1) := by
            have hdrop := List.drop_eq_getElem?_toList_append (l := logs) (i := pos)
            rwa [hline] at hdrop
          have hone : ∀ len : Nat, pos + (len + 1) = pos + 1 + len := fun len => by omega
          have hnext := fun invokePos nested innerIdx ix =>
            ih (n - 1) (by omega) invokePos nested (pos + 1) innerIdx ix (by omega)
          rw [assignLogsFrom_eq hline, hdrop]
          cases hkind : classifyLogLine line with
          | other =>
              rw [frameLength_other hkind, hone (frameLength _ _)]
              exact hnext ..
          | close =>
              cases nested with
              | zero =>
                  rw [frameLength_closed hkind]
                  exact ⟨rfl, rfl⟩
              | succ nested =>
                  rw [frameLength_close hkind, hone (frameLength _ _)]
                  exact hnext ..
          | invoke =>
              rw [frameLength_invoke hkind, hone (frameLength _ _)]
              dsimp only
              split
              · next child hchild =>
                  -- the child closes its own frame, and the loop goes on behind it
                  have hadd := frameLength_add nested 0 (logs.drop (pos + 1))
                  rw [List.drop_drop, Nat.add_zero] at hadd
                  rw [(hnext pos 0 0 child).1, hadd, ← Nat.add_assoc (pos + 1)]
                  exact ih (logs.length - (pos + 1 + frameLength 0 (logs.drop (pos + 1))))
                    (by omega) invokePos nested _ _ _ rfl
              · exact hnext ..

theorem assignLogsRecursive_stop (pos : Nat) (ix : InstructionUpdate) :
    (assignLogsRecursive logs pos ix).1 = pos + 1 + frameLength 0 (logs.drop (pos + 1)) ∧
      (assignLogsRecursive logs pos ix).2.logRange =
        ⟨pos, pos + 1 + frameLength 0 (logs.drop (pos + 1))⟩ :=
  assignLogsFrom_stop pos 0 (pos + 1) 0 ix

end Assign

/-! ## The split, frame by frame -/

section Split

/-- Inside a frame the loop collects lines until the frame is closed. -/
theorem split_frame (result : List (List LogLine)) (current : List LogLine) (nested : Nat)
    (lines : List LogLine) :
    (lines.foldl SplitState.step ⟨result, current, nested + 1⟩).finish =
      ((lines.drop (frameLength nested lines)).foldl SplitState.step
        ⟨result, current ++ lines.take (frameLength nested lines), 0⟩).finish := by
  induction lines generalizing current nested with
  | nil => simp [SplitState.finish, frameLength]
  | cons line rest ih =>
      have hdepth : ¬ (nested + 1 = 0 ∧ isOuterInvoke line = true) := by omega
      rw [List.foldl_cons, SplitState.step, if_neg hdepth, if_pos (Nat.succ_pos nested)]
      cases hkind : classifyLogLine line with
      | invoke =>
          rw [frameLength_invoke hkind, List.drop_succ_cons, List.take_succ_cons]
          dsimp only
          rw [ih, List.append_assoc, List.singleton_append]
      | close =>
          cases nested with
          | zero =>
              rw [frameLength_closed hkind, List.drop_succ_cons, List.drop_zero,
                List.take_succ_cons, List.take_zero]
              rfl
          | succ nested =>
              rw [frameLength_close hkind, List.drop_succ_cons, List.take_succ_cons]
              dsimp only
              rw [Nat.add_sub_cancel, ih, List.append_assoc, List.singleton_append]
      | other =>
          rw [frameLength_other hkind, List.drop_succ_cons, List.take_succ_cons]
          dsimp only
          rw [ih, List.append_assoc, List.singleton_append]

/-- Between frames, the lines before the next outer invoke line are dropped. -/
theorem split_between (result : List (List LogLine)) (current : List LogLine)
    (lines : List LogLine) :
    (lines.foldl SplitState.step ⟨result, current, 0⟩).finish =
      match lines.findIdx? isOuterInvoke with
      | none => SplitState.finish ⟨result, current, 0⟩
      | some i => ((lines.drop (i + 1)).foldl SplitState.step
          ⟨SplitState.finish ⟨result, current, 0⟩, lines[i]?.toList, 1⟩).finish := by
  induction lines with
  | nil => rfl
  | cons line rest ih =>
      rw [List.foldl_cons, SplitState.step, List.findIdx?_cons]
      cases hinvoke : isOuterInvoke line with
      | true => simp [SplitState.finish]
      | false =>
          simp only [Bool.false_eq_true, and_false, if_false, lt_irrefl]
          rw [ih]
          cases rest.findIdx? isOuterInvoke with
          | none => rfl
          | some i => rfl

/-- Entries that are complete stay in front. -/
theorem split_result (result : List (List LogLine)) (current : List LogLine) (depth : Nat)
    (lines : List LogLine) :
    (lines.foldl SplitState.step ⟨result, current, depth⟩).finish =
      result ++ (lines.foldl SplitState.step ⟨[], current, depth⟩).finish := by
  induction lines generalizing result current depth with
  | nil =>
      rw [List.foldl_nil, List.foldl_nil, SplitState.finish, SplitState.finish]
      split <;> simp
  | cons line rest ih =>
      rw [List.foldl_cons, List.foldl_cons, SplitState.step, SplitState.step]
      dsimp only
      split
      · split
        · exact ih ..
        · rw [ih, List.append_assoc, ← ih [current], List.nil_append]
      · split
        · exact ih ..
        · exact ih ..

/-- An entry is complete when its frame is closed. -/
theorem split_current {current : List LogLine} (h : current ≠ []) (lines : List LogLine) :
    (lines.foldl SplitState.step ⟨[], current, 0⟩).finish =
      current :: splitLogsByOuterIx lines := by
  have hcurrent : SplitState.finish ⟨[], current, 0⟩ = [current] := by
    simp [SplitState.finish, h]
  rw [splitLogsByOuterIx, split_between, split_between, hcurrent]
  cases lines.findIdx? isOuterInvoke with
  | none => rfl
  | some i =>
      dsimp only
      rw [split_result]
      rfl

/-- From a cursor between frames: the next outer invoke line opens the next entry. -/
theorem splitLogsByOuterIx_drop (logs : List LogLine) (cursor : Nat) :
    splitLogsByOuterIx (logs.drop cursor) =
      match findOuterInvoke logs cursor with
      | none => []
      | some pos =>
          (logs.take (pos + 1 + frameLength 0 (logs.drop (pos + 1)))).drop pos ::
            splitLogsByOuterIx (logs.drop (pos + 1 + frameLength 0 (logs.drop (pos + 1)))) := by
  rw [splitLogsByOuterIx, split_between, findOuterInvoke]
  cases hfind : (logs.drop cursor).findIdx? isOuterInvoke with
  | none => rfl
  | some i =>
      obtain ⟨hlt, -, -⟩ := List.findIdx?_eq_some_iff_getElem.mp hfind
      rw [List.length_drop] at hlt
      have hget : logs[cursor + i]? = some logs[cursor + i] :=
        List.getElem?_eq_getElem (by omega)
      have hslice := slice_cons (cursor + i + 1 + frameLength 0 (logs.drop (cursor + i + 1))) hget
        (by omega)
      have hfinish : SplitState.finish ⟨[], [], 0⟩ = [] := rfl
      dsimp only [Option.map_some]
      rw [hslice, List.drop_take, Nat.add_sub_cancel_left, List.getElem?_drop, hget,
        List.drop_drop, ← Nat.add_assoc, split_frame, List.drop_drop, hfinish]
      exact split_current (List.cons_ne_nil _ _) _

end Split

/-! ## The outer instructions -/

section Outer

variable {bs58 : Bs58} {logs : List LogLine}

/-- An instruction that has log lines. -/
def hasLogs (ix : InstructionUpdate) : Bool := !ix.logMessages.isEmpty

theorem assignLogsRecursive_shared (pos : Nat) (ix : InstructionUpdate) :
    (assignLogsRecursive logs pos ix).2.shared = ix.shared ∧
      (assignLogsRecursive logs pos ix).2.program = ix.program := by
  have hstrip := @assignLogsLoop_stripLogs logs logs.length pos 1 (pos + 1) 0 ix
  rw [stripLogs_eq, stripLogs_eq] at hstrip
  have hshared := congrArg InstructionUpdate.shared hstrip
  have hprogram := congrArg InstructionUpdate.program hstrip
  exact ⟨hshared, hprogram⟩

/-- The slices that the loop assigns are the next entries of the split. -/
theorem assignOuterLoop_split (cursor : Nat) {outer : List InstructionUpdate}
    (hshared : ∀ ix ∈ outer, ix.shared.logMessages = logs)
    (hempty : ∀ ix ∈ outer, ix.logMessages = []) :
    (((assignOuterLoop bs58 logs cursor outer).filter hasLogs).map logMessages) <+:
        splitLogsByOuterIx (logs.drop cursor) ∧
      ∀ ix ∈ assignOuterLoop bs58 logs cursor outer, ∀ line ∈ ix.logMessages.head?,
        invokedProgram bs58 line = some ix.program := by
  have hnone : ∀ ixs : List InstructionUpdate, (∀ ix ∈ ixs, ix.logMessages = []) →
      ixs.filter hasLogs = [] := by
    intro ixs h
    rw [List.filter_eq_nil_iff]
    intro ix hix
    simp [hasLogs, h ix hix]
  induction outer generalizing cursor with
  | nil => exact ⟨List.nil_prefix, by simp [assignOuterLoop]⟩
  | cons ix rest ih =>
      have hempty' := hempty
      rw [List.forall_mem_cons] at hshared hempty
      rw [assignOuterLoop, splitLogsByOuterIx_drop]
      cases hfind : findOuterInvoke logs cursor with
      | none =>
          dsimp only
          rw [hnone _ hempty']
          refine ⟨List.nil_prefix, ?_⟩
          intro other hother line hline
          simp [hempty' other hother] at hline
      | some pos =>
          obtain ⟨hle, first, hfirst, houter⟩ := findOuterInvoke_eq_some hfind
          dsimp only
          split
          · next hother =>
              obtain ⟨hentries, hprograms⟩ := ih cursor hshared.2 hempty.2
              have hskip : hasLogs ix = false := by simp [hasLogs, hempty.1]
              rw [splitLogsByOuterIx_drop, hfind] at hentries
              rw [List.filter_cons_of_neg (by simp [hskip]), List.forall_mem_cons, hempty.1]
              exact ⟨hentries, by simp, hprograms⟩
          · next hprogram =>
              obtain ⟨hstop, hrange⟩ := @assignLogsRecursive_stop logs pos ix
              obtain ⟨hsame, hsameProgram⟩ := @assignLogsRecursive_shared logs pos ix
              obtain ⟨hentries, hprograms⟩ := ih (assignLogsRecursive logs pos ix).1 hshared.2
                hempty.2
              have hlines : (assignLogsRecursive logs pos ix).2.logMessages =
                  (logs.take (pos + 1 + frameLength 0 (logs.drop (pos + 1)))).drop pos := by
                rw [InstructionUpdate.logMessages, hsame, hshared.1, hrange]
              have hslice := slice_cons (pos + 1 + frameLength 0 (logs.drop (pos + 1))) hfirst
                (by omega)
              have hhas : hasLogs (assignLogsRecursive logs pos ix).2 = true := by
                simp [hasLogs, hlines, hslice]
              rw [hstop] at hentries
              rw [List.filter_cons_of_pos hhas, List.map_cons, hlines, List.forall_mem_cons,
                hlines]
              refine ⟨(List.prefix_cons_inj _).mpr ?_, ?_, hprograms⟩
              · rw [hstop]
                exact hentries
              · rw [hslice, hsameProgram]
                intro line hline
                cases hline
                simpa [hfirst] using hprogram

/-- The assigned ranges do not depend on the inner instructions. -/
theorem assignOuterLoop_ranges (cursor : Nat) {outer outer' : List InstructionUpdate}
    (h : outer.map (fun ix => (ix.program, ix.logRange)) =
      outer'.map fun ix => (ix.program, ix.logRange)) :
    (assignOuterLoop bs58 logs cursor outer).map (·.logRange) =
      (assignOuterLoop bs58 logs cursor outer').map (·.logRange) := by
  induction outer generalizing cursor outer' with
  | nil =>
      obtain rfl : outer' = [] := by simpa using h.symm
      rfl
  | cons ix rest ih =>
      cases outer' with
      | nil => simp at h
      | cons ix' rest' =>
          obtain ⟨hix, hrest⟩ := List.cons.inj h
          obtain ⟨hprogram, hrange⟩ := Prod.mk.inj hix
          rw [assignOuterLoop, assignOuterLoop, hprogram]
          cases findOuterInvoke logs cursor with
          | none =>
              have hranges := congrArg (List.map Prod.snd) h
              rw [List.map_map, List.map_map] at hranges
              exact hranges
          | some pos =>
              dsimp only
              split
              · rw [List.map_cons, List.map_cons, ih cursor hrest, hrange]
              · rw [List.map_cons, List.map_cons, (assignLogsRecursive_stop pos ix).2,
                  (assignLogsRecursive_stop pos ix').2, (assignLogsRecursive_stop pos ix).1,
                  (assignLogsRecursive_stop pos ix').1, ih _ hrest]

end Outer

/-- The non-empty slices of the outer instructions are, in order, the first entries of the split
of the log; each goes to an instruction of the program that its first line names, and the inner
instructions have no influence on the ranges. -/
theorem logSplitters_agree (bs58 : Bs58) (logs : List LogLine) (outer : List InstructionUpdate)
    (hshared : ∀ ix ∈ outer, ix.shared.logMessages = logs)
    (hempty : ∀ ix ∈ outer, ix.logMessages = []) :
    (((assignLogMessages bs58 logs outer).filter hasLogs).map logMessages) <+:
        splitLogsByOuterIx logs ∧
      (∀ ix ∈ assignLogMessages bs58 logs outer, ∀ line ∈ ix.logMessages.head?,
        invokedProgram bs58 line = some ix.program) ∧
      ∀ outer' : List InstructionUpdate,
        outer'.map (fun ix => (ix.program, ix.logRange)) =
            outer.map (fun ix => (ix.program, ix.logRange)) →
          (assignLogMessages bs58 logs outer').map (·.logRange) =
            (assignLogMessages bs58 logs outer).map (·.logRange) := by
  have hkept : logs.isEmpty ∨ outer.isEmpty → assignLogMessages bs58 logs outer = outer :=
    fun h => if_pos h
  have hloop : ¬ (logs.isEmpty ∨ outer.isEmpty) →
      assignLogMessages bs58 logs outer = assignOuterLoop bs58 logs 0 outer := fun h => if_neg h
  refine ⟨?_, ?_, ?_⟩
  · by_cases h : logs.isEmpty ∨ outer.isEmpty
    · rw [hkept h, List.filter_eq_nil_iff.mpr fun ix hix => by simp [hasLogs, hempty ix hix]]
      exact List.nil_prefix
    · rw [hloop h]
      exact (assignOuterLoop_split 0 hshared hempty).1
  · by_cases h : logs.isEmpty ∨ outer.isEmpty
    · rw [hkept h]
      intro ix hix line hline
      simp [hempty ix hix] at hline
    · rw [hloop h]
      exact (assignOuterLoop_split 0 hshared hempty).2
  · intro outer' hsame
    have hlength : outer'.isEmpty = outer.isEmpty := by
      have hlengths := congrArg List.isEmpty hsame
      rwa [List.isEmpty_map, List.isEmpty_map] at hlengths
    rw [assignLogMessages, assignLogMessages, hlength]
    split
    · have hranges := congrArg (List.map Prod.snd) hsame
      rw [List.map_map, List.map_map] at hranges
      exact hranges
    · exact assignOuterLoop_ranges 0 hsame

/-- A log whose second frame is never closed, and a precompile without lines between the two
instructions that write it; their inner instructions are not those of the log. -/
def cutLogs : List LogLine :=
  [invokeLine .bitcoin (Vector.replicate 32 1) 1,
    closeLine .bitcoin (Vector.replicate 32 1) none,
    invokeLine .bitcoin (Vector.replicate 32 2) 1,
    "Log truncated".toList]

/-- An instruction of the transaction with these logs. -/
def cutIx (program : UInt8) (inner : List InstructionUpdate) : InstructionUpdate :=
  { callIx program inner with
    shared := { (callIx program inner).shared with logMessages := cutLogs } }

theorem logSplitters_agree_of_cutLogs :
    ((assignLogMessages .bitcoin cutLogs [cutIx 1 [cutIx 2 []], cutIx 3 [], cutIx 2 []]).filter
        hasLogs).map logMessages = [cutLogs.take 2, cutLogs.drop 2] ∧
      [cutLogs.take 2, cutLogs.drop 2] <+: splitLogsByOuterIx cutLogs ∧
      (assignLogMessages .bitcoin cutLogs [cutIx 1 [], cutIx 3 [], cutIx 2 []]).map (·.logRange) =
        [⟨0, 2⟩, ⟨0, 0⟩, ⟨2, 4⟩] := by
  obtain ⟨hentries, -, hranges⟩ := logSplitters_agree .bitcoin cutLogs
    [cutIx 1 [cutIx 2 []], cutIx 3 [], cutIx 2 []] (by simp [cutIx])
    (by simp [cutIx, callIx, InstructionUpdate.logMessages])
  have hslices : ((assignLogMessages .bitcoin cutLogs
      [cutIx 1 [cutIx 2 []], cutIx 3 [], cutIx 2 []]).filter hasLogs).map logMessages =
        [cutLogs.take 2, cutLogs.drop 2] := by decide
  refine ⟨hslices, hslices ▸ hentries, ?_⟩
  rw [hranges [cutIx 1 [], cutIx 3 [], cutIx 2 []] rfl]
  decide

end Shipstern.Core
