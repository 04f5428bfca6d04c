import Shipstern.BlockCoordinator.Run

/-!
# The head of the line

The instruction drain starts at the lowest buffered slot and stops at the first entry
that is neither drained nor ready. An entry that is created at or behind the frontier is
not drained, so it stops every later drain until it gets ready itself.
`createsStaleEntry` names the events that do this. A run without them keeps the drained
entries and the entries behind the frontier the same, and then whatever is next in line
is emitted by the next drain.
-/

open Std OrderedMap Machine

namespace Shipstern.BlockCoordinator

variable {R : Type}

namespace CoordinatorState

/-- An event gets past its guard and creates an entry at or behind the instruction
frontier. -/
def createsStaleEntry (st : CoordinatorState R) (e : CoordinatorEvent R) : Prop :=
  e.entersBuffer = true ∧ st.accepts e = true ∧ st.buffer[e.slot]?.isNone = true ∧
    behind st.lastInstructionFlushedSlot e.slot = true

instance (st : CoordinatorState R) (e : CoordinatorEvent R) :
    Decidable (st.createsStaleEntry e) :=
  inferInstanceAs (Decidable (_ ∧ _))

/-- The slot is above the frontier, passed its gate and its parent check, and nothing
between the frontier and the slot is pending. -/
structure NextInLine (st : CoordinatorState R) (s : Slot) (buf : SlotRecordBuffer R) : Prop where
  present : st.buffer[s]? = some buf
  above : behind st.lastInstructionFlushedSlot s = false
  gate : buf.instructionGateReached = true
  parent : ∃ p, buf.parentSlot = some p ∧
    (st.lastInstructionFlushedSlot = none ∨ st.parentOk p = true)
  between : ∀ (t : Slot) (b : SlotRecordBuffer R), st.buffer[t]? = some b →
    behind st.lastInstructionFlushedSlot t = false → t < s → b.instructionsDrained = true

/-- The drained entries are those at or behind the frontier. -/
def DrainedBehind (st : CoordinatorState R) : Prop :=
  ∀ (s : Slot) (buf : SlotRecordBuffer R), st.buffer[s]? = some buf →
    buf.instructionsDrained = behind st.lastInstructionFlushedSlot s

theorem DrainedBehind.apply {st : CoordinatorState R} {e : CoordinatorEvent R}
    (h : st.DrainedBehind) (hcreates : ¬st.createsStaleEntry e) : (st.apply e).DrainedBehind := by
  intro s buf hbuf
  rw [apply_lastInstructionFlushedSlot]
  obtain ⟨-, hold⟩ | ⟨⟨rfl, henters, haccepts⟩, rfl⟩ := entry_of_apply hbuf
  · exact h s buf hold
  · rw [updateEntry_instructionsDrained]
    cases hold : st.buffer[e.slot]? with
    | some old => exact h e.slot old hold
    | none =>
        cases hbehind : behind st.lastInstructionFlushedSlot e.slot with
        | false => rfl
        | true => exact absurd ⟨henters, haccepts, by simp [hold], hbehind⟩ hcreates

theorem DrainedBehind.flush {st st' : CoordinatorState R} {buf : SlotRecordBuffer R}
    {metadata : BlockMetadata} {ix : InstructionSlot R} (h : st.DrainedBehind)
    (flush : InstructionFlush st buf metadata ix st') : st'.DrainedBehind := by
  -- The flushed entry is undrained, so it lies above the old frontier.
  have habove : behind st.lastInstructionFlushedSlot ix.slot = false :=
    (h ix.slot buf flush.present).symm.trans flush.undrained
  intro s b hb
  have hcases := flush.entry hb
  rw [flush.result, flushInstruction]
  obtain ⟨heq, rfl⟩ | ⟨hne, hold⟩ := hcases
  · exact (behind_iff.mpr ⟨ix.slot, rfl, Nat.le_of_eq heq⟩).symm
  · obtain hlt | hgt := Nat.lt_or_gt_of_ne hne
    · rw [flush.below s b hold hlt]
      exact (behind_iff.mpr ⟨ix.slot, rfl, Nat.le_of_lt hlt⟩).symm
    · have hnew : behind (some ix.slot) s = false := by simpa [behind] using hgt
      have hold' : behind st.lastInstructionFlushedSlot s = false :=
        not_behind_iff.mpr fun last hlast =>
          Nat.lt_trans (not_behind_iff.mp habove last hlast) hgt
      exact (h s b hold).trans (hold'.trans hnew.symm)

theorem DrainedBehind.flushAccount {st st' : CoordinatorState R} {buf : SlotRecordBuffer R}
    {acct : AccountSlot R} (h : st.DrainedBehind) (flush : AccountFlush st buf acct st') :
    st'.DrainedBehind := by
  intro s b hb
  have hcases := flush.entry hb
  rw [flush.result]
  obtain ⟨rfl, rfl⟩ | ⟨-, hold⟩ := hcases
  · exact h acct.slot buf flush.present
  · exact h s b hold

/-- What is next in line is flushed. -/
theorem NextInLine.nextInstruction {st : CoordinatorState R} {s : Slot}
    {buf : SlotRecordBuffer R} (h : st.DrainedBehind) (hs : st.NextInLine s buf) :
    ∃ ix st', st.nextInstruction = some (ix, st') ∧ ix.slot = s := by
  obtain ⟨metadata, hmeta, hparsed, hconfirmed⟩ := buf.instructionGateReached_iff.mp hs.gate
  obtain ⟨parent, hparent, hok⟩ := hs.parent
  have hp : metadata.parentSlot = parent := by
    simpa [SlotRecordBuffer.parentSlot, hmeta] using hparent
  subst hp
  refine exists_nextInstruction hs.present ((h _ _ hs.present).trans hs.above) ?_ hmeta hparsed
    hconfirmed hok
  intro t b ht hlt
  cases hbehind : behind st.lastInstructionFlushedSlot t with
  | true => exact (h t b ht).trans hbehind
  | false => exact hs.between t b ht hbehind hlt

/-- The direct child of the last flushed slot is next in line once its gate is reached. -/
theorem NextInLine.of_child {st : CoordinatorState R} {l : Slot}
    (hlast : st.lastInstructionFlushedSlot = some l)
    (hgate : st.buffer[l + 1]?.any SlotRecordBuffer.instructionGateReached = true)
    (hparent : st.buffer[l + 1]?.bind SlotRecordBuffer.parentSlot = some l) :
    ∃ buf, st.NextInLine (l + 1) buf := by
  obtain ⟨buf, hbuf, hparent⟩ := Option.bind_eq_some_iff.mp hparent
  rw [hbuf, Option.any_some] at hgate
  refine ⟨buf, hbuf, ?_, hgate, ⟨l, hparent, .inr ?_⟩, ?_⟩
  · simp [behind, hlast]
  · simp [parentOk, behind, hlast]
  · intro t b _ habove hlt
    have hgt := not_behind_iff.mp habove l hlast
    exact absurd hlt (Nat.not_lt.mpr hgt)

end CoordinatorState

open CoordinatorState

/-- No event of the run creates an entry at or behind the instruction frontier. -/
def NoStaleEntry (commitAt : AccountCommitAt) (ops : List (Op R)) : Prop :=
  Obeys (fun front op => ∀ e ∈ op.event?, ¬(run commitAt front).createsStaleEntry e) ops

instance (commitAt : AccountCommitAt) (ops : List (Op R)) :
    Decidable (NoStaleEntry commitAt ops) :=
  inferInstanceAs (Decidable (Obeys _ ops))

theorem drainedBehind {commitAt : AccountCommitAt} {ops : List (Op R)}
    (h : NoStaleEntry commitAt ops) : (run commitAt ops).DrainedBehind := by
  refine run_invariant (P := DrainedBehind) ?_ ?_ ?_ ?_ ?_ h
  · intro s buf hbuf
    simp [new] at hbuf
  · intro ops e hallowed hst
    exact hst.apply (hallowed e rfl)
  · intro st buf metadata ix st' flush hst
    exact hst.flush flush
  · intro st buf acct st' flush hst
    exact hst.flushAccount flush
  · intro st hst s buf hbuf
    rw [cleanupFullyDrained_lastInstructionFlushedSlot]
    exact hst s buf (entry_of_cleanup hbuf).1

/-- In every run that creates no entry at or behind the instruction frontier, the drain
emits whatever is next in line. -/
theorem drainInstruction_emits_nextInLine (commitAt : AccountCommitAt) (ops : List (Op R))
    (h : NoStaleEntry commitAt ops) (s : Slot) (buf : SlotRecordBuffer R)
    (hs : (run commitAt ops).NextInLine s buf) :
    ∃ flushed, (run commitAt ops).drainInstructionFlushable.1 = .ok flushed ∧
      s ∈ flushed.map InstructionSlot.slot := by
  obtain ⟨ix, st', hnext, hslot⟩ := hs.nextInstruction (drainedBehind h)
  obtain ⟨outs, mid, hex, hdrain⟩ := (run commitAt ops).drainInstruction_exhausts
  exact ⟨outs, by rw [hdrain], List.mem_map.mpr ⟨ix, hex.head_mem hnext, hslot⟩⟩

/-- Slot 2 is flushed, then an account record for slot 1 arrives, then slot 3 gets ready. -/
def lateAccountRecordRun : List (Op Nat) :=
  applyReadySlot 2 1 0 ++ [.drainInstruction,
    .apply (.accountRecordParsed 1 ⟨0, .replicate 32 0⟩ 7)] ++ applyReadySlot 3 2 0

/-- The late account record creates an entry that stops slot 3. -/
theorem nextInLine_blocked :
    (∃ buf, (run .confirmed lateAccountRecordRun).NextInLine 3 buf) ∧
      (run .confirmed lateAccountRecordRun).drainInstructionFlushable.1.toOption = some [] :=
  ⟨NextInLine.of_child (l := 2) (by decide +kernel) (by decide +kernel) (by decide +kernel),
    by decide +kernel⟩

/-- Without the late account record slot 3 goes out. -/
theorem drainInstruction_emits_nextInLine_child :
    ∃ flushed, (run .confirmed (applyReadySlot 2 1 0 ++ [.drainInstruction] ++
        applyReadySlot 3 2 1 : List (Op Nat))).drainInstructionFlushable.1 = .ok flushed ∧
      3 ∈ flushed.map InstructionSlot.slot := by
  obtain ⟨buf, hbuf⟩ := NextInLine.of_child (l := 2)
    (show (run .confirmed (applyReadySlot 2 1 0 ++ [.drainInstruction] ++
      applyReadySlot 3 2 1 : List (Op Nat))).lastInstructionFlushedSlot = some 2 by decide +kernel)
    (by decide +kernel) (by decide +kernel)
  exact drainInstruction_emits_nextInLine _ _ (by decide +kernel) 3 buf hbuf

end Shipstern.BlockCoordinator
