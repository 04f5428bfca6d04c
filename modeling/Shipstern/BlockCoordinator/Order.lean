import Shipstern.BlockCoordinator.Run

/-!
# The order of the output

Both drains promise strictly ascending slots. Within one call this is the order of the
walk. Across calls it depends on what is buffered behind the frontier: an entry at or
behind it that is not drained must never become ready. Records and transaction counts
for such a slot are dropped, but lifecycle events are dropped only when *both* frontiers
have passed the slot, so a late `BlockFrozen`, `SlotConfirmed` or `SlotFinalized` can
open a gate behind one of them. `opensStaleInstructionGate` and `opensStaleAccountGate`
name exactly these events. Runs without them are in order; the counterexamples show that
one of them is enough to emit an old slot late.
-/

open Std OrderedMap Machine

namespace Shipstern.BlockCoordinator

variable {R : Type}

namespace CoordinatorState

/-- An accepted `BlockFrozen` or `SlotConfirmed` completes the instruction gate of an
undrained entry at or behind the instruction frontier. -/
def opensStaleInstructionGate (st : CoordinatorState R) : CoordinatorEvent R → Prop
  | .blockFrozen slot metadata =>
      st.isAlreadyFlushed slot = false ∧ behind st.lastInstructionFlushedSlot slot = true ∧
        ∃ buf ∈ st.buffer[slot]?, buf.instructionsDrained = false ∧
          buf.instructionCommitmentReached = true ∧ metadata.expectedTxCount ≤ buf.parsedTxCount
  | .slotConfirmed slot =>
      st.isAlreadyFlushed slot = false ∧ behind st.lastInstructionFlushedSlot slot = true ∧
        ∃ buf ∈ st.buffer[slot]?, buf.instructionsDrained = false ∧ buf.txParseComplete = true
  | _ => False

instance (st : CoordinatorState R) :
    (e : CoordinatorEvent R) → Decidable (st.opensStaleInstructionGate e)
  | .blockFrozen _ _ | .slotConfirmed _ => inferInstanceAs (Decidable (_ ∧ _ ∧ ∃ _ ∈ _, _))
  | .slotFinalized _ | .slotDiscarded _ _ | .accountEventSeen _ | .instructionRecordParsed _ _ _
  | .accountRecordParsed _ _ _ | .transactionParsed _ | .parseStats _ _ => instDecidableFalse

/-- An accepted commitment event freezes an undrained entry at or behind the account
frontier at a count that is already reached. -/
def opensStaleAccountGate (st : CoordinatorState R) (e : CoordinatorEvent R) : Prop :=
  e = .accountCommitment st.accountCommitAt e.slot ∧ st.isAlreadyFlushed e.slot = false ∧
    behind st.lastAccountFlushedSlot e.slot = true ∧
    (st.buffer[e.slot]?.getD default).accountsDrained = false ∧
    (st.buffer[e.slot]?.getD default).expectedAccountCount.getD
      (st.accountEventCounts[e.slot]?.getD 0) ≤
        (st.buffer[e.slot]?.getD default).accountProcessedCount

instance [DecidableEq R] (st : CoordinatorState R) (e : CoordinatorEvent R) :
    Decidable (st.opensStaleAccountGate e) :=
  inferInstanceAs (Decidable (_ ∧ _))

end CoordinatorState

/-- No event of the run opens an instruction gate behind the instruction frontier. -/
def NoStaleInstructionGate (commitAt : AccountCommitAt) (ops : List (Op R)) : Prop :=
  Obeys (fun front op => ∀ e ∈ op.event?, ¬(run commitAt front).opensStaleInstructionGate e) ops

/-- No event of the run opens an account gate behind the account frontier. -/
def NoStaleAccountGate (commitAt : AccountCommitAt) (ops : List (Op R)) : Prop :=
  Obeys (fun front op => ∀ e ∈ op.event?, ¬(run commitAt front).opensStaleAccountGate e) ops

instance (commitAt : AccountCommitAt) (ops : List (Op R)) :
    Decidable (NoStaleInstructionGate commitAt ops) :=
  inferInstanceAs (Decidable (Obeys _ ops))

instance [DecidableEq R] (commitAt : AccountCommitAt) (ops : List (Op R)) :
    Decidable (NoStaleAccountGate commitAt ops) :=
  inferInstanceAs (Decidable (Obeys _ ops))

namespace CoordinatorState

/-! ## Instructions -/

/-- The events behind the instruction frontier that get past their guard change no
instruction gate, apart from the two that complete it. -/
theorem instructionGate_updateEntry {st : CoordinatorState R} {e : CoordinatorEvent R} {s : Slot}
    (ht : st.touches e s) (hbehind : behind st.lastInstructionFlushedSlot s = true)
    (hopen : ¬st.opensStaleInstructionGate e)
    (hdrained : (st.buffer[s]?.getD default).instructionsDrained = false)
    (hgate : (st.updateEntry e (st.buffer[s]?.getD default)).instructionGateReached = true) :
    (st.buffer[s]?.getD default).instructionGateReached = true := by
  obtain ⟨rfl, -, haccepts⟩ := ht
  cases e with
  | blockFrozen slot metadata =>
      -- The gate can only be complete if the entry was already confirmed.
      obtain ⟨m, hm, hparsed, hconfirmed⟩ :=
        (SlotRecordBuffer.instructionGateReached_iff _).mp hgate
      cases hm
      obtain ⟨buf, hbuf, hconf⟩ :=
        exists_of_getD_default SlotRecordBuffer.instructionCommitmentReached rfl hconfirmed
      refine absurd ?_ hopen
      simp only [CoordinatorEvent.slot] at hbuf hbehind hdrained hparsed
      rw [hbuf] at hdrained hparsed
      exact ⟨by simpa [accepts] using haccepts, hbehind, buf, hbuf, hdrained, hconf, hparsed⟩
  | slotConfirmed slot =>
      -- The gate can only be complete if the block was already frozen and parsed.
      have hparse : (st.buffer[slot]?.getD default).txParseComplete = true := by
        rw [updateEntry_slotConfirmed_eq] at hgate
        exact (Bool.and_eq_true_iff.mp hgate).1
      obtain ⟨buf, hbuf, hcomplete⟩ :=
        exists_of_getD_default SlotRecordBuffer.txParseComplete rfl hparse
      refine absurd ?_ hopen
      simp only [CoordinatorEvent.slot] at hdrained hbehind
      rw [hbuf] at hdrained
      exact ⟨by simpa [accepts] using haccepts, hbehind, buf, hbuf, hdrained, hcomplete⟩
  | slotFinalized slot =>
      rw [updateEntry_slotFinalized_eq] at hgate
      exact hgate
  | transactionParsed slot =>
      have := (validateInstructionSlot_iff.mp haccepts).2
      simp [CoordinatorEvent.slot, this] at hbehind
  | parseStats slot kind => cases kind <;> exact hgate
  | slotDiscarded | accountEventSeen | instructionRecordParsed | accountRecordParsed => exact hgate

/-- Nothing behind the instruction frontier can still be emitted. -/
def InstructionsSettled (st : CoordinatorState R) : Prop :=
  ∀ (s : Slot) (buf : SlotRecordBuffer R), st.buffer[s]? = some buf →
    behind st.lastInstructionFlushedSlot s = true → buf.instructionsDrained = false →
      buf.instructionGateReached = false

theorem InstructionsSettled.apply {st : CoordinatorState R} {e : CoordinatorEvent R}
    (h : st.InstructionsSettled) (hopen : ¬st.opensStaleInstructionGate e) :
    (st.apply e).InstructionsSettled := by
  intro s buf hbuf hbehind hdrained
  rw [apply_lastInstructionFlushedSlot] at hbehind
  obtain ⟨-, hold⟩ | ⟨ht, rfl⟩ := entry_of_apply hbuf
  · exact h s buf hold hbehind hdrained
  · rw [updateEntry_instructionsDrained] at hdrained
    cases hgate : (st.updateEntry e (st.buffer[s]?.getD default)).instructionGateReached with
    | false => rfl
    | true =>
        have hold := instructionGate_updateEntry ht hbehind hopen hdrained hgate
        obtain ⟨old, hold', hgate'⟩ :=
          exists_of_getD_default SlotRecordBuffer.instructionGateReached rfl hold
        rw [hold'] at hdrained
        simp [h s old hold' hbehind hdrained] at hgate'

/-- After a flush everything at or below the flushed slot is drained. -/
theorem InstructionsSettled.flush {st st' : CoordinatorState R} {buf : SlotRecordBuffer R}
    {metadata : BlockMetadata} {ix : InstructionSlot R}
    (flush : InstructionFlush st buf metadata ix st') : st'.InstructionsSettled := by
  intro s b hb hbehind hdrained
  obtain ⟨-, rfl⟩ | ⟨hne, hold⟩ := flush.entry hb
  · simp [SlotRecordBuffer.takeInstructionRecords] at hdrained
  · rw [flush.result, flushInstruction] at hbehind
    obtain ⟨last, hlast, hle⟩ := behind_iff.mp hbehind
    cases hlast
    simp [flush.below s b hold (Nat.lt_of_le_of_ne hle hne)] at hdrained

/-- An account flush does not touch the instruction side. -/
theorem InstructionsSettled.flushAccount {st st' : CoordinatorState R}
    {buf : SlotRecordBuffer R} {acct : AccountSlot R} (h : st.InstructionsSettled)
    (flush : AccountFlush st buf acct st') : st'.InstructionsSettled := by
  intro s b hb hbehind hdrained
  rw [flush.result] at hbehind
  obtain ⟨rfl, rfl⟩ | ⟨-, hold⟩ := flush.entry hb
  · exact h acct.slot buf flush.present hbehind hdrained
  · exact h s b hold hbehind hdrained

theorem InstructionsSettled.cleanup {st : CoordinatorState R} (h : st.InstructionsSettled) :
    st.cleanupFullyDrained.InstructionsSettled := by
  intro s buf hbuf hbehind hdrained
  rw [cleanupFullyDrained_lastInstructionFlushedSlot] at hbehind
  exact h s buf (entry_of_cleanup hbuf).1 hbehind hdrained

/-- A settled state emits above its frontier. -/
theorem InstructionsSettled.above {st st' : CoordinatorState R} {buf : SlotRecordBuffer R}
    {metadata : BlockMetadata} {ix : InstructionSlot R} (h : st.InstructionsSettled)
    (flush : InstructionFlush st buf metadata ix st') (l : Slot)
    (hl : st.lastInstructionFlushedSlot = some l) : l < ix.slot := by
  by_contra hle
  have hgate := buf.instructionGateReached_iff.mpr
    ⟨metadata, flush.metadata_eq, flush.parsed, flush.confirmed⟩
  have hbehind := behind_iff.mpr ⟨l, hl, Nat.not_lt.mp hle⟩
  simp [h ix.slot buf flush.present hbehind flush.undrained] at hgate

/-! ## Accounts -/

/-- The events behind the account frontier that get past their guard change no account
gate, apart from the commitment event. -/
theorem accountGate_updateEntry {st : CoordinatorState R} {e : CoordinatorEvent R} {s : Slot}
    (ht : st.touches e s) (hbehind : behind st.lastAccountFlushedSlot s = true)
    (hopen : ¬st.opensStaleAccountGate e)
    (hdrained : (st.buffer[s]?.getD default).accountsDrained = false)
    (hgate : (st.updateEntry e (st.buffer[s]?.getD default)).accountGateReached = true) :
    (st.buffer[s]?.getD default).accountGateReached = true := by
  obtain ⟨rfl, -, haccepts⟩ := ht
  cases e with
  | slotConfirmed slot =>
      simp only [CoordinatorEvent.slot] at hgate hbehind hdrained
      have hfresh : st.isAlreadyFlushed slot = false := by simpa [accepts] using haccepts
      rw [updateEntry_slotConfirmed_eq] at hgate
      by_cases hcommit : st.accountCommitAt = .confirmed
      · refine absurd ⟨?_, hfresh, hbehind, hdrained, ?_⟩ hopen
        · simp [CoordinatorEvent.accountCommitment, CoordinatorEvent.slot, hcommit]
        · simpa [SlotRecordBuffer.accountGateReached, SlotRecordBuffer.accountParseComplete,
            CoordinatorEvent.slot, hcommit] using hgate
      · simp only [hcommit, if_false, decide_false, Bool.false_or] at hgate
        exact hgate
  | slotFinalized slot =>
      simp only [CoordinatorEvent.slot] at hgate hbehind hdrained
      simp only [accepts, Bool.and_eq_true, decide_eq_true_eq, Bool.not_eq_true'] at haccepts
      rw [updateEntry_slotFinalized_eq] at hgate
      refine absurd ⟨?_, haccepts.2, hbehind, hdrained, ?_⟩ hopen
      · simp [CoordinatorEvent.accountCommitment, CoordinatorEvent.slot, haccepts.1]
      · simpa [SlotRecordBuffer.accountGateReached, SlotRecordBuffer.accountParseComplete,
          CoordinatorEvent.slot] using hgate
  | accountRecordParsed slot key record =>
      have := (validateAccountSlot_iff.mp haccepts).2.1
      simp [CoordinatorEvent.slot, this] at hbehind
  | parseStats slot kind =>
      simp only [CoordinatorEvent.slot] at hbehind
      cases hk : kind.isAccountStat with
      | true =>
          simp only [accepts, hk, if_true] at haccepts
          simp [(validateAccountSlot_iff.mp haccepts).2.1] at hbehind
      | false =>
          rw [updateEntry_instructionStat slot hk] at hgate
          cases kind <;> exact hgate
  | blockFrozen | slotDiscarded | accountEventSeen | instructionRecordParsed
  | transactionParsed => exact hgate

/-- Nothing behind the account frontier can still be emitted. -/
def AccountsSettled (st : CoordinatorState R) : Prop :=
  ∀ (s : Slot) (buf : SlotRecordBuffer R), st.buffer[s]? = some buf →
    behind st.lastAccountFlushedSlot s = true → buf.accountsDrained = false →
      buf.accountGateReached = false

theorem AccountsSettled.apply {st : CoordinatorState R} {e : CoordinatorEvent R}
    (h : st.AccountsSettled) (hopen : ¬st.opensStaleAccountGate e) :
    (st.apply e).AccountsSettled := by
  intro s buf hbuf hbehind hdrained
  rw [apply_lastAccountFlushedSlot] at hbehind
  obtain ⟨-, hold⟩ | ⟨ht, rfl⟩ := entry_of_apply hbuf
  · exact h s buf hold hbehind hdrained
  · rw [updateEntry_accountsDrained] at hdrained
    cases hgate : (st.updateEntry e (st.buffer[s]?.getD default)).accountGateReached with
    | false => rfl
    | true =>
        have hold := accountGate_updateEntry ht hbehind hopen hdrained hgate
        obtain ⟨old, hold', hgate'⟩ :=
          exists_of_getD_default SlotRecordBuffer.accountGateReached rfl hold
        rw [hold'] at hdrained
        simp [h s old hold' hbehind hdrained] at hgate'

theorem AccountsSettled.flush {st st' : CoordinatorState R} {buf : SlotRecordBuffer R}
    {acct : AccountSlot R} (flush : AccountFlush st buf acct st') : st'.AccountsSettled := by
  intro s b hb hbehind hdrained
  obtain ⟨-, rfl⟩ | ⟨hne, hold⟩ := flush.entry hb
  · simp [SlotRecordBuffer.takeAccountRecords] at hdrained
  · rw [flush.result, flushAccount] at hbehind
    obtain ⟨last, hlast, hle⟩ := behind_iff.mp hbehind
    cases hlast
    simp [flush.below s b hold (Nat.lt_of_le_of_ne hle hne)] at hdrained

theorem AccountsSettled.flushInstruction {st st' : CoordinatorState R}
    {buf : SlotRecordBuffer R} {metadata : BlockMetadata} {ix : InstructionSlot R}
    (h : st.AccountsSettled) (flush : InstructionFlush st buf metadata ix st') :
    st'.AccountsSettled := by
  intro s b hb hbehind hdrained
  rw [flush.result] at hbehind
  obtain ⟨rfl, rfl⟩ | ⟨-, hold⟩ := flush.entry hb
  · exact h ix.slot buf flush.present hbehind hdrained
  · exact h s b hold hbehind hdrained

theorem AccountsSettled.cleanup {st : CoordinatorState R} (h : st.AccountsSettled) :
    st.cleanupFullyDrained.AccountsSettled := by
  intro s buf hbuf hbehind hdrained
  rw [cleanupFullyDrained_lastAccountFlushedSlot] at hbehind
  exact h s buf (entry_of_cleanup hbuf).1 hbehind hdrained

theorem AccountsSettled.above {st st' : CoordinatorState R} {buf : SlotRecordBuffer R}
    {acct : AccountSlot R} (h : st.AccountsSettled) (flush : AccountFlush st buf acct st')
    (l : Slot) (hl : st.lastAccountFlushedSlot = some l) : l < acct.slot := by
  by_contra hle
  have hgate := flush.gate
  have hbehind := behind_iff.mpr ⟨l, hl, Nat.not_lt.mp hle⟩
  simp [h acct.slot buf flush.present hbehind flush.undrained] at hgate

end CoordinatorState

/-! ## Whole runs -/

open CoordinatorState

/-- A run that opens no instruction gate behind the frontier stays settled, and its
instruction output is an in-order stream whose end is the frontier. -/
theorem instructions_ascending {commitAt : AccountCommitAt} {ops : List (Op R)}
    (h : NoStaleInstructionGate commitAt ops) :
    (run commitAt ops).InstructionsSettled ∧
      Ascending (run commitAt ops).lastInstructionFlushedSlot
        ((instructionSlots commitAt ops).map InstructionSlot.slot) := by
  refine run_induction (P := fun _ ixs _ st => st.InstructionsSettled ∧
    Ascending st.lastInstructionFlushedSlot (ixs.map InstructionSlot.slot))
    ?_ ?_ ?_ ?_ ?_ ?_ h
  · exact ⟨by intro s buf hbuf; simp [new] at hbuf, Ascending.nil⟩
  · intro ops e hallowed ⟨hsettled, hasc⟩
    exact ⟨hsettled.apply (hallowed e rfl), by simpa using hasc⟩
  · intro ops ixs accts st buf metadata ix st' flush ⟨hsettled, hasc⟩
    refine ⟨InstructionsSettled.flush flush, ?_⟩
    simpa [flush.result, CoordinatorState.flushInstruction] using
      hasc.concat (hsettled.above flush)
  · intro ops ixs accts st buf acct st' flush ⟨hsettled, hasc⟩
    refine ⟨hsettled.flushAccount flush, ?_⟩
    simpa [flush.result, CoordinatorState.flushAccount] using hasc
  · intro ops ixs accts st ⟨hsettled, hasc⟩
    exact ⟨hsettled.cleanup, by simpa using hasc⟩
  · intro ops op ixs accts st _ hst
    exact hst

theorem accounts_ascending {commitAt : AccountCommitAt} {ops : List (Op R)}
    (h : NoStaleAccountGate commitAt ops) :
    (run commitAt ops).AccountsSettled ∧
      Ascending (run commitAt ops).lastAccountFlushedSlot
        ((accountSlots commitAt ops).map AccountSlot.slot) := by
  refine run_induction (P := fun _ _ accts st => st.AccountsSettled ∧
    Ascending st.lastAccountFlushedSlot (accts.map AccountSlot.slot))
    ?_ ?_ ?_ ?_ ?_ ?_ h
  · exact ⟨by intro s buf hbuf; simp [new] at hbuf, Ascending.nil⟩
  · intro ops e hallowed ⟨hsettled, hasc⟩
    exact ⟨hsettled.apply (hallowed e rfl), by simpa using hasc⟩
  · intro ops ixs accts st buf metadata ix st' flush ⟨hsettled, hasc⟩
    refine ⟨hsettled.flushInstruction flush, ?_⟩
    simpa [flush.result, CoordinatorState.flushInstruction] using hasc
  · intro ops ixs accts st buf acct st' flush ⟨hsettled, hasc⟩
    refine ⟨AccountsSettled.flush flush, ?_⟩
    simpa [flush.result, CoordinatorState.flushAccount] using hasc.concat (hsettled.above flush)
  · intro ops ixs accts st ⟨hsettled, hasc⟩
    exact ⟨hsettled.cleanup, by simpa using hasc⟩
  · intro ops op ixs accts st _ hst
    exact hst

/-- The instruction frontier never moves back in a run without late gates. -/
theorem lastInstructionFlushedSlot_mono {commitAt : AccountCommitAt} {front back : List (Op R)}
    (h : NoStaleInstructionGate commitAt (front ++ back)) {l : Slot}
    (hl : (run commitAt front).lastInstructionFlushedSlot = some l) :
    ∃ l', (run commitAt (front ++ back)).lastInstructionFlushedSlot = some l' ∧ l ≤ l' := by
  have hasc := (instructions_ascending h).2
  obtain ⟨later, hlater⟩ := instructionSlots_append commitAt front back
  rw [hlater, List.map_append] at hasc
  exact (instructions_ascending h.front).2.frontier_mono hasc hl

theorem lastAccountFlushedSlot_mono {commitAt : AccountCommitAt} {front back : List (Op R)}
    (h : NoStaleAccountGate commitAt (front ++ back)) {l : Slot}
    (hl : (run commitAt front).lastAccountFlushedSlot = some l) :
    ∃ l', (run commitAt (front ++ back)).lastAccountFlushedSlot = some l' ∧ l ≤ l' := by
  have hasc := (accounts_ascending h).2
  obtain ⟨later, hlater⟩ := accountSlots_append commitAt front back
  rw [hlater, List.map_append] at hasc
  exact (accounts_ascending h.front).2.frontier_mono hasc hl

/-- Until a slot is emitted, the frontier of a run without late gates is below it. -/
theorem frontier_below_of_emitted {commitAt : AccountCommitAt} {front back : List (Op R)}
    (h : NoStaleInstructionGate commitAt (front ++ back)) {s : Slot}
    (hemitted : s ∈ (instructionSlots commitAt (front ++ back)).map InstructionSlot.slot)
    (hpending : s ∉ (instructionSlots commitAt front).map InstructionSlot.slot) :
    behind (run commitAt front).lastInstructionFlushedSlot s = false := by
  have hasc := (instructions_ascending h).2
  obtain ⟨later, hlater⟩ := instructionSlots_append commitAt front back
  rw [hlater, List.map_append] at hasc hemitted
  have hs := (List.mem_append.mp hemitted).resolve_left hpending
  exact not_behind_iff.mpr ((instructions_ascending h.front).2.frontier_below hasc hs)

/-- In every run that opens no instruction gate at or behind the instruction frontier the
emitted instruction slots strictly increase and the frontier never moves backwards. -/
theorem instructionSlots_strictly_increasing (commitAt : AccountCommitAt) (ops : List (Op R))
    (h : NoStaleInstructionGate commitAt ops) :
    ((instructionSlots commitAt ops).map InstructionSlot.slot).Pairwise (· < ·) ∧
      ∀ front back, ops = front ++ back → ∀ l,
        (run commitAt front).lastInstructionFlushedSlot = some l →
          ∃ l', (run commitAt ops).lastInstructionFlushedSlot = some l' ∧ l ≤ l' := by
  refine ⟨(instructions_ascending h).2.increasing, ?_⟩
  rintro front back rfl l hl
  exact lastInstructionFlushedSlot_mono h hl

/-- Two slots that are ready one after the other, and between the drains a confirmation behind
the frontier that leaves the gate of its block shut. Until it is discarded, that block is the head
of the line. -/
def lateConfirmation : List (Op Nat) :=
  applyReadySlot 2 1 1 ++ [.drainInstruction, .apply (.slotConfirmed 1)] ++
    applyReadySlot 4 2 1 ++ [.apply (.slotDiscarded 1 .forked), .drainInstruction]

theorem instructionSlots_strictly_increasing_ready :
    (run .confirmed (lateConfirmation.take 4)).accepts (.slotConfirmed 1) = true ∧
      (instructionSlots .confirmed lateConfirmation).map InstructionSlot.slot = [2, 4] ∧
      ((instructionSlots .confirmed lateConfirmation).map InstructionSlot.slot).Pairwise (· < ·) ∧
      ∃ l', (run .confirmed lateConfirmation).lastInstructionFlushedSlot = some l' ∧ 2 ≤ l' := by
  have hgates : NoStaleInstructionGate .confirmed lateConfirmation := by decide +kernel
  obtain ⟨hincreasing, hfrontier⟩ := instructionSlots_strictly_increasing _ _ hgates
  exact ⟨by decide +kernel, by decide +kernel, hincreasing,
    hfrontier (lateConfirmation.take 4) (lateConfirmation.drop 4) rfl 2 (by decide +kernel)⟩

/-- A block that is frozen and confirmed after its successor was drained is still emitted. -/
theorem instructionSlots_out_of_order :
    ¬((instructionSlots .confirmed (applyReadySlot 2 1 0 ++ [.drainInstruction] ++
        applyReadySlot 1 0 0 ++ [.drainInstruction] : List (Op Nat))).map
          InstructionSlot.slot).Pairwise (· < ·) := by
  decide +kernel

/-- In every run that opens no account gate at or behind the account frontier the emitted
account slots strictly increase and the frontier never moves backwards. -/
theorem accountSlots_strictly_increasing (commitAt : AccountCommitAt) (ops : List (Op R))
    (h : NoStaleAccountGate commitAt ops) :
    ((accountSlots commitAt ops).map AccountSlot.slot).Pairwise (· < ·) ∧
      ∀ front back, ops = front ++ back → ∀ l,
        (run commitAt front).lastAccountFlushedSlot = some l →
          ∃ l', (run commitAt ops).lastAccountFlushedSlot = some l' ∧ l ≤ l' := by
  refine ⟨(accounts_ascending h).2.increasing, ?_⟩
  rintro front back rfl l hl
  exact lastAccountFlushedSlot_mono h hl

/-- Two slots whose accounts are ready one after the other, and between the drains a block behind
the frontier that is frozen without being confirmed, and discarded later. -/
def lateBlock : List (Op Nat) :=
  applyReadySlot 2 1 1 ++ [.drainAccount, .apply (.blockFrozen 1 (testMetadata 0 1))] ++
    applyReadySlot 4 2 1 ++ [.apply (.slotDiscarded 1 .forked), .drainAccount]

theorem accountSlots_strictly_increasing_ready :
    (run .confirmed (lateBlock.take 4)).accepts (.blockFrozen 1 (testMetadata 0 1)) = true ∧
      (accountSlots .confirmed lateBlock).map AccountSlot.slot = [2, 4] ∧
      ((accountSlots .confirmed lateBlock).map AccountSlot.slot).Pairwise (· < ·) ∧
      ∃ l', (run .confirmed lateBlock).lastAccountFlushedSlot = some l' ∧ 2 ≤ l' := by
  have hgates : NoStaleAccountGate .confirmed lateBlock := by decide +kernel
  obtain ⟨hincreasing, hfrontier⟩ := accountSlots_strictly_increasing _ _ hgates
  exact ⟨by decide +kernel, by decide +kernel, hincreasing,
    hfrontier (lateBlock.take 4) (lateBlock.drop 4) rfl 2 (by decide +kernel)⟩

/-- A slot that is confirmed after the accounts of its successor were drained opens its own
account gate. -/
theorem accountSlots_out_of_order :
    ¬((accountSlots .confirmed [.apply (.slotConfirmed 2), .drainAccount,
        .apply (.slotConfirmed 1), .drainAccount] : List (AccountSlot Nat)).map
          AccountSlot.slot).Pairwise (· < ·) := by
  decide +kernel

end Shipstern.BlockCoordinator
