import Shipstern.BlockCoordinator.History

/-!
# Repeated commitment events

A second `SlotConfirmed` or `SlotFinalized` does nothing while the entry still carries the
mark of the first one, or when both frontiers have passed the slot. In between there is a
gap: the entry is gone, and one of the frontiers was moved back behind the slot. There a
repeated confirmation creates a new entry that is already confirmed, and the slot can be
emitted once more. For `SlotConfirmed` the two harmless cases are the only ones.
-/

open Std OrderedMap Machine

namespace Shipstern.BlockCoordinator

variable {R : Type}

namespace CoordinatorState

/-! ## Marks and frozen gates -/

/-- The marks of an entry and its frozen account gate go together, a frozen slot has no
running count, and only confirmed entries are drained. -/
structure MarksFrozen (st : CoordinatorState R) : Prop where
  counts : ∀ (s : Slot) (buf : SlotRecordBuffer R), st.buffer[s]? = some buf →
    buf.isAccountGateFrozen = true → st.accountEventCounts[s]? = none
  confirmed : ∀ (s : Slot) (buf : SlotRecordBuffer R), st.buffer[s]? = some buf →
    buf.instructionCommitmentReached = true → st.accountCommitAt = .confirmed →
      buf.isAccountGateFrozen = true
  finalized : ∀ (s : Slot) (buf : SlotRecordBuffer R), st.buffer[s]? = some buf →
    buf.finalized = true → buf.isAccountGateFrozen = true
  drained : ∀ (s : Slot) (buf : SlotRecordBuffer R), st.buffer[s]? = some buf →
    buf.instructionsDrained = true → buf.instructionCommitmentReached = true

theorem updateEntry_finalized (st : CoordinatorState R) (e : CoordinatorEvent R)
    (buf : SlotRecordBuffer R) :
    (st.updateEntry e buf).finalized = true ↔
      e = .slotFinalized e.slot ∨ buf.finalized = true := by
  cases e with
  | slotConfirmed slot => simp [updateEntry_slotConfirmed_eq]
  | slotFinalized slot => simp [updateEntry_slotFinalized_eq, CoordinatorEvent.slot]
  | parseStats slot kind => cases kind <;> simp [updateEntry, ParseStatsKind.isAccountStat,
      SlotRecordBuffer.incrementParseStat, SlotRecordBuffer.incrementAccountProcessedCount]
  | _ => simp [updateEntry, SlotRecordBuffer.setBlockMetadata,
      SlotRecordBuffer.insertInstructionRecord, SlotRecordBuffer.insertAccountRecord,
      SlotRecordBuffer.incrementAccountProcessedCount, SlotRecordBuffer.incrementParsedTxCount]

/-- An accepted event freezes the account gate if it is the commitment event, and leaves
the gate alone otherwise. -/
theorem updateEntry_isAccountGateFrozen (st : CoordinatorState R) (e : CoordinatorEvent R)
    (buf : SlotRecordBuffer R) (haccepts : st.accepts e = true) :
    (st.updateEntry e buf).isAccountGateFrozen = true ↔
      e = .accountCommitment st.accountCommitAt e.slot ∨ buf.isAccountGateFrozen = true := by
  rcases updateEntry_expectedAccountCount st e buf haccepts with
    ⟨he, hexpected, hreached⟩ | ⟨he, hexpected, hreached⟩
  · simp [SlotRecordBuffer.isAccountGateFrozen, hexpected, hreached, ← he]
  · simp [SlotRecordBuffer.isAccountGateFrozen, hexpected, hreached, he]

/-- An accepted `SlotFinalized` is the commitment event. -/
theorem slotFinalized_eq_accountCommitment {st : CoordinatorState R} {s : Slot}
    (haccepts : st.accepts (.slotFinalized s) = true) :
    (.slotFinalized s : CoordinatorEvent R) = .accountCommitment st.accountCommitAt s := by
  simp only [accepts, Bool.and_eq_true, decide_eq_true_eq] at haccepts
  simp [CoordinatorEvent.accountCommitment, haccepts.1]

/-- Only an accepted account event starts a running count. -/
theorem accountEventCounts_apply_none {st : CoordinatorState R} {e : CoordinatorEvent R}
    {s : Slot} (h : st.accountEventCounts[s]? = none)
    (hseen : e = .accountEventSeen s → st.accepts e = false) :
    (st.apply e).accountEventCounts[s]? = none := by
  obtain ⟨slot, reason, rfl⟩ | hne := slotDiscarded_or e
  · simp [apply_slotDiscarded, getElem?_erase, h]
  · rw [apply_accountEventCounts hne]
    split
    · next haccepts =>
        cases e with
        | slotConfirmed slot =>
            simp only [countsAfter]
            split
            · simp [getElem?_erase, h]
            · exact h
        | slotFinalized slot => simp [countsAfter, getElem?_erase, h]
        | slotDiscarded slot reason => exact absurd rfl (hne slot reason)
        | accountEventSeen slot =>
            have hs : s ≠ slot := by
              rintro rfl
              simp [hseen rfl] at haccepts
            rw [countsAfter, getElem?_insert, if_neg hs, h]
        | _ => exact h
    · exact h

/-- The commitment event moves the running count into the entry. -/
theorem accountEventCounts_apply_commitment {st : CoordinatorState R} {s : Slot}
    (haccepts : st.accepts (.accountCommitment st.accountCommitAt s) = true) :
    (st.apply (.accountCommitment st.accountCommitAt s)).accountEventCounts[s]? = none := by
  cases hc : st.accountCommitAt with
  | confirmed =>
      rw [hc] at haccepts
      change st.accepts (.slotConfirmed s) = true at haccepts
      change (st.apply (.slotConfirmed s)).accountEventCounts[s]? = none
      rw [apply_accountEventCounts (by simp), if_pos haccepts, countsAfter, if_pos hc,
        getElem?_erase, if_pos rfl]
  | finalized =>
      rw [hc] at haccepts
      change st.accepts (.slotFinalized s) = true at haccepts
      change (st.apply (.slotFinalized s)).accountEventCounts[s]? = none
      rw [apply_accountEventCounts (by simp), if_pos haccepts, countsAfter, getElem?_erase,
        if_pos rfl]

theorem MarksFrozen.apply {st : CoordinatorState R} (h : st.MarksFrozen)
    (e : CoordinatorEvent R) : (st.apply e).MarksFrozen := by
  refine ⟨?_, ?_, ?_, ?_⟩
  · intro s buf hbuf hfrozen
    obtain ⟨-, hold⟩ | ⟨⟨rfl, henters, haccepts⟩, rfl⟩ := entry_of_apply hbuf
    · refine accountEventCounts_apply_none (h.counts s buf hold hfrozen) ?_
      rintro rfl
      simp [accepts, hold, isAccountGateFrozen, hfrozen]
    · obtain he | hold := (st.updateEntry_isAccountGateFrozen e _ haccepts).mp hfrozen
      · rw [he] at haccepts ⊢
        simpa using accountEventCounts_apply_commitment haccepts
      · refine accountEventCounts_apply_none ?_ ?_
        · obtain ⟨old, hbuf', hold'⟩ :=
            exists_of_getD_default SlotRecordBuffer.isAccountGateFrozen rfl hold
          exact h.counts e.slot old hbuf' hold'
        · intro he
          rw [he] at henters
          simp [CoordinatorEvent.entersBuffer] at henters
  · intro s buf hbuf hconfirmed hc
    rw [apply_accountCommitAt] at hc
    obtain ⟨-, hold⟩ | ⟨⟨rfl, -, haccepts⟩, rfl⟩ := entry_of_apply hbuf
    · exact h.confirmed s buf hold hconfirmed hc
    · rw [updateEntry_isAccountGateFrozen st e _ haccepts]
      obtain he | hold := (st.updateEntry_instructionCommitmentReached e _).mp hconfirmed
      · exact .inl (by simpa [CoordinatorEvent.accountCommitment, hc] using he)
      · obtain ⟨old, hbuf', hold'⟩ :=
          exists_of_getD_default SlotRecordBuffer.instructionCommitmentReached rfl hold
        rw [hbuf', Option.getD_some]
        exact .inr (h.confirmed e.slot old hbuf' hold' hc)
  · intro s buf hbuf hfinalized
    obtain ⟨-, hold⟩ | ⟨⟨rfl, -, haccepts⟩, rfl⟩ := entry_of_apply hbuf
    · exact h.finalized s buf hold hfinalized
    · rw [updateEntry_isAccountGateFrozen st e _ haccepts]
      obtain he | hold := (st.updateEntry_finalized e _).mp hfinalized
      · rw [he] at haccepts
        exact .inl (he.trans (slotFinalized_eq_accountCommitment haccepts))
      · obtain ⟨old, hbuf', hold'⟩ :=
          exists_of_getD_default SlotRecordBuffer.finalized rfl hold
        rw [hbuf', Option.getD_some]
        exact .inr (h.finalized e.slot old hbuf' hold')
  · intro s buf hbuf hdrained
    obtain ⟨-, hold⟩ | ⟨⟨rfl, -, -⟩, rfl⟩ := entry_of_apply hbuf
    · exact h.drained s buf hold hdrained
    · rw [updateEntry_instructionsDrained] at hdrained
      rw [updateEntry_instructionCommitmentReached]
      obtain ⟨old, hbuf', hdrained'⟩ :=
        exists_of_getD_default SlotRecordBuffer.instructionsDrained rfl hdrained
      rw [hbuf', Option.getD_some]
      exact .inr (h.drained e.slot old hbuf' hdrained')

/-- The marks survive a step that gives no entry a new mark, drains only confirmed entries
and starts no running count. -/
theorem MarksFrozen.of_entries {st st' : CoordinatorState R} (h : st.MarksFrozen)
    (hcounts : ∀ s : Slot, st.accountEventCounts[s]? = none → st'.accountEventCounts[s]? = none)
    (hcommit : st'.accountCommitAt = st.accountCommitAt)
    (hentry : ∀ (s : Slot) (b : SlotRecordBuffer R), st'.buffer[s]? = some b →
      ∃ b₀, st.buffer[s]? = some b₀ ∧ b.isAccountGateFrozen = b₀.isAccountGateFrozen ∧
        b.instructionCommitmentReached = b₀.instructionCommitmentReached ∧
        b.finalized = b₀.finalized ∧
        (b.instructionsDrained = true → b₀.instructionCommitmentReached = true)) :
    st'.MarksFrozen := by
  refine ⟨?_, ?_, ?_, ?_⟩
  · intro s b hb hfrozen
    obtain ⟨b₀, hb₀, hgate, -, -, -⟩ := hentry s b hb
    exact hcounts s (h.counts s b₀ hb₀ (hgate ▸ hfrozen))
  · intro s b hb hconfirmed hc
    obtain ⟨b₀, hb₀, hgate, hmark, -, -⟩ := hentry s b hb
    rw [hgate]
    exact h.confirmed s b₀ hb₀ (hmark ▸ hconfirmed) (hcommit ▸ hc)
  · intro s b hb hfinalized
    obtain ⟨b₀, hb₀, hgate, -, hmark, -⟩ := hentry s b hb
    rw [hgate]
    exact h.finalized s b₀ hb₀ (hmark ▸ hfinalized)
  · intro s b hb hdrained
    obtain ⟨b₀, -, -, hmark, -, hconfirmed⟩ := hentry s b hb
    rw [hmark]
    exact hconfirmed hdrained

theorem MarksFrozen.flush {st st' : CoordinatorState R} {buf : SlotRecordBuffer R}
    {metadata : BlockMetadata} {ix : InstructionSlot R} (h : st.MarksFrozen)
    (flush : InstructionFlush st buf metadata ix st') : st'.MarksFrozen := by
  have hframe : st'.accountEventCounts = st.accountEventCounts ∧
      st'.accountCommitAt = st.accountCommitAt := by
    rw [flush.result]
    exact ⟨rfl, rfl⟩
  refine h.of_entries (fun s hnone => hframe.1 ▸ hnone) hframe.2 ?_
  intro s b hb
  obtain ⟨rfl, rfl⟩ | ⟨-, hold⟩ := flush.entry hb
  · exact ⟨buf, flush.present, rfl, rfl, rfl, fun _ => flush.confirmed⟩
  · exact ⟨b, hold, rfl, rfl, rfl, h.drained s b hold⟩

theorem MarksFrozen.flushAccount {st st' : CoordinatorState R} {buf : SlotRecordBuffer R}
    {acct : AccountSlot R} (h : st.MarksFrozen) (flush : AccountFlush st buf acct st') :
    st'.MarksFrozen := by
  have hframe : st'.accountEventCounts = st.accountEventCounts ∧
      st'.accountCommitAt = st.accountCommitAt := by
    rw [flush.result]
    exact ⟨rfl, rfl⟩
  refine h.of_entries (fun s hnone => hframe.1 ▸ hnone) hframe.2 ?_
  intro s b hb
  obtain ⟨rfl, rfl⟩ | ⟨-, hold⟩ := flush.entry hb
  · exact ⟨buf, flush.present, rfl, rfl, rfl, h.drained _ buf flush.present⟩
  · exact ⟨b, hold, rfl, rfl, rfl, h.drained s b hold⟩

theorem MarksFrozen.cleanup {st : CoordinatorState R} (h : st.MarksFrozen) :
    st.cleanupFullyDrained.MarksFrozen := by
  refine h.of_entries ?_ st.cleanupFullyDrained_accountCommitAt ?_
  · intro s hnone
    rw [cleanupFullyDrained_eq]
    cases st.lastAccountFlushedSlot with
    | none => exact hnone
    | some last => simp [hnone]
  · intro s b hb
    have hold := (entry_of_cleanup hb).1
    exact ⟨b, hold, rfl, rfl, rfl, h.drained s b hold⟩

end CoordinatorState

open CoordinatorState

theorem marksFrozen (commitAt : AccountCommitAt) (ops : List (Op R)) :
    (run commitAt ops).MarksFrozen := by
  refine run_invariant (P := MarksFrozen) ?_ ?_ ?_ ?_ ?_ (Obeys.unrestricted ops)
  · exact ⟨by simp [new], by simp [new], by simp [new], by simp [new]⟩
  · intro ops e _ h
    exact h.apply e
  · intro st buf metadata ix st' flush h
    exact h.flush flush
  · intro st buf acct st' flush h
    exact h.flushAccount flush
  · intro st h
    exact h.cleanup

/-! ## A repeated commitment event -/

namespace CoordinatorState

/-- The current entry of the slot carries the mark of the commitment event. -/
def carriesMark (st : CoordinatorState R) : CoordinatorEvent R → Bool
  | .slotConfirmed slot => st.buffer[slot]?.any SlotRecordBuffer.instructionCommitmentReached
  | .slotFinalized slot => st.buffer[slot]?.any SlotRecordBuffer.finalized
  | _ => false

/-- Freezing a frozen entry without a running count changes nothing. -/
theorem freezeAccountGate_modifyEntry_eq_self {st : CoordinatorState R} {s : Slot}
    {buf : SlotRecordBuffer R} {f : SlotRecordBuffer R → SlotRecordBuffer R}
    (hbuf : st.buffer[s]? = some buf) (hf : f buf = buf)
    (hfrozen : buf.isAccountGateFrozen = true) (hcounts : st.accountEventCounts[s]? = none) :
    (st.modifyEntry s f).freezeAccountGate s = st := by
  rw [SlotRecordBuffer.isAccountGateFrozen, Bool.and_eq_true] at hfrozen
  obtain ⟨n, hn⟩ := Option.isSome_iff_exists.mp hfrozen.2
  have hentry : (st.freezeEntry s ∘ f) buf = buf := by
    rw [Function.comp_apply, hf, freezeEntry_eq, hn, Option.getD_some, ← hn, ← hfrozen.1]
  rw [freezeAccountGate_modifyEntry, upsert_eq_self hbuf hentry, erase_eq_self hcounts]

/-- A repeated confirmation changes nothing while the entry carries the mark. -/
theorem apply_slotConfirmed_eq_self {st : CoordinatorState R} {s : Slot} (h : st.MarksFrozen)
    (hmark : st.carriesMark (.slotConfirmed s) = true) : st.apply (.slotConfirmed s) = st := by
  cases hbuf : st.buffer[s]? with
  | none => simp [carriesMark, hbuf] at hmark
  | some buf =>
      have hreached : buf.instructionCommitmentReached = true := by
        simpa [carriesMark, hbuf] using hmark
      have hf : buf.markInstructionCommitmentReached = buf := by
        rw [SlotRecordBuffer.markInstructionCommitmentReached, ← hreached]
      simp only [apply]
      split
      · rfl
      · split
        · next hc =>
            have hfrozen := h.confirmed s buf hbuf hreached hc
            exact freezeAccountGate_modifyEntry_eq_self hbuf hf hfrozen (h.counts s buf hbuf hfrozen)
        · rw [modifyEntry, upsert_eq_self hbuf hf]

/-- A repeated finalization changes nothing while the entry carries the mark. -/
theorem apply_slotFinalized_eq_self {st : CoordinatorState R} {s : Slot} (h : st.MarksFrozen)
    (hmark : st.carriesMark (.slotFinalized s) = true) : st.apply (.slotFinalized s) = st := by
  cases hbuf : st.buffer[s]? with
  | none => simp [carriesMark, hbuf] at hmark
  | some buf =>
      have hmarked : buf.finalized = true := by simpa [carriesMark, hbuf] using hmark
      have hf : buf.markAsFinalized = buf := by
        rw [SlotRecordBuffer.markAsFinalized, ← hmarked]
      simp only [apply]
      split
      · rfl
      · next hc =>
          split
          · rfl
          · have hfrozen := h.finalized s buf hbuf hmarked
            rw [if_pos (show (st.modifyEntry s _).accountCommitAt = .finalized from
              Decidable.not_not.mp hc)]
            exact freezeAccountGate_modifyEntry_eq_self hbuf hf hfrozen (h.counts s buf hbuf hfrozen)

end CoordinatorState

/-- A call that does not change the state can be left out of a run, if it emits nothing. -/
theorem outputs_insert_apply {commitAt : AccountCommitAt} {front : List (Op R)}
    {e : CoordinatorEvent R} (h : (run commitAt front).apply e = run commitAt front)
    (back : List (Op R)) :
    instructionSlots commitAt (front ++ .apply e :: back) = instructionSlots commitAt (front ++ back) ∧
      accountSlots commitAt (front ++ .apply e :: back) = accountSlots commitAt (front ++ back) := by
  have hstep : exec step (.new commitAt) front = run commitAt front := rfl
  constructor
  · rw [instructionSlots, instructionSlots, outputs_append, outputs_append, outputs_cons, hstep,
      step, h]
    rfl
  · rw [accountSlots, accountSlots, outputs_append, outputs_append, outputs_cons, hstep, step, h]
    rfl

/-! ## Telling a confirmed entry from an unconfirmed one -/

/-- Discard the listed slots, then freeze an empty block for the slot. -/
def probe (below : List Slot) (s : Slot) : List (Op R) :=
  below.map (fun t => .apply (.slotDiscarded t .dead)) ++
    [.apply (.blockFrozen s (testMetadata 0 0))]

namespace CoordinatorState

theorem exec_discards (below : List Slot) (st : CoordinatorState R) :
    (∀ t, (exec step st (below.map fun t => .apply (.slotDiscarded t .dead))).buffer[t]? =
        if t ∈ below then none else st.buffer[t]?) ∧
      (exec step st (below.map fun t => .apply (.slotDiscarded t .dead))).lastInstructionFlushedSlot =
        st.lastInstructionFlushedSlot ∧
      (exec step st (below.map fun t => .apply (.slotDiscarded t .dead))).lastAccountFlushedSlot =
        st.lastAccountFlushedSlot := by
  induction below generalizing st with
  | nil => simp
  | cons d below ih =>
      obtain ⟨hbuffer, hinstruction, haccount⟩ := ih (st.apply (.slotDiscarded d .dead))
      simp only [List.map_cons, exec_cons, step]
      refine ⟨?_, by simpa using hinstruction, by simpa using haccount⟩
      intro t
      rw [hbuffer t, apply_slotDiscarded, getElem?_erase]
      by_cases ht : t = d <;> simp [ht]

/-- After the probe the slot is the head of line, with its old commitment mark. -/
theorem exec_probe {st : CoordinatorState R} {s : Slot} {below : List Slot}
    (hflushed : st.isAlreadyFlushed s = false) (hs : s ∉ below)
    (hbelow : ∀ t ∈ st.buffer.keys, t < s → t ∈ below) :
    (exec step st (probe below s)).buffer[s]? =
        some ((st.buffer[s]?.getD default).setBlockMetadata (testMetadata 0 0)) ∧
      (∀ t b, (exec step st (probe below s)).buffer[t]? = some b → ¬t < s) ∧
      (exec step st (probe below s)).lastInstructionFlushedSlot =
        st.lastInstructionFlushedSlot := by
  obtain ⟨hbuffer, hinstruction, haccount⟩ := exec_discards below st
  rw [probe, exec_concat]
  generalize hmid : exec step st (below.map fun t => .apply (.slotDiscarded t .dead)) = mid
  rw [hmid] at hbuffer hinstruction haccount
  have htouches : mid.touches (.blockFrozen s (testMetadata 0 0)) s := by
    have hsame : mid.isAlreadyFlushed s = st.isAlreadyFlushed s := by
      rw [isAlreadyFlushed, isAlreadyFlushed, hinstruction, haccount]
    exact ⟨rfl, rfl, by simp [accepts, hsame, hflushed]⟩
  refine ⟨?_, ?_, by simpa [step] using hinstruction⟩
  · rw [step, getElem?_apply_of_touches htouches, hbuffer s, if_neg hs]
    rfl
  · intro t b hb hlt
    have hother : ¬mid.touches (.blockFrozen s (testMetadata 0 0)) t := by
      rintro ⟨hslot, -⟩
      exact absurd hslot (Nat.ne_of_gt hlt)
    rw [step, getElem?_apply_of_not_touches hother (by simp), hbuffer t] at hb
    split at hb
    · cases hb
    · next hnot => exact hnot (hbelow t ((mem_keys_iff _ _).mpr ⟨b, hb⟩) hlt)

/-- A confirmed entry is emitted after the probe. -/
theorem emitted_after_probe {st : CoordinatorState R} {s : Slot} {below : List Slot}
    (hflushed : st.isAlreadyFlushed s = false) (hs : s ∉ below)
    (hbelow : ∀ t ∈ st.buffer.keys, t < s → t ∈ below)
    (hdrained : (st.buffer[s]?.getD default).instructionsDrained = false)
    (hconfirmed : (st.buffer[s]?.getD default).instructionCommitmentReached = true) :
    (exec step st (probe below s)).emittedInstructions .drainInstruction ≠ [] := by
  obtain ⟨hbuf, hnone, hlast⟩ := exec_probe hflushed hs hbelow
  generalize exec step st (probe below s) = probed at hbuf hnone hlast
  obtain ⟨mid, hex, -⟩ := probed.step_drainInstruction
  have hparent : probed.lastInstructionFlushedSlot = none ∨
      probed.parentOk (testMetadata 0 0).parentSlot = true := by
    cases hl : probed.lastInstructionFlushedSlot with
    | none => exact .inl rfl
    | some l => exact .inr (by simp [parentOk, behind, hl, testMetadata])
  obtain ⟨ix, st', hnext, -⟩ := exists_nextInstruction hbuf hdrained
    (fun t b hb hlt => absurd hlt (hnone t b hb)) rfl (Nat.zero_le _) hconfirmed hparent
  exact List.ne_nil_of_mem (hex.head_mem hnext)

/-- An unconfirmed entry stops the drain after the probe. -/
theorem stopped_after_probe {st : CoordinatorState R} {s : Slot} {below : List Slot}
    (hflushed : st.isAlreadyFlushed s = false) (hs : s ∉ below)
    (hbelow : ∀ t ∈ st.buffer.keys, t < s → t ∈ below)
    (hdrained : (st.buffer[s]?.getD default).instructionsDrained = false)
    (hconfirmed : (st.buffer[s]?.getD default).instructionCommitmentReached = false) :
    (exec step st (probe below s)).emittedInstructions .drainInstruction = [] := by
  obtain ⟨hbuf, hnone, -⟩ := exec_probe hflushed hs hbelow
  generalize exec step st (probe below s) = probed at hbuf hnone
  obtain ⟨mid, hex, -⟩ := probed.step_drainInstruction
  have hgate : ((st.buffer[s]?.getD default).setBlockMetadata
      (testMetadata 0 0)).instructionGateReached = false := by
    simp [SlotRecordBuffer.instructionGateReached, SlotRecordBuffer.setBlockMetadata, hconfirmed]
  have hstuck := nextInstruction_eq_none hbuf hdrained
    (fun t b hb hlt => absurd hlt (hnone t b hb)) hgate
  generalize probed.emittedInstructions .drainInstruction = outs at hex ⊢
  cases hex with
  | done _ => rfl
  | more first _ => simp [hstuck] at first

end CoordinatorState

theorem outputs_probe (st : CoordinatorState R) (below : List Slot) (s : Slot) :
    outputs step emittedInstructions st (probe below s) = [] := by
  rw [List.eq_nil_iff_forall_not_mem]
  intro ix hix
  obtain ⟨front, op, back, hsplit, hemit⟩ := (mem_outputs _ _).mp hix
  obtain ⟨rfl, -⟩ := mem_emittedInstructions hemit
  have hin : Op.drainInstruction ∈ (probe below s : List (Op R)) := by simp [hsplit]
  simp [probe] at hin

/-- A confirmation that is accepted without its mark can be told from its absence. -/
theorem probe_distinguishes {commitAt : AccountCommitAt} {front : List (Op R)} {s : Slot}
    (hflushed : (run commitAt front).isAlreadyFlushed s = false)
    (hmark : (run commitAt front).carriesMark (.slotConfirmed s) = false) :
    ∃ back, (∀ reason, .slotDiscarded s reason ∉ events back) ∧
      instructionSlots commitAt (front ++ .apply (.slotConfirmed s) :: back) ≠
        instructionSlots commitAt (front ++ back) := by
  have hmarks := marksFrozen commitAt front
  have hunconfirmed : ((run commitAt front).buffer[s]?.getD
      default).instructionCommitmentReached = false := by
    cases hbuf : (run commitAt front).buffer[s]? with
    | none => rfl
    | some buf => simpa [carriesMark, hbuf] using hmark
  have hundrained : ((run commitAt front).buffer[s]?.getD default).instructionsDrained = false := by
    cases hbuf : (run commitAt front).buffer[s]? with
    | none => rfl
    | some buf =>
        rw [hbuf, Option.getD_some] at hunconfirmed
        by_contra hdrained
        simp [hmarks.drained s buf hbuf (by simpa using hdrained)] at hunconfirmed
  have htouches : (run commitAt front).touches (.slotConfirmed s) s :=
    ⟨rfl, rfl, by simp [accepts, hflushed]⟩
  -- The probe discards what is buffered below the slot.
  refine ⟨probe ((run commitAt front).buffer.keys.filter (· < s)) s ++ [.drainInstruction], ?_, ?_⟩
  · intro reason hin
    simp [probe, events, Op.event?] at hin
  · have hs : s ∉ (run commitAt front).buffer.keys.filter (· < s) := by simp
    have hstopped := stopped_after_probe hflushed hs
      (fun t ht hlt => List.mem_filter.mpr ⟨ht, by simpa using hlt⟩) hundrained hunconfirmed
    have hemitted : (exec step ((run commitAt front).apply (.slotConfirmed s))
        (probe ((run commitAt front).buffer.keys.filter (· < s)) s)).emittedInstructions
          .drainInstruction ≠ [] := by
      refine emitted_after_probe ?_ hs ?_ ?_ ?_
      · simpa [isAlreadyFlushed] using hflushed
      · intro t ht hlt
        obtain ⟨b, hb⟩ := (mem_keys_iff _ _).mp ht
        rw [getElem?_apply_of_not_touches (fun h => absurd h.1 (Nat.ne_of_gt hlt)) (by simp)] at hb
        simpa [hlt] using (mem_keys_iff _ _).mpr ⟨b, hb⟩
      · rw [getElem?_apply_of_touches htouches, Option.getD_some, updateEntry_instructionsDrained]
        exact hundrained
      · rw [getElem?_apply_of_touches htouches, Option.getD_some,
          updateEntry_instructionCommitmentReached]
        exact .inl rfl
    intro heq
    rw [instructionSlots, instructionSlots, outputs_append, outputs_append, outputs_cons,
      outputs_concat, outputs_concat, outputs_probe, outputs_probe] at heq
    simp only [List.nil_append, List.append_cancel_left_eq] at heq
    exact hemitted (heq.trans hstopped)

/-- A repeated `SlotConfirmed` leaves the output of every continuation alone exactly when
both frontiers have passed the slot or its entry carries the mark. A repeated
`SlotFinalized` does so in the same two cases. -/
theorem repeated_commitment_harmless_iff (commitAt : AccountCommitAt) (front : List (Op R))
    (s : Slot) :
    ((∀ back, (∀ reason, .slotDiscarded s reason ∉ events back) →
        instructionSlots commitAt (front ++ .apply (.slotConfirmed s) :: back) =
            instructionSlots commitAt (front ++ back) ∧
          accountSlots commitAt (front ++ .apply (.slotConfirmed s) :: back) =
            accountSlots commitAt (front ++ back)) ↔
      (run commitAt front).isAlreadyFlushed s = true ∨
        (run commitAt front).carriesMark (.slotConfirmed s) = true) ∧
      ((run commitAt front).isAlreadyFlushed s = true ∨
          (run commitAt front).carriesMark (.slotFinalized s) = true →
        ∀ back, instructionSlots commitAt (front ++ .apply (.slotFinalized s) :: back) =
            instructionSlots commitAt (front ++ back) ∧
          accountSlots commitAt (front ++ .apply (.slotFinalized s) :: back) =
            accountSlots commitAt (front ++ back)) := by
  have hmarks := marksFrozen commitAt front
  refine ⟨⟨?_, ?_⟩, ?_⟩
  · intro hsame
    by_contra hneither
    simp only [not_or, Bool.not_eq_true] at hneither
    obtain ⟨back, hkept, hdiffer⟩ := probe_distinguishes hneither.1 hneither.2
    exact hdiffer (hsame back hkept).1
  · rintro hcases back -
    refine outputs_insert_apply ?_ back
    obtain hflushed | hmark := hcases
    · simp [CoordinatorState.apply, hflushed]
    · exact apply_slotConfirmed_eq_self hmarks hmark
  · intro hcases back
    refine outputs_insert_apply ?_ back
    obtain hflushed | hmark := hcases
    · simp [CoordinatorState.apply, hflushed]
    · exact apply_slotFinalized_eq_self hmarks hmark

/-- Slot 2 is drained on both sides, and the late slot 1 has moved the instruction
frontier back behind it. -/
def frontierMovedBackRun : List (Op Nat) :=
  applyReadySlot 2 1 0 ++ [.drainInstruction] ++ applyReadySlot 1 0 0 ++
    [.drainInstruction, .drainAccount]

/-- A second confirmation of slot 2 emits its accounts a second time. -/
theorem repeated_confirmation_emits_again :
    .slotConfirmed 2 ∈ events frontierMovedBackRun ∧
      (accountSlots .confirmed (frontierMovedBackRun ++ [.drainAccount])).map AccountSlot.slot =
        [1, 2] ∧
      (accountSlots .confirmed (frontierMovedBackRun ++
        .apply (.slotConfirmed 2) :: [.drainAccount])).map AccountSlot.slot = [1, 2, 2] := by
  decide +kernel

end Shipstern.BlockCoordinator
