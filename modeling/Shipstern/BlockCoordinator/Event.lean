import Shipstern.BlockCoordinator.State

/-!
# What one event does

Every event names one slot. Its guard either drops it or lets it through; an event that
is let through either updates the entry of its slot, or is one of the two that never
touch an entry (`SlotDiscarded`, which removes it, and `AccountEventSeen`, which counts
outside the buffer). `accepts` is the guard of the event and `updateEntry` its effect on
the entry. The lemmas below say once what `apply` does to each component of the state,
so that no later proof unfolds it.
-/

open Std OrderedMap

namespace Shipstern.BlockCoordinator

variable {R : Type}

namespace CoordinatorEvent

/-- The slot the event is about. -/
def slot : CoordinatorEvent R → Slot
  | .blockFrozen slot _ | .slotConfirmed slot | .slotFinalized slot | .slotDiscarded slot _
  | .accountEventSeen slot | .instructionRecordParsed slot _ _ | .accountRecordParsed slot _ _
  | .transactionParsed slot | .parseStats slot _ => slot

/-- The events that work on a buffer entry, creating it when it is absent. -/
def entersBuffer : CoordinatorEvent R → Bool
  | .slotDiscarded _ _ | .accountEventSeen _ => false
  | _ => true

/-- The commitment event that freezes the account gate at the configured level. -/
def accountCommitment (commitAt : AccountCommitAt) (slot : Slot) : CoordinatorEvent R :=
  match commitAt with
  | .confirmed => .slotConfirmed slot
  | .finalized => .slotFinalized slot

@[simp] theorem slot_accountCommitment (commitAt : AccountCommitAt) (s : Slot) :
    (accountCommitment commitAt s : CoordinatorEvent R).slot = s := by
  cases commitAt <;> rfl

@[simp] theorem entersBuffer_accountCommitment (commitAt : AccountCommitAt) (s : Slot) :
    (accountCommitment commitAt s : CoordinatorEvent R).entersBuffer = true := by
  cases commitAt <;> rfl

end CoordinatorEvent

namespace CoordinatorState

/-! ## Guards as propositions -/

theorem behind_iff {frontier : Option Slot} {slot : Slot} :
    behind frontier slot = true ↔ ∃ last, frontier = some last ∧ slot ≤ last := by
  cases frontier <;> simp [behind]

theorem not_behind_iff {frontier : Option Slot} {slot : Slot} :
    behind frontier slot = false ↔ ∀ last, frontier = some last → last < slot := by
  cases frontier <;> simp [behind]

theorem validateInstructionSlot_iff {st : CoordinatorState R} {slot : Slot} :
    st.validateInstructionSlot slot = true ↔
      slot ∉ st.discardedSlots ∧ behind st.lastInstructionFlushedSlot slot = false := by
  simp only [validateInstructionSlot]
  split
  · simp [*]
  · split <;> simp_all

theorem validateAccountSlot_iff {st : CoordinatorState R} {slot : Slot} :
    (st.validateAccountSlot slot).1 = true ↔
      slot ∉ st.discardedSlots ∧ behind st.lastAccountFlushedSlot slot = false ∧
        ∀ buf, st.buffer[slot]? = some buf → buf.accountsDrained = false := by
  simp only [validateAccountSlot]
  cases h : st.buffer[slot]? <;> split <;> try split
  all_goals simp_all
  split <;> simp_all

/-- The guard of an event: false when `apply` drops it. -/
def accepts (st : CoordinatorState R) : CoordinatorEvent R → Bool
  | .blockFrozen slot _ | .slotConfirmed slot => !st.isAlreadyFlushed slot
  | .slotFinalized slot => st.accountCommitAt = .finalized && !st.isAlreadyFlushed slot
  | .slotDiscarded _ _ => true
  | .accountEventSeen slot =>
      !st.isAlreadyFlushed slot && slot ∉ st.discardedSlots &&
        !st.buffer[slot]?.any fun buf => buf.accountGateReached || st.isAccountGateFrozen slot
  | .instructionRecordParsed slot _ _ | .transactionParsed slot =>
      st.validateInstructionSlot slot
  | .accountRecordParsed slot _ _ => (st.validateAccountSlot slot).1
  | .parseStats slot kind =>
      if kind.isAccountStat then (st.validateAccountSlot slot).1
      else st.validateInstructionSlot slot

/-- The update of the entry by `freeze_account_gate`. -/
def freezeEntry (st : CoordinatorState R) (slot : Slot) (buf : SlotRecordBuffer R) :
    SlotRecordBuffer R :=
  (buf.setExpectedAccountCount (st.accountEventCounts[slot]?.getD 0)).markAccountCommitmentReached

/-- The update that an accepted event makes to the entry of its slot. -/
def updateEntry (st : CoordinatorState R) (e : CoordinatorEvent R) (buf : SlotRecordBuffer R) :
    SlotRecordBuffer R :=
  match e with
  | .blockFrozen _ metadata => buf.setBlockMetadata metadata
  | .slotConfirmed slot =>
      if st.accountCommitAt = .confirmed then
        st.freezeEntry slot buf.markInstructionCommitmentReached
      else buf.markInstructionCommitmentReached
  | .slotFinalized slot => st.freezeEntry slot buf.markAsFinalized
  | .slotDiscarded _ _ | .accountEventSeen _ => buf
  | .instructionRecordParsed _ key record => buf.insertInstructionRecord key record
  | .accountRecordParsed _ key record =>
      (buf.insertAccountRecord key record).incrementAccountProcessedCount
  | .transactionParsed _ => buf.incrementParsedTxCount
  | .parseStats _ kind =>
      if kind.isAccountStat then (buf.incrementParseStat kind).incrementAccountProcessedCount
      else buf.incrementParseStat kind

/-! ## Updates of an entry -/

/-- Freezing sets the expected count if it is still open and marks the commitment. -/
theorem freezeEntry_eq (st : CoordinatorState R) (slot : Slot) (buf : SlotRecordBuffer R) :
    st.freezeEntry slot buf =
      { buf with
        expectedAccountCount :=
          some (buf.expectedAccountCount.getD (st.accountEventCounts[slot]?.getD 0))
        accountCommitmentReached := true } := by
  cases h : buf.expectedAccountCount <;>
    simp [freezeEntry, SlotRecordBuffer.setExpectedAccountCount, h,
      SlotRecordBuffer.markAccountCommitmentReached]

/-- A confirmation, in one record: the instruction commitment, and at that commitment
level the frozen account gate. -/
theorem updateEntry_slotConfirmed_eq (st : CoordinatorState R) (slot : Slot)
    (buf : SlotRecordBuffer R) :
    st.updateEntry (.slotConfirmed slot) buf =
      { buf with
        instructionCommitmentReached := true
        expectedAccountCount := if st.accountCommitAt = .confirmed then
            some (buf.expectedAccountCount.getD (st.accountEventCounts[slot]?.getD 0))
          else buf.expectedAccountCount
        accountCommitmentReached :=
          st.accountCommitAt = .confirmed || buf.accountCommitmentReached } := by
  by_cases hc : st.accountCommitAt = .confirmed <;>
    simp [updateEntry, hc, freezeEntry_eq, SlotRecordBuffer.markInstructionCommitmentReached]

theorem updateEntry_slotFinalized_eq (st : CoordinatorState R) (slot : Slot)
    (buf : SlotRecordBuffer R) :
    st.updateEntry (.slotFinalized slot) buf =
      { buf with
        finalized := true
        expectedAccountCount :=
          some (buf.expectedAccountCount.getD (st.accountEventCounts[slot]?.getD 0))
        accountCommitmentReached := true } := by
  simp only [updateEntry, freezeEntry_eq, SlotRecordBuffer.markAsFinalized]

theorem updateEntry_instructionsDrained (st : CoordinatorState R) (e : CoordinatorEvent R)
    (buf : SlotRecordBuffer R) :
    (st.updateEntry e buf).instructionsDrained = buf.instructionsDrained := by
  cases e with
  | slotConfirmed slot => rw [updateEntry_slotConfirmed_eq]
  | slotFinalized slot => rw [updateEntry_slotFinalized_eq]
  | parseStats slot kind => cases kind <;> rfl
  | _ => rfl

theorem updateEntry_accountsDrained (st : CoordinatorState R) (e : CoordinatorEvent R)
    (buf : SlotRecordBuffer R) :
    (st.updateEntry e buf).accountsDrained = buf.accountsDrained := by
  cases e with
  | slotConfirmed slot => rw [updateEntry_slotConfirmed_eq]
  | slotFinalized slot => rw [updateEntry_slotFinalized_eq]
  | parseStats slot kind => cases kind <;> rfl
  | _ => rfl

/-- Only a `BlockFrozen` writes the metadata. -/
theorem updateEntry_metadata (st : CoordinatorState R) (e : CoordinatorEvent R)
    (buf : SlotRecordBuffer R) :
    (∃ m, e = .blockFrozen e.slot m ∧ (st.updateEntry e buf).metadata = some m) ∨
      (∀ m, e ≠ .blockFrozen e.slot m) ∧ (st.updateEntry e buf).metadata = buf.metadata := by
  cases e with
  | blockFrozen slot m => exact .inl ⟨m, rfl, rfl⟩
  | slotConfirmed slot => exact .inr ⟨by simp, by rw [updateEntry_slotConfirmed_eq]⟩
  | slotFinalized slot => exact .inr ⟨by simp, by rw [updateEntry_slotFinalized_eq]⟩
  | parseStats slot kind => exact .inr ⟨by simp, by cases kind <;> rfl⟩
  | _ => exact .inr ⟨by simp, rfl⟩

/-- Only a `SlotConfirmed` marks the instruction commitment. -/
theorem updateEntry_instructionCommitmentReached (st : CoordinatorState R)
    (e : CoordinatorEvent R) (buf : SlotRecordBuffer R) :
    (st.updateEntry e buf).instructionCommitmentReached = true ↔
      e = .slotConfirmed e.slot ∨ buf.instructionCommitmentReached = true := by
  cases e with
  | slotConfirmed slot => simp [updateEntry_slotConfirmed_eq, CoordinatorEvent.slot]
  | slotFinalized slot => simp [updateEntry_slotFinalized_eq]
  | parseStats slot kind => cases kind <;> simp [updateEntry, ParseStatsKind.isAccountStat,
      SlotRecordBuffer.incrementParseStat, SlotRecordBuffer.incrementAccountProcessedCount]
  | _ => simp [updateEntry, SlotRecordBuffer.setBlockMetadata,
      SlotRecordBuffer.insertInstructionRecord, SlotRecordBuffer.insertAccountRecord,
      SlotRecordBuffer.incrementAccountProcessedCount, SlotRecordBuffer.incrementParsedTxCount]

/-! ## The effect of `apply` -/

theorem validateAccountSlot_true {st st' : CoordinatorState R} {slot : Slot}
    (h : st.validateAccountSlot slot = (true, st')) : st' = st := by
  simp only [validateAccountSlot] at h
  split at h
  · simp at h
  · split at h
    · simp at h
    · split at h
      · simp at h
      · simpa using h.symm

/-- The guard writes nothing but its drop counter. -/
theorem validateAccountSlot_snd (st : CoordinatorState R) (slot : Slot) :
    ∃ drops, (st.validateAccountSlot slot).2 = { st with lateAccountRecordDrops := drops } := by
  simp only [validateAccountSlot]
  split
  · exact ⟨_, rfl⟩
  · split
    · exact ⟨_, rfl⟩
    · split
      · exact ⟨_, rfl⟩
      · exact ⟨_, rfl⟩

/-- An account event is an entry update behind its guard, up to the drop counter. -/
theorem account_event_eq (st : CoordinatorState R) (slot : Slot)
    (f : SlotRecordBuffer R → SlotRecordBuffer R) :
    ∃ drops, (match st.validateAccountSlot slot with
        | (false, st) => st
        | (true, st) => st.modifyEntry slot f) =
      { st with
        buffer := if (st.validateAccountSlot slot).1 then upsert st.buffer slot f else st.buffer
        lateAccountRecordDrops := drops } := by
  obtain ⟨drops, hdrops⟩ := st.validateAccountSlot_snd slot
  cases hv : st.validateAccountSlot slot with
  | mk ok mid =>
      rw [hv] at hdrops
      cases ok with
      | false => exact ⟨drops, by simpa using hdrops⟩
      | true =>
          cases validateAccountSlot_true hv
          exact ⟨st.lateAccountRecordDrops, by simp [modifyEntry]⟩

theorem freezeAccountGate_modifyEntry (st : CoordinatorState R) (slot : Slot)
    (f : SlotRecordBuffer R → SlotRecordBuffer R) :
    (st.modifyEntry slot f).freezeAccountGate slot =
      { st with
        buffer := upsert st.buffer slot (st.freezeEntry slot ∘ f)
        accountEventCounts := st.accountEventCounts.erase slot } := by
  simp only [freezeAccountGate, modifyEntry, upsert_upsert]
  rfl

/-- The running account count that `apply` leaves for a slot. -/
def countsAfter (st : CoordinatorState R) (e : CoordinatorEvent R) : ExtTreeMap Slot Nat :=
  match e with
  | .slotConfirmed slot =>
      if st.accountCommitAt = .confirmed then st.accountEventCounts.erase slot
      else st.accountEventCounts
  | .slotFinalized slot => st.accountEventCounts.erase slot
  | .slotDiscarded slot _ => st.accountEventCounts.erase slot
  | .accountEventSeen slot =>
      st.accountEventCounts.insert slot (st.accountEventCounts[slot]?.getD 0 + 1)
  | _ => st.accountEventCounts

theorem updateEntry_slotConfirmed {st : CoordinatorState R} (slot : Slot)
    (h : st.accountCommitAt = .confirmed) :
    st.updateEntry (.slotConfirmed slot) =
      st.freezeEntry slot ∘ SlotRecordBuffer.markInstructionCommitmentReached := by
  funext buf
  simp [updateEntry, h]

theorem updateEntry_slotConfirmed_of_ne {st : CoordinatorState R} (slot : Slot)
    (h : st.accountCommitAt ≠ .confirmed) :
    st.updateEntry (.slotConfirmed slot) =
      SlotRecordBuffer.markInstructionCommitmentReached := by
  funext buf
  simp [updateEntry, h]

theorem updateEntry_accountStat {st : CoordinatorState R} (slot : Slot) {kind : ParseStatsKind}
    (h : kind.isAccountStat = true) :
    st.updateEntry (.parseStats slot kind) =
      fun buf => (buf.incrementParseStat kind).incrementAccountProcessedCount := by
  funext buf
  simp [updateEntry, h]

theorem updateEntry_instructionStat {st : CoordinatorState R} (slot : Slot)
    {kind : ParseStatsKind} (h : kind.isAccountStat = false) :
    st.updateEntry (.parseStats slot kind) = fun buf => buf.incrementParseStat kind := by
  funext buf
  simp [updateEntry, h]

/-- Every event that is not a discard, in one equation. -/
theorem apply_eq (st : CoordinatorState R) {e : CoordinatorEvent R}
    (h : ∀ slot reason, e ≠ .slotDiscarded slot reason) :
    ∃ recordDrops eventDrops, st.apply e =
      { st with
        buffer := if st.accepts e && e.entersBuffer then
            upsert st.buffer e.slot (st.updateEntry e) else st.buffer
        accountEventCounts := if st.accepts e then st.countsAfter e else st.accountEventCounts
        lateAccountRecordDrops := recordDrops
        lateAccountEventDrops := eventDrops } := by
  cases e with
  | blockFrozen slot metadata =>
      refine ⟨st.lateAccountRecordDrops, st.lateAccountEventDrops, ?_⟩
      cases hf : st.isAlreadyFlushed slot
      · simp [apply, accepts, hf, CoordinatorEvent.entersBuffer, CoordinatorEvent.slot,
          countsAfter, modifyEntry]
        rfl
      · simp [apply, accepts, hf]
  | slotConfirmed slot =>
      refine ⟨st.lateAccountRecordDrops, st.lateAccountEventDrops, ?_⟩
      cases hf : st.isAlreadyFlushed slot
      · by_cases hc : st.accountCommitAt = .confirmed
        · have hc' : (st.modifyEntry slot
            SlotRecordBuffer.markInstructionCommitmentReached).accountCommitAt = .confirmed := hc
          simp only [apply, hf, Bool.false_eq_true, if_false, if_pos hc',
            freezeAccountGate_modifyEntry]
          simp [accepts, hf, CoordinatorEvent.entersBuffer, CoordinatorEvent.slot, countsAfter,
            hc, updateEntry_slotConfirmed slot hc]
        · have hc' : ¬(st.modifyEntry slot
            SlotRecordBuffer.markInstructionCommitmentReached).accountCommitAt = .confirmed := hc
          simp only [apply, hf, Bool.false_eq_true, if_false, if_neg hc']
          simp [accepts, hf, CoordinatorEvent.entersBuffer, CoordinatorEvent.slot, countsAfter,
            hc, updateEntry_slotConfirmed_of_ne slot hc, modifyEntry]
      · simp [apply, accepts, hf]
  | slotFinalized slot =>
      refine ⟨st.lateAccountRecordDrops, st.lateAccountEventDrops, ?_⟩
      by_cases hc : st.accountCommitAt = .finalized
      · cases hf : st.isAlreadyFlushed slot
        · have hc' : (st.modifyEntry slot
            SlotRecordBuffer.markAsFinalized).accountCommitAt = .finalized := hc
          simp only [apply, hc, ne_eq, not_true_eq_false, hf, Bool.false_eq_true, if_false,
            if_pos hc', freezeAccountGate_modifyEntry]
          simp [accepts, hf, CoordinatorEvent.entersBuffer, CoordinatorEvent.slot, countsAfter, hc]
          rfl
        · simp [apply, accepts, hf]
      · simp [apply, accepts, hc]
  | slotDiscarded slot reason => exact absurd rfl (h slot reason)
  | accountEventSeen slot =>
      simp only [apply, accepts, CoordinatorEvent.entersBuffer, Bool.and_false,
        Bool.false_eq_true, if_false, countsAfter]
      split
      · exact ⟨st.lateAccountRecordDrops, st.lateAccountEventDrops, by simp [*]⟩
      · split
        · exact ⟨st.lateAccountRecordDrops, st.lateAccountEventDrops, by simp [*]⟩
        · split
          · exact ⟨st.lateAccountRecordDrops, st.lateAccountEventDrops + 1, by simp [*]⟩
          · exact ⟨st.lateAccountRecordDrops, st.lateAccountEventDrops, by simp_all⟩
  | instructionRecordParsed slot key record =>
      refine ⟨st.lateAccountRecordDrops, st.lateAccountEventDrops, ?_⟩
      cases hv : st.validateInstructionSlot slot
      · simp [apply, accepts, hv]
      · simp [apply, accepts, hv, CoordinatorEvent.entersBuffer, CoordinatorEvent.slot,
          countsAfter, modifyEntry]
        rfl
  | accountRecordParsed slot key record =>
      obtain ⟨drops, hdrops⟩ := st.account_event_eq slot
        (st.updateEntry (.accountRecordParsed slot key record))
      refine ⟨drops, st.lateAccountEventDrops, hdrops.trans ?_⟩
      cases hv : (st.validateAccountSlot slot).1 <;>
        simp [accepts, hv, CoordinatorEvent.entersBuffer, CoordinatorEvent.slot, countsAfter]
  | transactionParsed slot =>
      refine ⟨st.lateAccountRecordDrops, st.lateAccountEventDrops, ?_⟩
      cases hv : st.validateInstructionSlot slot
      · simp [apply, accepts, hv]
      · simp [apply, accepts, hv, CoordinatorEvent.entersBuffer, CoordinatorEvent.slot,
          countsAfter, modifyEntry]
        rfl
  | parseStats slot kind =>
      cases hk : kind.isAccountStat
      · refine ⟨st.lateAccountRecordDrops, st.lateAccountEventDrops, ?_⟩
        cases hv : st.validateInstructionSlot slot <;>
          simp [apply, accepts, hk, hv, CoordinatorEvent.entersBuffer, CoordinatorEvent.slot,
            countsAfter, modifyEntry, updateEntry_instructionStat slot hk]
      · obtain ⟨drops, hdrops⟩ := st.account_event_eq slot
          (st.updateEntry (.parseStats slot kind))
        rw [updateEntry_accountStat slot hk] at hdrops
        refine ⟨drops, st.lateAccountEventDrops, Eq.trans (if_pos hk) (hdrops.trans ?_)⟩
        cases hv : (st.validateAccountSlot slot).1 <;>
          simp [accepts, hk, hv, CoordinatorEvent.entersBuffer, CoordinatorEvent.slot,
            countsAfter, updateEntry_accountStat slot hk]

/-! ## Tombstones -/

/-- The tombstones that `pruneDiscardedSlots` keeps. -/
theorem mem_pruneDiscardedSlots {st : CoordinatorState R} {d : Slot} :
    d ∈ st.pruneDiscardedSlots.discardedSlots ↔
      d ∈ st.discardedSlots ∧ ∀ last, st.lastFlushedSlot = some last →
        last - discardedSlotRetentionBehindFlush < d := by
  simp only [pruneDiscardedSlots]
  split
  · next last hlast => simp [hlast]
  · next hlast => simp [hlast]

/-- Pruning touches the tombstones only. -/
theorem pruneDiscardedSlots_eq (st : CoordinatorState R) :
    st.pruneDiscardedSlots =
      { st with discardedSlots := st.pruneDiscardedSlots.discardedSlots } := by
  simp only [pruneDiscardedSlots]
  split <;> rfl

/-- A discard, in one equation: tombstone put and pruned, count and entry removed. -/
theorem apply_slotDiscarded (st : CoordinatorState R) (slot : Slot) (reason : DiscardReason) :
    st.apply (.slotDiscarded slot reason) =
      { st with
        buffer := st.buffer.erase slot
        discardedSlots := ({ st with
          discardedSlots := insert slot st.discardedSlots } : CoordinatorState R)
            |>.pruneDiscardedSlots.discardedSlots
        accountEventCounts := st.accountEventCounts.erase slot } := by
  simp only [apply, discardSlot, pruneDiscardedSlots, lastFlushedSlot]
  cases st.lastInstructionFlushedSlot <;> cases st.lastAccountFlushedSlot <;> rfl

theorem slotDiscarded_or (e : CoordinatorEvent R) :
    (∃ slot reason, e = .slotDiscarded slot reason) ∨
      ∀ slot reason, e ≠ .slotDiscarded slot reason := by
  cases e <;> simp

/-! ## Components of the state after an event -/

@[simp] theorem apply_lastInstructionFlushedSlot (st : CoordinatorState R)
    (e : CoordinatorEvent R) :
    (st.apply e).lastInstructionFlushedSlot = st.lastInstructionFlushedSlot := by
  obtain ⟨slot, reason, rfl⟩ | h := slotDiscarded_or e
  · rw [apply_slotDiscarded]
  · obtain ⟨_, _, heq⟩ := apply_eq st h
    rw [heq]

@[simp] theorem apply_lastAccountFlushedSlot (st : CoordinatorState R) (e : CoordinatorEvent R) :
    (st.apply e).lastAccountFlushedSlot = st.lastAccountFlushedSlot := by
  obtain ⟨slot, reason, rfl⟩ | h := slotDiscarded_or e
  · rw [apply_slotDiscarded]
  · obtain ⟨_, _, heq⟩ := apply_eq st h
    rw [heq]

@[simp] theorem apply_accountCommitAt (st : CoordinatorState R) (e : CoordinatorEvent R) :
    (st.apply e).accountCommitAt = st.accountCommitAt := by
  obtain ⟨slot, reason, rfl⟩ | h := slotDiscarded_or e
  · rw [apply_slotDiscarded]
  · obtain ⟨_, _, heq⟩ := apply_eq st h
    rw [heq]

theorem apply_discardedSlots {st : CoordinatorState R} {e : CoordinatorEvent R}
    (h : ∀ slot reason, e ≠ .slotDiscarded slot reason) :
    (st.apply e).discardedSlots = st.discardedSlots := by
  obtain ⟨_, _, heq⟩ := apply_eq st h
  rw [heq]

/-- The event gets past its guard and works on the entry of its slot. -/
def touches (st : CoordinatorState R) (e : CoordinatorEvent R) (s : Slot) : Prop :=
  e.slot = s ∧ e.entersBuffer = true ∧ st.accepts e = true

theorem getElem?_apply_of_touches {st : CoordinatorState R} {e : CoordinatorEvent R} {s : Slot}
    (h : st.touches e s) :
    (st.apply e).buffer[s]? = some (st.updateEntry e (st.buffer[s]?.getD default)) := by
  obtain ⟨rfl, henters, haccepts⟩ := h
  have hne : ∀ slot reason, e ≠ .slotDiscarded slot reason := by
    rintro slot reason rfl
    simp [CoordinatorEvent.entersBuffer] at henters
  obtain ⟨_, _, heq⟩ := apply_eq st hne
  simp [heq, haccepts, henters, getElem?_upsert, ExtTreeMap.getD_eq_getD_getElem?]

/-- An event that does not touch an entry leaves it alone, unless it discards its slot. -/
theorem getElem?_apply_of_not_touches {st : CoordinatorState R} {e : CoordinatorEvent R}
    {s : Slot} (h : ¬st.touches e s) (hne : ∀ reason, e ≠ .slotDiscarded s reason) :
    (st.apply e).buffer[s]? = st.buffer[s]? := by
  obtain ⟨slot, reason, rfl⟩ | hd := slotDiscarded_or e
  · have hs : s ≠ slot := by
      rintro rfl
      exact hne reason rfl
    simp [apply_slotDiscarded, getElem?_erase, hs]
  · obtain ⟨_, _, heq⟩ := apply_eq st hd
    rw [heq]
    by_cases hs : s = e.slot
    · subst hs
      cases ha : st.accepts e
      · simp
      · cases hb : e.entersBuffer
        · simp
        · exact absurd ⟨rfl, hb, ha⟩ h
    · cases st.accepts e && e.entersBuffer <;> simp [getElem?_upsert, hs]

@[simp] theorem getElem?_apply_slotDiscarded (st : CoordinatorState R) (s : Slot)
    (reason : DiscardReason) : (st.apply (.slotDiscarded s reason)).buffer[s]? = none := by
  simp [apply_slotDiscarded]

/-- What the default entry does not have comes from an entry that is there. -/
theorem exists_of_getD_default {o : Option (SlotRecordBuffer R)} (p : SlotRecordBuffer R → Bool)
    (hdefault : p default = false) (h : p (o.getD default) = true) :
    ∃ buf, o = some buf ∧ p buf = true := by
  cases o with
  | none => simp [hdefault] at h
  | some buf => exact ⟨buf, rfl, h⟩

/-- Where an entry after an event comes from. -/
theorem entry_of_apply {st : CoordinatorState R} {e : CoordinatorEvent R} {s : Slot}
    {buf : SlotRecordBuffer R} (h : (st.apply e).buffer[s]? = some buf) :
    (¬st.touches e s ∧ st.buffer[s]? = some buf) ∨
      (st.touches e s ∧ buf = st.updateEntry e (st.buffer[s]?.getD default)) := by
  by_cases ht : st.touches e s
  · rw [getElem?_apply_of_touches ht] at h
    exact .inr ⟨ht, (Option.some.inj h).symm⟩
  · refine .inl ⟨ht, ?_⟩
    rw [getElem?_apply_of_not_touches ht] at h
    · exact h
    · rintro reason rfl
      simp at h

/-- A mark that the event does not write was there before. -/
theorem mark_of_apply {st : CoordinatorState R} {e : CoordinatorEvent R} {s : Slot}
    {buf : SlotRecordBuffer R} (p : SlotRecordBuffer R → Bool) (hdefault : p default = false)
    (hkept : ∀ b, p (st.updateEntry e b) = p b) (h : (st.apply e).buffer[s]? = some buf)
    (hp : p buf = true) : ∃ old, st.buffer[s]? = some old ∧ p old = true := by
  obtain ⟨-, hold⟩ | ⟨-, rfl⟩ := entry_of_apply h
  · exact ⟨buf, hold, hp⟩
  · rw [hkept] at hp
    exact exists_of_getD_default p hdefault hp

/-- An entry survives every event but the discard of its slot. -/
theorem isSome_apply {st : CoordinatorState R} {e : CoordinatorEvent R} {s : Slot}
    (hne : ∀ reason, e ≠ .slotDiscarded s reason) (h : st.buffer[s]?.isSome) :
    (st.apply e).buffer[s]?.isSome := by
  by_cases ht : st.touches e s
  · simp [getElem?_apply_of_touches ht]
  · simpa [getElem?_apply_of_not_touches ht hne] using h

theorem mem_discardedSlots_of_apply {st : CoordinatorState R} {e : CoordinatorEvent R}
    {d : Slot} (h : d ∈ (st.apply e).discardedSlots) :
    d ∈ st.discardedSlots ∨ ∃ reason, e = .slotDiscarded d reason := by
  obtain ⟨slot, reason, rfl⟩ | hd := slotDiscarded_or e
  · rw [apply_slotDiscarded] at h
    obtain rfl | hold := Finset.mem_insert.mp (mem_pruneDiscardedSlots.mp h).1
    · exact .inr ⟨reason, rfl⟩
    · exact .inl hold
  · rw [apply_discardedSlots hd] at h
    exact .inl h

/-- The running account count after an event that is not a discard. -/
theorem apply_accountEventCounts {st : CoordinatorState R} {e : CoordinatorEvent R}
    (h : ∀ slot reason, e ≠ .slotDiscarded slot reason) :
    (st.apply e).accountEventCounts =
      if st.accepts e then st.countsAfter e else st.accountEventCounts := by
  obtain ⟨_, _, heq⟩ := apply_eq st h
  rw [heq]

end CoordinatorState

end Shipstern.BlockCoordinator
