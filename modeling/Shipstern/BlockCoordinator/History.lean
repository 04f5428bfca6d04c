import Shipstern.BlockCoordinator.Run

/-!
# The history behind a buffer entry

An entry is created by the first event that gets past its guard while the slot has none,
and lives until the slot is discarded or both of its sides were drained; a later event
may create it anew. `EntryLife` cuts a run at the creation of the current entry. What the
entry holds is a function of the events that were accepted since then (`EntryOf`), with
one exception: the number at which its account gate was frozen comes from the running
count at that moment (`FrozenAt`).
-/

open Std OrderedMap Machine

namespace Shipstern.BlockCoordinator

variable {R : Type}

namespace CoordinatorEvent

/-! ## What an event means for one slot -/

/-- The metadata of a `BlockFrozen` for the slot. -/
def metadata? (s : Slot) : CoordinatorEvent R → Option BlockMetadata
  | .blockFrozen slot metadata => if slot = s then some metadata else none
  | _ => none

/-- The event finishes a transaction of the slot. -/
def isTransactionParsed (s : Slot) : CoordinatorEvent R → Bool
  | .transactionParsed slot => slot = s
  | _ => false

/-- The event is a parse statistic of the given kind for the slot. -/
def isParseStat (s : Slot) (kind : ParseStatsKind) : CoordinatorEvent R → Bool
  | .parseStats slot kind' => slot = s && kind' = kind
  | _ => false

/-- The event is the outcome of one account update of the slot. -/
def isAccountOutcome (s : Slot) : CoordinatorEvent R → Bool
  | .accountRecordParsed slot _ _ => slot = s
  | .parseStats slot kind => slot = s && kind.isAccountStat
  | _ => false

/-- The instruction record that the event adds to the slot. -/
def instructionRecord? (s : Slot) : CoordinatorEvent R → Option (InstructionRecordSortKey × R)
  | .instructionRecordParsed slot key record => if slot = s then some (key, record) else none
  | _ => none

/-- The account record that the event adds to the slot. -/
def accountRecord? (s : Slot) : CoordinatorEvent R → Option (AccountRecordSortKey × R)
  | .accountRecordParsed slot key record => if slot = s then some (key, record) else none
  | _ => none

end CoordinatorEvent

/-- The counter that `incrementParseStat` advances for a kind. -/
def SlotRecordBuffer.statCount (buf : SlotRecordBuffer R) : ParseStatsKind → Nat
  | .instructionFiltered => buf.filteredInstructionCount
  | .instructionError => buf.failedInstructionCount
  | .accountFiltered => buf.filteredAccountCount
  | .accountError => buf.failedAccountCount
  | .transactionStatusFailed => buf.transactionStatusFailedCount
  | .transactionStatusSucceeded => buf.transactionStatusSucceededCount

namespace CoordinatorState

/-! ## Entries across one drain -/

theorem entry_of_drainInstruction {st : CoordinatorState R} {s : Slot} {buf : SlotRecordBuffer R}
    (h : (st.step .drainInstruction).buffer[s]? = some buf) :
    ∃ old, st.buffer[s]? = some old ∧ buf =
      if s ∈ (st.emittedInstructions .drainInstruction).map InstructionSlot.slot then
        old.takeInstructionRecords else old := by
  obtain ⟨mid, hdrain, hstep⟩ := st.step_instructionDrain
  have hmid : mid.buffer[s]? = some buf := entry_of_quiet_or_cleanup (hstep ▸ h)
  obtain ⟨old, hold, heq⟩ := Option.map_eq_some_iff.mp ((hdrain.entries s).symm.trans hmid)
  exact ⟨old, hold, heq.symm⟩

theorem entry_of_drainAccount {st : CoordinatorState R} {s : Slot} {buf : SlotRecordBuffer R}
    (h : (st.step .drainAccount).buffer[s]? = some buf) :
    ∃ old, st.buffer[s]? = some old ∧ buf =
      if s ∈ (st.emittedAccounts .drainAccount).map AccountSlot.slot then
        old.takeAccountRecords else old := by
  obtain ⟨mid, hdrain, hstep⟩ := st.step_accountDrain
  have hmid : mid.buffer[s]? = some buf := entry_of_quiet_or_cleanup (hstep ▸ h)
  obtain ⟨old, hold, heq⟩ := Option.map_eq_some_iff.mp ((hdrain.entries s).symm.trans hmid)
  exact ⟨old, hold, heq.symm⟩

/-- A drain removes nothing but fully drained entries. -/
theorem fullyDrained_of_drainInstruction {st : CoordinatorState R} {s : Slot}
    {old : SlotRecordBuffer R} (hold : st.buffer[s]? = some old)
    (h : (st.step .drainInstruction).buffer[s]? = none) :
    old.accountsDrained = true ∧ (old.instructionsDrained = true ∨
      s ∈ (st.emittedInstructions .drainInstruction).map InstructionSlot.slot) := by
  obtain ⟨mid, hdrain, hstep⟩ := st.step_instructionDrain
  have hmid := hdrain.entries s
  rw [hold, Option.map_some] at hmid
  rw [hstep] at h
  split at h
  · simp [hmid] at h
  · rw [getElem?_cleanupFullyDrained, hmid] at h
    split at h
    · next hin =>
        simp only [SlotRecordBuffer.isFullyDrained, SlotRecordBuffer.takeInstructionRecords,
          Option.filter_some] at h
        exact ⟨by simpa using h, .inr hin⟩
    · have hfull : old.isFullyDrained = true := by simpa [Option.filter_some] using h
      rw [SlotRecordBuffer.isFullyDrained, Bool.and_eq_true] at hfull
      exact ⟨hfull.2, .inl hfull.1⟩

theorem fullyDrained_of_drainAccount {st : CoordinatorState R} {s : Slot}
    {old : SlotRecordBuffer R} (hold : st.buffer[s]? = some old)
    (h : (st.step .drainAccount).buffer[s]? = none) :
    old.instructionsDrained = true ∧ (old.accountsDrained = true ∨
      s ∈ (st.emittedAccounts .drainAccount).map AccountSlot.slot) := by
  obtain ⟨mid, hdrain, hstep⟩ := st.step_accountDrain
  have hmid := hdrain.entries s
  rw [hold, Option.map_some] at hmid
  rw [hstep] at h
  split at h
  · simp [hmid] at h
  · rw [getElem?_cleanupFullyDrained, hmid] at h
    split at h
    · next hin =>
        simp only [SlotRecordBuffer.isFullyDrained, SlotRecordBuffer.takeAccountRecords,
          Option.filter_some] at h
        exact ⟨by simpa using h, .inr hin⟩
    · have hfull : old.isFullyDrained = true := by simpa [Option.filter_some] using h
      rw [SlotRecordBuffer.isFullyDrained, Bool.and_eq_true] at hfull
      exact ⟨hfull.1, .inl hfull.2⟩

/-! ## The fields of an updated entry -/

section Fields

variable (st : CoordinatorState R) (e : CoordinatorEvent R) (buf : SlotRecordBuffer R)

theorem updateEntry_metadata_or :
    (st.updateEntry e buf).metadata = (e.metadata? e.slot).or buf.metadata := by
  cases e with
  | blockFrozen slot metadata =>
      simp [updateEntry, SlotRecordBuffer.setBlockMetadata, CoordinatorEvent.metadata?,
        CoordinatorEvent.slot]
  | slotConfirmed slot =>
      rw [updateEntry_slotConfirmed_eq]
      rfl
  | slotFinalized slot =>
      rw [updateEntry_slotFinalized_eq]
      rfl
  | parseStats slot kind => cases kind <;> rfl
  | _ => rfl

theorem updateEntry_parsedTxCount :
    (st.updateEntry e buf).parsedTxCount =
      buf.parsedTxCount + (e.isTransactionParsed e.slot).toNat := by
  cases e with
  | transactionParsed slot =>
      simp [updateEntry, SlotRecordBuffer.incrementParsedTxCount,
        CoordinatorEvent.isTransactionParsed, CoordinatorEvent.slot]
  | slotConfirmed slot =>
      rw [updateEntry_slotConfirmed_eq]
      rfl
  | slotFinalized slot =>
      rw [updateEntry_slotFinalized_eq]
      rfl
  | parseStats slot kind => cases kind <;> rfl
  | _ => rfl

/-- Only the commitment event of the configured level freezes the account gate, and the
first one decides the expected count. -/
theorem updateEntry_expectedAccountCount (haccepts : st.accepts e = true) :
    e = .accountCommitment st.accountCommitAt e.slot ∧
        (st.updateEntry e buf).expectedAccountCount =
          some (buf.expectedAccountCount.getD (st.accountEventCounts[e.slot]?.getD 0)) ∧
        (st.updateEntry e buf).accountCommitmentReached = true ∨
      e ≠ .accountCommitment st.accountCommitAt e.slot ∧
        (st.updateEntry e buf).expectedAccountCount = buf.expectedAccountCount ∧
        (st.updateEntry e buf).accountCommitmentReached = buf.accountCommitmentReached := by
  cases e with
  | slotConfirmed slot =>
      rw [updateEntry_slotConfirmed_eq]
      cases hc : st.accountCommitAt <;>
        simp [CoordinatorEvent.accountCommitment, CoordinatorEvent.slot]
  | slotFinalized slot =>
      rw [updateEntry_slotFinalized_eq]
      have hc : st.accountCommitAt = .finalized := by
        simp only [accepts, Bool.and_eq_true, decide_eq_true_eq] at haccepts
        exact haccepts.1
      simp [CoordinatorEvent.accountCommitment, CoordinatorEvent.slot, hc]
  | parseStats slot kind =>
      refine .inr ⟨?_, by cases kind <;> rfl, by cases kind <;> rfl⟩
      cases st.accountCommitAt <;> simp [CoordinatorEvent.accountCommitment]
  | _ =>
      refine .inr ⟨?_, rfl, rfl⟩
      cases st.accountCommitAt <;> simp [CoordinatorEvent.accountCommitment]

theorem updateEntry_accountProcessedCount :
    (st.updateEntry e buf).accountProcessedCount =
      buf.accountProcessedCount + (e.isAccountOutcome e.slot).toNat := by
  cases e with
  | accountRecordParsed slot key record =>
      simp [updateEntry, SlotRecordBuffer.insertAccountRecord,
        SlotRecordBuffer.incrementAccountProcessedCount, CoordinatorEvent.isAccountOutcome,
        CoordinatorEvent.slot]
  | slotConfirmed slot =>
      rw [updateEntry_slotConfirmed_eq]
      rfl
  | slotFinalized slot =>
      rw [updateEntry_slotFinalized_eq]
      rfl
  | parseStats slot kind =>
      cases kind <;>
        simp [updateEntry, SlotRecordBuffer.incrementParseStat, ParseStatsKind.isAccountStat,
          SlotRecordBuffer.incrementAccountProcessedCount, CoordinatorEvent.isAccountOutcome,
          CoordinatorEvent.slot]
  | _ => rfl

theorem updateEntry_statCount (kind : ParseStatsKind) :
    (st.updateEntry e buf).statCount kind =
      buf.statCount kind + (e.isParseStat e.slot kind).toNat := by
  cases e with
  | slotConfirmed slot =>
      rw [updateEntry_slotConfirmed_eq]
      cases kind <;> rfl
  | slotFinalized slot =>
      rw [updateEntry_slotFinalized_eq]
      cases kind <;> rfl
  | parseStats slot kind' =>
      cases kind' <;> cases kind <;>
        simp [updateEntry, SlotRecordBuffer.incrementParseStat, ParseStatsKind.isAccountStat,
          SlotRecordBuffer.incrementAccountProcessedCount, CoordinatorEvent.isParseStat,
          SlotRecordBuffer.statCount, CoordinatorEvent.slot]
  | _ => cases kind <;> rfl

theorem updateEntry_instructionRecords :
    (st.updateEntry e buf).instructionRecords =
      match e.instructionRecord? e.slot with
      | some (key, record) => buf.instructionRecords.insert key record
      | none => buf.instructionRecords := by
  cases e with
  | instructionRecordParsed slot key record =>
      simp [updateEntry, SlotRecordBuffer.insertInstructionRecord,
        CoordinatorEvent.instructionRecord?, CoordinatorEvent.slot]
  | slotConfirmed slot =>
      rw [updateEntry_slotConfirmed_eq]
      rfl
  | slotFinalized slot =>
      rw [updateEntry_slotFinalized_eq]
      rfl
  | parseStats slot kind => cases kind <;> rfl
  | _ => rfl

theorem updateEntry_accountRecords :
    (st.updateEntry e buf).accountRecords =
      match e.accountRecord? e.slot with
      | some (key, record) => buf.accountRecords.insert key record
      | none => buf.accountRecords := by
  cases e with
  | accountRecordParsed slot key record =>
      simp [updateEntry, SlotRecordBuffer.insertAccountRecord,
        SlotRecordBuffer.incrementAccountProcessedCount, CoordinatorEvent.accountRecord?,
        CoordinatorEvent.slot]
  | slotConfirmed slot =>
      rw [updateEntry_slotConfirmed_eq]
      rfl
  | slotFinalized slot =>
      rw [updateEntry_slotFinalized_eq]
      rfl
  | parseStats slot kind => cases kind <;> rfl
  | _ => rfl

end Fields

/-! ## Accepted events -/

/-- The event of a call, if it gets past its guard. -/
def accepted (st : CoordinatorState R) : Op R → List (CoordinatorEvent R)
  | .apply e => if st.accepts e then [e] else []
  | .drainInstruction | .drainAccount => []

/-- The events of a list of calls that get past their guards. -/
def acceptedEvents (st : CoordinatorState R) (ops : List (Op R)) : List (CoordinatorEvent R) :=
  outputs step accepted st ops

end CoordinatorState

open CoordinatorState

/-! ## An entry as a function of events -/

/-- The entry of the slot is what a list of events made of it. A side that was drained
has lost its records. -/
structure EntryOf (s : Slot) (evs : List (CoordinatorEvent R)) (buf : SlotRecordBuffer R) :
    Prop where
  metadata : buf.metadata = (evs.filterMap (·.metadata? s)).getLast?
  parsedTx : buf.parsedTxCount = evs.countP (·.isTransactionParsed s)
  confirmed : buf.instructionCommitmentReached = true ↔ .slotConfirmed s ∈ evs
  processed : buf.accountProcessedCount = evs.countP (·.isAccountOutcome s)
  stats : ∀ kind, buf.statCount kind = evs.countP (·.isParseStat s kind)
  instructionRecords : buf.instructionsDrained = false →
    buf.instructionRecords = filled (evs.filterMap (·.instructionRecord? s))
  accountRecords : buf.accountsDrained = false →
    buf.accountRecords = filled (evs.filterMap (·.accountRecord? s))

namespace EntryOf

variable {s : Slot} {evs : List (CoordinatorEvent R)} {e : CoordinatorEvent R}
variable {buf : SlotRecordBuffer R}

theorem default : EntryOf s ([] : List (CoordinatorEvent R)) default := by
  refine ⟨rfl, rfl, ?_, rfl, ?_, fun _ => rfl, fun _ => rfl⟩
  · simp [Inhabited.default]
  · intro kind
    cases kind <;> rfl

theorem countP_concat (p : CoordinatorEvent R → Bool) (evs : List (CoordinatorEvent R))
    (e : CoordinatorEvent R) : (evs ++ [e]).countP p = evs.countP p + (p e).toNat := by
  cases h : p e <;> simp [List.countP_append, h]

/-- An accepted event of the slot is one more event behind the entry. -/
theorem touch (h : EntryOf s evs buf) (st : CoordinatorState R) (hs : e.slot = s) :
    EntryOf s (evs ++ [e]) (st.updateEntry e buf) := by
  subst hs
  refine ⟨?_, ?_, ?_, ?_, ?_, ?_, ?_⟩
  · rw [updateEntry_metadata_or, h.metadata, List.filterMap_append]
    cases hm : e.metadata? e.slot <;> simp [hm]
  · rw [updateEntry_parsedTxCount, countP_concat, h.parsedTx]
  · rw [updateEntry_instructionCommitmentReached, h.confirmed]
    simp [or_comm, eq_comm]
  · rw [updateEntry_accountProcessedCount, countP_concat, h.processed]
  · intro kind
    rw [updateEntry_statCount, countP_concat, h.stats]
  · intro hdrained
    rw [updateEntry_instructionsDrained] at hdrained
    rw [updateEntry_instructionRecords, h.instructionRecords hdrained, List.filterMap_append]
    cases hr : e.instructionRecord? e.slot with
    | none => simp [hr]
    | some binding => simp [hr, filled_concat]
  · intro hdrained
    rw [updateEntry_accountsDrained] at hdrained
    rw [updateEntry_accountRecords, h.accountRecords hdrained, List.filterMap_append]
    cases hr : e.accountRecord? e.slot with
    | none => simp [hr]
    | some binding => simp [hr, filled_concat]

/-- Events of other slots and events that stay outside the buffer do not matter. -/
theorem skip (h : EntryOf s evs buf) (hother : ¬(e.slot = s ∧ e.entersBuffer = true)) :
    EntryOf s (evs ++ [e]) buf := by
  have hevent : e.metadata? s = none ∧ e.isTransactionParsed s = false ∧
      e ≠ .slotConfirmed s ∧ e.isAccountOutcome s = false ∧
      (∀ kind, e.isParseStat s kind = false) ∧ e.instructionRecord? s = none ∧
      e.accountRecord? s = none := by
    cases e <;> simp_all [CoordinatorEvent.slot, CoordinatorEvent.entersBuffer,
      CoordinatorEvent.metadata?, CoordinatorEvent.isTransactionParsed,
      CoordinatorEvent.isAccountOutcome, CoordinatorEvent.isParseStat,
      CoordinatorEvent.instructionRecord?, CoordinatorEvent.accountRecord?]
  obtain ⟨hm, ht, hc, ho, hp, hi, ha⟩ := hevent
  refine ⟨?_, ?_, ?_, ?_, ?_, ?_, ?_⟩
  · simpa [hm] using h.metadata
  · simpa [countP_concat, ht] using h.parsedTx
  · simpa [hc.symm] using h.confirmed
  · simpa [countP_concat, ho] using h.processed
  · intro kind
    simpa [countP_concat, hp kind] using h.stats kind
  · intro hdrained
    simpa [hi] using h.instructionRecords hdrained
  · intro hdrained
    simpa [ha] using h.accountRecords hdrained

theorem takeInstruction (h : EntryOf s evs buf) : EntryOf s evs buf.takeInstructionRecords := by
  refine ⟨h.metadata, h.parsedTx, h.confirmed, h.processed, ?_, ?_, h.accountRecords⟩
  · intro kind
    rw [← h.stats kind]
    cases kind <;> rfl
  · intro hdrained
    simp [SlotRecordBuffer.takeInstructionRecords] at hdrained

theorem takeAccount (h : EntryOf s evs buf) : EntryOf s evs buf.takeAccountRecords := by
  refine ⟨h.metadata, h.parsedTx, h.confirmed, h.processed, ?_, h.instructionRecords, ?_⟩
  · intro kind
    rw [← h.stats kind]
    cases kind <;> rfl
  · intro hdrained
    simp [SlotRecordBuffer.takeAccountRecords] at hdrained

end EntryOf

/-! ## The life of an entry -/

/-- The current entry of the slot was created by the first call of `since` and was there
ever since. -/
structure EntryLife (commitAt : AccountCommitAt) (s : Slot) (before since : List (Op R)) :
    Prop where
  absent : (run commitAt before).buffer[s]? = none
  alive : ∀ front back, since = front ++ back → front ≠ [] →
    (run commitAt (before ++ front)).buffer[s]?.isSome

namespace EntryLife

variable {commitAt : AccountCommitAt} {s : Slot} {before since : List (Op R)}

theorem front {later : List (Op R)} (h : EntryLife commitAt s before (since ++ later)) :
    EntryLife commitAt s before since := by
  refine ⟨h.absent, ?_⟩
  rintro front back rfl hne
  exact h.alive front (back ++ later) (by simp) hne

theorem present {op : Op R} (h : EntryLife commitAt s before (since ++ [op])) :
    ∃ buf, ((run commitAt (before ++ since)).step op).buffer[s]? = some buf := by
  have halive := h.alive (since ++ [op]) [] (by simp) (by simp)
  rw [← List.append_assoc, run_concat] at halive
  exact Option.isSome_iff_exists.mp halive

/-- Every entry of a run has its life. -/
theorem exists_of_present {ops : List (Op R)} (h : (run commitAt ops).buffer[s]?.isSome) :
    ∃ before since, ops = before ++ since ∧ EntryLife commitAt s before since := by
  induction ops using List.reverseRecOn with
  | nil => simp [CoordinatorState.new] at h
  | append_singleton ops op ih =>
      cases hold : (run commitAt ops).buffer[s]? with
      | none =>
          refine ⟨ops, [op], rfl, hold, ?_⟩
          intro front back heq hne
          obtain ⟨rfl, rfl⟩ : front = [op] ∧ back = [] := by
            cases front with
            | nil => exact absurd rfl hne
            | cons a rest => simpa [eq_comm, and_assoc] using heq
          exact h
      | some old =>
          obtain ⟨before, since, rfl, life⟩ := ih (by simp [hold])
          refine ⟨before, since ++ [op], by simp, life.absent, ?_⟩
          intro front back heq hne
          obtain rfl | ⟨init, last, rfl⟩ := List.eq_nil_or_concat' back
          · rw [List.append_nil] at heq
            subst heq
            simpa using h
          · rw [← List.append_assoc] at heq
            exact life.alive front init (List.append_inj' heq rfl).1 hne

/-- Induction over the life of an entry. Its buffer starts as the default one and is
updated by the events that touch it and by the drains that emit the slot. -/
theorem induction {P : List (Op R) → SlotRecordBuffer R → Prop} (created : P [] default)
    (touched : ∀ since e buf, (run commitAt (before ++ since)).touches e s → P since buf →
      P (since ++ [.apply e]) ((run commitAt (before ++ since)).updateEntry e buf))
    (untouched : ∀ since e buf, ¬(run commitAt (before ++ since)).touches e s →
      (∀ reason, e ≠ .slotDiscarded s reason) → P since buf → P (since ++ [.apply e]) buf)
    (instruction : ∀ since buf, s ∈ ((run commitAt (before ++ since)).emittedInstructions
        .drainInstruction).map InstructionSlot.slot → P since buf →
      P (since ++ [.drainInstruction]) buf.takeInstructionRecords)
    (account : ∀ since buf, s ∈ ((run commitAt (before ++ since)).emittedAccounts
        .drainAccount).map AccountSlot.slot → P since buf →
      P (since ++ [.drainAccount]) buf.takeAccountRecords)
    (passed : ∀ since buf op, op.event? = none →
      s ∉ ((run commitAt (before ++ since)).emittedInstructions op).map InstructionSlot.slot →
      s ∉ ((run commitAt (before ++ since)).emittedAccounts op).map AccountSlot.slot →
      P since buf → P (since ++ [op]) buf)
    (life : EntryLife commitAt s before since) :
    P since ((run commitAt (before ++ since)).buffer[s]?.getD default) := by
  induction since using List.reverseRecOn with
  | nil => simpa [life.absent] using created
  | append_singleton since op ih =>
      have hP := ih life.front
      obtain ⟨buf, hbuf⟩ := life.present
      rw [← List.append_assoc, run_concat]
      cases op with
      | apply e =>
          have hne : ∀ reason, e ≠ .slotDiscarded s reason := by
            rintro reason rfl
            simp [step] at hbuf
          by_cases ht : (run commitAt (before ++ since)).touches e s
          · simpa [step, getElem?_apply_of_touches ht] using touched since e _ ht hP
          · simpa [step, getElem?_apply_of_not_touches ht hne] using untouched since e _ ht hne hP
      | drainInstruction =>
          obtain ⟨old, hold, rfl⟩ := entry_of_drainInstruction hbuf
          rw [hold, Option.getD_some] at hP
          rw [hbuf, Option.getD_some]
          split
          · next hin => exact instruction since old hin hP
          · next hout => exact passed since old _ rfl hout (by simp [emittedAccounts]) hP
      | drainAccount =>
          obtain ⟨old, hold, rfl⟩ := entry_of_drainAccount hbuf
          rw [hold, Option.getD_some] at hP
          rw [hbuf, Option.getD_some]
          split
          · next hin => exact account since old hin hP
          · next hout => exact passed since old _ rfl (by simp [emittedInstructions]) hout hP

/-- What is accepted was applied, in the same order. -/
theorem acceptedEvents_sublist (st : CoordinatorState R) (ops : List (Op R)) :
    (st.acceptedEvents ops).Sublist (events ops) := by
  induction ops generalizing st with
  | nil => exact .slnil
  | cons op ops ih =>
      rw [acceptedEvents, outputs_cons]
      cases op with
      | apply e =>
          rw [accepted, events_apply]
          split
          · exact (ih _).cons_cons e
          · exact (ih _).cons e
      | drainInstruction => exact ih _
      | drainAccount => exact ih _

theorem acceptedEvents_concat (since : List (Op R)) (op : Op R) :
    (run commitAt before).acceptedEvents (since ++ [op]) =
      (run commitAt before).acceptedEvents since ++
        (run commitAt (before ++ since)).accepted op := by
  rw [acceptedEvents, outputs_concat, run, run, exec_append]
  rfl

/-- The entry is what the events accepted since its creation made of it. -/
theorem entryOf (life : EntryLife commitAt s before since) :
    EntryOf s ((run commitAt before).acceptedEvents since)
      ((run commitAt (before ++ since)).buffer[s]?.getD default) := by
  refine life.induction
    (P := fun since buf => EntryOf s ((run commitAt before).acceptedEvents since) buf)
    .default ?_ ?_ ?_ ?_ ?_
  · intro since e buf ht h
    rw [acceptedEvents_concat, accepted, if_pos ht.2.2]
    exact h.touch _ ht.1
  · intro since e buf ht _ h
    rw [acceptedEvents_concat, accepted]
    split
    · next haccepts =>
        exact h.skip fun hboth => ht ⟨hboth.1, hboth.2, haccepts⟩
    · simpa using h
  · intro since buf _ h
    rw [acceptedEvents_concat, accepted, List.append_nil]
    exact h.takeInstruction
  · intro since buf _ h
    rw [acceptedEvents_concat, accepted, List.append_nil]
    exact h.takeAccount
  · intro since buf op hop _ _ h
    rw [acceptedEvents_concat]
    cases op with
    | apply e => simp [Op.event?] at hop
    | drainInstruction => simpa [accepted] using h
    | drainAccount => simpa [accepted] using h

/-- The account gate was frozen at the running count `n`, by the first commitment event
that was accepted since the entry was created. -/
def FrozenAt (commitAt : AccountCommitAt) (s : Slot) (before since : List (Op R)) (n : Nat) :
    Prop :=
  ∃ front back, since = front ++ .apply (.accountCommitment commitAt s) :: back ∧
    (run commitAt (before ++ front)).accepts (.accountCommitment commitAt s) = true ∧
    .accountCommitment commitAt s ∉ (run commitAt before).acceptedEvents front ∧
    (run commitAt (before ++ front)).accountEventCounts[s]?.getD 0 = n

theorem FrozenAt.concat {n : Nat} (h : FrozenAt commitAt s before since n) (op : Op R) :
    FrozenAt commitAt s before (since ++ [op]) n := by
  obtain ⟨front, back, rfl, hfrozen⟩ := h
  exact ⟨front, back ++ [op], by simp, hfrozen⟩

/-- The account gate of the entry and the accepted commitment events. -/
structure AccountGate (commitAt : AccountCommitAt) (s : Slot) (before since : List (Op R))
    (buf : SlotRecordBuffer R) : Prop where
  frozen : ∀ n, buf.expectedAccountCount = some n → FrozenAt commitAt s before since n
  isSome : buf.expectedAccountCount.isSome ↔
    .accountCommitment commitAt s ∈ (run commitAt before).acceptedEvents since
  reached : buf.accountCommitmentReached = buf.expectedAccountCount.isSome

theorem AccountGate.pass {buf : SlotRecordBuffer R}
    (h : AccountGate commitAt s before since buf) (op : Op R)
    (hop : .accountCommitment commitAt s ∉ (run commitAt (before ++ since)).accepted op) :
    AccountGate commitAt s before (since ++ [op]) buf := by
  refine ⟨fun n hn => (h.frozen n hn).concat op, ?_, h.reached⟩
  rw [h.isSome, acceptedEvents_concat, List.mem_append]
  simp [hop]

theorem accountGate (life : EntryLife commitAt s before since) :
    AccountGate commitAt s before since
      ((run commitAt (before ++ since)).buffer[s]?.getD default) := by
  refine life.induction (P := fun since buf => AccountGate commitAt s before since buf)
    ?_ ?_ ?_ ?_ ?_ ?_
  · exact ⟨by simp [Inhabited.default], by simp [Inhabited.default, acceptedEvents], rfl⟩
  · intro since e buf ht h
    obtain ⟨rfl, -, haccepts⟩ := ht
    rcases updateEntry_expectedAccountCount _ e buf haccepts with
      ⟨he, hexpected, hreached⟩ | ⟨he, hexpected, hreached⟩
    · rw [run_accountCommitAt] at he
      refine ⟨?_, ?_, ?_⟩
      · intro n hn
        rw [hexpected] at hn
        cases hold : buf.expectedAccountCount with
        | some m =>
            rw [hold, Option.getD_some] at hn
            exact (h.frozen n (hold.trans hn)).concat _
        | none =>
            rw [hold, Option.getD_none] at hn
            have hfirst : .accountCommitment commitAt e.slot ∉
                (run commitAt before).acceptedEvents since := by
              rw [← h.isSome, hold]
              simp
            exact ⟨since, [], by rw [← he], by rwa [← he], hfirst, Option.some.inj hn⟩
      · rw [hexpected, acceptedEvents_concat, accepted, if_pos haccepts]
        simp [← he]
      · rw [hreached, hexpected]
        rfl
    · rw [run_accountCommitAt] at he
      have hpass := h.pass (.apply e) (by simpa [accepted, haccepts] using he.symm)
      exact ⟨by simpa only [hexpected] using hpass.frozen,
        by simpa only [hexpected] using hpass.isSome, by rw [hreached, hexpected, h.reached]⟩
  · intro since e buf ht _ h
    refine h.pass _ ?_
    intro hin
    rw [accepted] at hin
    split at hin
    · next haccepts =>
        rw [List.mem_singleton] at hin
        subst hin
        exact ht ⟨by simp, by simp, haccepts⟩
    · simp at hin
  · intro since buf _ h
    exact ⟨fun n hn => (h.frozen n hn).concat _,
      (h.pass .drainInstruction (by simp [accepted])).isSome, h.reached⟩
  · intro since buf _ h
    exact ⟨fun n hn => (h.frozen n hn).concat _,
      (h.pass .drainAccount (by simp [accepted])).isSome, h.reached⟩
  · intro since buf op hop _ _ h
    refine h.pass _ ?_
    cases op with
    | apply e => simp [Op.event?] at hop
    | drainInstruction => simp [accepted]
    | drainAccount => simp [accepted]

end EntryLife

/-! ## Emissions and discards behind a state -/

section Traces

variable {commitAt : AccountCommitAt}

theorem mem_instructionSlots_concat {ops : List (Op R)} {op : Op R} {s : Slot} :
    s ∈ (instructionSlots commitAt (ops ++ [op])).map InstructionSlot.slot ↔
      s ∈ (instructionSlots commitAt ops).map InstructionSlot.slot ∨
        s ∈ ((run commitAt ops).emittedInstructions op).map InstructionSlot.slot := by
  rw [instructionSlots_concat, List.map_append, List.mem_append]

theorem mem_accountSlots_concat {ops : List (Op R)} {op : Op R} {s : Slot} :
    s ∈ (accountSlots commitAt (ops ++ [op])).map AccountSlot.slot ↔
      s ∈ (accountSlots commitAt ops).map AccountSlot.slot ∨
        s ∈ ((run commitAt ops).emittedAccounts op).map AccountSlot.slot := by
  rw [accountSlots_concat, List.map_append, List.mem_append]

theorem mem_instructionSlots_append {front : List (Op R)} {s : Slot}
    (h : s ∈ (instructionSlots commitAt front).map InstructionSlot.slot) (back : List (Op R)) :
    s ∈ (instructionSlots commitAt (front ++ back)).map InstructionSlot.slot := by
  obtain ⟨later, hlater⟩ := instructionSlots_append commitAt front back
  rw [hlater, List.map_append]
  exact List.mem_append_left _ h

/-- A drained side was emitted, and a tombstone comes from a discard. -/
structure Traced (ops : List (Op R)) (ixs : List (InstructionSlot R))
    (accts : List (AccountSlot R)) (st : CoordinatorState R) : Prop where
  instructions : ∀ (s : Slot) (buf : SlotRecordBuffer R), st.buffer[s]? = some buf →
    buf.instructionsDrained = true → s ∈ ixs.map InstructionSlot.slot
  accounts : ∀ (s : Slot) (buf : SlotRecordBuffer R), st.buffer[s]? = some buf →
    buf.accountsDrained = true → s ∈ accts.map AccountSlot.slot
  tombstones : ∀ d ∈ st.discardedSlots, ∃ reason, .slotDiscarded d reason ∈ events ops

namespace Traced

variable {ops : List (Op R)} {ixs : List (InstructionSlot R)} {accts : List (AccountSlot R)}
  {st st' : CoordinatorState R} {buf : SlotRecordBuffer R}

theorem apply (h : Traced ops ixs accts st) (e : CoordinatorEvent R) :
    Traced (ops ++ [.apply e]) ixs accts (st.apply e) := by
  refine ⟨?_, ?_, ?_⟩
  · intro s b hb hdrained
    obtain ⟨old, hold, hdrained'⟩ := mark_of_apply SlotRecordBuffer.instructionsDrained rfl
      (st.updateEntry_instructionsDrained e) hb hdrained
    exact h.instructions s old hold hdrained'
  · intro s b hb hdrained
    obtain ⟨old, hold, hdrained'⟩ := mark_of_apply SlotRecordBuffer.accountsDrained rfl
      (st.updateEntry_accountsDrained e) hb hdrained
    exact h.accounts s old hold hdrained'
  · intro d hd
    rw [events_append]
    obtain hold | ⟨reason, rfl⟩ := mem_discardedSlots_of_apply hd
    · obtain ⟨reason, hreason⟩ := h.tombstones d hold
      exact ⟨reason, List.mem_append_left _ hreason⟩
    · exact ⟨reason, by simp⟩

theorem flush {metadata : BlockMetadata} {ix : InstructionSlot R} (h : Traced ops ixs accts st)
    (flush : InstructionFlush st buf metadata ix st') : Traced ops (ixs ++ [ix]) accts st' := by
  refine ⟨?_, ?_, by rw [flush.result]; exact h.tombstones⟩
  · intro s b hb hdrained
    obtain ⟨rfl, -⟩ | ⟨-, hold⟩ := flush.entry hb
    · simp
    · simp [h.instructions s b hold hdrained]
  · intro s b hb hdrained
    obtain ⟨rfl, rfl⟩ | ⟨-, hold⟩ := flush.entry hb
    · exact h.accounts ix.slot buf flush.present hdrained
    · exact h.accounts s b hold hdrained

theorem flushAccount {acct : AccountSlot R} (h : Traced ops ixs accts st)
    (flush : AccountFlush st buf acct st') : Traced ops ixs (accts ++ [acct]) st' := by
  refine ⟨?_, ?_, by rw [flush.result]; exact h.tombstones⟩
  · intro s b hb hdrained
    obtain ⟨rfl, rfl⟩ | ⟨-, hold⟩ := flush.entry hb
    · exact h.instructions acct.slot buf flush.present hdrained
    · exact h.instructions s b hold hdrained
  · intro s b hb hdrained
    obtain ⟨rfl, -⟩ | ⟨-, hold⟩ := flush.entry hb
    · simp
    · simp [h.accounts s b hold hdrained]

theorem cleanup (h : Traced ops ixs accts st) : Traced ops ixs accts st.cleanupFullyDrained := by
  refine ⟨?_, ?_, ?_⟩
  · intro s b hb
    exact h.instructions s b (entry_of_cleanup hb).1
  · intro s b hb
    exact h.accounts s b (entry_of_cleanup hb).1
  · intro d hd
    rw [cleanupFullyDrained_discardedSlots] at hd
    exact h.tombstones d (mem_pruneDiscardedSlots.mp hd).1

theorem concat (h : Traced ops ixs accts st) (op : Op R) : Traced (ops ++ [op]) ixs accts st := by
  refine ⟨h.instructions, h.accounts, ?_⟩
  intro d hd
  obtain ⟨reason, hreason⟩ := h.tombstones d hd
  exact ⟨reason, by simp [hreason]⟩

end Traced

theorem traced (commitAt : AccountCommitAt) (ops : List (Op R)) :
    Traced ops (instructionSlots commitAt ops) (accountSlots commitAt ops) (run commitAt ops) := by
  refine run_induction (P := Traced) ?_ ?_ ?_ ?_ ?_ ?_ (Obeys.unrestricted ops)
  · exact ⟨by simp [new], by simp [new], by simp [new]⟩
  · intro ops e _ h
    exact h.apply e
  · intro ops ixs accts st buf metadata ix st' flush h
    exact h.flush flush
  · intro ops ixs accts st buf acct st' flush h
    exact h.flushAccount flush
  · intro ops ixs accts st h
    exact h.cleanup
  · intro ops op ixs accts st _ h
    exact h.concat op

/-- While its instruction side is not drained, the slot was not emitted since the entry
was created. -/
theorem EntryLife.instructions_pending {s : Slot} {before since : List (Op R)}
    (life : EntryLife commitAt s before since) {buf : SlotRecordBuffer R}
    (hbuf : (run commitAt (before ++ since)).buffer[s]? = some buf)
    (hdrained : buf.instructionsDrained = false)
    (hin : s ∈ (instructionSlots commitAt (before ++ since)).map InstructionSlot.slot) :
    s ∈ (instructionSlots commitAt before).map InstructionSlot.slot := by
  have key := life.induction (P := fun since buf => buf.instructionsDrained = false →
    s ∈ (instructionSlots commitAt (before ++ since)).map InstructionSlot.slot →
      s ∈ (instructionSlots commitAt before).map InstructionSlot.slot)
    (by simp) ?_ ?_ ?_ ?_ ?_
  · rw [hbuf, Option.getD_some] at key
    exact key hdrained hin
  · intro since e buf _ h hdrained hin
    rw [updateEntry_instructionsDrained] at hdrained
    rw [← List.append_assoc, mem_instructionSlots_concat] at hin
    exact h hdrained (hin.resolve_right (by simp [emittedInstructions]))
  · intro since e buf _ _ h hdrained hin
    rw [← List.append_assoc, mem_instructionSlots_concat] at hin
    exact h hdrained (hin.resolve_right (by simp [emittedInstructions]))
  · intro since buf _ _ hdrained
    simp [SlotRecordBuffer.takeInstructionRecords] at hdrained
  · intro since buf _ h hdrained hin
    rw [← List.append_assoc, mem_instructionSlots_concat] at hin
    exact h hdrained (hin.resolve_right (by simp [emittedInstructions]))
  · intro since buf op _ hout _ h hdrained hin
    rw [← List.append_assoc, mem_instructionSlots_concat] at hin
    exact h hdrained (hin.resolve_right hout)

/-- An entry stays until its slot is discarded or both of its sides were emitted. -/
theorem isSome_append {s : Slot} {front back : List (Op R)}
    (hpresent : (run commitAt front).buffer[s]?.isSome)
    (hkept : ∀ reason, .slotDiscarded s reason ∉ events back)
    (hpending : s ∉ (instructionSlots commitAt (front ++ back)).map InstructionSlot.slot ∨
      s ∉ (accountSlots commitAt (front ++ back)).map AccountSlot.slot) :
    (run commitAt (front ++ back)).buffer[s]?.isSome := by
  induction back using List.reverseRecOn with
  | nil => simpa using hpresent
  | append_singleton back op ih =>
      rw [← List.append_assoc] at hpending ⊢
      rw [mem_instructionSlots_concat, mem_accountSlots_concat] at hpending
      have hold := ih (fun reason hin => hkept reason (by simp [hin]))
        (hpending.imp (fun h hin => h (.inl hin)) (fun h hin => h (.inl hin)))
      rw [run_concat]
      obtain ⟨old, hbuf⟩ := Option.isSome_iff_exists.mp hold
      have htraced := traced commitAt (front ++ back)
      cases op with
      | apply e =>
          refine isSome_apply ?_ hold
          rintro reason rfl
          exact hkept reason (by simp)
      | drainInstruction =>
          by_contra hnone
          obtain ⟨ha, hi⟩ := fullyDrained_of_drainInstruction hbuf (by simpa using hnone)
          have hi' := hi.imp_left (htraced.instructions s old hbuf)
          exact hpending.elim (fun h => h hi') (fun h => h (.inl (htraced.accounts s old hbuf ha)))
      | drainAccount =>
          by_contra hnone
          obtain ⟨hi, ha⟩ := fullyDrained_of_drainAccount hbuf (by simpa using hnone)
          have ha' := ha.imp_left (htraced.accounts s old hbuf)
          exact hpending.elim (fun h => h (.inl (htraced.instructions s old hbuf hi)))
            (fun h => h ha')

end Traces

end Shipstern.BlockCoordinator
