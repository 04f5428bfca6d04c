import Shipstern.BlockCoordinator.Event
import Shipstern.Lib.Machine

/-!
# What a drain does

The source walks the keys of the buffer in ascending order, skips what is drained,
flushes what is ready and stops at the first entry that is neither. Said without the
loop: it repeatedly flushes the *head of line*, the lowest entry that is not yet drained,
until that entry is not ready. `nextInstruction` and `nextAccount` are one such flush,
and the two theorems `drainInstruction_exhausts` and `drainAccount_exhausts` show that
the loops of the source are exactly their repetition, followed by one cleanup when
something was flushed. In particular a drain never returns an error.

Everything that is proved about drains later uses one flush and the cleanup only.
-/

open Std OrderedMap Machine

namespace Shipstern.BlockCoordinator.CoordinatorState

variable {R : Type}

/-- The parent check of the instruction drain. -/
def parentOk (st : CoordinatorState R) (parent : Slot) : Bool :=
  behind st.lastInstructionFlushedSlot parent || parent ∈ st.discardedSlots

/-- The state after the instructions of one slot were flushed. -/
def flushInstruction (st : CoordinatorState R) (slot : Slot) (buf : SlotRecordBuffer R) :
    CoordinatorState R :=
  { st with
    buffer := st.buffer.insert slot buf.takeInstructionRecords
    lastInstructionFlushedSlot := some slot }

/-- Flush the instructions of the head of line, if its gate and its parent allow it. -/
def nextInstruction (st : CoordinatorState R) :
    Option (InstructionSlot R × CoordinatorState R) :=
  match headOfLine SlotRecordBuffer.instructionsDrained st.buffer with
  | none => none
  | some (slot, buf) =>
      if buf.instructionGateReached then
        (buf.drainInstructionRecords slot).bind fun (ix, _) =>
          if st.lastInstructionFlushedSlot.isNone || st.parentOk ix.parentSlot then
            some (ix, st.flushInstruction slot buf)
          else none
      else none

/-- The state after the accounts of one slot were flushed. -/
def flushAccount (st : CoordinatorState R) (slot : Slot) (buf : SlotRecordBuffer R) :
    CoordinatorState R :=
  { st with
    buffer := st.buffer.insert slot buf.takeAccountRecords
    lastAccountFlushedSlot := some slot }

/-- Flush the accounts of the head of line, if its gate allows it. -/
def nextAccount (st : CoordinatorState R) : Option (AccountSlot R × CoordinatorState R) :=
  match headOfLine SlotRecordBuffer.accountsDrained st.buffer with
  | none => none
  | some (slot, buf) =>
      if buf.accountGateReached then
        some ((buf.drainAccountRecords slot).1, st.flushAccount slot buf)
      else none

/-! ## One flush -/

/-- Everything that is known when the instructions of a slot are flushed: the entry and
its metadata, that it is the head of line, that gate and parent check passed, what is
emitted and the next state. -/
structure InstructionFlush (st : CoordinatorState R) (buf : SlotRecordBuffer R)
    (metadata : BlockMetadata) (ix : InstructionSlot R) (st' : CoordinatorState R) : Prop where
  present : st.buffer[ix.slot]? = some buf
  undrained : buf.instructionsDrained = false
  below : ∀ (t : Slot) (b : SlotRecordBuffer R),
    st.buffer[t]? = some b → t < ix.slot → b.instructionsDrained = true
  metadata_eq : buf.metadata = some metadata
  parsed : metadata.expectedTxCount ≤ buf.parsedTxCount
  confirmed : buf.instructionCommitmentReached = true
  parent : st.lastInstructionFlushedSlot = none ∨ st.parentOk metadata.parentSlot = true
  emitted : buf.drainInstructionRecords ix.slot = some (ix, buf.takeInstructionRecords)
  result : st' = st.flushInstruction ix.slot buf

theorem InstructionFlush.parentSlot_eq {st st' : CoordinatorState R} {buf : SlotRecordBuffer R}
    {metadata : BlockMetadata} {ix : InstructionSlot R}
    (flush : InstructionFlush st buf metadata ix st') : ix.parentSlot = metadata.parentSlot := by
  rw [SlotRecordBuffer.drainInstructionRecords_eq flush.metadata_eq flush.emitted]

/-- An entry after the flush is the flushed one, or was there before. -/
theorem InstructionFlush.entry {st st' : CoordinatorState R} {buf b : SlotRecordBuffer R}
    {metadata : BlockMetadata} {ix : InstructionSlot R} {s : Slot}
    (flush : InstructionFlush st buf metadata ix st') (h : st'.buffer[s]? = some b) :
    s = ix.slot ∧ b = buf.takeInstructionRecords ∨ s ≠ ix.slot ∧ st.buffer[s]? = some b := by
  rw [flush.result, flushInstruction, getElem?_insert] at h
  split at h
  · next heq => exact .inl ⟨heq, (Option.some.inj h).symm⟩
  · next hne => exact .inr ⟨hne, h⟩

theorem nextInstruction_eq_some {st st' : CoordinatorState R} {ix : InstructionSlot R} :
    st.nextInstruction = some (ix, st') ↔
      ∃ buf metadata, InstructionFlush st buf metadata ix st' := by
  constructor
  · intro h
    simp only [nextInstruction] at h
    split at h
    · simp at h
    · next slot buf hhead =>
        obtain ⟨hpresent, hundrained, hbelow⟩ := headOfLine_eq_some.mp hhead
        split at h
        · next hgate =>
            obtain ⟨metadata, hmeta, hparsed, hconfirmed⟩ :=
              buf.instructionGateReached_iff.mp hgate
            simp only [SlotRecordBuffer.drainInstructionRecords, hmeta, Option.map_some,
              Option.bind_some] at h
            split at h
            · next hparent =>
                obtain ⟨rfl, rfl⟩ := Prod.mk.inj (Option.some.inj h)
                refine ⟨buf, metadata, hpresent, hundrained, ?_, hmeta, hparsed, hconfirmed, ?_,
                  ?_, rfl⟩
                · intro t b ht hlt
                  exact hbelow t b ht (Nat.compare_eq_lt.mpr hlt)
                · simpa using hparent
                · simp [SlotRecordBuffer.drainInstructionRecords, hmeta]
            · simp at h
        · simp at h
  · rintro ⟨buf, metadata, flush⟩
    have hhead : headOfLine SlotRecordBuffer.instructionsDrained st.buffer =
        some (ix.slot, buf) :=
      headOfLine_eq_some.mpr ⟨flush.present, flush.undrained,
        fun t b ht hlt => flush.below t b ht (Nat.compare_eq_lt.mp hlt)⟩
    have hgate : buf.instructionGateReached = true :=
      buf.instructionGateReached_iff.mpr
        ⟨metadata, flush.metadata_eq, flush.parsed, flush.confirmed⟩
    have hparent : (st.lastInstructionFlushedSlot.isNone ||
        st.parentOk ix.parentSlot) = true := by
      simpa [flush.parentSlot_eq] using flush.parent
    simp only [nextInstruction, hhead, hgate, if_true, flush.emitted, Option.bind_some, hparent,
      flush.result]

/-- A head of line that passes its gate and its parent check is flushed. -/
theorem exists_nextInstruction {st : CoordinatorState R} {s : Slot} {buf : SlotRecordBuffer R}
    {metadata : BlockMetadata} (present : st.buffer[s]? = some buf)
    (undrained : buf.instructionsDrained = false)
    (below : ∀ (t : Slot) (b : SlotRecordBuffer R), st.buffer[t]? = some b → t < s →
      b.instructionsDrained = true)
    (metadata_eq : buf.metadata = some metadata)
    (parsed : metadata.expectedTxCount ≤ buf.parsedTxCount)
    (confirmed : buf.instructionCommitmentReached = true)
    (parent : st.lastInstructionFlushedSlot = none ∨ st.parentOk metadata.parentSlot = true) :
    ∃ ix st', st.nextInstruction = some (ix, st') ∧ ix.slot = s := by
  obtain ⟨ix, hix, rfl⟩ : ∃ ix,
      buf.drainInstructionRecords s = some (ix, buf.takeInstructionRecords) ∧ ix.slot = s := by
    simp [SlotRecordBuffer.drainInstructionRecords, metadata_eq]
  exact ⟨ix, st.flushInstruction ix.slot buf, nextInstruction_eq_some.mpr ⟨buf, metadata, present,
    undrained, below, metadata_eq, parsed, confirmed, parent, hix, rfl⟩, rfl⟩

/-- A head of line that is not ready stops the drain. -/
theorem nextInstruction_eq_none {st : CoordinatorState R} {s : Slot} {buf : SlotRecordBuffer R}
    (present : st.buffer[s]? = some buf) (undrained : buf.instructionsDrained = false)
    (below : ∀ (t : Slot) (b : SlotRecordBuffer R), st.buffer[t]? = some b → t < s →
      b.instructionsDrained = true)
    (gate : buf.instructionGateReached = false) : st.nextInstruction = none := by
  have hhead : headOfLine SlotRecordBuffer.instructionsDrained st.buffer = some (s, buf) :=
    headOfLine_eq_some.mpr ⟨present, undrained,
      fun t b ht hlt => below t b ht (Nat.compare_eq_lt.mp hlt)⟩
  simp [nextInstruction, hhead, gate]

/-- Everything that is known when the accounts of a slot are flushed. -/
structure AccountFlush (st : CoordinatorState R) (buf : SlotRecordBuffer R)
    (acct : AccountSlot R) (st' : CoordinatorState R) : Prop where
  present : st.buffer[acct.slot]? = some buf
  undrained : buf.accountsDrained = false
  below : ∀ (t : Slot) (b : SlotRecordBuffer R),
    st.buffer[t]? = some b → t < acct.slot → b.accountsDrained = true
  gate : buf.accountGateReached = true
  emitted : buf.drainAccountRecords acct.slot = (acct, buf.takeAccountRecords)
  result : st' = st.flushAccount acct.slot buf

/-- An entry after the flush is the flushed one, or was there before. -/
theorem AccountFlush.entry {st st' : CoordinatorState R} {buf b : SlotRecordBuffer R}
    {acct : AccountSlot R} {s : Slot} (flush : AccountFlush st buf acct st')
    (h : st'.buffer[s]? = some b) :
    s = acct.slot ∧ b = buf.takeAccountRecords ∨ s ≠ acct.slot ∧ st.buffer[s]? = some b := by
  rw [flush.result, flushAccount, getElem?_insert] at h
  split at h
  · next heq => exact .inl ⟨heq, (Option.some.inj h).symm⟩
  · next hne => exact .inr ⟨hne, h⟩

theorem nextAccount_eq_some {st st' : CoordinatorState R} {acct : AccountSlot R} :
    st.nextAccount = some (acct, st') ↔ ∃ buf, AccountFlush st buf acct st' := by
  constructor
  · intro h
    simp only [nextAccount] at h
    split at h
    · simp at h
    · next slot buf hhead =>
        obtain ⟨hpresent, hundrained, hbelow⟩ := headOfLine_eq_some.mp hhead
        split at h
        · next hgate =>
            obtain ⟨rfl, rfl⟩ := Prod.mk.inj (Option.some.inj h)
            refine ⟨buf, hpresent, hundrained, ?_, hgate, rfl, rfl⟩
            intro t b ht hlt
            exact hbelow t b ht (Nat.compare_eq_lt.mpr hlt)
        · simp at h
  · rintro ⟨buf, flush⟩
    have hhead : headOfLine SlotRecordBuffer.accountsDrained st.buffer = some (acct.slot, buf) :=
      headOfLine_eq_some.mpr ⟨flush.present, flush.undrained,
        fun t b ht hlt => flush.below t b ht (Nat.compare_eq_lt.mp hlt)⟩
    simp only [nextAccount, hhead, flush.gate, if_true, flush.emitted, flush.result]

/-! ## The loops -/

/-- A key of the walk whose predecessors are done is the head of line. -/
theorem below_of_walk {m : ExtTreeMap Slot (SlotRecordBuffer R)} {done : SlotRecordBuffer R → Bool}
    {walked slots : List Slot} {slot : Slot} (hkeys : m.keys = walked ++ slot :: slots)
    (hdone : ∀ k ∈ walked, ∀ b, m[k]? = some b → done b = true) (t : Slot)
    (b : SlotRecordBuffer R) (ht : m[t]? = some b) (hlt : t < slot) : done b = true := by
  have hmem : t ∈ m.keys := (mem_keys_iff m t).mpr ⟨b, ht⟩
  rw [hkeys] at hmem
  have hsorted := m.ordered_keys
  rw [hkeys] at hsorted
  obtain hin | hin := List.mem_append.mp hmem
  · exact hdone t hin b ht
  · have hle : slot ≤ t := by
      obtain rfl | hlater := List.mem_cons.mp hin
      · exact Nat.le_refl _
      · have := (List.pairwise_cons.mp (List.pairwise_append.mp hsorted).2.1).1 t hlater
        exact Nat.le_of_lt (Nat.compare_eq_lt.mp this)
    exact absurd hlt (Nat.not_lt.mpr hle)

/-- The walk of a map is at its head of line, or past a done entry. -/
theorem headOfLine_of_walk {m : ExtTreeMap Slot (SlotRecordBuffer R)}
    {done : SlotRecordBuffer R → Bool} {walked slots : List Slot} {slot : Slot}
    {buf : SlotRecordBuffer R} (hkeys : m.keys = walked ++ slot :: slots)
    (hdone : ∀ k ∈ walked, ∀ b, m[k]? = some b → done b = true)
    (hbuf : m[slot]? = some buf) (hopen : done buf = false) :
    headOfLine done m = some (slot, buf) :=
  headOfLine_eq_some.mpr ⟨hbuf, hopen,
    fun t b ht hlt => below_of_walk hkeys hdone t b ht (Nat.compare_eq_lt.mp hlt)⟩

/-- The walked part stays done when it grows by a done entry. -/
theorem walked_concat {m : ExtTreeMap Slot (SlotRecordBuffer R)}
    {done : SlotRecordBuffer R → Bool} {walked : List Slot} {slot : Slot}
    {buf : SlotRecordBuffer R} (hdone : ∀ k ∈ walked, ∀ b, m[k]? = some b → done b = true)
    (hbuf : m[slot]? = some buf) (hnew : done buf = true) :
    ∀ k ∈ walked ++ [slot], ∀ b, m[k]? = some b → done b = true := by
  intro k hk b hb
  obtain hin | hin := List.mem_append.mp hk
  · exact hdone k hin b hb
  · cases List.mem_singleton.mp hin
    rw [hbuf] at hb
    cases hb
    exact hnew

/-- The walked part stays done when the next entry is replaced by a done one. -/
theorem walked_insert {m : ExtTreeMap Slot (SlotRecordBuffer R)}
    {done : SlotRecordBuffer R → Bool} {walked : List Slot} {slot : Slot}
    {buf : SlotRecordBuffer R} (hdone : ∀ k ∈ walked, ∀ b, m[k]? = some b → done b = true)
    (hnew : done buf = true) :
    ∀ k ∈ walked ++ [slot], ∀ b, (m.insert slot buf)[k]? = some b → done b = true := by
  intro k hk b hb
  rw [getElem?_insert] at hb
  split at hb
  · cases hb
    exact hnew
  · next hne =>
      have hin : k ∈ walked := by simpa [hne] using hk
      exact hdone k hin b hb

/-- One iteration of the instruction loop at the head of line is one flush, or the end. -/
theorem drainInstructionLoop_head {st : CoordinatorState R} {slot : Slot}
    {buf : SlotRecordBuffer R}
    (hhead : headOfLine SlotRecordBuffer.instructionsDrained st.buffer = some (slot, buf))
    (slots : List Slot) (flushed : List (InstructionSlot R)) :
    drainInstructionLoop (slot :: slots) st flushed =
      match st.nextInstruction with
      | none => (.ok flushed, st)
      | some (ix, st') => drainInstructionLoop slots st' (flushed ++ [ix]) := by
  obtain ⟨hbuf, hdrained, -⟩ := headOfLine_eq_some.mp hhead
  cases hgate : buf.instructionGateReached with
  | false => simp [drainInstructionLoop, hbuf, hdrained, hgate, nextInstruction, hhead]
  | true =>
      obtain ⟨metadata, hmeta, -, -⟩ := buf.instructionGateReached_iff.mp hgate
      cases hlast : st.lastInstructionFlushedSlot with
      | none =>
          simp [drainInstructionLoop, hbuf, hdrained, hgate, nextInstruction, hhead,
            SlotRecordBuffer.parentSlot, SlotRecordBuffer.drainInstructionRecords, hmeta, hlast,
            flushInstruction]
      | some last =>
          by_cases hok : st.parentOk metadata.parentSlot = true
          · have hok' := hok
            simp only [parentOk, hlast] at hok'
            simp [drainInstructionLoop, hbuf, hdrained, hgate, nextInstruction, hhead,
              SlotRecordBuffer.parentSlot, SlotRecordBuffer.drainInstructionRecords, hmeta, hlast,
              flushInstruction, hok, hok']
          · have hok' := hok
            simp only [parentOk, hlast, Bool.not_eq_true] at hok'
            simp [drainInstructionLoop, hbuf, hdrained, hgate, nextInstruction, hhead,
              SlotRecordBuffer.parentSlot, SlotRecordBuffer.drainInstructionRecords, hmeta, hlast,
              hok, hok']

theorem drainInstructionLoop_exhausts (slots : List Slot) :
    ∀ (walked : List Slot) (st : CoordinatorState R) (flushed : List (InstructionSlot R)),
      st.buffer.keys = walked ++ slots →
      (∀ k ∈ walked, ∀ b, st.buffer[k]? = some b → b.instructionsDrained = true) →
      ∃ outs mid, drainInstructionLoop slots st flushed = (.ok (flushed ++ outs), mid) ∧
        Exhausts nextInstruction st outs mid := by
  induction slots with
  | nil =>
      intro walked st flushed hkeys hdone
      have hnone : headOfLine SlotRecordBuffer.instructionsDrained st.buffer = none := by
        rw [headOfLine_eq_none]
        intro k b hk
        have hmem := (mem_keys_iff _ k).mpr ⟨b, hk⟩
        rw [hkeys, List.append_nil] at hmem
        exact hdone k hmem b hk
      exact ⟨[], st, by simp [drainInstructionLoop], .done (by simp [nextInstruction, hnone])⟩
  | cons slot slots ih =>
      intro walked st flushed hkeys hdone
      obtain ⟨buf, hbuf⟩ := (mem_keys_iff st.buffer slot).mp (by simp [hkeys])
      cases hdrained : buf.instructionsDrained with
      | true =>
          obtain ⟨outs, mid, hloop, hex⟩ := ih (walked ++ [slot]) st flushed (by simp [hkeys])
            (walked_concat hdone hbuf hdrained)
          exact ⟨outs, mid, by simpa [drainInstructionLoop, hbuf, hdrained] using hloop, hex⟩
      | false =>
          have hhead := headOfLine_of_walk hkeys hdone hbuf hdrained
          rw [drainInstructionLoop_head hhead]
          cases hnext : st.nextInstruction with
          | none => exact ⟨[], st, by simp, .done hnext⟩
          | some next =>
              obtain ⟨ix, st'⟩ := next
              obtain ⟨buf', _, flush⟩ := nextInstruction_eq_some.mp hnext
              have hsame := hhead.symm.trans (headOfLine_eq_some.mpr ⟨flush.present,
                flush.undrained, fun t b ht hlt => flush.below t b ht (Nat.compare_eq_lt.mp hlt)⟩)
              obtain ⟨hslot, -⟩ := Prod.mk.inj (Option.some.inj hsame)
              -- The flush keeps the key set, so the rest of the walk is unchanged.
              obtain ⟨outs, mid, hloop, hex⟩ := ih (walked ++ [slot]) st' (flushed ++ [ix])
                (by simp [flush.result, flushInstruction, keys_insert_of_mem flush.present, hkeys])
                (by simpa [flush.result, flushInstruction, ← hslot] using
                  walked_insert hdone (show buf'.takeInstructionRecords.instructionsDrained = true
                    from rfl))
              exact ⟨ix :: outs, mid, by simpa using hloop, .more hnext hex⟩

/-- One iteration of the account loop at the head of line is one flush, or the end. -/
theorem drainAccountLoop_head {st : CoordinatorState R} {slot : Slot} {buf : SlotRecordBuffer R}
    (hhead : headOfLine SlotRecordBuffer.accountsDrained st.buffer = some (slot, buf))
    (slots : List Slot) (flushed : List (AccountSlot R)) :
    drainAccountLoop (slot :: slots) st flushed =
      match st.nextAccount with
      | none => (flushed, st)
      | some (acct, st') => drainAccountLoop slots st' (flushed ++ [acct]) := by
  obtain ⟨hbuf, hdrained, -⟩ := headOfLine_eq_some.mp hhead
  cases hgate : buf.accountGateReached with
  | false => simp [drainAccountLoop, hbuf, hdrained, hgate, nextAccount, hhead]
  | true =>
      simp [drainAccountLoop, hbuf, hdrained, hgate, nextAccount, hhead, flushAccount,
        SlotRecordBuffer.drainAccountRecords]

theorem drainAccountLoop_exhausts (slots : List Slot) :
    ∀ (walked : List Slot) (st : CoordinatorState R) (flushed : List (AccountSlot R)),
      st.buffer.keys = walked ++ slots →
      (∀ k ∈ walked, ∀ b, st.buffer[k]? = some b → b.accountsDrained = true) →
      ∃ outs mid, drainAccountLoop slots st flushed = (flushed ++ outs, mid) ∧
        Exhausts nextAccount st outs mid := by
  induction slots with
  | nil =>
      intro walked st flushed hkeys hdone
      have hnone : headOfLine SlotRecordBuffer.accountsDrained st.buffer = none := by
        rw [headOfLine_eq_none]
        intro k b hk
        have hmem := (mem_keys_iff _ k).mpr ⟨b, hk⟩
        rw [hkeys, List.append_nil] at hmem
        exact hdone k hmem b hk
      exact ⟨[], st, by simp [drainAccountLoop], .done (by simp [nextAccount, hnone])⟩
  | cons slot slots ih =>
      intro walked st flushed hkeys hdone
      obtain ⟨buf, hbuf⟩ := (mem_keys_iff st.buffer slot).mp (by simp [hkeys])
      cases hdrained : buf.accountsDrained with
      | true =>
          obtain ⟨outs, mid, hloop, hex⟩ := ih (walked ++ [slot]) st flushed (by simp [hkeys])
            (walked_concat hdone hbuf hdrained)
          exact ⟨outs, mid, by simpa [drainAccountLoop, hbuf, hdrained] using hloop, hex⟩
      | false =>
          have hhead := headOfLine_of_walk hkeys hdone hbuf hdrained
          rw [drainAccountLoop_head hhead]
          cases hnext : st.nextAccount with
          | none => exact ⟨[], st, by simp, .done hnext⟩
          | some next =>
              obtain ⟨acct, st'⟩ := next
              obtain ⟨buf', flush⟩ := nextAccount_eq_some.mp hnext
              have hsame := hhead.symm.trans (headOfLine_eq_some.mpr ⟨flush.present,
                flush.undrained, fun t b ht hlt => flush.below t b ht (Nat.compare_eq_lt.mp hlt)⟩)
              obtain ⟨hslot, -⟩ := Prod.mk.inj (Option.some.inj hsame)
              obtain ⟨outs, mid, hloop, hex⟩ := ih (walked ++ [slot]) st' (flushed ++ [acct])
                (by simp [flush.result, flushAccount, keys_insert_of_mem flush.present, hkeys])
                (by simpa [flush.result, flushAccount, ← hslot] using
                  walked_insert hdone (show buf'.takeAccountRecords.accountsDrained = true from rfl))
              exact ⟨acct :: outs, mid, by simpa using hloop, .more hnext hex⟩

/-- The instruction drain never fails: it flushes heads of line until one is not ready,
and cleans up if it flushed anything. -/
theorem drainInstruction_exhausts (st : CoordinatorState R) :
    ∃ outs mid, Exhausts nextInstruction st outs mid ∧
      st.drainInstructionFlushable =
        (.ok outs, if outs.isEmpty then mid else mid.cleanupFullyDrained) := by
  obtain ⟨outs, mid, hloop, hex⟩ :=
    drainInstructionLoop_exhausts st.buffer.keys [] st [] rfl (by simp)
  refine ⟨outs, mid, hex, ?_⟩
  simp only [drainInstructionFlushable, hloop, List.nil_append]

theorem drainAccount_exhausts (st : CoordinatorState R) :
    ∃ outs mid, Exhausts nextAccount st outs mid ∧
      st.drainAccountFlushable =
        (outs, if outs.isEmpty then mid else mid.cleanupFullyDrained) := by
  obtain ⟨outs, mid, hloop, hex⟩ :=
    drainAccountLoop_exhausts st.buffer.keys [] st [] rfl (by simp)
  refine ⟨outs, mid, hex, ?_⟩
  simp only [drainAccountFlushable, hloop, List.nil_append]

/-! ## The cleanup -/

/-- Cleanup in one equation: fully drained entries go, tombstones are pruned, and the
counts behind the account frontier are dropped. -/
theorem cleanupFullyDrained_eq (st : CoordinatorState R) :
    st.cleanupFullyDrained =
      { st with
        buffer := eraseKeys st.buffer (st.buffer.filter fun _ buf => buf.isFullyDrained).keys
        discardedSlots := st.pruneDiscardedSlots.discardedSlots
        accountEventCounts := match st.lastAccountFlushedSlot with
          | some last => st.accountEventCounts.filter fun s _ => last < s
          | none => st.accountEventCounts } := by
  simp only [cleanupFullyDrained, pruneDiscardedSlots, lastFlushedSlot]
  cases st.lastInstructionFlushedSlot <;> cases st.lastAccountFlushedSlot <;> rfl

/-- Cleanup removes exactly the entries with both sides drained. -/
theorem getElem?_cleanupFullyDrained (st : CoordinatorState R) (s : Slot) :
    st.cleanupFullyDrained.buffer[s]? = st.buffer[s]?.filter fun buf => !buf.isFullyDrained := by
  rw [cleanupFullyDrained_eq, getElem?_eraseKeys]
  cases h : st.buffer[s]? with
  | none => simp
  | some buf =>
      have hmem : s ∈ (st.buffer.filter fun _ buf => buf.isFullyDrained).keys ↔
          buf.isFullyDrained = true := by
        rw [mem_keys_iff, ExtTreeMap.getElem?_filter', h]
        simp [Option.filter_eq_some_iff]
      cases hd : buf.isFullyDrained <;> simp [hmem, hd, Option.filter_some]

@[simp] theorem cleanupFullyDrained_lastInstructionFlushedSlot (st : CoordinatorState R) :
    st.cleanupFullyDrained.lastInstructionFlushedSlot = st.lastInstructionFlushedSlot := by
  rw [cleanupFullyDrained_eq]

@[simp] theorem cleanupFullyDrained_lastAccountFlushedSlot (st : CoordinatorState R) :
    st.cleanupFullyDrained.lastAccountFlushedSlot = st.lastAccountFlushedSlot := by
  rw [cleanupFullyDrained_eq]

@[simp] theorem cleanupFullyDrained_accountCommitAt (st : CoordinatorState R) :
    st.cleanupFullyDrained.accountCommitAt = st.accountCommitAt := by
  rw [cleanupFullyDrained_eq]

@[simp] theorem cleanupFullyDrained_discardedSlots (st : CoordinatorState R) :
    st.cleanupFullyDrained.discardedSlots = st.pruneDiscardedSlots.discardedSlots := by
  rw [cleanupFullyDrained_eq]

/-- An entry that is left after the cleanup was there before, not fully drained. -/
theorem entry_of_cleanup {st : CoordinatorState R} {s : Slot} {buf : SlotRecordBuffer R}
    (h : st.cleanupFullyDrained.buffer[s]? = some buf) :
    st.buffer[s]? = some buf ∧ buf.isFullyDrained = false := by
  rw [getElem?_cleanupFullyDrained] at h
  simpa [Option.filter_eq_some_iff] using h

/-- The same for a drain, which cleans up only if it flushed something. -/
theorem entry_of_quiet_or_cleanup {mid : CoordinatorState R} {quiet : Bool} {s : Slot}
    {buf : SlotRecordBuffer R}
    (h : (if quiet then mid else mid.cleanupFullyDrained).buffer[s]? = some buf) :
    mid.buffer[s]? = some buf := by
  cases quiet with
  | true => exact h
  | false => exact (entry_of_cleanup h).1

/-- The counts above the account frontier survive the cleanup. -/
theorem accountEventCounts_cleanup {st : CoordinatorState R} {s : Slot}
    (h : ∀ last, st.lastAccountFlushedSlot = some last → last < s) :
    st.cleanupFullyDrained.accountEventCounts[s]? = st.accountEventCounts[s]? := by
  rw [cleanupFullyDrained_eq]
  cases hl : st.lastAccountFlushedSlot with
  | none => rfl
  | some last =>
      simp only [ExtTreeMap.getElem?_filter']
      cases st.accountEventCounts[s]? with
      | none => rfl
      | some n => simp [h last hl]

/-! ## The whole drain, before its cleanup -/

/-- What the flushes of one instruction drain did, in terms of the state it started from. -/
structure InstructionDrain (st : CoordinatorState R) (outs : List (InstructionSlot R))
    (mid : CoordinatorState R) : Prop where
  /-- Only the buffer and the instruction frontier changed. -/
  frame : mid = { st with
    buffer := mid.buffer
    lastInstructionFlushedSlot := mid.lastInstructionFlushedSlot }
  entries : ∀ s, mid.buffer[s]? = st.buffer[s]?.map fun buf =>
    if s ∈ outs.map InstructionSlot.slot then buf.takeInstructionRecords else buf
  frontier : mid.lastInstructionFlushedSlot =
    (outs.getLast?.map InstructionSlot.slot).or st.lastInstructionFlushedSlot
  /-- Every emitted slot is an entry of the start state that passed its gate. -/
  source : ∀ ix ∈ outs, ∃ buf, st.buffer[ix.slot]? = some buf ∧
    buf.instructionsDrained = false ∧ buf.instructionGateReached = true ∧
    buf.drainInstructionRecords ix.slot = some (ix, buf.takeInstructionRecords)

theorem InstructionDrain.step {st mid mid' : CoordinatorState R}
    {outs : List (InstructionSlot R)} {ix : InstructionSlot R}
    (h : InstructionDrain st outs mid) (hnext : mid.nextInstruction = some (ix, mid')) :
    InstructionDrain st (outs ++ [ix]) mid' := by
  obtain ⟨buf, metadata, flush⟩ := nextInstruction_eq_some.mp hnext
  -- The flushed entry is undrained, so no earlier flush of this drain wrote it.
  have hsrc : st.buffer[ix.slot]? = some buf ∧ ix.slot ∉ outs.map InstructionSlot.slot := by
    have hentry := h.entries ix.slot
    rw [flush.present] at hentry
    obtain ⟨buf₀, hbuf₀, hif⟩ := Option.map_eq_some_iff.mp hentry.symm
    split at hif
    · have := flush.undrained
      rw [← hif] at this
      simp [SlotRecordBuffer.takeInstructionRecords] at this
    · next hnot =>
        subst hif
        exact ⟨hbuf₀, hnot⟩
  refine ⟨?_, ?_, ?_, ?_⟩
  · rw [flush.result, flushInstruction, h.frame]
  · intro s
    rw [flush.result, flushInstruction, getElem?_insert]
    by_cases hs : s = ix.slot
    · subst hs
      simp [hsrc.1]
    · rw [if_neg hs, h.entries s]
      simp [hs]
  · simp [flush.result, flushInstruction]
  · intro x hx
    obtain hold | hnew := List.mem_append.mp hx
    · exact h.source x hold
    · cases List.mem_singleton.mp hnew
      exact ⟨buf, hsrc.1, flush.undrained, buf.instructionGateReached_iff.mpr
        ⟨metadata, flush.metadata_eq, flush.parsed, flush.confirmed⟩, flush.emitted⟩

theorem InstructionDrain.of_exhausts {st mid : CoordinatorState R}
    {outs : List (InstructionSlot R)} (h : Exhausts nextInstruction st outs mid) :
    InstructionDrain st outs mid := by
  have start : InstructionDrain st [] st := ⟨rfl, by simp, by simp, by simp⟩
  have step : ∀ os s o s', nextInstruction s = some (o, s') →
      InstructionDrain st os s → InstructionDrain st (os ++ [o]) s' :=
    fun _ _ _ _ hnext hs => hs.step hnext
  simpa using h.invariant step start

/-- What the flushes of one account drain did, in terms of the state it started from. -/
structure AccountDrain (st : CoordinatorState R) (outs : List (AccountSlot R))
    (mid : CoordinatorState R) : Prop where
  frame : mid = { st with
    buffer := mid.buffer
    lastAccountFlushedSlot := mid.lastAccountFlushedSlot }
  entries : ∀ s, mid.buffer[s]? = st.buffer[s]?.map fun buf =>
    if s ∈ outs.map AccountSlot.slot then buf.takeAccountRecords else buf
  frontier : mid.lastAccountFlushedSlot =
    (outs.getLast?.map AccountSlot.slot).or st.lastAccountFlushedSlot
  source : ∀ acct ∈ outs, ∃ buf, st.buffer[acct.slot]? = some buf ∧
    buf.accountsDrained = false ∧ buf.accountGateReached = true ∧
    buf.drainAccountRecords acct.slot = (acct, buf.takeAccountRecords)
  /-- The drain stops at the first entry that is neither drained nor ready. -/
  below : ∀ acct ∈ outs, ∀ (t : Slot) (buf : SlotRecordBuffer R), st.buffer[t]? = some buf →
    t < acct.slot → (buf.accountsDrained || buf.accountGateReached) = true

theorem AccountDrain.step {st mid mid' : CoordinatorState R} {outs : List (AccountSlot R)}
    {acct : AccountSlot R} (h : AccountDrain st outs mid)
    (hnext : mid.nextAccount = some (acct, mid')) : AccountDrain st (outs ++ [acct]) mid' := by
  obtain ⟨buf, flush⟩ := nextAccount_eq_some.mp hnext
  have hsrc : st.buffer[acct.slot]? = some buf ∧ acct.slot ∉ outs.map AccountSlot.slot := by
    have hentry := h.entries acct.slot
    rw [flush.present] at hentry
    obtain ⟨buf₀, hbuf₀, hif⟩ := Option.map_eq_some_iff.mp hentry.symm
    split at hif
    · have := flush.undrained
      rw [← hif] at this
      simp [SlotRecordBuffer.takeAccountRecords] at this
    · next hnot =>
        subst hif
        exact ⟨hbuf₀, hnot⟩
  refine ⟨?_, ?_, ?_, ?_, ?_⟩
  · rw [flush.result, flushAccount, h.frame]
  · intro s
    rw [flush.result, flushAccount, getElem?_insert]
    by_cases hs : s = acct.slot
    · subst hs
      simp [hsrc.1]
    · rw [if_neg hs, h.entries s]
      simp [hs]
  · simp [flush.result, flushAccount]
  · intro x hx
    obtain hold | hnew := List.mem_append.mp hx
    · exact h.source x hold
    · cases List.mem_singleton.mp hnew
      exact ⟨buf, hsrc.1, flush.undrained, flush.gate, flush.emitted⟩
  · intro x hx t b hb hlt
    obtain hold | hnew := List.mem_append.mp hx
    · exact h.below x hold t b hb hlt
    · cases List.mem_singleton.mp hnew
      have hmid := h.entries t
      rw [hb, Option.map_some] at hmid
      have hdrained := flush.below t _ hmid hlt
      split at hdrained
      · next hin =>
          -- Flushed earlier in this drain, so it was ready when the drain started.
          obtain ⟨y, hy, rfl⟩ := List.mem_map.mp hin
          obtain ⟨b', hb', -, hgate, -⟩ := h.source y hy
          cases hb.symm.trans hb'
          simp [hgate]
      · simp [hdrained]

theorem AccountDrain.of_exhausts {st mid : CoordinatorState R} {outs : List (AccountSlot R)}
    (h : Exhausts nextAccount st outs mid) : AccountDrain st outs mid := by
  have start : AccountDrain st [] st := ⟨rfl, by simp, by simp, by simp, by simp⟩
  have step : ∀ os s o s', nextAccount s = some (o, s') →
      AccountDrain st os s → AccountDrain st (os ++ [o]) s' :=
    fun _ _ _ _ hnext hs => hs.step hnext
  simpa using h.invariant step start

end Shipstern.BlockCoordinator.CoordinatorState
