import Shipstern.BlockCoordinator.Order

/-!
# Discarded slots

A discard removes the entry of a slot and leaves a tombstone, which has two uses. It
drops the events that arrive late for the slot, and it lets the children of the slot pass
the parent check of the instruction drain.

The first use is not complete: the guard of the lifecycle events does not look at the
tombstones, so an accepted `BlockFrozen`, `SlotConfirmed` or `SlotFinalized` creates a
new entry for a discarded slot. Runs without such an event, and only these, keep the
buffer and the tombstones apart.

The second use is at risk from pruning. A tombstone that is pruned behind the instruction
frontier is not missed, because the parent check passes there anyway. Pruning goes by the
account frontier alone while nothing was emitted on the instruction side, and it is wrong
after the fact when the instruction frontier moves back.
-/

open Std OrderedMap Machine

namespace Shipstern.BlockCoordinator

variable {R : Type}

namespace CoordinatorState

/-! ## Tombstones and the buffer -/

/-- No entry is buffered under a tombstone. -/
def TombstonesClear (st : CoordinatorState R) : Prop :=
  ∀ s ∈ st.discardedSlots, st.buffer[s]? = none

/-- A call returns nothing for a slot that has a tombstone. -/
def SkipsTombstones (st : CoordinatorState R) (op : Op R) : Prop :=
  (∀ ix ∈ st.emittedInstructions op, ix.slot ∉ st.discardedSlots) ∧
    ∀ acct ∈ st.emittedAccounts op, acct.slot ∉ st.discardedSlots

/-- An event that works on an entry gets past its guard although its slot has a
tombstone. -/
def resurrects (st : CoordinatorState R) (e : CoordinatorEvent R) : Prop :=
  e.entersBuffer = true ∧ st.accepts e = true ∧ e.slot ∈ st.discardedSlots

/-- Only lifecycle events resurrect a slot; records and statistics check the tombstones. -/
theorem resurrects_lifecycle {st : CoordinatorState R} {e : CoordinatorEvent R}
    (h : st.resurrects e) :
    (∃ metadata, e = .blockFrozen e.slot metadata) ∨ e = .slotConfirmed e.slot ∨
      e = .slotFinalized e.slot := by
  obtain ⟨henters, haccepts, hdiscarded⟩ := h
  cases e with
  | blockFrozen slot metadata => exact .inl ⟨metadata, rfl⟩
  | slotConfirmed slot => exact .inr (.inl rfl)
  | slotFinalized slot => exact .inr (.inr rfl)
  | slotDiscarded | accountEventSeen => simp [CoordinatorEvent.entersBuffer] at henters
  | instructionRecordParsed slot key record | transactionParsed slot =>
      exact absurd hdiscarded (validateInstructionSlot_iff.mp haccepts).1
  | accountRecordParsed slot key record =>
      exact absurd hdiscarded (validateAccountSlot_iff.mp haccepts).1
  | parseStats slot kind =>
      simp only [accepts] at haccepts
      split at haccepts
      · exact absurd hdiscarded (validateAccountSlot_iff.mp haccepts).1
      · exact absurd hdiscarded (validateInstructionSlot_iff.mp haccepts).1

theorem TombstonesClear.apply {st : CoordinatorState R} {e : CoordinatorEvent R}
    (h : st.TombstonesClear) (hres : ¬st.resurrects e) : (st.apply e).TombstonesClear := by
  intro s hs
  obtain hold | ⟨reason, rfl⟩ := mem_discardedSlots_of_apply hs
  · cases hbuf : (st.apply e).buffer[s]? with
    | none => rfl
    | some buf =>
        obtain ⟨-, hentry⟩ | ⟨⟨rfl, henters, haccepts⟩, -⟩ := entry_of_apply hbuf
        · rw [h s hold] at hentry
          cases hentry
        · exact absurd ⟨henters, haccepts, hold⟩ hres
  · exact st.getElem?_apply_slotDiscarded s reason

/-- A resurrected slot is buffered under its tombstone. -/
theorem not_tombstonesClear_of_resurrects {st : CoordinatorState R} {e : CoordinatorEvent R}
    (h : st.resurrects e) : ¬(st.apply e).TombstonesClear := by
  obtain ⟨henters, haccepts, hdiscarded⟩ := h
  intro hclear
  have hne : ∀ slot reason, e ≠ .slotDiscarded slot reason := by
    rintro slot reason rfl
    simp [CoordinatorEvent.entersBuffer] at henters
  have hnone := hclear e.slot (by rwa [apply_discardedSlots hne])
  rw [getElem?_apply_of_touches ⟨rfl, henters, haccepts⟩] at hnone
  cases hnone

theorem mem_discardedSlots_of_cleanup {st : CoordinatorState R} {d : Slot}
    (h : d ∈ st.cleanupFullyDrained.discardedSlots) : d ∈ st.discardedSlots := by
  rw [cleanupFullyDrained_discardedSlots] at h
  exact (mem_pruneDiscardedSlots.mp h).1

theorem TombstonesClear.cleanup {st : CoordinatorState R} (h : st.TombstonesClear) :
    st.cleanupFullyDrained.TombstonesClear := by
  intro s hs
  rw [getElem?_cleanupFullyDrained, h s (mem_discardedSlots_of_cleanup hs)]
  rfl

theorem TombstonesClear.flush {st st' : CoordinatorState R} {buf : SlotRecordBuffer R}
    {metadata : BlockMetadata} {ix : InstructionSlot R} (h : st.TombstonesClear)
    (flush : InstructionFlush st buf metadata ix st') : st'.TombstonesClear := by
  intro s hs
  rw [flush.result, flushInstruction] at hs ⊢
  rw [getElem?_insert, if_neg]
  · exact h s hs
  · rintro rfl
    exact absurd flush.present (by simp [h _ hs])

theorem TombstonesClear.flushAccount {st st' : CoordinatorState R} {buf : SlotRecordBuffer R}
    {acct : AccountSlot R} (h : st.TombstonesClear) (flush : AccountFlush st buf acct st') :
    st'.TombstonesClear := by
  intro s hs
  rw [flush.result, CoordinatorState.flushAccount] at hs ⊢
  rw [getElem?_insert, if_neg]
  · exact h s hs
  · rintro rfl
    exact absurd flush.present (by simp [h _ hs])

/-- What is emitted is buffered, so it has no tombstone. -/
theorem TombstonesClear.skips {st : CoordinatorState R} (h : st.TombstonesClear) (op : Op R) :
    st.SkipsTombstones op := by
  constructor
  · intro ix hix hmem
    obtain ⟨-, buf, hbuf, -⟩ := mem_emittedInstructions hix
    simp [h _ hmem] at hbuf
  · intro acct hacct hmem
    obtain ⟨-, buf, hbuf, -⟩ := mem_emittedAccounts hacct
    simp [h _ hmem] at hbuf

end CoordinatorState

open CoordinatorState

/-- No lifecycle event of the run is accepted for a slot with a tombstone. -/
def NoResurrection (commitAt : AccountCommitAt) (ops : List (Op R)) : Prop :=
  Obeys (fun front op => ∀ e ∈ op.event?, ¬(run commitAt front).resurrects e) ops

theorem tombstonesClear {commitAt : AccountCommitAt} {ops : List (Op R)}
    (h : NoResurrection commitAt ops) : (run commitAt ops).TombstonesClear := by
  refine run_invariant (P := TombstonesClear) ?_ ?_ ?_ ?_ ?_ h
  · intro s hs
    simp [new] at hs
  · intro ops e hallowed hst
    exact hst.apply (hallowed e rfl)
  · intro st buf metadata ix st' flush hst
    exact hst.flush flush
  · intro st buf acct st' flush hst
    exact hst.flushAccount flush
  · intro st hst
    exact hst.cleanup

/-- A discard is final, in every state of a run and for everything the run emits, exactly
when no lifecycle event gets past its guard for a slot with a tombstone. -/
theorem discard_final_iff (commitAt : AccountCommitAt) (ops : List (Op R)) :
    ((∀ front back, ops = front ++ back → (run commitAt front).TombstonesClear) ∧
      Obeys (fun front op => (run commitAt front).SkipsTombstones op) ops) ↔
      NoResurrection commitAt ops := by
  constructor
  · rintro ⟨hclear, -⟩ front op back rfl e he hres
    obtain rfl : op = .apply e := by
      cases op <;> simp_all [Op.event?]
    have hafter := hclear (front ++ [.apply e]) back (by simp)
    rw [run_concat] at hafter
    exact not_tombstonesClear_of_resurrects hres hafter
  · intro h
    constructor
    · rintro front back rfl
      exact tombstonesClear h.front
    · rintro front op back rfl
      exact (tombstonesClear h.front).skips op

/-- A block that is frozen and confirmed after its discard is buffered and emitted. -/
theorem discarded_slot_emitted :
    2 ∈ (run .confirmed (.apply (.slotDiscarded 2 .dead) :: applyReadySlot 2 1 0 :
        List (Op Nat))).discardedSlots ∧
      2 ∈ ((run .confirmed (.apply (.slotDiscarded 2 .dead) :: applyReadySlot 2 1 0 :
        List (Op Nat))).emittedInstructions .drainInstruction).map InstructionSlot.slot := by
  decide +kernel

/-! ## Tombstones and the parent check -/

namespace CoordinatorState

/-- The account drain gets to an undrained entry: everything up to it is drained or ready. -/
def accountDrainReaches (st : CoordinatorState R) (s : Slot) : Prop :=
  (∃ buf ∈ st.buffer[s]?, buf.accountsDrained = false) ∧
    ∀ t ∈ st.buffer.keys, t ≤ s →
      ∃ buf ∈ st.buffer[t]?, (buf.accountsDrained || buf.accountGateReached) = true

instance (st : CoordinatorState R) (s : Slot) : Decidable (st.accountDrainReaches s) :=
  inferInstanceAs (Decidable (_ ∧ _))

/-- A call prunes a tombstone by the account frontier while there is no instruction
frontier yet: a discard behind the account frontier, or an account drain that moves it
past the retention window of a tombstone. Slot 0 is never missed. -/
def prunesByAccountFrontier (st : CoordinatorState R) : Op R → Prop
  | .apply (.slotDiscarded slot _) =>
      st.lastInstructionFlushedSlot = none ∧ ∃ last ∈ st.lastAccountFlushedSlot,
        ∃ d ∈ insert slot st.discardedSlots, 0 < d ∧ d + discardedSlotRetentionBehindFlush ≤ last
  | .drainAccount =>
      st.lastInstructionFlushedSlot = none ∧ ∃ s ∈ st.buffer.keys, st.accountDrainReaches s ∧
        ∃ d ∈ st.discardedSlots, 0 < d ∧ d + discardedSlotRetentionBehindFlush ≤ s
  | _ => False

instance (st : CoordinatorState R) : (op : Op R) → Decidable (st.prunesByAccountFrontier op)
  | .apply (.slotDiscarded _ _) => inferInstanceAs (Decidable (_ ∧ ∃ _ ∈ _, ∃ _ ∈ _, _))
  | .drainAccount => inferInstanceAs (Decidable (_ ∧ ∃ _ ∈ _, _ ∧ ∃ _ ∈ _, _))
  | .drainInstruction | .apply (.blockFrozen _ _) | .apply (.slotConfirmed _)
  | .apply (.slotFinalized _) | .apply (.accountEventSeen _)
  | .apply (.instructionRecordParsed _ _ _) | .apply (.accountRecordParsed _ _ _)
  | .apply (.transactionParsed _) | .apply (.parseStats _ _) => instDecidableFalse

/-- The slot has its tombstone or lies behind the instruction frontier, or will do so as
soon as there is one. -/
def Passable (st : CoordinatorState R) (d : Slot) : Prop :=
  d ∈ st.discardedSlots ∨ d = 0 ∨ behind st.lastInstructionFlushedSlot d = true

/-- Pruning keeps a tombstone, or drops it at least the retention window behind. -/
theorem mem_or_le_of_prune {st : CoordinatorState R} {d : Slot} (h : d ∈ st.discardedSlots) :
    d ∈ st.pruneDiscardedSlots.discardedSlots ∨ d = 0 ∨
      ∃ last, st.lastFlushedSlot = some last ∧ d + discardedSlotRetentionBehindFlush ≤ last := by
  cases hlast : st.lastFlushedSlot with
  | none => exact .inl (mem_pruneDiscardedSlots.mpr ⟨h, by simp [hlast]⟩)
  | some last =>
      by_cases hkept : last - discardedSlotRetentionBehindFlush < d
      · exact .inl (mem_pruneDiscardedSlots.mpr ⟨h, by simpa [hlast] using hkept⟩)
      · refine .inr ?_
        by_cases hzero : d = 0
        · exact .inl hzero
        · -- A positive slot below the saturating difference: nothing was cut off.
          have hcut : ∀ a b c : Nat, b ≠ 0 → ¬a - c < b → b + c ≤ a := by omega
          exact .inr ⟨last, rfl, hcut _ _ _ hzero hkept⟩

/-- Where both frontiers exist, pruning stays behind the instruction frontier. -/
theorem lastFlushedSlot_le {st : CoordinatorState R} {last : Slot}
    (h : st.lastFlushedSlot = some last) :
    (st.lastInstructionFlushedSlot = none ∧ st.lastAccountFlushedSlot = some last) ∨
      ∃ l, st.lastInstructionFlushedSlot = some l ∧ last ≤ l := by
  cases ha : st.lastInstructionFlushedSlot with
  | none => exact .inl ⟨rfl, by simpa [lastFlushedSlot, ha] using h⟩
  | some a =>
      refine .inr ⟨a, rfl, ?_⟩
      cases hb : st.lastAccountFlushedSlot with
      | none =>
          have heq : a = last := by simpa [lastFlushedSlot, ha, hb] using h
          exact Nat.le_of_eq heq.symm
      | some b =>
          have heq : min a b = last := by simpa [lastFlushedSlot, ha, hb] using h
          rw [← heq]
          exact Nat.min_le_left a b

/-- Pruning keeps a discarded slot passable once there is an instruction frontier. -/
theorem Passable.prune {st : CoordinatorState R} {d : Slot} (h : st.Passable d)
    (hprune : st.lastInstructionFlushedSlot = none → ∀ last,
      st.lastAccountFlushedSlot = some last → d ∈ st.discardedSlots → 0 < d →
        last < d + discardedSlotRetentionBehindFlush) :
    st.pruneDiscardedSlots.Passable d := by
  rw [Passable, pruneDiscardedSlots_eq]
  obtain hmem | hrest := h
  · obtain hkept | hzero | ⟨last, hlast, hle⟩ := mem_or_le_of_prune hmem
    · exact .inl hkept
    · exact .inr (.inl hzero)
    · obtain ⟨hnone, hacct⟩ | ⟨l, hl, hll⟩ := lastFlushedSlot_le hlast
      · by_cases hzero : d = 0
        · exact .inr (.inl hzero)
        · have := hprune hnone last hacct hmem (Nat.pos_of_ne_zero hzero)
          exact absurd hle (Nat.not_le.mpr this)
      · exact .inr (.inr (behind_iff.mpr ⟨l, hl, Nat.le_trans (Nat.le_of_add_right_le hle) hll⟩))
  · exact .inr hrest

/-- A cleanup does to the tombstones what pruning does. -/
theorem Passable.cleanup {st : CoordinatorState R} {d : Slot}
    (h : st.pruneDiscardedSlots.Passable d) : st.cleanupFullyDrained.Passable d := by
  rw [Passable, cleanupFullyDrained_discardedSlots, cleanupFullyDrained_lastInstructionFlushedSlot]
  rw [Passable, pruneDiscardedSlots_eq] at h
  exact h

/-- An event keeps the discarded slots passable, and adds the one it discards. -/
theorem Passable.apply {st : CoordinatorState R} {e : CoordinatorEvent R} {d : Slot}
    (h : st.Passable d ∨ ∃ reason, e = .slotDiscarded d reason)
    (hprune : ¬st.prunesByAccountFrontier (.apply e)) : (st.apply e).Passable d := by
  obtain ⟨slot, reason, rfl⟩ | hne := slotDiscarded_or e
  · have hinsert : ({ st with discardedSlots := insert slot st.discardedSlots } :
        CoordinatorState R).Passable d := by
      obtain (hmem | hrest) | ⟨reason', heq⟩ := h
      · exact .inl (Finset.mem_insert_of_mem hmem)
      · exact .inr hrest
      · cases heq
        exact .inl (Finset.mem_insert_self d _)
    rw [apply_slotDiscarded]
    have hkept := hinsert.prune (by
      intro hnone last hlast hmem hpos
      by_contra hle
      exact hprune ⟨hnone, last, hlast, d, hmem, hpos, Nat.not_lt.mp hle⟩)
    rw [Passable, pruneDiscardedSlots_eq] at hkept
    exact hkept
  · obtain h | ⟨reason, rfl⟩ := h
    · rw [Passable, apply_discardedSlots hne, apply_lastInstructionFlushedSlot]
      exact h
    · exact absurd rfl (hne d reason)

/-- An instruction drain that does not move the frontier back keeps the discarded slots
passable: its cleanup prunes behind the new frontier. -/
theorem Passable.drainInstruction {st : CoordinatorState R} {d : Slot} (h : st.Passable d)
    (hmono : ∀ l, st.lastInstructionFlushedSlot = some l →
      ∃ l', (st.step .drainInstruction).lastInstructionFlushedSlot = some l' ∧ l ≤ l') :
    (st.step .drainInstruction).Passable d := by
  obtain ⟨mid, hdrain, hstep⟩ := st.step_instructionDrain
  have hfrontier : (st.step .drainInstruction).lastInstructionFlushedSlot =
      mid.lastInstructionFlushedSlot := by
    rw [hstep]
    split
    · rfl
    · exact cleanupFullyDrained_lastInstructionFlushedSlot mid
  have hdiscarded : mid.discardedSlots = st.discardedSlots := by rw [hdrain.frame]
  have hmid : mid.Passable d := by
    obtain hmem | hzero | hbehind := h
    · exact .inl (by rwa [hdiscarded])
    · exact .inr (.inl hzero)
    · obtain ⟨l, hl, hle⟩ := behind_iff.mp hbehind
      obtain ⟨l', hl', hll⟩ := hmono l hl
      exact .inr (.inr (behind_iff.mpr ⟨l', hfrontier ▸ hl', Nat.le_trans hle hll⟩))
  rw [hstep]
  split
  · exact hmid
  · next hne =>
      -- Something was emitted, so there is an instruction frontier.
      have hsome : mid.lastInstructionFlushedSlot ≠ none := by
        rw [hdrain.frontier]
        cases houts : (st.emittedInstructions .drainInstruction).getLast? with
        | none => simp [List.getLast?_eq_none_iff.mp houts] at hne
        | some ix => simp
      have hkept := hmid.prune fun hnone => absurd hnone hsome
      exact hkept.cleanup

/-- A drain that emitted something moves the account frontier to an entry it reached. -/
theorem AccountDrain.reaches {st mid : CoordinatorState R} {outs : List (AccountSlot R)}
    (h : AccountDrain st outs mid) (hne : outs ≠ []) {last : Slot}
    (hlast : mid.lastAccountFlushedSlot = some last) :
    last ∈ st.buffer.keys ∧ st.accountDrainReaches last := by
  obtain ⟨acct, hacct⟩ : ∃ acct, outs.getLast? = some acct :=
    ⟨_, List.getLast?_eq_some_getLast hne⟩
  have hin := List.mem_of_getLast? hacct
  have hslot : acct.slot = last := by
    rw [h.frontier, hacct] at hlast
    simpa using hlast
  obtain ⟨buf, hbuf, hundrained, hgate, -⟩ := h.source acct hin
  rw [hslot] at hbuf
  refine ⟨(mem_keys_iff _ _).mpr ⟨buf, hbuf⟩, ⟨buf, hbuf, hundrained⟩, ?_⟩
  intro t ht hle
  obtain ⟨b, hb⟩ := (mem_keys_iff _ _).mp ht
  refine ⟨b, hb, ?_⟩
  obtain hlt | rfl := Nat.lt_or_eq_of_le hle
  · exact h.below acct hin t b hb (hslot ▸ hlt)
  · cases hbuf.symm.trans hb
    simp [hgate]

/-- An account drain keeps the discarded slots passable unless it prunes by the account
frontier alone. -/
theorem Passable.drainAccount {st : CoordinatorState R} {d : Slot} (h : st.Passable d)
    (hprune : ¬st.prunesByAccountFrontier .drainAccount) :
    (st.step .drainAccount).Passable d := by
  obtain ⟨mid, hdrain, hstep⟩ := st.step_accountDrain
  have hmid : mid.Passable d := by
    rw [Passable, hdrain.frame]
    exact h
  rw [hstep]
  split
  · exact hmid
  · next hne =>
      have hkept : mid.pruneDiscardedSlots.Passable d := by
        refine hmid.prune ?_
        intro hnone last hlast hmem hpos
        by_contra hle
        obtain ⟨hkey, hreaches⟩ := hdrain.reaches (by simpa using hne) hlast
        rw [hdrain.frame] at hnone hmem
        exact hprune ⟨hnone, last, hkey, hreaches, d, hmem, hpos, Nat.not_lt.mp hle⟩
      exact hkept.cleanup

end CoordinatorState

/-- No call of the run prunes a tombstone by the account frontier while there is no
instruction frontier. -/
def NoPruneByAccountFrontier (commitAt : AccountCommitAt) (ops : List (Op R)) : Prop :=
  Obeys (fun front op => ¬(run commitAt front).prunesByAccountFrontier op) ops

instance (commitAt : AccountCommitAt) (ops : List (Op R)) :
    Decidable (NoPruneByAccountFrontier commitAt ops) :=
  inferInstanceAs (Decidable (Obeys _ ops))

theorem discarded_passable {commitAt : AccountCommitAt} {ops : List (Op R)}
    (hgate : NoStaleInstructionGate commitAt ops)
    (hprune : NoPruneByAccountFrontier commitAt ops) :
    ∀ d reason, .slotDiscarded d reason ∈ events ops → (run commitAt ops).Passable d := by
  induction ops using List.reverseRecOn with
  | nil => simp
  | append_singleton ops op ih =>
      intro d reason hd
      have ih' := ih hgate.front hprune.front d
      rw [run_concat]
      rw [events_append, List.mem_append] at hd
      cases op with
      | apply e =>
          refine Passable.apply ?_ hprune.last
          obtain hold | hnew := hd
          · exact .inl (ih' reason hold)
          · exact .inr ⟨reason, by simpa [eq_comm] using hnew⟩
      | drainInstruction =>
          refine (ih' reason (by simpa using hd)).drainInstruction ?_
          intro l hl
          rw [← run_concat]
          exact lastInstructionFlushedSlot_mono hgate hl
      | drainAccount => exact (ih' reason (by simpa using hd)).drainAccount hprune.last

/-- In every run that opens no instruction gate behind the frontier and prunes no
tombstone by the account frontier alone, every slot that was ever discarded has its
tombstone or lies behind the instruction frontier, and none of its children is held back
by the parent check. -/
theorem discarded_parent_never_blocks (commitAt : AccountCommitAt) (ops : List (Op R))
    (hgate : NoStaleInstructionGate commitAt ops)
    (hprune : NoPruneByAccountFrontier commitAt ops) (d : Slot) (reason : DiscardReason)
    (hd : .slotDiscarded d reason ∈ events ops) :
    (∀ l, (run commitAt ops).lastInstructionFlushedSlot = some l →
        d ∈ (run commitAt ops).discardedSlots ∨ d ≤ l) ∧
      ((run commitAt ops).lastInstructionFlushedSlot.isNone ||
        (run commitAt ops).parentOk d) = true := by
  have hlast : ∀ l, (run commitAt ops).lastInstructionFlushedSlot = some l →
      d ∈ (run commitAt ops).discardedSlots ∨ d ≤ l := by
    intro l hl
    obtain hmem | hzero | hbehind := discarded_passable hgate hprune d reason hd
    · exact .inl hmem
    · exact .inr (hzero ▸ Nat.zero_le l)
    · obtain ⟨l', hl', hle⟩ := behind_iff.mp hbehind
      cases hl.symm.trans hl'
      exact .inr hle
  refine ⟨hlast, ?_⟩
  cases hl : (run commitAt ops).lastInstructionFlushedSlot with
  | none => rfl
  | some l =>
      obtain hmem | hle := hlast l hl
      · simp [parentOk, hmem]
      · simp [parentOk, behind, hl, hle]

/-- Slot 1 is discarded, and its child 2 passes the parent check after slot 0. -/
def discardedParentRun : List (Op Nat) :=
  applyReadySlot 0 0 0 ++ [.drainInstruction, .drainAccount, .apply (.slotDiscarded 1 .forked)] ++
    applyReadySlot 2 1 0

theorem discarded_parent_never_blocks_child :
    NoStaleInstructionGate .confirmed discardedParentRun ∧
      NoPruneByAccountFrontier .confirmed discardedParentRun ∧
      ((run .confirmed discardedParentRun).lastInstructionFlushedSlot.isNone ||
        (run .confirmed discardedParentRun).parentOk 1) = true := by
  have hgate : NoStaleInstructionGate .confirmed discardedParentRun := by decide +kernel
  have hprune : NoPruneByAccountFrontier .confirmed discardedParentRun := by decide +kernel
  exact ⟨hgate, hprune,
    (discarded_parent_never_blocks _ _ hgate hprune 1 .forked (by decide)).2⟩

/-- The accounts of slot 1000 are drained before any instruction slot was emitted. -/
def accountFrontierRun : List (Op Nat) :=
  [.apply (.slotDiscarded 400 .dead), .apply (.slotConfirmed 1000), .drainAccount] ++
    applyReadySlot 300 299 0 ++ [.drainInstruction]

/-- The tombstone of slot 400 is gone while the instruction frontier is at 300, so the
children of slot 400 are held back. -/
theorem discarded_parent_blocks :
    .slotDiscarded 400 .dead ∈ events accountFrontierRun ∧
      (run .confirmed accountFrontierRun).lastInstructionFlushedSlot = some 300 ∧
      400 ∉ (run .confirmed accountFrontierRun).discardedSlots ∧
      (run .confirmed accountFrontierRun).parentOk 400 = false := by
  decide +kernel

end Shipstern.BlockCoordinator
