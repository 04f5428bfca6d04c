import Shipstern.BlockCoordinator.Run
import Shipstern.Lib.Segment

/-!
# Continuity of the parent chain

The coordinator does not store the canonical chain. It emits a slot when its parent is at
or behind the frontier or was discarded, and it emits in slot order. If the canonical
slots form a set in which each block names its predecessor, and only these slots are
confirmed, this is enough: the output runs through the set without a gap.

The invariant relates the buffer to what was emitted so far. Confirmed entries are
canonical and not yet emitted, their metadata names the right parent, tombstones are not
canonical, and what was created late below the first emitted slot never gets metadata.
-/

open Std OrderedMap Machine Succession

namespace Shipstern.BlockCoordinator

variable {R : Type}

/-- What may be applied when the canonical slots are `C` with the given parents: frozen
blocks of canonical slots name their parent, only canonical slots are confirmed and only
once, only other slots are discarded, and no block is frozen or confirmed below the first
slot that was emitted. -/
def FollowsChain (commitAt : AccountCommitAt) (C : Set Slot) (parent : Slot → Slot)
    (front : List (Op R)) : Op R → Prop
  | .apply (.blockFrozen s metadata) =>
      (s ∈ C → metadata.parentSlot = parent s) ∧
        ∀ f ∈ (instructionSlots commitAt front).head?, f.slot ≤ s
  | .apply (.slotConfirmed s) =>
      s ∈ C ∧ .slotConfirmed s ∉ events front ∧
        ∀ f ∈ (instructionSlots commitAt front).head?, f.slot ≤ s
  | .apply (.slotDiscarded s _) => s ∉ C
  | _ => True

instance [DecidableEq R] (commitAt : AccountCommitAt) (C : Set Slot) [DecidablePred (· ∈ C)]
    (parent : Slot → Slot) (front : List (Op R)) :
    (op : Op R) → Decidable (FollowsChain commitAt C parent front op)
  | .apply (.blockFrozen _ _) => inferInstanceAs (Decidable ((_ → _) ∧ ∀ _ ∈ _, _))
  | .apply (.slotConfirmed _) => inferInstanceAs (Decidable (_ ∧ _ ∧ ∀ _ ∈ _, _))
  | .apply (.slotDiscarded _ _) => inferInstanceAs (Decidable (¬_))
  | .drainInstruction | .drainAccount | .apply (.slotFinalized _) | .apply (.accountEventSeen _)
  | .apply (.instructionRecordParsed _ _ _) | .apply (.accountRecordParsed _ _ _)
  | .apply (.transactionParsed _) | .apply (.parseStats _ _) => instDecidableTrue

/-- The state of a run along the canonical chain, with what it emitted so far. -/
structure ChainInvariant (C : Set Slot) (parent : Slot → Slot) (ops : List (Op R))
    (ixs : List (InstructionSlot R)) (st : CoordinatorState R) : Prop where
  frontier : st.lastInstructionFlushedSlot = (ixs.map InstructionSlot.slot).getLast?
  tombstones : ∀ d ∈ st.discardedSlots, d ∉ C
  metadata : ∀ (s : Slot) (buf : SlotRecordBuffer R) (m : BlockMetadata),
    st.buffer[s]? = some buf → s ∈ C → buf.metadata = some m → m.parentSlot = parent s
  confirmed : ∀ (s : Slot) (buf : SlotRecordBuffer R), st.buffer[s]? = some buf →
    buf.instructionCommitmentReached = true → s ∈ C ∧ .slotConfirmed s ∈ events ops
  pending : ∀ (s : Slot) (buf : SlotRecordBuffer R), st.buffer[s]? = some buf →
    buf.instructionsDrained = false → buf.instructionCommitmentReached = true →
      s ∉ ixs.map InstructionSlot.slot
  below : ∀ f ∈ (ixs.map InstructionSlot.slot).head?, ∀ (s : Slot) (buf : SlotRecordBuffer R),
    st.buffer[s]? = some buf → s < f → buf.instructionsDrained = false → buf.metadata = none
  emitted : ∀ s ∈ ixs.map InstructionSlot.slot, .slotConfirmed s ∈ events ops
  segment : Segment C (ixs.map InstructionSlot.slot)
  chain : ixs.IsChain fun a b => b.parentSlot = a.slot

namespace ChainInvariant

variable {commitAt : AccountCommitAt} {C : Set Slot} {parent : Slot → Slot} {ops : List (Op R)}
variable {ixs : List (InstructionSlot R)} {st st' : CoordinatorState R}

open CoordinatorState

theorem start : ChainInvariant C parent ([] : List (Op R)) [] (.new commitAt) := by
  refine ⟨rfl, ?_, ?_, ?_, ?_, by simp, by simp, .nil, .nil⟩
  · intro d hd
    simp [new] at hd
  · intro s buf m hbuf
    simp [new] at hbuf
  · intro s buf hbuf
    simp [new] at hbuf
  · intro s buf hbuf
    simp [new] at hbuf

theorem apply {e : CoordinatorEvent R}
    (hallowed : FollowsChain commitAt C parent ops (.apply e))
    (h : ChainInvariant C parent ops (instructionSlots commitAt ops) st) :
    ChainInvariant C parent (ops ++ [.apply e]) (instructionSlots commitAt ops) (st.apply e) where
  frontier := by
    rw [apply_lastInstructionFlushedSlot]
    exact h.frontier
  tombstones := by
    intro d hd
    obtain hold | ⟨reason, rfl⟩ := mem_discardedSlots_of_apply hd
    · exact h.tombstones d hold
    · exact hallowed
  metadata := by
    intro s buf m hbuf hs hm
    obtain ⟨-, hold⟩ | ⟨⟨rfl, -, -⟩, rfl⟩ := entry_of_apply hbuf
    · exact h.metadata s buf m hold hs hm
    · obtain ⟨m', he, hm'⟩ | ⟨-, hsame⟩ := st.updateEntry_metadata e _
      · cases hm.symm.trans hm'
        rw [he] at hallowed
        exact hallowed.1 hs
      · rw [hsame] at hm
        cases hold : st.buffer[e.slot]? with
        | none => simp [hold, default] at hm
        | some old =>
            rw [hold] at hm
            exact h.metadata e.slot old m hold hs hm
  confirmed := by
    intro s buf hbuf hconf
    rw [events_append, List.mem_append]
    obtain ⟨-, hold⟩ | ⟨⟨rfl, -, -⟩, rfl⟩ := entry_of_apply hbuf
    · obtain ⟨hs, hin⟩ := h.confirmed s buf hold hconf
      exact ⟨hs, .inl hin⟩
    · obtain he | hold := (st.updateEntry_instructionCommitmentReached e _).mp hconf
      · rw [he] at hallowed
        exact ⟨hallowed.1, .inr (by simp [← he])⟩
      · obtain ⟨old, hbuf', hold'⟩ :=
          exists_of_getD_default SlotRecordBuffer.instructionCommitmentReached rfl hold
        obtain ⟨hs, hin⟩ := h.confirmed e.slot old hbuf' hold'
        exact ⟨hs, .inl hin⟩
  pending := by
    intro s buf hbuf hdrained hconf hin
    obtain ⟨-, hold⟩ | ⟨⟨rfl, -, -⟩, rfl⟩ := entry_of_apply hbuf
    · exact h.pending s buf hold hdrained hconf hin
    · rw [updateEntry_instructionsDrained] at hdrained
      obtain he | hold := (st.updateEntry_instructionCommitmentReached e _).mp hconf
      · -- A slot that was emitted has been confirmed before.
        rw [he] at hallowed
        exact hallowed.2.1 (h.emitted _ hin)
      · obtain ⟨old, hbuf', hold'⟩ :=
          exists_of_getD_default SlotRecordBuffer.instructionCommitmentReached rfl hold
        rw [hbuf'] at hdrained
        exact h.pending e.slot old hbuf' hdrained hold' hin
  below := by
    intro f hf s buf hbuf hlt hdrained
    obtain ⟨-, hold⟩ | ⟨⟨rfl, -, -⟩, rfl⟩ := entry_of_apply hbuf
    · exact h.below f hf s buf hold hlt hdrained
    · rcases st.updateEntry_metadata e (st.buffer[e.slot]?.getD default) with
        ⟨m, he, -⟩ | ⟨-, hsame⟩
      · rw [he] at hallowed
        obtain ⟨ix, hix, rfl⟩ : ∃ ix, (instructionSlots commitAt ops).head? = some ix ∧
            ix.slot = f := by
          simpa using hf
        exact absurd hlt (Nat.not_lt.mpr (hallowed.2 ix hix))
      · rw [hsame]
        cases hold : st.buffer[e.slot]? with
        | none => rfl
        | some old =>
            rw [updateEntry_instructionsDrained, hold] at hdrained
            exact h.below f hf e.slot old hold hlt hdrained
  emitted := by
    intro s hs
    rw [events_append]
    exact List.mem_append_left _ (h.emitted s hs)
  segment := h.segment
  chain := h.chain

variable {buf : SlotRecordBuffer R} {m : BlockMetadata} {ix : InstructionSlot R}

/-- The slot that is flushed next to the last emitted one is its successor in the chain. -/
theorem flush_successor (h : ChainInvariant C parent ops ixs st) (hparent : IsParentIn C parent)
    (flush : InstructionFlush st buf m ix st') {l : Slot}
    (hl : (ixs.map InstructionSlot.slot).getLast? = some l) :
    parent ix.slot = l ∧ l < ix.slot := by
  have hin := (h.confirmed ix.slot buf flush.present flush.confirmed).1
  have hnew := h.pending ix.slot buf flush.present flush.undrained flush.confirmed
  have hm := h.metadata ix.slot buf m flush.present hin flush.metadata_eq
  -- The first emitted slot lies below: late entries below it have no metadata.
  obtain ⟨f, hf⟩ : ∃ f, (ixs.map InstructionSlot.slot).head? = some f := by
    cases hixs : ixs with
    | nil => simp [hixs] at hl
    | cons a rest => simp
  have hfmem : f ∈ ixs.map InstructionSlot.slot := List.mem_of_head? hf
  have hlt : f < ix.slot := by
    obtain hlt | heq | hgt := Nat.lt_trichotomy f ix.slot
    · exact hlt
    · exact absurd (heq ▸ hfmem) hnew
    · have hnone := h.below f hf ix.slot buf flush.present hgt flush.undrained
      simp [flush.metadata_eq] at hnone
  refine h.segment.parent_eq_getLast hparent hfmem hl hin hnew hlt ?_
  have hlast : st.lastInstructionFlushedSlot = some l := h.frontier.trans hl
  have hok : st.parentOk (parent ix.slot) = true := by
    obtain hnone | hok := flush.parent
    · simp [hlast] at hnone
    · rwa [hm] at hok
  simp only [parentOk, Bool.or_eq_true, decide_eq_true_eq] at hok
  obtain hbehind | hdiscarded := hok
  · obtain ⟨l', hl', hle⟩ := behind_iff.mp hbehind
    cases hlast.symm.trans hl'
    exact hle
  · have hgreatest := hparent ix.slot hin ⟨f, h.segment.mem f hfmem, hlt⟩
    exact absurd hgreatest.1.1 (h.tombstones _ hdiscarded)

theorem flush (h : ChainInvariant C parent ops ixs st) (hparent : IsParentIn C parent)
    (flush : InstructionFlush st buf m ix st') :
    ChainInvariant C parent ops (ixs ++ [ix]) st' := by
  have hin := h.confirmed ix.slot buf flush.present flush.confirmed
  refine ⟨?_, ?_, ?_, ?_, ?_, ?_, ?_, ?_, ?_⟩
  · simp [flush.result, flushInstruction]
  · rw [flush.result]
    exact h.tombstones
  · intro s b m' hb hs hm'
    obtain ⟨rfl, rfl⟩ | ⟨-, hold⟩ := flush.entry hb
    · exact h.metadata ix.slot buf m' flush.present hs hm'
    · exact h.metadata s b m' hold hs hm'
  · intro s b hb hconf
    obtain ⟨rfl, rfl⟩ | ⟨-, hold⟩ := flush.entry hb
    · exact hin
    · exact h.confirmed s b hold hconf
  · intro s b hb hdrained hconf
    obtain ⟨rfl, rfl⟩ | ⟨hne, hold⟩ := flush.entry hb
    · simp [SlotRecordBuffer.takeInstructionRecords] at hdrained
    · simpa [hne] using h.pending s b hold hdrained hconf
  · intro f hf s b hb hlt hdrained
    obtain ⟨rfl, rfl⟩ | ⟨hne, hold⟩ := flush.entry hb
    · simp [SlotRecordBuffer.takeInstructionRecords] at hdrained
    · cases ixs with
      | nil =>
          -- The first flush: everything below it is drained.
          simp only [List.nil_append, List.map_cons, List.map_nil, List.head?_cons,
            Option.mem_some_iff] at hf
          subst hf
          simp [flush.below s b hold hlt] at hdrained
      | cons a rest => exact h.below f (by simpa using hf) s b hold hlt hdrained
  · intro s hs
    rw [List.map_append, List.mem_append] at hs
    obtain hold | hnew := hs
    · exact h.emitted s hold
    · rw [List.map_singleton, List.mem_singleton] at hnew
      exact hnew ▸ hin.2
  · rw [List.map_append]
    refine h.segment.concat hin.1 ?_
    intro l hl
    obtain ⟨heq, hlt⟩ := h.flush_successor hparent flush hl
    refine ⟨hlt, ?_⟩
    intro c hc hcx
    rw [← heq]
    exact (hparent ix.slot hin.1 ⟨c, hc, hcx⟩).2 ⟨hc, hcx⟩
  · refine List.isChain_append.mpr ⟨h.chain, .singleton ix, ?_⟩
    intro a ha b hb
    cases hb
    have hm := h.metadata ix.slot buf m flush.present hin.1 flush.metadata_eq
    have hlast : (ixs.map InstructionSlot.slot).getLast? = some a.slot := by
      rw [List.getLast?_map, ha, Option.map_some]
    rw [flush.parentSlot_eq, hm]
    exact (h.flush_successor hparent flush hlast).1

theorem flushAccount {acct : AccountSlot R} (h : ChainInvariant C parent ops ixs st)
    (flush : AccountFlush st buf acct st') : ChainInvariant C parent ops ixs st' := by
  -- Only the account side of one entry changes.
  have hentry : ∀ (s : Slot) (b : SlotRecordBuffer R), st'.buffer[s]? = some b →
      ∃ b₀, st.buffer[s]? = some b₀ ∧ b.metadata = b₀.metadata ∧
        b.instructionsDrained = b₀.instructionsDrained ∧
        b.instructionCommitmentReached = b₀.instructionCommitmentReached := by
    intro s b hb
    obtain ⟨rfl, rfl⟩ | ⟨-, hold⟩ := flush.entry hb
    · exact ⟨buf, flush.present, rfl, rfl, rfl⟩
    · exact ⟨b, hold, rfl, rfl, rfl⟩
  refine ⟨?_, ?_, ?_, ?_, ?_, ?_, h.emitted, h.segment, h.chain⟩
  · rw [flush.result]
    exact h.frontier
  · rw [flush.result]
    exact h.tombstones
  · intro s b m' hb hs hm'
    obtain ⟨b₀, hb₀, hmeta, -, -⟩ := hentry s b hb
    exact h.metadata s b₀ m' hb₀ hs (hmeta ▸ hm')
  · intro s b hb hconf
    obtain ⟨b₀, hb₀, -, -, hc⟩ := hentry s b hb
    exact h.confirmed s b₀ hb₀ (hc ▸ hconf)
  · intro s b hb hdrained hconf
    obtain ⟨b₀, hb₀, -, hd, hc⟩ := hentry s b hb
    exact h.pending s b₀ hb₀ (hd ▸ hdrained) (hc ▸ hconf)
  · intro f hf s b hb hlt hdrained
    obtain ⟨b₀, hb₀, hmeta, hd, -⟩ := hentry s b hb
    rw [hmeta]
    exact h.below f hf s b₀ hb₀ hlt (hd ▸ hdrained)

theorem cleanup (h : ChainInvariant C parent ops ixs st) :
    ChainInvariant C parent ops ixs st.cleanupFullyDrained := by
  refine ⟨?_, ?_, ?_, ?_, ?_, ?_, h.emitted, h.segment, h.chain⟩
  · rw [cleanupFullyDrained_lastInstructionFlushedSlot]
    exact h.frontier
  · intro d hd
    rw [cleanupFullyDrained_discardedSlots] at hd
    exact h.tombstones d (mem_pruneDiscardedSlots.mp hd).1
  · intro s b m' hb
    exact h.metadata s b m' (entry_of_cleanup hb).1
  · intro s b hb
    exact h.confirmed s b (entry_of_cleanup hb).1
  · intro s b hb
    exact h.pending s b (entry_of_cleanup hb).1
  · intro f hf s b hb
    exact h.below f hf s b (entry_of_cleanup hb).1

theorem drain {op : Op R} (hop : op.event? = none) (h : ChainInvariant C parent ops ixs st) :
    ChainInvariant C parent (ops ++ [op]) ixs st := by
  have hevents : events (ops ++ [op]) = events ops := by
    simp [events, hop]
  refine ⟨h.frontier, h.tombstones, h.metadata, ?_, h.pending, h.below, ?_, h.segment, h.chain⟩
  · rw [hevents]
    exact h.confirmed
  · rw [hevents]
    exact h.emitted

end ChainInvariant

/-- Every instruction slot emitted after the first one names the one before it as its
parent, and the output is a gap-free segment of the canonical slots. -/
theorem instructionSlots_follow_chain (commitAt : AccountCommitAt) (C : Set Slot)
    (parent : Slot → Slot) (hparent : IsParentIn C parent) (ops : List (Op R))
    (h : Obeys (FollowsChain commitAt C parent) ops) :
    (instructionSlots commitAt ops).IsChain (fun a b => b.parentSlot = a.slot) ∧
      Segment C ((instructionSlots commitAt ops).map InstructionSlot.slot) := by
  have hinv : ChainInvariant C parent ops (instructionSlots commitAt ops) (run commitAt ops) := by
    refine run_induction (P := fun ops ixs _ st => ChainInvariant C parent ops ixs st)
      .start ?_ ?_ ?_ ?_ ?_ h
    · intro ops e hallowed hst
      exact hst.apply hallowed
    · intro ops ixs accts st buf m ix st' flush hst
      exact hst.flush hparent flush
    · intro ops ixs accts st buf acct st' flush hst
      exact hst.flushAccount flush
    · intro ops ixs accts st hst
      exact hst.cleanup
    · intro ops op ixs accts st hop hst
      exact hst.drain hop
  exact ⟨hinv.chain, hinv.segment⟩

/-- The canonical slots 1, 2 and 4 around the discarded slot 3. -/
def forkRun : List (Op Nat) :=
  applyReadySlot 2 1 0 ++ applyReadySlot 1 0 1 ++ [.drainInstruction] ++
    [.apply (.blockFrozen 3 (testMetadata 2 0)), .apply (.slotDiscarded 3 .forked)] ++
    applyReadySlot 4 2 0 ++ [.drainInstruction]

theorem forkRun_isParentIn :
    IsParentIn {s | s = 1 ∨ s = 2 ∨ s = 4} fun s : Slot => if s = 4 then 2 else s - 1 := by
  rintro s (rfl | rfl | rfl) ⟨c, hc, hlt⟩
  · rcases hc with rfl | rfl | rfl <;> simp at hlt
  · refine ⟨by simp, ?_⟩
    rintro d ⟨rfl | rfl | rfl, hd⟩ <;> simp at hd ⊢
  · refine ⟨by simp, ?_⟩
    rintro d ⟨rfl | rfl | rfl, hd⟩ <;> simp at hd ⊢

theorem instructionSlots_follow_chain_fork :
    (instructionSlots .confirmed forkRun).map InstructionSlot.slot = [1, 2, 4] ∧
      Segment {s | s = 1 ∨ s = 2 ∨ s = 4}
        ((instructionSlots .confirmed forkRun).map InstructionSlot.slot) :=
  ⟨by decide +kernel, (instructionSlots_follow_chain .confirmed _ _ forkRun_isParentIn forkRun
    (by decide +kernel)).2⟩

end Shipstern.BlockCoordinator
