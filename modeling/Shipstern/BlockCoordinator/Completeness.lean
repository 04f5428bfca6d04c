import Mathlib
import Shipstern.BlockCoordinator.Gates

/-!
# Completeness of the output

Handlers and lifecycle events reach the coordinator on two channels and are merged in
any order, with a drain after every batch. The only protection against emitting a slot
too early is counting: transactions against the block metadata, account outcomes against
the account events seen before the commitment. `InstructionRun` and `AccountRun` say what
a slot can rely on in a run. From that the counting argument gives the whole output: the
events behind the emitted entry are all events of the slot, whatever else was interleaved
with them.
-/

open Std OrderedMap Machine

namespace Shipstern.BlockCoordinator

variable {R : Type}

namespace CoordinatorEvent

/-- The event discards the slot. -/
def discards (s : Slot) : CoordinatorEvent R → Bool
  | .slotDiscarded slot _ => slot = s
  | _ => false

/-- The event is a part of a transaction of the slot: an instruction record or an
instruction or transaction statistic. -/
def isInstructionPart (s : Slot) : CoordinatorEvent R → Bool
  | .instructionRecordParsed slot _ _ => slot = s
  | .parseStats slot kind => slot = s && !kind.isAccountStat
  | _ => false

/-- The event announces an account update of the slot. -/
def isAccountEventSeen (s : Slot) : CoordinatorEvent R → Bool
  | .accountEventSeen slot => slot = s
  | _ => false

/-- The events a handler sends for the transactions of the slot. -/
def isInstructionEvent (s : Slot) (e : CoordinatorEvent R) : Bool :=
  e.isInstructionPart s || e.isTransactionParsed s

end CoordinatorEvent

open CoordinatorState

/-! ## Instructions -/

/-- What the instructions of a slot can rely on in a run. -/
structure InstructionRun (commitAt : AccountCommitAt) (s : Slot) (ops : List (Op R)) : Prop where
  kept : ∀ e ∈ events ops, e.discards s = false
  /-- The frontier is below the slot until the slot is emitted. -/
  ahead : ∀ front ∈ ops.inits,
    s ∉ (instructionSlots commitAt front).map InstructionSlot.slot →
      behind (run commitAt front).lastInstructionFlushedSlot s = false
  /-- Every part of a transaction is applied before a `TransactionParsed`. -/
  framed : ∀ rest ∈ (events ops).tails, ∀ e ∈ rest.head?, e.isInstructionPart s = true →
    ∃ e' ∈ rest.tail, e'.isTransactionParsed s = true
  counted : ∀ m ∈ (events ops).filterMap (·.metadata? s),
    m.expectedTxCount = (events ops).countP (·.isTransactionParsed s)
  distinct : (((events ops).filterMap (·.instructionRecord? s)).map Prod.fst).Nodup

/-- The slot was emitted with everything its handlers sent: all records in the order of
their keys, and the statistics in full. -/
structure InstructionComplete (s : Slot) (evs : List (CoordinatorEvent R))
    (ix : InstructionSlot R) : Prop where
  executed : ix.executedTransactionCount = evs.countP (·.isTransactionParsed s)
  records : InKeyOrder compare (evs.filterMap (·.instructionRecord? s)) ix.records
  filtered : ix.filteredInstructionCount = evs.countP (·.isParseStat s .instructionFiltered)
  failed : ix.failedInstructionCount = evs.countP (·.isParseStat s .instructionError)
  statusFailed : ix.transactionStatusFailedCount =
    evs.countP (·.isParseStat s .transactionStatusFailed)
  statusSucceeded : ix.transactionStatusSucceededCount =
    evs.countP (·.isParseStat s .transactionStatusSucceeded)

theorem mem_events {e : CoordinatorEvent R} {ops : List (Op R)} (h : e ∈ events ops) :
    ∃ front back, ops = front ++ .apply e :: back := by
  obtain ⟨op, hop, he⟩ := List.mem_filterMap.mp h
  obtain ⟨front, back, rfl⟩ := List.append_of_mem hop
  cases op with
  | apply e' =>
      cases he
      exact ⟨front, back, rfl⟩
  | drainInstruction => cases he
  | drainAccount => cases he

/-- A projection or a count only sees the elements that matter for it. -/
theorem filterMap_filter_of {α β : Type} {f : α → Option β} {q : α → Bool}
    (hq : ∀ x, q x = false → f x = none) (l : List α) :
    (l.filter q).filterMap f = l.filterMap f := by
  rw [List.filterMap_filter]
  congr 1
  funext x
  cases hx : q x <;> simp [hq, hx]

theorem countP_filter_of {α : Type} {p q : α → Bool} (hq : ∀ x, q x = false → p x = false)
    (l : List α) : (l.filter q).countP p = l.countP p := by
  rw [List.countP_filter]
  congr 1
  funext x
  cases hx : q x <;> simp [hq, hx]

section InstructionProjections

variable (s : Slot) (evs : List (CoordinatorEvent R))

theorem filter_instructionRecord :
    (evs.filter (·.isInstructionEvent s)).filterMap (·.instructionRecord? s) =
      evs.filterMap (·.instructionRecord? s) := by
  refine filterMap_filter_of ?_ evs
  intro e he
  cases e with
  | instructionRecordParsed slot key record =>
      simpa [CoordinatorEvent.isInstructionEvent, CoordinatorEvent.isInstructionPart,
        CoordinatorEvent.isTransactionParsed, CoordinatorEvent.instructionRecord?] using he
  | _ => rfl

theorem filter_isTransactionParsed :
    (evs.filter (·.isInstructionEvent s)).countP (·.isTransactionParsed s) =
      evs.countP (·.isTransactionParsed s) :=
  countP_filter_of (fun _ he => (Bool.or_eq_false_iff.mp he).2) evs

theorem filter_isParseStat {kind : ParseStatsKind} (hkind : kind.isAccountStat = false) :
    (evs.filter (·.isInstructionEvent s)).countP (·.isParseStat s kind) =
      evs.countP (·.isParseStat s kind) := by
  refine countP_filter_of ?_ evs
  intro e he
  cases e with
  | parseStats slot kind' =>
      by_cases hk : kind' = kind
      · subst hk
        simpa [CoordinatorEvent.isInstructionEvent, CoordinatorEvent.isInstructionPart,
          CoordinatorEvent.isTransactionParsed, CoordinatorEvent.isParseStat, hkind] using he
      · simp [CoordinatorEvent.isParseStat, hk]
  | _ => rfl

end InstructionProjections

/-- Complete outputs over the same handler events agree, up to what the block says. -/
theorem InstructionComplete.agree {s : Slot} {evs evs' : List (CoordinatorEvent R)}
    {ix ix' : InstructionSlot R} (h : InstructionComplete s evs ix)
    (h' : InstructionComplete s evs' ix') (hslot : ix.slot = ix'.slot)
    (hperm : (evs.filter (·.isInstructionEvent s)).Perm (evs'.filter (·.isInstructionEvent s))) :
    { ix with parentSlot := ix'.parentSlot, blockhash := ix'.blockhash } = ix' := by
  have hrecords := hperm.filterMap (·.instructionRecord? s)
  rw [filter_instructionRecord, filter_instructionRecord] at hrecords
  have hparsed := hperm.countP_eq (·.isTransactionParsed s)
  rw [filter_isTransactionParsed, filter_isTransactionParsed] at hparsed
  have hstat : ∀ kind : ParseStatsKind, kind.isAccountStat = false →
      evs.countP (·.isParseStat s kind) = evs'.countP (·.isParseStat s kind) := by
    intro kind hkind
    rw [← filter_isParseStat s evs hkind, ← filter_isParseStat s evs' hkind]
    exact hperm.countP_eq _
  cases ix
  cases ix'
  simp only [InstructionSlot.mk.injEq, true_and]
  exact ⟨hslot, h.executed.trans (hparsed.trans h'.executed.symm),
    h.records.unique h'.records hrecords,
    h.filtered.trans ((hstat _ rfl).trans h'.filtered.symm),
    h.failed.trans ((hstat _ rfl).trans h'.failed.symm),
    h.statusFailed.trans ((hstat _ rfl).trans h'.statusFailed.symm),
    h.statusSucceeded.trans ((hstat _ rfl).trans h'.statusSucceeded.symm)⟩

/-- An accepted instruction event of the slot leaves an entry behind. -/
theorem isSome_of_accepted {st : CoordinatorState R} {s : Slot} {e : CoordinatorEvent R}
    (haccepts : st.accepts e = true) (he : e.isInstructionEvent s = true) :
    (st.apply e).buffer[s]?.isSome := by
  have htouches : st.touches e s := by
    cases e <;> simp_all [touches, CoordinatorEvent.isInstructionEvent,
      CoordinatorEvent.isInstructionPart, CoordinatorEvent.isTransactionParsed,
      CoordinatorEvent.slot, CoordinatorEvent.entersBuffer]
  rw [getElem?_apply_of_touches htouches]
  rfl

/-- If every event of a kind is accepted, nothing of that kind is missing. -/
theorem acceptedEvents_filter {commitAt : AccountCommitAt} {before since : List (Op R)}
    {q : CoordinatorEvent R → Bool}
    (h : ∀ front e back, since = front ++ .apply e :: back → q e = true →
      (run commitAt (before ++ front)).accepts e = true) :
    ((run commitAt before).acceptedEvents since).filter q = (events since).filter q := by
  induction since using List.reverseRecOn with
  | nil => rfl
  | append_singleton since op ih =>
      rw [EntryLife.acceptedEvents_concat, events_append, List.filter_append, List.filter_append,
        ih fun front e back heq => h front e (back ++ [op]) (by simp [heq])]
      congr 1
      cases op with
      | apply e =>
          rw [accepted]
          split
          · rfl
          · next hdropped =>
              have hq : q e = false := by
                by_contra hq
                exact hdropped (h since e [] rfl (by simpa using hq))
              simp [hq]
      | drainInstruction => rfl
      | drainAccount => rfl

namespace InstructionRun

variable {commitAt : AccountCommitAt} {s : Slot} {ops front back : List (Op R)}

/-- As long as the slot was not emitted, its instruction events are accepted. -/
theorem accepts (h : InstructionRun commitAt s (front ++ back))
    (hpending : s ∉ (instructionSlots commitAt front).map InstructionSlot.slot)
    {e : CoordinatorEvent R} (he : e.isInstructionEvent s = true) :
    (run commitAt front).accepts e = true := by
  have hdiscarded : s ∉ (run commitAt front).discardedSlots := by
    intro hin
    obtain ⟨reason, hreason⟩ := (traced commitAt front).tombstones s hin
    have := h.kept _ (by rw [events_append]; exact List.mem_append_left _ hreason)
    simp [CoordinatorEvent.discards] at this
  have hvalid : (run commitAt front).validateInstructionSlot s = true :=
    validateInstructionSlot_iff.mpr
      ⟨hdiscarded, h.ahead front ((List.mem_inits _ _).mpr (List.prefix_append front back)) hpending⟩
  cases e with
  | instructionRecordParsed slot key record | transactionParsed slot =>
      simp [CoordinatorEvent.isInstructionEvent, CoordinatorEvent.isInstructionPart,
        CoordinatorEvent.isTransactionParsed] at he
      subst he
      exact hvalid
  | parseStats slot kind =>
      simp [CoordinatorEvent.isInstructionEvent, CoordinatorEvent.isInstructionPart,
        CoordinatorEvent.isTransactionParsed] at he
      obtain ⟨rfl, hkind⟩ := he
      simpa [CoordinatorState.accepts, hkind] using hvalid
  | _ => simp [CoordinatorEvent.isInstructionEvent, CoordinatorEvent.isInstructionPart,
      CoordinatorEvent.isTransactionParsed] at he

/-- A slot that has no entry and was not emitted had no instruction event. -/
theorem filter_absent (h : InstructionRun commitAt s (front ++ back))
    (habsent : (run commitAt front).buffer[s]? = none)
    (hpending : s ∉ (instructionSlots commitAt front).map InstructionSlot.slot) :
    (events front).filter (·.isInstructionEvent s) = [] := by
  refine List.filter_eq_nil_iff.mpr ?_
  intro e hin he
  obtain ⟨p, r, rfl⟩ := mem_events hin
  have haccepts : (run commitAt p).accepts e = true :=
    (show InstructionRun commitAt s (p ++ (.apply e :: r ++ back)) by simpa using h).accepts
      (fun hin => hpending (mem_instructionSlots_append hin _)) he
  have hpresent : (run commitAt (p ++ [.apply e])).buffer[s]?.isSome := by
    rw [run_concat]
    exact isSome_of_accepted haccepts he
  -- Its entry would still be there.
  have hstays : (run commitAt (p ++ [.apply e] ++ r)).buffer[s]?.isSome := by
    refine isSome_append hpresent ?_ (.inl (by simpa using hpending))
    intro reason hin
    have := h.kept (.slotDiscarded s reason) (by simp [hin])
    simp [CoordinatorEvent.discards] at this
  simp [habsent] at hstays

/-- Where no transaction is finished any more, no part of one is applied either. -/
theorem filter_eq_nil (h : InstructionRun commitAt s (front ++ back))
    (hnone : (events back).countP (·.isTransactionParsed s) = 0) :
    (events back).filter (·.isInstructionEvent s) = [] := by
  rw [List.countP_eq_zero] at hnone
  refine List.filter_eq_nil_iff.mpr ?_
  intro e he hevent
  obtain hpart | hparsed := Bool.or_eq_true_iff.mp hevent
  · obtain ⟨pre, post, hsplit⟩ := List.append_of_mem he
    obtain ⟨e', he', hparsed⟩ := h.framed (e :: post)
      ((List.mem_tails _ _).mpr ⟨events front ++ pre, by simp [hsplit]⟩) e (by simp) hpart
    exact hnone e' (by simp only [List.tail_cons] at he'; simp [hsplit, he']) hparsed
  · exact hnone e he hparsed

/-- The block of the entry is one of the run, and its transactions are those accepted. -/
theorem expected_le (h : InstructionRun commitAt s (front ++ back)) {before since : List (Op R)}
    (hfront : front = before ++ since) {buf : SlotRecordBuffer R} {m : BlockMetadata}
    (hentry : EntryOf s ((run commitAt before).acceptedEvents since) buf)
    (hmeta : buf.metadata = some m) (hparsed : m.expectedTxCount ≤ buf.parsedTxCount) :
    m ∈ (events (front ++ back)).filterMap (·.metadata? s) ∧
      (events (front ++ back)).countP (·.isTransactionParsed s) ≤
        (events since).countP (·.isTransactionParsed s) := by
  subst hfront
  have hsub := EntryLife.acceptedEvents_sublist (run commitAt before) since
  have hmem : m ∈ (events (before ++ since ++ back)).filterMap (·.metadata? s) := by
    have hlast : m ∈ ((run commitAt before).acceptedEvents since).filterMap (·.metadata? s) :=
      List.mem_of_getLast? (hentry.metadata.symm.trans hmeta)
    have hsince := (hsub.filterMap (·.metadata? s)).subset hlast
    simp only [events_append, List.filterMap_append, List.mem_append]
    exact .inl (.inr hsince)
  refine ⟨hmem, ?_⟩
  rw [← h.counted m hmem]
  exact (hentry.parsedTx ▸ hparsed).trans hsub.countP_le

/-- A slot with transactions is not emitted before one of them was parsed. -/
theorem not_emitted (h : InstructionRun commitAt s (front ++ back))
    (hnone : (events front).countP (·.isTransactionParsed s) = 0)
    (hpos : 0 < (events (front ++ back)).countP (·.isTransactionParsed s)) :
    s ∉ (instructionSlots commitAt front).map InstructionSlot.slot := by
  intro hin
  obtain ⟨ix, hix, rfl⟩ := List.mem_map.mp hin
  obtain ⟨p, op, r, rfl, hemit⟩ := (mem_outputs _ _).mp hix
  obtain ⟨rfl, -⟩ := mem_emittedInstructions hemit
  obtain ⟨before, since, buf, m, rfl, -, -, hentry, -, hmeta, hparsed, -, -⟩ :=
    instruction_entryLife hemit
  have h' : InstructionRun commitAt ix.slot
      (before ++ since ++ (.drainInstruction :: r ++ back)) := by
    simpa using h
  have hle := (h'.expected_le rfl hentry hmeta hparsed).2
  simp only [events_append, List.countP_append, List.append_assoc, List.cons_append,
    events_drainInstruction] at hle hnone hpos
  omega

/-- At an emission of the slot, the events behind its entry are all instruction events of
the slot in the whole run. -/
theorem filter_accepted {before since : List (Op R)}
    (h : InstructionRun commitAt s (before ++ since ++ back))
    (life : EntryLife commitAt s before since) {buf : SlotRecordBuffer R} {m : BlockMetadata}
    (hbuf : (run commitAt (before ++ since)).buffer[s]? = some buf)
    (hentry : EntryOf s ((run commitAt before).acceptedEvents since) buf)
    (hundrained : buf.instructionsDrained = false) (hmeta : buf.metadata = some m)
    (hparsed : m.expectedTxCount ≤ buf.parsedTxCount) :
    ((run commitAt before).acceptedEvents since).filter (·.isInstructionEvent s) =
      (events (before ++ since ++ back)).filter (·.isInstructionEvent s) := by
  have hle := (h.expected_le rfl hentry hmeta hparsed).2
  have hsplit : (events (before ++ since ++ back)).countP (·.isTransactionParsed s) =
      (events before).countP (·.isTransactionParsed s) +
        (events since).countP (·.isTransactionParsed s) +
          (events back).countP (·.isTransactionParsed s) := by
    simp only [events_append, List.countP_append]
  have hbefore : (events before).countP (·.isTransactionParsed s) = 0 := by omega
  have hback : (events back).countP (·.isTransactionParsed s) = 0 := by omega
  rcases Nat.eq_zero_or_pos ((events (before ++ since ++ back)).countP
    (·.isTransactionParsed s)) with hzero | hpos
  · -- Without transactions there are no parts either.
    have hnone : (events (before ++ since ++ back)).filter (·.isInstructionEvent s) = [] :=
      InstructionRun.filter_eq_nil (show InstructionRun commitAt s ([] ++ _) from h) hzero
    have hsub := (EntryLife.acceptedEvents_sublist (run commitAt before) since).filter
      (·.isInstructionEvent s)
    simp only [events_append, List.filter_append, List.append_eq_nil_iff] at hnone ⊢
    rw [hnone.1.2] at hsub
    simp [hnone, List.sublist_nil.mp hsub]
  · have h' : InstructionRun commitAt s (before ++ (since ++ back)) := by simpa using h
    have hpending : s ∉ (instructionSlots commitAt (before ++ since)).map InstructionSlot.slot :=
      fun hin => h'.not_emitted hbefore (by simpa using hpos)
        (life.instructions_pending hbuf hundrained hin)
    have hpending' : s ∉ (instructionSlots commitAt before).map InstructionSlot.slot :=
      fun hin => hpending (mem_instructionSlots_append hin since)
    rw [events_append, events_append, List.filter_append, List.filter_append,
      h'.filter_absent life.absent hpending', h.filter_eq_nil hback, List.nil_append,
      List.append_nil]
    refine acceptedEvents_filter ?_
    intro front e rest heq he
    subst heq
    refine (show InstructionRun commitAt s (before ++ front ++ (.apply e :: rest ++ back)) by
      simpa using h).accepts (fun hin => hpending ?_) he
    simpa using mem_instructionSlots_append hin (.apply e :: rest)

/-- Whatever is emitted for the slot is complete, and carries the block of one of its
`BlockFrozen` events. -/
theorem complete (h : InstructionRun commitAt s ops) {ix : InstructionSlot R}
    (hix : ix ∈ instructionSlots commitAt ops) (hslot : ix.slot = s) :
    InstructionComplete s (events ops) ix ∧
      ∃ m ∈ (events ops).filterMap (·.metadata? s),
        ix.parentSlot = m.parentSlot ∧ ix.blockhash = m.blockhash := by
  subst hslot
  obtain ⟨front, op, back, rfl, hemit⟩ := (mem_outputs _ _).mp hix
  obtain ⟨rfl, -⟩ := mem_emittedInstructions hemit
  obtain ⟨before, since, buf, m, rfl, life, hbuf, hentry, hundrained, hmeta, hparsed, -, hdrain⟩ :=
    instruction_entryLife hemit
  have hmem := (h.expected_le rfl hentry hmeta hparsed).1
  have hfilter := h.filter_accepted life hbuf hentry hundrained hmeta hparsed
  have hstat : ∀ kind : ParseStatsKind, kind.isAccountStat = false → buf.statCount kind =
      (events (before ++ since ++ .drainInstruction :: back)).countP
        (·.isParseStat ix.slot kind) := by
    intro kind hkind
    rw [hentry.stats kind, ← filter_isParseStat ix.slot _ hkind, hfilter,
      filter_isParseStat ix.slot _ hkind]
  have hrecords : ((run commitAt before).acceptedEvents since).filterMap
      (·.instructionRecord? ix.slot) =
        (events (before ++ since ++ .drainInstruction :: back)).filterMap
          (·.instructionRecord? ix.slot) := by
    rw [← filter_instructionRecord, hfilter, filter_instructionRecord]
  have hemitted := SlotRecordBuffer.drainInstructionRecords_eq hmeta hdrain
  refine ⟨⟨?_, ?_, ?_, ?_, ?_, ?_⟩, m, hmem, by rw [hemitted], by rw [hemitted]⟩
  · rw [hemitted]
    exact h.counted m hmem
  · rw [← hrecords]
    have hdistinct := h.distinct
    rw [← hrecords] at hdistinct
    rw [hemitted, hentry.instructionRecords hundrained]
    exact inKeyOrder_filled hdistinct
  · rw [hemitted]
    exact hstat .instructionFiltered rfl
  · rw [hemitted]
    exact hstat .instructionError rfl
  · rw [hemitted]
    exact hstat .transactionStatusFailed rfl
  · rw [hemitted]
    exact hstat .transactionStatusSucceeded rfl

end InstructionRun

/-- The instruction output of a slot does not depend on the interleaving: it holds all of
the slot's records in key order with the full statistics, and two runs over the same
handler events emit the same, in full when their blocks of the slot agree. -/
theorem instruction_output_complete (commitAt commitAt' : AccountCommitAt) (s : Slot)
    (ops ops' : List (Op R)) (h : InstructionRun commitAt s ops)
    (h' : InstructionRun commitAt' s ops') :
    (∀ ix ∈ instructionSlots commitAt ops, ix.slot = s → InstructionComplete s (events ops) ix) ∧
      (((events ops).filter (·.isInstructionEvent s)).Perm
          ((events ops').filter (·.isInstructionEvent s)) →
        ∀ ix ∈ instructionSlots commitAt ops, ∀ ix' ∈ instructionSlots commitAt' ops',
          ix.slot = s → ix'.slot = s →
            { ix with parentSlot := ix'.parentSlot, blockhash := ix'.blockhash } = ix' ∧
              ((∀ m ∈ (events ops).filterMap (·.metadata? s),
                  ∀ m' ∈ (events ops').filterMap (·.metadata? s),
                    m.parentSlot = m'.parentSlot ∧ m.blockhash = m'.blockhash) → ix = ix')) := by
  refine ⟨fun ix hix hslot => (h.complete hix hslot).1, ?_⟩
  intro hperm ix hix ix' hix' hslot hslot'
  obtain ⟨hcomplete, m, hm, hparent, hhash⟩ := h.complete hix hslot
  obtain ⟨hcomplete', m', hm', hparent', hhash'⟩ := h'.complete hix' hslot'
  have hagree := hcomplete.agree hcomplete' (hslot.trans hslot'.symm) hperm
  refine ⟨hagree, ?_⟩
  intro hblocks
  obtain ⟨hp, hb⟩ := hblocks m hm m' hm'
  rw [← hagree, hparent', hhash', ← hp, ← hb, ← hparent, ← hhash]

/-- Slot 2 with one transaction of two records, parsed before its block is frozen. -/
def parsedFirstRun : List (Op Nat) :=
  [.apply (.instructionRecordParsed 2 ⟨0, [1]⟩ 11), .apply (.instructionRecordParsed 2 ⟨0, [0]⟩ 10),
    .apply (.parseStats 2 .transactionStatusSucceeded), .apply (.transactionParsed 2)] ++
    [.apply (.blockFrozen 2 (testMetadata 1 1)), .apply (.slotConfirmed 2), .drainInstruction]

/-- The same handler events after the slot was frozen and confirmed, with drains between. -/
def parsedLastRun : List (Op Nat) :=
  [.apply (.slotConfirmed 2), .apply (.blockFrozen 2 (testMetadata 1 1)), .drainInstruction,
    .apply (.parseStats 2 .transactionStatusSucceeded), .drainAccount,
    .apply (.instructionRecordParsed 2 ⟨0, [0]⟩ 10), .drainInstruction,
    .apply (.instructionRecordParsed 2 ⟨0, [1]⟩ 11), .apply (.transactionParsed 2),
    .drainInstruction]

theorem instruction_output_complete_interleaved :
    ((instructionSlots .confirmed parsedFirstRun).map fun ix => (ix.slot, ix.records)) =
        [(2, [10, 11])] ∧
      ∀ ix ∈ instructionSlots .confirmed parsedFirstRun,
        ∀ ix' ∈ instructionSlots .finalized parsedLastRun,
          ix.slot = 2 → ix'.slot = 2 → ix = ix' := by
  have hfirst : InstructionRun .confirmed 2 parsedFirstRun :=
    ⟨by decide +kernel, by decide +kernel, by decide +kernel, by decide +kernel, by decide +kernel⟩
  have hlast : InstructionRun .finalized 2 parsedLastRun :=
    ⟨by decide +kernel, by decide +kernel, by decide +kernel, by decide +kernel, by decide +kernel⟩
  refine ⟨by decide +kernel, ?_⟩
  intro ix hix ix' hix' hslot hslot'
  exact ((instruction_output_complete _ _ 2 _ _ hfirst hlast).2 (by decide +kernel) ix hix ix' hix'
    hslot hslot').2 (by decide +kernel)

/-- Slot 2 is frozen a second time with another hash, before or after it is drained. -/
def refrozenHash : BlockMetadata := ⟨1, .replicate 32 7, 0⟩

def drainedBeforeRefrozen : List (Op Nat) :=
  applyReadySlot 2 1 0 ++ [.drainInstruction, .apply (.blockFrozen 2 refrozenHash)]

def drainedAfterRefrozen : List (Op Nat) :=
  applyReadySlot 2 1 0 ++ [.apply (.blockFrozen 2 refrozenHash), .drainInstruction]

/-- The same events of the slot, in the same order, with another drain point: what is
emitted for the slot differs. -/
theorem instruction_output_depends_on_drain :
    InstructionRun .confirmed 2 drainedBeforeRefrozen ∧
      InstructionRun .confirmed 2 drainedAfterRefrozen ∧
      events drainedBeforeRefrozen = events drainedAfterRefrozen ∧
      ∃ ix ∈ instructionSlots .confirmed drainedBeforeRefrozen,
        ∃ ix' ∈ instructionSlots .confirmed drainedAfterRefrozen,
          ix.slot = 2 ∧ ix'.slot = 2 ∧ ix ≠ ix' := by
  refine ⟨⟨?_, ?_, ?_, ?_, ?_⟩, ⟨?_, ?_, ?_, ?_, ?_⟩, ?_, ?_⟩ <;> decide +kernel

/-! ## Accounts -/

/-- What the accounts of a slot can rely on in a run. -/
structure AccountRun (commitAt : AccountCommitAt) (s : Slot) (ops : List (Op R)) : Prop where
  kept : ∀ e ∈ events ops, e.discards s = false
  /-- The frontier is below the slot until its accounts are emitted. -/
  ahead : ∀ front ∈ ops.inits, s ∉ (accountSlots commitAt front).map AccountSlot.slot →
    behind (run commitAt front).lastAccountFlushedSlot s = false
  /-- Every account event is seen before the first commitment event. -/
  seenFirst : (events ops).Pairwise fun e e' =>
    e = .accountCommitment commitAt s → e'.isAccountEventSeen s = false
  counted : (events ops).countP (·.isAccountOutcome s) =
    (events ops).countP (·.isAccountEventSeen s)
  distinct : (((events ops).filterMap (·.accountRecord? s)).map Prod.fst).Nodup

/-- The accounts of the slot were emitted in full: all records in the order of their keys,
and an outcome for every account event seen. -/
structure AccountComplete (s : Slot) (evs : List (CoordinatorEvent R)) (acct : AccountSlot R) :
    Prop where
  records : InKeyOrder compare (evs.filterMap (·.accountRecord? s)) acct.records
  counts : acct.decodedAccountCount + acct.filteredAccountCount + acct.failedAccountCount =
    evs.countP (·.isAccountEventSeen s)

/-- A repeated commitment event gets past its guard only while the account gate that the
first one froze is still there. -/
def NoRecommit (commitAt : AccountCommitAt) (s : Slot) (ops : List (Op R)) : Prop :=
  Obeys (fun front op => op = .apply (.accountCommitment commitAt s) →
    .accountCommitment commitAt s ∈ events front →
      (run commitAt front).accepts (.accountCommitment commitAt s) = true →
        (run commitAt front).isAccountGateFrozen s = true) ops

instance [DecidableEq R] (commitAt : AccountCommitAt) (s : Slot) (ops : List (Op R)) :
    Decidable (NoRecommit commitAt s ops) :=
  inferInstanceAs (Decidable (Obeys _ ops))

section Commitment

variable {commitAt : AccountCommitAt} {s : Slot} {ops : List (Op R)}

/-- The account gate of an entry is frozen by a commitment event of the run. -/
theorem committed_of_frozen {buf : SlotRecordBuffer R}
    (hbuf : (run commitAt ops).buffer[s]? = some buf)
    (hreached : buf.accountCommitmentReached = true) :
    .accountCommitment commitAt s ∈ events ops := by
  obtain ⟨before, since, rfl, life⟩ := EntryLife.exists_of_present
    (show (run commitAt ops).buffer[s]?.isSome by rw [hbuf]; rfl)
  have hgate := life.accountGate
  rw [hbuf, Option.getD_some] at hgate
  rw [hgate.reached] at hreached
  rw [events_append]
  exact List.mem_append_right _
    ((EntryLife.acceptedEvents_sublist _ _).subset (hgate.isSome.mp hreached))

/-- The accounts of a slot are not emitted before its commitment. -/
theorem not_emitted_of_uncommitted (h : .accountCommitment commitAt s ∉ events ops) :
    s ∉ (accountSlots commitAt ops).map AccountSlot.slot := by
  intro hin
  obtain ⟨acct, hacct, rfl⟩ := List.mem_map.mp hin
  obtain ⟨front, op, back, rfl, hemit⟩ := (mem_outputs _ _).mp hacct
  obtain ⟨-, buf, hbuf, -, hgate, -⟩ := mem_emittedAccounts hemit
  obtain ⟨n, -, -, hreached⟩ := buf.accountGateReached_iff.mp hgate
  refine h ?_
  rw [events_append]
  exact List.mem_append_left _ (committed_of_frozen hbuf hreached)

/-- Only the slot's own account events, commitment and discard write its running count. -/
theorem getElem?_accountEventCounts_apply {st : CoordinatorState R} {e : CoordinatorEvent R}
    (hdiscard : e.discards s = false) (hcommit : e ≠ .accountCommitment st.accountCommitAt s)
    (hseen : e.isAccountEventSeen s = false) :
    (st.apply e).accountEventCounts[s]? = st.accountEventCounts[s]? := by
  obtain ⟨slot, reason, rfl⟩ | hne := slotDiscarded_or e
  · have hs : s ≠ slot := by simpa [CoordinatorEvent.discards, eq_comm] using hdiscard
    simp [apply_slotDiscarded, getElem?_erase, hs]
  · rw [apply_accountEventCounts hne]
    split
    · next haccepts =>
        cases e with
        | slotConfirmed slot =>
            simp only [countsAfter]
            split
            · next hc =>
                have hs : s ≠ slot := by
                  rintro rfl
                  simp [CoordinatorEvent.accountCommitment, hc] at hcommit
                rw [getElem?_erase, if_neg hs]
            · rfl
        | slotFinalized slot =>
            have hc : st.accountCommitAt = .finalized := by
              simp only [accepts, Bool.and_eq_true, decide_eq_true_eq] at haccepts
              exact haccepts.1
            have hs : s ≠ slot := by
              rintro rfl
              simp [CoordinatorEvent.accountCommitment, hc] at hcommit
            rw [countsAfter, getElem?_erase, if_neg hs]
        | slotDiscarded slot reason => exact absurd rfl (hne slot reason)
        | accountEventSeen slot =>
            have hs : s ≠ slot := by
              simpa [CoordinatorEvent.isAccountEventSeen, eq_comm] using hseen
            rw [countsAfter, getElem?_insert, if_neg hs]
        | _ => rfl
    · rfl

/-- A drain prunes the running counts behind the account frontier only. -/
theorem getElem?_accountEventCounts_drain {st : CoordinatorState R} {op : Op R}
    (hop : op.event? = none) (hbelow : behind (st.step op).lastAccountFlushedSlot s = false) :
    (st.step op).accountEventCounts[s]? = st.accountEventCounts[s]? := by
  have hcleanup : ∀ (mid : CoordinatorState R) (quiet : Bool),
      mid.accountEventCounts = st.accountEventCounts →
      st.step op = (if quiet then mid else mid.cleanupFullyDrained) →
      (st.step op).accountEventCounts[s]? = st.accountEventCounts[s]? := by
    intro mid quiet hcounts hstep
    rw [hstep] at hbelow ⊢
    rw [← hcounts]
    cases quiet with
    | true => rfl
    | false =>
        refine accountEventCounts_cleanup (not_behind_iff.mp ?_)
        simpa using hbelow
  cases op with
  | apply e => simp [Op.event?] at hop
  | drainInstruction =>
      obtain ⟨mid, hdrain, hstep⟩ := st.step_instructionDrain
      exact hcleanup mid _ (by rw [hdrain.frame]) hstep
  | drainAccount =>
      obtain ⟨mid, hdrain, hstep⟩ := st.step_accountDrain
      exact hcleanup mid _ (by rw [hdrain.frame]) hstep

end Commitment

section AccountProjections

variable (s : Slot) (evs : List (CoordinatorEvent R))

theorem filter_accountRecord :
    (evs.filter (·.isAccountOutcome s)).filterMap (·.accountRecord? s) =
      evs.filterMap (·.accountRecord? s) := by
  refine filterMap_filter_of ?_ evs
  intro e he
  cases e with
  | accountRecordParsed slot key record =>
      simpa [CoordinatorEvent.isAccountOutcome, CoordinatorEvent.accountRecord?] using he
  | _ => rfl

/-- An outcome is a record, a filtered update or a failed one. -/
theorem isAccountOutcome_toNat (e : CoordinatorEvent R) :
    (e.isAccountOutcome s).toNat = (e.accountRecord? s).toList.length +
      (e.isParseStat s .accountFiltered).toNat + (e.isParseStat s .accountError).toNat := by
  cases e with
  | accountRecordParsed slot key record =>
      by_cases hs : slot = s <;>
        simp [CoordinatorEvent.isAccountOutcome, CoordinatorEvent.accountRecord?,
          CoordinatorEvent.isParseStat, hs]
  | parseStats slot kind =>
      by_cases hs : slot = s <;> cases kind <;>
        simp [CoordinatorEvent.isAccountOutcome, CoordinatorEvent.accountRecord?,
          CoordinatorEvent.isParseStat, ParseStatsKind.isAccountStat, hs]
  | _ => rfl

theorem countP_isAccountOutcome :
    evs.countP (·.isAccountOutcome s) = (evs.filterMap (·.accountRecord? s)).length +
      evs.countP (·.isParseStat s .accountFiltered) +
        evs.countP (·.isParseStat s .accountError) := by
  induction evs using List.reverseRecOn with
  | nil => rfl
  | append_singleton evs e ih =>
      have hrecord : ((evs ++ [e]).filterMap (·.accountRecord? s)).length =
          (evs.filterMap (·.accountRecord? s)).length + (e.accountRecord? s).toList.length := by
        cases hr : e.accountRecord? s <;> simp [hr]
      rw [EntryOf.countP_concat, EntryOf.countP_concat, EntryOf.countP_concat, hrecord, ih,
        isAccountOutcome_toNat]
      omega

end AccountProjections

namespace AccountRun

variable {commitAt : AccountCommitAt} {s : Slot} {ops front back : List (Op R)}

theorem not_discarded (h : AccountRun commitAt s (front ++ back)) :
    s ∉ (run commitAt front).discardedSlots := by
  intro hin
  obtain ⟨reason, hreason⟩ := (traced commitAt front).tombstones s hin
  have := h.kept (.slotDiscarded s reason) (by simp [hreason])
  simp [CoordinatorEvent.discards] at this

theorem frontier_below (h : AccountRun commitAt s (front ++ back))
    (huncommitted : .accountCommitment commitAt s ∉ events front) :
    behind (run commitAt front).lastAccountFlushedSlot s = false :=
  h.ahead front ((List.mem_inits _ _).mpr (List.prefix_append front back))
    (not_emitted_of_uncommitted huncommitted)

/-- Before the commitment every account event of the slot is counted. -/
theorem accepts_seen (h : AccountRun commitAt s (front ++ back))
    (huncommitted : .accountCommitment commitAt s ∉ events front) :
    (run commitAt front).accepts (.accountEventSeen s) = true := by
  have hflushed : (run commitAt front).isAlreadyFlushed s = false := by
    simp [isAlreadyFlushed, h.frontier_below huncommitted]
  have hopen : ∀ buf, (run commitAt front).buffer[s]? = some buf →
      buf.accountCommitmentReached = false := by
    intro buf hbuf
    by_contra hreached
    exact huncommitted (committed_of_frozen hbuf (by simpa using hreached))
  cases hbuf : (run commitAt front).buffer[s]? with
  | none => simp [accepts, hflushed, h.not_discarded, hbuf]
  | some buf =>
      simp [accepts, hflushed, h.not_discarded, hbuf, isAccountGateFrozen,
        SlotRecordBuffer.accountGateReached, SlotRecordBuffer.isAccountGateFrozen,
        hopen buf hbuf]

/-- Up to the commitment the running count is the number of account events seen. -/
theorem seen_count (h : AccountRun commitAt s (front ++ back))
    (huncommitted : .accountCommitment commitAt s ∉ events front) :
    (run commitAt front).accountEventCounts[s]?.getD 0 =
      (events front).countP (·.isAccountEventSeen s) := by
  induction front using List.reverseRecOn generalizing back with
  | nil => simp [new]
  | append_singleton front op ih =>
      have h' : AccountRun commitAt s (front ++ ([op] ++ back)) := by simpa using h
      have huncommitted' : .accountCommitment commitAt s ∉ events front :=
        fun hin => huncommitted (by simp [hin])
      have hcount := ih h' huncommitted'
      rw [events_append, List.countP_append, ← hcount, run_concat]
      cases op with
      | apply e =>
          cases hseen : e.isAccountEventSeen s with
          | true =>
              obtain rfl : e = .accountEventSeen s := by
                cases e <;> simp_all [CoordinatorEvent.isAccountEventSeen]
              have haccepts := h'.accepts_seen huncommitted'
              rw [step, apply_accountEventCounts (by simp), if_pos haccepts, countsAfter,
                getElem?_insert, if_pos rfl]
              simp [hseen]
          | false =>
              have hkept := h.kept e (by simp)
              have hne : e ≠ .accountCommitment (run commitAt front).accountCommitAt s := by
                rintro rfl
                exact huncommitted (by simp)
              rw [step, getElem?_accountEventCounts_apply hkept hne hseen]
              simp [hseen]
      | drainInstruction =>
          rw [getElem?_accountEventCounts_drain rfl (run_concat commitAt front _ ▸
            h.frontier_below huncommitted)]
          rfl
      | drainAccount =>
          rw [getElem?_accountEventCounts_drain rfl (run_concat commitAt front _ ▸
            h.frontier_below huncommitted)]
          rfl

theorem filter_sublist (q : CoordinatorEvent R → Bool) (before since back : List (Op R)) :
    (((run commitAt before).acceptedEvents since).filter q).Sublist
      ((events (before ++ since ++ back)).filter q) := by
  have hsince := (EntryLife.acceptedEvents_sublist (run commitAt before) since).filter q
  rw [events_append, events_append, List.filter_append, List.filter_append]
  exact (hsince.trans (List.sublist_append_right _ _)).trans (List.sublist_append_left _ _)

/-- A slot without account events has no outcomes. -/
theorem filter_none {before since : List (Op R)}
    (h : AccountRun commitAt s (before ++ since ++ back))
    (hzero : (events (before ++ since ++ back)).countP (·.isAccountEventSeen s) = 0) :
    ((run commitAt before).acceptedEvents since).filter (·.isAccountOutcome s) =
      (events (before ++ since ++ back)).filter (·.isAccountOutcome s) := by
  refine (filter_sublist _ before since back).eq_of_length_le ?_
  rw [← List.countP_eq_length_filter, h.counted, hzero]
  exact Nat.zero_le _

/-- After a commitment event nothing is seen any more. -/
theorem seen_total
    (h : AccountRun commitAt s (front ++ .apply (.accountCommitment commitAt s) :: back)) :
    (events (front ++ .apply (.accountCommitment commitAt s) :: back)).countP
        (·.isAccountEventSeen s) = (events front).countP (·.isAccountEventSeen s) := by
  have hlater := h.seenFirst
  rw [events_append, events_apply] at hlater ⊢
  have hnone : (events back).countP (·.isAccountEventSeen s) = 0 := by
    rw [List.countP_eq_zero]
    intro e he
    simp [(List.pairwise_cons.mp (List.pairwise_append.mp hlater).2.1).1 e he rfl]
  have hself : CoordinatorEvent.isAccountEventSeen s
      (.accountCommitment commitAt s : CoordinatorEvent R) = false := by
    cases commitAt <;> rfl
  rw [List.countP_append, List.countP_cons, hnone, hself]
  simp

/-- The commitment that froze an entry is the first one of the whole run. -/
theorem uncommitted_before {before since rest : List (Op R)}
    (hrecommit : NoRecommit commitAt s
      (before ++ since ++ .apply (.accountCommitment commitAt s) :: back))
    (life : EntryLife commitAt s before (since ++ rest))
    (haccepts : (run commitAt (before ++ since)).accepts (.accountCommitment commitAt s) = true)
    (hfirst : .accountCommitment commitAt s ∉ (run commitAt before).acceptedEvents since) :
    .accountCommitment commitAt s ∉ events (before ++ since) := by
  intro hin
  have hfrozen := hrecommit (before ++ since) _ back rfl rfl hin haccepts
  have hgate := life.front.accountGate
  cases hold : (run commitAt (before ++ since)).buffer[s]? with
  | none => simp [isAccountGateFrozen, hold] at hfrozen
  | some old =>
      rw [hold, Option.getD_some] at hgate
      simp only [isAccountGateFrozen, hold, Option.any_some,
        SlotRecordBuffer.isAccountGateFrozen, Bool.and_eq_true] at hfrozen
      exact hfirst (hgate.isSome.mp hfrozen.2)

/-- At an emission of the slot, the outcomes behind its entry are all outcomes of the slot
in the whole run. -/
theorem filter_accepted {before since : List (Op R)} {n : Nat} {buf : SlotRecordBuffer R}
    (h : AccountRun commitAt s (before ++ since ++ back))
    (hrecommit : NoRecommit commitAt s (before ++ since ++ back))
    (life : EntryLife commitAt s before since)
    (hentry : EntryOf s ((run commitAt before).acceptedEvents since) buf)
    (hfrozen : EntryLife.FrozenAt commitAt s before since n)
    (hprocessed : n ≤ buf.accountProcessedCount) :
    ((run commitAt before).acceptedEvents since).filter (·.isAccountOutcome s) =
      (events (before ++ since ++ back)).filter (·.isAccountOutcome s) := by
  obtain ⟨front, rest, hsince, haccepts, hfirst, hn⟩ := hfrozen
  have hops : before ++ since ++ back =
      before ++ front ++ .apply (.accountCommitment commitAt s) :: (rest ++ back) := by
    simp [hsince]
  have huncommitted : .accountCommitment commitAt s ∉ events (before ++ front) :=
    uncommitted_before (hops ▸ hrecommit) (hsince ▸ life) haccepts hfirst
  -- All that was seen is counted by then, and as many outcomes were accepted.
  have hcount := (hops ▸ h).seen_count huncommitted
  have htotal := (hops ▸ h).seen_total
  rw [← hops] at htotal
  rw [← hn, hcount, ← htotal, ← h.counted, hentry.processed] at hprocessed
  refine (filter_sublist _ before since back).eq_of_length_le ?_
  rwa [← List.countP_eq_length_filter, ← List.countP_eq_length_filter]

end AccountRun

/-- In every run where the slot has no account events, or where no repeated commitment
event of the slot is accepted after its frozen gate is gone, the account output of the
slot does not depend on the interleaving: it holds all of the slot's account records in
key order, and an outcome for every account event. -/
theorem account_output_complete (commitAt : AccountCommitAt) (s : Slot) (ops : List (Op R))
    (h : AccountRun commitAt s ops)
    (hrecommit : (events ops).countP (·.isAccountEventSeen s) = 0 ∨ NoRecommit commitAt s ops) :
    ∀ acct ∈ accountSlots commitAt ops, acct.slot = s → AccountComplete s (events ops) acct := by
  rintro acct hacct rfl
  obtain ⟨front, op, back, rfl, hemit⟩ := (mem_outputs _ _).mp hacct
  obtain ⟨rfl, -⟩ := mem_emittedAccounts hemit
  obtain ⟨before, since, buf, n, rfl, life, -, hentry, hundrained, hfrozen, hprocessed, hdrain⟩ :=
    account_entryLife hemit
  have hfilter := hrecommit.elim (fun hzero => h.filter_none hzero)
    (fun hrec => h.filter_accepted hrec life hentry hfrozen hprocessed)
  have hrecords : ((run commitAt before).acceptedEvents since).filterMap
      (·.accountRecord? acct.slot) =
        (events (before ++ since ++ .drainAccount :: back)).filterMap
          (·.accountRecord? acct.slot) := by
    rw [← filter_accountRecord, hfilter, filter_accountRecord]
  have hbuf := hentry.accountRecords hundrained
  rw [hrecords] at hbuf
  obtain ⟨hacct', -⟩ := Prod.mk.inj hdrain
  refine ⟨?_, ?_⟩
  · rw [← hacct', hbuf]
    exact inKeyOrder_filled h.distinct
  · have hdecoded : acct.decodedAccountCount =
        (((run commitAt before).acceptedEvents since).filterMap
          (·.accountRecord? acct.slot)).length := by
      rw [← hacct', hbuf, hrecords]
      exact (ExtTreeMap.length_toList).symm.trans (toList_filled_perm h.distinct).length_eq
    have hfiltered : acct.filteredAccountCount = buf.statCount .accountFiltered := by
      rw [← hacct']
      rfl
    have hfailed : acct.failedAccountCount = buf.statCount .accountError := by
      rw [← hacct']
      rfl
    rw [hdecoded, hfiltered, hfailed, hentry.stats, hentry.stats, ← countP_isAccountOutcome,
      ← h.counted, List.countP_eq_length_filter, List.countP_eq_length_filter, hfilter]

/-- Two account updates of slot 2; the commitment is repeated while one is outstanding. -/
def recommittedEarlyRun : List (Op Nat) :=
  [.apply (.accountEventSeen 2), .apply (.accountEventSeen 2),
    .apply (.accountRecordParsed 2 ⟨1, .replicate 32 0⟩ 8), .apply (.slotConfirmed 2), .drainAccount,
    .apply (.slotConfirmed 2), .apply (.accountRecordParsed 2 ⟨0, .replicate 32 0⟩ 7),
    .drainAccount]

theorem account_output_complete_recommitted :
    ((accountSlots .confirmed recommittedEarlyRun).map fun acct => (acct.slot, acct.records)) =
        [(2, [7, 8])] ∧
      ∀ acct ∈ accountSlots .confirmed recommittedEarlyRun, acct.slot = 2 →
        AccountComplete 2 (events recommittedEarlyRun) acct := by
  have hrun : AccountRun .confirmed 2 recommittedEarlyRun :=
    ⟨by decide +kernel, by decide +kernel, by decide +kernel, by decide +kernel, by decide +kernel⟩
  exact ⟨by decide +kernel, account_output_complete _ 2 _ hrun (.inr (by decide +kernel))⟩

/-- Slot 2 is drained on both sides, then the late slot 1 moves the instruction frontier
back, and slot 2 is confirmed once more. -/
def recommittedLateRun : List (Op Nat) :=
  [.apply (.accountEventSeen 2), .apply (.accountRecordParsed 2 ⟨0, .replicate 32 0⟩ 7)] ++
    applyReadySlot 2 1 0 ++ [.drainInstruction] ++ applyReadySlot 1 0 0 ++
    [.drainInstruction, .drainAccount, .apply (.slotConfirmed 2), .drainAccount]

/-- The second confirmation creates a new entry, and slot 2 is emitted again without its
account record. -/
theorem account_output_lost :
    AccountRun .confirmed 2 recommittedLateRun ∧
      ∃ acct ∈ accountSlots .confirmed recommittedLateRun, acct.slot = 2 ∧ acct.records = [] ∧
        acct.decodedAccountCount + acct.filteredAccountCount + acct.failedAccountCount ≠
          (events recommittedLateRun).countP (·.isAccountEventSeen 2) := by
  refine ⟨⟨?_, ?_, ?_, ?_, ?_⟩, ?_⟩ <;> decide +kernel

end Shipstern.BlockCoordinator
