import Mathlib
import Shipstern.Lib.Machine
import Shipstern.Preconf.Effect

/-!
# Indexes over whole runs of the framer

Two results about every run of `apply` and `reconnected` calls. The transactions delivered
for a slot carry the indexes 0, 1, 2, … as long as the pruning cannot reach the slot: the
frontier stays within the retention and fewer slots than the cap are named above it. And if
no update names a slot that the pruning may already have dropped, then the run is the run
of the framer that never prunes, in every output and in every count. The pruning is there to
bound the memory: `size_frames_run_le` holds for every run.
-/

open Std

namespace Shipstern.Preconf

open OrderedMap Machine

inductive Call
  | apply (update : FeedUpdate)
  | reconnected

/-- The slot a call names. -/
def Call.slot? : Call → Option Nat
  | .apply update => update.slot?
  | .reconnected => none

/-- The slots above `x` that the calls name. -/
def namedAbove (calls : List Call) (x : Nat) : Finset Nat :=
  (calls.filterMap Call.slot?).toFinset.filter (x < ·)

/-- The indexes of the transactions of a slot, in delivery order. -/
def indexes (slot : Nat) (updates : List (Option SubscribeUpdate)) : List (Option Nat) :=
  (updates.reduceOption.filter (·.transaction.slot = slot)).map (·.index)

namespace Framer

def step (codec : Codec) (pruning : Pruning) (framer : Framer) : Call → Framer
  | .apply update => (framer.apply codec pruning update).2
  | .reconnected => framer.reconnected

def output (codec : Codec) (pruning : Pruning) (framer : Framer) :
    Call → List (Option SubscribeUpdate)
  | .apply update => [(framer.apply codec pruning update).1]
  | .reconnected => []

/-- The framer after a run from its creation. -/
def run (codec : Codec) (pruning : Pruning) (rules : ExtTreeMap String Bool compare)
    (calls : List Call) : Framer :=
  exec (step codec pruning) (new rules) calls

/-- What every `apply` of the run returned. -/
def returned (codec : Codec) (pruning : Pruning) (rules : ExtTreeMap String Bool compare)
    (calls : List Call) : List (Option SubscribeUpdate) :=
  outputs (step codec pruning) (output codec pruning) (new rules) calls

end Framer

section Named

variable {calls : List Call} {call : Call} {x slot : Nat}

theorem mem_namedAbove : slot ∈ namedAbove calls x ↔
    (∃ call ∈ calls, call.slot? = some slot) ∧ x < slot := by
  simp [namedAbove]

theorem namedAbove_concat_subset : namedAbove calls x ⊆ namedAbove (calls ++ [call]) x := by
  intro slot h
  obtain ⟨⟨c, hc, hslot⟩, hlt⟩ := mem_namedAbove.mp h
  exact mem_namedAbove.mpr ⟨⟨c, List.mem_append_left _ hc, hslot⟩, hlt⟩

/-- Every frame belongs to a slot that was named. -/
def Known (calls : List Call) (framer : Framer) : Prop :=
  ∀ slot ∈ framer.frames, ∃ call ∈ calls, call.slot? = some slot

theorem Known.namedAbove {framer : Framer} (h : Known calls framer) :
    ∀ slot ∈ framer.frames, x < slot → slot ∈ namedAbove calls x :=
  fun slot hslot hlt => mem_namedAbove.mpr ⟨h slot hslot, hlt⟩

theorem Known.concat {framer framer' : Framer} (h : Known calls framer)
    (hnew : ∀ slot ∈ framer'.frames, call.slot? = some slot ∨ slot ∈ framer.frames) :
    Known (calls ++ [call]) framer' := by
  intro slot hslot
  obtain hnamed | hold := hnew slot hslot
  · exact ⟨call, by simp, hnamed⟩
  · obtain ⟨c, hc, hnamed⟩ := h slot hold
    exact ⟨c, List.mem_append_left _ hc, hnamed⟩

end Named

section Indexes

theorem indexes_append (slot : Nat) (front back : List (Option SubscribeUpdate)) :
    indexes slot (front ++ back) = indexes slot front ++ indexes slot back := by
  simp [indexes, List.reduceOption_append]

theorem indexes_none (slot : Nat) : indexes slot [none] = [] := by
  simp [indexes, List.reduceOption]

theorem indexes_some (slot : Nat) (update : SubscribeUpdate) :
    indexes slot [some update] =
      if update.transaction.slot = slot then [update.index] else [] := by
  by_cases h : update.transaction.slot = slot <;> simp [indexes, List.reduceOption, h]

end Indexes

namespace Framer

theorem frameAt_reconnected (framer : Framer) (x : Nat) :
    framer.reconnected.frameAt x =
      { framer.frameAt x with
        ended := (framer.frameAt x).ended || (framer.frameAt x).isOpen
        isOpen := false } := by
  simp only [frameAt, reconnected, ExtTreeMap.getD_eq_getD_getElem?, ExtTreeMap.getElem?_map]
  cases framer.frames[x]? <;> rfl

theorem mem_reconnected {framer : Framer} {x : Nat} :
    x ∈ framer.reconnected.frames ↔ x ∈ framer.frames := by
  simp [reconnected]

/-- A call that names no slot keeps all frames that survive the cap. -/
theorem frameAt_quiet {framer : Framer} {counts : Counts → Counts} {x : Nat} {above : Finset Nat}
    (habove : ∀ a ∈ framer.frames, x < a → a ∈ above) (few : above.card < maxFrames) :
    (framer.quiet .source counts).frameAt x = framer.frameAt x :=
  getD_capped habove few

variable {codec : Codec} {rules : ExtTreeMap String Bool compare}

/-- What a call does to every framer with the given vote rules. -/
inductive Does (codec : Codec) (rules : ExtTreeMap String Bool compare) (call : Call) : Prop
  | quiet (unnamed : call.slot? = none) (counts : Counts → Counts)
      (does : ∀ pruning (framer : Framer),
        framer.step codec pruning call = framer.quiet pruning counts ∧
          framer.output codec pruning call = [none])
  | effect (slot : Nat) (named : call.slot? = some slot) (e : Effect slot) (advances : Bool)
      (does : ∀ pruning (framer : Framer), framer.voteRules = rules →
        framer.step codec pruning call = (e.run framer).2.settle pruning advances slot ∧
          framer.output codec pruning call = [e.output (framer.frameAt slot)])
  | reconnected (is : call = .reconnected)

theorem does (codec : Codec) (rules : ExtTreeMap String Bool compare) (call : Call) :
    Does codec rules call := by
  cases call with
  | reconnected => exact .reconnected rfl
  | apply update =>
      obtain ⟨hslot, counts, h⟩ | ⟨slot, hslot, e, advances, h⟩ := apply_cases codec rules update
      · refine .quiet hslot counts ?_
        intro pruning framer
        rw [step, output, h pruning framer]
        exact ⟨rfl, rfl⟩
      · refine .effect slot hslot e advances ?_
        intro pruning framer hrules
        rw [step, output, h pruning framer hrules]
        exact ⟨rfl, rfl⟩

theorem voteRules_step (pruning : Pruning) (framer : Framer) (call : Call) :
    (framer.step codec pruning call).voteRules = framer.voteRules := by
  cases does codec framer.voteRules call with
  | quiet _ counts h => rw [(h pruning framer).1]; rfl
  | effect slot _ e advances h =>
      rw [(h pruning framer rfl).1, voteRules_settle]
      rfl
  | reconnected h => rw [h]; rfl

theorem run_concat (pruning : Pruning) (calls : List Call) (call : Call) :
    run codec pruning rules (calls ++ [call]) =
      (run codec pruning rules calls).step codec pruning call :=
  exec_concat _ _ calls call

theorem returned_concat (pruning : Pruning) (calls : List Call) (call : Call) :
    returned codec pruning rules (calls ++ [call]) =
      returned codec pruning rules calls ++
        (run codec pruning rules calls).output codec pruning call :=
  outputs_concat _ _ _ calls call

theorem voteRules_run (pruning : Pruning) (calls : List Call) :
    (run codec pruning rules calls).voteRules = rules := by
  induction calls using List.reverseRecOn with
  | nil => rfl
  | append_singleton calls call ih => rw [run_concat, voteRules_step, ih]

theorem known_run (calls : List Call) : Known calls (run codec .source rules calls) := by
  induction calls using List.reverseRecOn with
  | nil =>
      intro slot hslot
      exact absurd hslot (by simp [run, new])
  | append_singleton calls call ih =>
      rw [run_concat]
      refine ih.concat ?_
      intro slot hslot
      cases does codec rules call with
      | quiet _ counts h =>
          rw [(h .source _).1] at hslot
          exact .inr (mem_of_mem_capped hslot)
      | effect named hnamed e advances h =>
          rw [(h .source _ (voteRules_run .source calls)).1] at hslot
          obtain rfl | hold := Effect.mem_run (mem_settle hslot)
          · exact .inl hnamed
          · exact .inr hold
      | reconnected h =>
          subst h
          exact .inr (mem_reconnected.mp hslot)

/-- However many slots the feed names, the framer holds at most `maxFrames` of them. -/
theorem size_frames_run_le (calls : List Call) :
    (run codec .source rules calls).frames.size ≤ maxFrames := by
  induction calls using List.reverseRecOn with
  | nil => exact Nat.zero_le _
  | append_singleton calls call ih =>
      rw [run_concat]
      cases does codec rules call with
      | quiet _ counts h =>
          rw [(h .source _).1]
          exact size_capped_le _ _
      | effect slot _ e advances h =>
          rw [(h .source _ (voteRules_run .source calls)).1]
          obtain ⟨-, heq⟩ | ⟨-, heq⟩ :=
            (e.run (run codec .source rules calls)).2.settle_cases .source advances slot
          · rw [heq]
            exact size_capped_le _ _
          · rw [heq]
            exact size_capped_le _ _
      | reconnected h =>
          subst h
          rw [step, reconnected, ExtTreeMap.size_map]
          exact ih

/-- A call delivers nothing for the slot and leaves its index, or it delivers one transaction
with that index and moves it on by one. -/
def Counted (framer framer' : Framer) (s : Nat) (updates : List (Option SubscribeUpdate)) : Prop :=
  (indexes s updates = [] ∧ (framer'.frameAt s).next = (framer.frameAt s).next) ∨
    (indexes s updates = [some (framer.frameAt s).next] ∧
      (framer'.frameAt s).next = (framer.frameAt s).next + 1)

theorem counted_run {slot : Nat} (e : Effect slot) (framer : Framer) (s : Nat) :
    Counted framer (e.run framer).2 s [e.output (framer.frameAt slot)] := by
  rw [Counted, e.frameAt_run]
  cases hout : e.output (framer.frameAt slot) with
  | none =>
      refine .inl ⟨indexes_none s, ?_⟩
      split
      · next h =>
          subst h
          exact e.dropped _ hout
      · rfl
  | some update =>
      obtain ⟨hslot, hindex, hnext⟩ := e.delivered _ update hout
      rw [indexes_some, hslot]
      by_cases h : s = slot
      · subst h
        rw [if_pos rfl, if_pos rfl, hindex]
        exact .inr ⟨rfl, hnext⟩
      · rw [if_neg (Ne.symm h), if_neg h]
        exact .inl ⟨rfl, rfl⟩

theorem frameAt_settle_never (framer : Framer) (advances : Bool) (slot x : Nat) :
    (framer.settle .never advances slot).frameAt x = framer.frameAt x := by
  obtain ⟨-, heq⟩ | ⟨-, heq⟩ := framer.settle_cases .never advances slot <;> rw [heq] <;> rfl

/-- Every call of the framer that never prunes counts. -/
theorem counted_step (framer : Framer) (call : Call) (s : Nat) :
    Counted framer (framer.step codec .never call) s (framer.output codec .never call) := by
  cases does codec framer.voteRules call with
  | quiet _ counts h =>
      obtain ⟨hstep, hout⟩ := h .never framer
      rw [hstep, hout]
      exact .inl ⟨indexes_none s, rfl⟩
  | effect slot _ e advances h =>
      obtain ⟨hstep, hout⟩ := h .never framer rfl
      rw [hstep, hout, Counted, frameAt_settle_never]
      exact counted_run e framer s
  | reconnected h =>
      subst h
      refine .inl ⟨rfl, ?_⟩
      rw [step, frameAt_reconnected]

variable {calls : List Call} {call : Call} {framer : Framer} {x : Nat}

theorem output_source (framer : Framer) (call : Call) :
    framer.output codec .source call = framer.output codec .never call := by
  cases does codec framer.voteRules call with
  | quiet _ counts h => rw [(h .source framer).2, (h .never framer).2]
  | effect slot _ e advances h => rw [(h .source framer rfl).2, (h .never framer rfl).2]
  | reconnected h => subst h; rfl

/-- One call of the pruning framer leaves a slot that it does not reach the frame that one
call without pruning would leave it. -/
theorem frameAt_step (known : Known calls framer)
    (retained : (framer.step codec .source call).Retains x)
    (few : (namedAbove (calls ++ [call]) x).card < maxFrames) :
    (framer.step codec .source call).frameAt x = (framer.step codec .never call).frameAt x := by
  cases does codec framer.voteRules call with
  | quiet _ counts h =>
      rw [(h .source framer).1, (h .never framer).1]
      have hknown : Known (calls ++ [call]) framer := known.concat fun _ => .inr
      exact frameAt_quiet hknown.namedAbove few
  | effect slot hnamed e advances h =>
      rw [(h .source framer rfl).1] at retained
      rw [(h .source framer rfl).1, (h .never framer rfl).1, frameAt_settle_never]
      have hknown : Known (calls ++ [call]) (e.run framer).2 := by
        refine known.concat ?_
        intro a ha
        obtain rfl | hold := Effect.mem_run ha
        · exact .inl hnamed
        · exact .inr hold
      exact frameAt_settle retained hknown.namedAbove few
  | reconnected h => subst h; rfl

/-- The frontier and the named slots stay where pruning does not reach `x`. -/
def OutOfReach (codec : Codec) (rules : ExtTreeMap String Bool compare) (x : Nat)
    (calls : List Call) (call : Call) : Prop :=
  (run codec .source rules (calls ++ [call])).Retains x ∧
    (namedAbove (calls ++ [call]) x).card < maxFrames

theorem indexes_returned (h : Obeys (OutOfReach codec rules x) calls) :
    indexes x (returned codec .source rules calls) =
      (List.range ((run codec .source rules calls).frameAt x).next).map some := by
  refine history_induction (P := fun calls => indexes x (returned codec .source rules calls) =
    (List.range ((run codec .source rules calls).frameAt x).next).map some) rfl ?_ h
  intro calls call hreach ih
  obtain ⟨retained, few⟩ := hreach
  rw [run_concat] at retained
  rw [returned_concat, run_concat, indexes_append, ih, output_source,
    frameAt_step (known_run calls) retained few]
  obtain ⟨hnone, hnext⟩ | ⟨hone, hnext⟩ :=
    @counted_step codec (run codec .source rules calls) call x
  · rw [hnone, hnext, List.append_nil]
  · rw [hone, hnext, List.range_succ, List.map_append]
    rfl

theorem Retains.of_step (h : (framer.step codec .source call).Retains x) : framer.Retains x := by
  cases does codec framer.voteRules call with
  | quiet _ counts hdoes =>
      rw [(hdoes .source framer).1] at h
      exact h
  | effect slot _ e advances hdoes =>
      rw [(hdoes .source framer rfl).1] at h
      exact h.of_settle
  | reconnected hcall =>
      subst hcall
      exact h

/-- The pruned framer and the one that never prunes differ in frames out of its reach only. -/
structure Agree (calls : List Call) (pruned full : Framer) : Prop where
  voteRules : pruned.voteRules = full.voteRules
  frontier : pruned.frontier = full.frontier
  warnedUnknownResult : pruned.warnedUnknownResult = full.warnedUnknownResult
  counts : pruned.counts = full.counts
  frameAt : ∀ x, pruned.Retains x → (namedAbove calls x).card < maxFrames →
    pruned.frameAt x = full.frameAt x

/-- An update names a slot only if pruning has not reached it. -/
def NamesRecent (framer : Framer) (calls : List Call) (call : Call) : Prop :=
  ∀ x, call.slot? = some x → framer.Retains x ∧ (namedAbove calls x).card < maxFrames

variable {pruned full : Framer}

theorem Agree.output (h : Agree calls pruned full) (recent : NamesRecent pruned calls call) :
    pruned.output codec .source call = full.output codec .never call := by
  cases does codec pruned.voteRules call with
  | quiet _ counts hdoes => rw [(hdoes .source pruned).2, (hdoes .never full).2]
  | effect slot hnamed e advances hdoes =>
      obtain ⟨hretained, hfew⟩ := recent slot hnamed
      rw [(hdoes .source pruned rfl).2, (hdoes .never full h.voteRules.symm).2,
        h.frameAt slot hretained hfew]
  | reconnected hcall =>
      subst hcall
      rfl

/-- Without pruning, two framers that agree on the named slot stay together. -/
theorem frameAt_step_never (hrules : pruned.voteRules = full.voteRules)
    (hnamed : ∀ slot, call.slot? = some slot → pruned.frameAt slot = full.frameAt slot)
    (hx : pruned.frameAt x = full.frameAt x) :
    (pruned.step codec .never call).frameAt x = (full.step codec .never call).frameAt x := by
  cases does codec pruned.voteRules call with
  | quiet _ counts h =>
      rw [(h .never pruned).1, (h .never full).1]
      exact hx
  | effect slot hslot e advances h =>
      rw [(h .never pruned rfl).1, (h .never full hrules.symm).1, frameAt_settle_never,
        frameAt_settle_never, e.frameAt_run, e.frameAt_run, hnamed slot hslot, hx]
  | reconnected h =>
      subst h
      simp only [step, frameAt_reconnected, hx]

theorem Agree.step (h : Agree calls pruned full) (known : Known calls pruned)
    (recent : NamesRecent pruned calls call) :
    Agree (calls ++ [call]) (pruned.step codec .source call) (full.step codec .never call) := by
  have hnamed : ∀ slot, call.slot? = some slot → pruned.frameAt slot = full.frameAt slot := by
    intro slot hslot
    obtain ⟨hretained, hfew⟩ := recent slot hslot
    exact h.frameAt slot hretained hfew
  have hframe : ∀ x, (pruned.step codec .source call).Retains x →
      (namedAbove (calls ++ [call]) x).card < maxFrames →
        (pruned.step codec .source call).frameAt x = (full.step codec .never call).frameAt x := by
    intro x hretained hfew
    have hbefore : (namedAbove calls x).card < maxFrames :=
      (Finset.card_le_card namedAbove_concat_subset).trans_lt hfew
    rw [frameAt_step known hretained hfew]
    exact frameAt_step_never h.voteRules hnamed (h.frameAt x hretained.of_step hbefore)
  have hrules : (pruned.step codec .source call).voteRules =
      (full.step codec .never call).voteRules := by
    rw [voteRules_step, voteRules_step, h.voteRules]
  cases does codec pruned.voteRules call with
  | quiet _ counts hdoes =>
      refine ⟨hrules, ?_, ?_, ?_, hframe⟩ <;> rw [(hdoes .source pruned).1, (hdoes .never full).1]
      · exact h.frontier
      · exact h.warnedUnknownResult
      · exact congrArg counts h.counts
  | effect slot hslot e advances hdoes =>
      refine ⟨hrules, ?_, ?_, ?_, hframe⟩ <;>
        rw [(hdoes .source pruned rfl).1, (hdoes .never full h.voteRules.symm).1]
      · have hfrontier : (e.run pruned).2.frontier = (e.run full).2.frontier := h.frontier
        exact frontier_settle_congr hfrontier _ _ advances slot
      · rw [warnedUnknownResult_settle, warnedUnknownResult_settle]
        exact congrArg (e.warns || ·) h.warnedUnknownResult
      · rw [counts_settle, counts_settle]
        exact congrArg₂ e.counts (hnamed slot hslot) h.counts
  | reconnected hcall =>
      subst hcall
      refine ⟨hrules, h.frontier, h.warnedUnknownResult, ?_, hframe⟩
      simp only [Framer.step, reconnected, h.counts]

/-- Along a run that names recent slots only, the two framers agree. -/
theorem agree_run
    (h : Obeys (fun calls call => (run codec .source rules calls).NamesRecent calls call) calls) :
    Agree calls (run codec .source rules calls) (run codec .never rules calls) ∧
      returned codec .source rules calls = returned codec .never rules calls := by
  refine history_induction (P := fun calls =>
    Agree calls (run codec .source rules calls) (run codec .never rules calls) ∧
      returned codec .source rules calls = returned codec .never rules calls)
    ⟨⟨rfl, rfl, rfl, rfl, fun _ _ _ => rfl⟩, rfl⟩ ?_ h
  intro calls call recent ih
  obtain ⟨hagree, hout⟩ := ih
  rw [run_concat, run_concat, returned_concat, returned_concat]
  exact ⟨hagree.step (known_run calls) recent, by rw [hout, hagree.output recent]⟩

instance (framer : Framer) (x : Nat) : Decidable (framer.Retains x) :=
  decidable_of_iff (framer.frontier.all (· - slotRetention ≤ x)) (by
    rw [Retains]
    cases framer.frontier <;> simp)

instance (framer : Framer) (calls : List Call) (call : Call) :
    Decidable (framer.NamesRecent calls call) :=
  decidable_of_iff (call.slot?.all fun x =>
      framer.Retains x ∧ (namedAbove calls x).card < maxFrames) (by
    rw [NamesRecent]
    cases call.slot? <;> simp)

end Framer

open Framer

/-- The indexes of a slot that pruning cannot reach count its deliveries from 0, and pruning
shows in no output and no count of a run that names recent slots only. -/
theorem indexes_gapless_and_pruning_invisible (codec : Codec)
    (rules : ExtTreeMap String Bool compare) (calls : List Call) :
    (∀ s,
      (∀ front, front <+: calls → ∀ frontier,
        (run codec .source rules front).frontier = some frontier →
          frontier ≤ s + slotRetention) →
      (namedAbove calls s).card < maxFrames →
        ∃ n, indexes s (returned codec .source rules calls) = (List.range n).map some) ∧
    (Obeys (fun front call => (run codec .source rules front).NamesRecent front call) calls →
      returned codec .source rules calls = returned codec .never rules calls ∧
        (run codec .source rules calls).counts = (run codec .never rules calls).counts) := by
  constructor
  · intro s hfrontier hfew
    refine ⟨_, indexes_returned ?_⟩
    rintro front call back rfl
    have hsplit : front ++ [call] <+: front ++ call :: back := ⟨back, by simp⟩
    refine ⟨?_, ?_⟩
    · intro frontier hrun
      have hle := hfrontier _ hsplit frontier hrun
      omega
    · have hsub : namedAbove (front ++ [call]) s ⊆ namedAbove (front ++ call :: back) s := by
        intro slot hslot
        obtain ⟨⟨c, hc, hnamed⟩, hlt⟩ := mem_namedAbove.mp hslot
        exact mem_namedAbove.mpr ⟨⟨c, hsplit.subset hc, hnamed⟩, hlt⟩
      exact (Finset.card_le_card hsub).trans_lt hfew
  · intro hrecent
    obtain ⟨hagree, hreturned⟩ := agree_run hrecent
    exact ⟨hreturned, hagree.counts⟩

/-- A legacy transaction with one signature, one account and no instruction. -/
def transferless : VersionedTransaction where
  signatures := [List.replicate 64 7]
  message := .legacy ⟨⟨1, 0, 0⟩, [Vector.replicate 32 3], []⟩

/-- Its bytes: the signatures, the header, the keys, a blockhash and the instructions. -/
def transferlessBytes : List UInt8 :=
  1 :: List.replicate 64 7 ++ [1, 0, 0] ++ 1 :: List.replicate 32 3 ++ List.replicate 32 5 ++ [0]

/-- A codec that knows these bytes. A transaction without instructions is no vote. -/
def transferlessCodec : Codec where
  deserializeExact := fun bytes => if bytes = transferlessBytes then some transferless else none
  isSimpleVoteTransactionImpl := fun _ _ _ => false

/-- A slot with a late transaction, a drop of the stream and a restart. Its end drops the frame of
slot 30. -/
def restartedSlot : List Call :=
  let transaction (slot : Nat) (bytes : List UInt8) : Call :=
    .apply (.harmonic ["p"] (some (.transaction ⟨slot, some .success, bytes⟩)))
  [.apply (.harmonic [] (some (.slotStart 30))), transaction 30 transferlessBytes,
    .apply (.harmonic [] (some (.slotStart 100))), transaction 100 transferlessBytes,
    .apply (.harmonic [] (some (.slotStart 101))), transaction 100 [1, 2, 3],
    transaction 101 transferlessBytes, .apply (.harmonic [] (some (.slotEnd 100))),
    transaction 100 transferlessBytes, .reconnected,
    .apply (.harmonic [] (some (.slotStart 100))), transaction 100 transferlessBytes,
    .apply (.harmonic [] (some (.slotEnd 101)))]

theorem indexes_gapless_of_restartedSlot :
    (run transferlessCodec .source ∅ restartedSlot).frames.contains 30 = false ∧
    (run transferlessCodec .never ∅ restartedSlot).frames.contains 30 = true ∧
    indexes 100 (returned transferlessCodec .source ∅ restartedSlot) = [some 0, some 1, some 2] ∧
    (∃ n, indexes 100 (returned transferlessCodec .source ∅ restartedSlot) =
      (List.range n).map some) ∧
    returned transferlessCodec .source ∅ restartedSlot =
      returned transferlessCodec .never ∅ restartedSlot ∧
    (run transferlessCodec .source ∅ restartedSlot).counts =
      (run transferlessCodec .never ∅ restartedSlot).counts := by
  obtain ⟨hindexes, hpruning⟩ :=
    indexes_gapless_and_pruning_invisible transferlessCodec ∅ restartedSlot
  refine ⟨by decide +kernel, by decide +kernel, by decide +kernel,
    hindexes 100 ?_ (by decide +kernel), hpruning (by decide +kernel)⟩
  intro front hfront frontier hfrontier
  have hall : ∀ front ∈ restartedSlot.inits,
      (run transferlessCodec .source ∅ front).frontier.all (· ≤ 100 + slotRetention) := by
    decide +kernel
  have hle := hall front ((List.mem_inits _ _).mpr hfront)
  simpa [hfrontier] using hle

end Shipstern.Preconf
