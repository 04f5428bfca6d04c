import Shipstern.Preconf.Framer

/-!
# What one update does to the framer

An update reads and writes the frame of the one slot it names, the counts and the warning
flag, and no other frame. `Effect` is that local action. Its fields carry what every action
has to do with the index of the slot: a delivered transaction gets the next index and moves
it on by one, everything else leaves it alone. `apply_cases` says once and for all that an
update is such an effect followed by the pruning, whatever the framer and the pruning are.
-/

open Std

namespace Shipstern.Preconf

open OrderedMap

/-- The index that a delivered transaction carries. -/
def SubscribeUpdate.index (update : SubscribeUpdate) : Option Nat :=
  update.transaction.transaction.map (·.index)

/-- The slot an update names. -/
def FeedUpdate.slot? : FeedUpdate → Option Nat
  | .harmonic _ (some (.transaction tx)) => some tx.slot
  | .harmonic _ (some (.slotStart slot)) => some slot
  | .harmonic _ (some (.slotEnd slot)) => some slot
  | .bam _ (some (.transaction tx)) => some tx.slot
  | _ => none

/-- The action of an update on the frame of the slot it names. -/
structure Effect (slot : Nat) where
  output : Frame → Option SubscribeUpdate
  /-- The new frame, unless the update makes no entry. -/
  write : Option (Frame → Frame)
  counts : Frame → Counts → Counts
  warns : Bool
  dropped : ∀ frame, output frame = none → (write.getD id frame).next = frame.next
  delivered : ∀ frame update, output frame = some update →
    update.transaction.slot = slot ∧ update.index = some frame.next ∧
      (write.getD id frame).next = frame.next + 1

namespace Effect

variable {slot : Nat}

/-- The frame after the action. -/
def after (e : Effect slot) (frame : Frame) : Frame := e.write.getD id frame

def run (e : Effect slot) (framer : Framer) : Option SubscribeUpdate × Framer :=
  (e.output (framer.frameAt slot),
    { framer with
      frames := match e.write with
        | none => framer.frames
        | some f => upsert framer.frames slot f
      counts := e.counts (framer.frameAt slot) framer.counts
      warnedUnknownResult := e.warns || framer.warnedUnknownResult })

/-- Nothing is delivered and no entry is made. -/
def drop (slot : Nat) (counts : Counts → Counts) (warns : Bool) : Effect slot where
  output := fun _ => none
  write := none
  counts := fun _ => counts
  warns := warns
  dropped := fun _ _ => rfl
  delivered := fun _ _ h => by contradiction

/-- The flags of the frame change and its index does not. -/
def mark (slot : Nat) (counts : Frame → Counts → Counts) (f : Frame → Frame)
    (keeps : ∀ frame, (f frame).next = frame.next) : Effect slot where
  output := fun _ => none
  write := some f
  counts := counts
  warns := false
  dropped := fun frame _ => keeps frame
  delivered := fun _ _ h => by contradiction

/-- The next index is given out. -/
def index (slot : Nat) (update : Nat → SubscribeUpdate)
    (names : ∀ index, (update index).transaction.slot = slot ∧ (update index).index = some index) :
    Effect slot where
  output := fun frame => some (update frame.next)
  write := some fun frame => { frame with next := frame.next + 1 }
  counts := fun frame c => if frame.isOpen then c else { c with outOfFrame := c.outOfFrame + 1 }
  warns := false
  dropped := fun _ h => by contradiction
  delivered := fun frame update' h => by
    cases h
    exact ⟨(names frame.next).1, (names frame.next).2, rfl⟩

/-- The action on a frame that was opened first. -/
def opened (e : Effect slot) : Effect slot where
  output := fun frame => e.output { frame with isOpen := true }
  write := some fun frame => e.after { frame with isOpen := true }
  counts := fun frame => e.counts { frame with isOpen := true }
  warns := e.warns
  dropped := fun frame => e.dropped { frame with isOpen := true }
  delivered := fun frame => e.delivered { frame with isOpen := true }

end Effect

namespace Framer

theorem frameAt_setFrame (framer : Framer) (slot x : Nat) (f : Frame → Frame) :
    (framer.setFrame slot f).frameAt x =
      if x = slot then f (framer.frameAt slot) else framer.frameAt x := by
  simp only [frameAt, setFrame, ExtTreeMap.getD_eq_getD_getElem?, getElem?_upsert]
  split <;> rfl

end Framer

namespace Effect

variable {slot : Nat}

/-- Only the frame of the named slot changes. -/
theorem frameAt_run (e : Effect slot) (framer : Framer) (x : Nat) :
    (e.run framer).2.frameAt x =
      if x = slot then e.after (framer.frameAt slot) else framer.frameAt x := by
  rw [run, after]
  cases e.write with
  | none =>
      change framer.frameAt x = if x = slot then framer.frameAt slot else framer.frameAt x
      by_cases hx : x = slot
      · rw [if_pos hx, hx]
      · rw [if_neg hx]
  | some f => exact framer.frameAt_setFrame slot x f

theorem mem_run {e : Effect slot} {framer : Framer} {x : Nat} (h : x ∈ (e.run framer).2.frames) :
    x = slot ∨ x ∈ framer.frames := by
  rw [run] at h
  cases hwrite : e.write with
  | none =>
      simp only [hwrite] at h
      exact .inr h
  | some f =>
      simp only [hwrite, upsert, ExtTreeMap.mem_insert, Std.compare_eq_iff_eq] at h
      exact h.imp Eq.symm id

@[simp] theorem frontier_run (e : Effect slot) (framer : Framer) :
    (e.run framer).2.frontier = framer.frontier := rfl

@[simp] theorem voteRules_run (e : Effect slot) (framer : Framer) :
    (e.run framer).2.voteRules = framer.voteRules := rfl

theorem run_setFrame_open (e : Effect slot) (framer : Framer) :
    e.run (framer.setFrame slot fun frame => { frame with isOpen := true }) =
      e.opened.run framer := by
  have hframe := framer.frameAt_setFrame slot slot fun frame => { frame with isOpen := true }
  rw [if_pos rfl] at hframe
  simp only [run, opened, hframe, after]
  cases e.write with
  | none => rfl
  | some f =>
      have htwice := upsert_upsert framer.frames slot (fun frame => { frame with isOpen := true }) f
      simp only [Framer.setFrame, htwice, Option.getD_some]
      rfl

end Effect

/-- A transaction is one effect on every framer with the given vote rules. -/
theorem transaction_eq_run (codec : Codec) (rules : ExtTreeMap String Bool compare)
    (filters : List String) (slot : Nat) (result : Option ExecutionResult) (bytes : List UInt8) :
    ∃ e : Effect slot, ∀ framer : Framer, framer.voteRules = rules →
      framer.transaction codec filters slot result bytes = e.run framer := by
  cases result with
  | none =>
      refine ⟨.drop slot (fun c => { c with unknownResult := c.unknownResult + 1 }) true, ?_⟩
      intro framer _
      rfl
  | some result =>
    cases hdecode : codec.decode bytes with
    | none =>
        refine ⟨.drop slot (fun c => { c with undecodable := c.undecodable + 1 }) false, ?_⟩
        intro framer _
        simp only [Framer.transaction, hdecode]
        rfl
    | some decoded =>
      cases hsignature : decoded.signatures.head? with
      | none =>
          refine ⟨.drop slot (fun c => { c with undecodable := c.undecodable + 1 }) false, ?_⟩
          intro framer _
          simp only [Framer.transaction, hdecode, hsignature]
          rfl
      | some signature =>
          by_cases hnamed : filters.isEmpty
          · refine ⟨.drop slot (fun c => { c with unknownPayload := c.unknownPayload + 1 }) false, ?_⟩
            intro framer _
            simp only [Framer.transaction, hdecode, hsignature, if_pos hnamed]
            rfl
          by_cases hwanted : (filters.filter fun name =>
              rules[name]?.all fun wanted => wanted == codec.isVote decoded).isEmpty
          · refine ⟨.drop slot (fun c => { c with voteRuleDropped := c.voteRuleDropped + 1 }) false, ?_⟩
            rintro framer rfl
            simp only [Framer.transaction, hdecode, hsignature, if_neg hnamed, if_pos hwanted]
            rfl
          · let update : Nat → SubscribeUpdate := fun index =>
              { filters := filters.filter fun name =>
                  rules[name]?.all fun wanted => wanted == codec.isVote decoded
                transaction :=
                  { transaction := some
                      { signature := signature
                        isVote := codec.isVote decoded
                        transaction := some (transaction decoded)
                        statusMeta := some (statusMeta (result ≠ .success))
                        index := index }
                    slot := slot } }
            refine ⟨.index slot update fun _ => ⟨rfl, rfl⟩, ?_⟩
            rintro framer rfl
            simp only [Framer.transaction, hdecode, hsignature, if_neg hnamed, if_neg hwanted,
              Effect.run, Effect.index, Framer.nextIndex]
            by_cases hopen : (framer.frameAt slot).isOpen <;> simp only [hopen] <;> rfl

/-- The end of an update: move the frontier if the update does that, then cap the frames. -/
def Framer.settle (pruning : Pruning) (advances : Bool) (slot : Nat) (framer : Framer) : Framer :=
  let framer := if advances then framer.advance pruning slot else framer
  { framer with frames := pruning.popFirst framer.frames }

/-- An update that names no slot only counts. -/
def Framer.quiet (pruning : Pruning) (counts : Counts → Counts) (framer : Framer) : Framer :=
  { framer.count counts with frames := pruning.popFirst framer.frames }

/-- An update only counts, or it is an effect on the slot it names. -/
theorem apply_cases (codec : Codec) (rules : ExtTreeMap String Bool compare)
    (update : FeedUpdate) :
    (update.slot? = none ∧ ∃ counts : Counts → Counts, ∀ pruning (framer : Framer),
      framer.apply codec pruning update = (none, framer.quiet pruning counts)) ∨
    ∃ slot, update.slot? = some slot ∧ ∃ (e : Effect slot) (advances : Bool),
      ∀ pruning (framer : Framer), framer.voteRules = rules →
        framer.apply codec pruning update =
          ((e.run framer).1, (e.run framer).2.settle pruning advances slot) := by
  cases update with
  | harmonic filters payload =>
      cases payload with
      | none => exact .inl ⟨rfl, _, fun _ _ => rfl⟩
      | some payload =>
          cases payload with
          | transaction tx =>
              obtain ⟨e, he⟩ := transaction_eq_run codec rules filters tx.slot tx.executionResult
                tx.transaction
              refine .inr ⟨tx.slot, rfl, e, false, ?_⟩
              intro pruning framer hrules
              simp only [Framer.apply, Framer.harmonic, he framer hrules]
              rfl
          | slotStart slot =>
              refine .inr ⟨slot, rfl, .mark slot
                (fun frame c => if frame.ended then { c with restarts := c.restarts + 1 } else c)
                (fun frame => { frame with isOpen := true, ended := false }) (fun _ => rfl),
                false, ?_⟩
              intro pruning framer _
              simp only [Framer.apply, Framer.harmonic, Effect.run, Effect.mark]
              by_cases hended : (framer.frameAt slot).ended <;> simp only [hended] <;> rfl
          | slotEnd slot =>
              refine .inr ⟨slot, rfl, .mark slot (fun _ c => c)
                (fun frame => { frame with isOpen := false, ended := true }) (fun _ => rfl),
                true, ?_⟩
              intro pruning framer _
              rfl
          | clip transactions => exact .inl ⟨rfl, _, fun _ _ => rfl⟩
          | ping => exact .inl ⟨rfl, id, fun _ _ => rfl⟩
  | bam filters payload =>
      cases payload with
      | none => exact .inl ⟨rfl, _, fun _ _ => rfl⟩
      | some payload =>
          cases payload with
          | transaction tx =>
              obtain ⟨e, he⟩ := transaction_eq_run codec rules filters tx.slot tx.executionResult
                tx.transaction
              refine .inr ⟨tx.slot, rfl, e.opened, true, ?_⟩
              intro pruning framer hrules
              rw [← e.run_setFrame_open framer]
              simp only [Framer.apply, Framer.bam, he (framer.setFrame tx.slot _) hrules]
              rfl
          | clip transactions => exact .inl ⟨rfl, _, fun _ _ => rfl⟩
          | ping => exact .inl ⟨rfl, id, fun _ _ => rfl⟩

namespace Framer

/-- The slot is not behind what the frontier leaves. -/
def Retains (framer : Framer) (x : Nat) : Prop :=
  ∀ frontier, framer.frontier = some frontier → frontier - slotRetention ≤ x

/-- The update moves the frontier up to its slot. -/
def Moves (framer : Framer) (advances : Bool) (slot : Nat) : Prop :=
  advances = true ∧ ∀ frontier, framer.frontier = some frontier → frontier < slot

theorem settle_cases (pruning : Pruning) (advances : Bool) (slot : Nat) (framer : Framer) :
    (framer.Moves advances slot ∧ framer.settle pruning advances slot =
      { framer with
        frontier := some slot
        frames := pruning.popFirst (pruning.splitOff framer.frames (slot - slotRetention)) }) ∨
    (¬ framer.Moves advances slot ∧ framer.settle pruning advances slot =
      { framer with frames := pruning.popFirst framer.frames }) := by
  cases advances with
  | false => exact .inr ⟨fun h => by simpa using h.1, rfl⟩
  | true =>
      simp only [settle, advance, if_true]
      by_cases h : framer.frontier.any (slot ≤ ·)
      · obtain ⟨frontier, hfrontier, hle⟩ := (Option.any_eq_true _ _).mp h
        have hstays : ¬ framer.Moves true slot := fun hmoves => by
          have hlt := hmoves.2 frontier hfrontier
          have hle : slot ≤ frontier := by simpa using hle
          omega
        exact .inr ⟨hstays, by rw [if_pos h]⟩
      · have hmoves : framer.Moves true slot := by
          refine ⟨rfl, ?_⟩
          intro frontier hfrontier
          simpa [hfrontier] using h
        exact .inl ⟨hmoves, by rw [if_neg h]⟩

@[simp] theorem counts_settle (pruning : Pruning) (advances : Bool) (slot : Nat)
    (framer : Framer) : (framer.settle pruning advances slot).counts = framer.counts := by
  obtain ⟨-, heq⟩ | ⟨-, heq⟩ := framer.settle_cases pruning advances slot <;> rw [heq]

@[simp] theorem warnedUnknownResult_settle (pruning : Pruning) (advances : Bool) (slot : Nat)
    (framer : Framer) : (framer.settle pruning advances slot).warnedUnknownResult =
      framer.warnedUnknownResult := by
  obtain ⟨-, heq⟩ | ⟨-, heq⟩ := framer.settle_cases pruning advances slot <;> rw [heq]

@[simp] theorem voteRules_settle (pruning : Pruning) (advances : Bool) (slot : Nat)
    (framer : Framer) : (framer.settle pruning advances slot).voteRules = framer.voteRules := by
  obtain ⟨-, heq⟩ | ⟨-, heq⟩ := framer.settle_cases pruning advances slot <;> rw [heq]

/-- Where the frontier goes depends on where it is. -/
theorem frontier_settle_congr {framer framer' : Framer} (h : framer.frontier = framer'.frontier)
    (pruning pruning' : Pruning) (advances : Bool) (slot : Nat) :
    (framer.settle pruning advances slot).frontier =
      (framer'.settle pruning' advances slot).frontier := by
  have hmoves : framer.Moves advances slot ↔ framer'.Moves advances slot := by
    rw [Moves, Moves, h]
  obtain ⟨hm, heq⟩ | ⟨hm, heq⟩ := framer.settle_cases pruning advances slot <;>
    obtain ⟨hm', heq'⟩ | ⟨hm', heq'⟩ := framer'.settle_cases pruning' advances slot <;>
    rw [heq, heq']
  · exact absurd (hmoves.mp hm) hm'
  · exact absurd (hmoves.mpr hm') hm
  · exact h

/-- The frontier never moves back. -/
theorem Retains.of_settle {pruning : Pruning} {advances : Bool} {slot x : Nat} {framer : Framer}
    (h : (framer.settle pruning advances slot).Retains x) : framer.Retains x := by
  intro frontier hfrontier
  obtain ⟨hmoves, heq⟩ | ⟨-, heq⟩ := framer.settle_cases pruning advances slot
  · rw [heq] at h
    have hx := h slot rfl
    have hlt := hmoves.2 frontier hfrontier
    omega
  · rw [heq] at h
    exact h frontier hfrontier

theorem mem_settle {advances : Bool} {slot x : Nat} {framer : Framer}
    (h : x ∈ (framer.settle .source advances slot).frames) : x ∈ framer.frames := by
  obtain ⟨-, heq⟩ | ⟨-, heq⟩ := framer.settle_cases .source advances slot
  · rw [heq] at h
    exact mem_of_mem_splitOff (mem_of_mem_capped h)
  · rw [heq] at h
    exact mem_of_mem_capped h

theorem getD_capped {frames : Frames} {x : Nat} {above : Finset Nat}
    (habove : ∀ a ∈ frames, x < a → a ∈ above) (few : above.card < maxFrames) :
    (capped maxFrames frames).getD x default = frames.getD x default := by
  have hkept := getElem?_capped (k := x)
    (fun a ha hlt => habove a ha (Nat.compare_eq_lt.mp hlt)) few
  rw [ExtTreeMap.getD_eq_getD_getElem?, ExtTreeMap.getD_eq_getD_getElem?, hkept]

/-- A slot that is still there keeps its frame. -/
theorem frameAt_of_mem_settle {advances : Bool} {slot x : Nat} {framer : Framer}
    (h : x ∈ (framer.settle .source advances slot).frames) :
    (framer.settle .source advances slot).frameAt x = framer.frameAt x := by
  obtain ⟨-, heq⟩ | ⟨-, heq⟩ := framer.settle_cases .source advances slot
  · rw [heq] at h ⊢
    have hcapped : (capped maxFrames (splitOff framer.frames (slot - slotRetention)))[x]? =
        framer.frames[x]? :=
      (getElem?_of_mem_capped h).trans (getElem?_of_mem_splitOff (mem_of_mem_capped h))
    show (capped maxFrames (splitOff framer.frames (slot - slotRetention))).getD x default = _
    rw [ExtTreeMap.getD_eq_getD_getElem?, hcapped, frameAt, ExtTreeMap.getD_eq_getD_getElem?]
  · rw [heq] at h ⊢
    show (capped maxFrames framer.frames).getD x default = _
    rw [ExtTreeMap.getD_eq_getD_getElem?, getElem?_of_mem_capped h, frameAt,
      ExtTreeMap.getD_eq_getD_getElem?]

/-- A slot that is retained and has few slots above it keeps its frame. -/
theorem frameAt_settle {advances : Bool} {slot x : Nat} {framer : Framer} {above : Finset Nat}
    (retained : (framer.settle .source advances slot).Retains x)
    (habove : ∀ a ∈ framer.frames, x < a → a ∈ above) (few : above.card < maxFrames) :
    (framer.settle .source advances slot).frameAt x = framer.frameAt x := by
  obtain ⟨-, heq⟩ | ⟨-, heq⟩ := framer.settle_cases .source advances slot
  · rw [heq] at retained ⊢
    have hcutoff : (compare (slot - slotRetention) x).isLE :=
      Nat.isLE_compare.mpr (retained slot rfl)
    calc
      (capped maxFrames (splitOff framer.frames (slot - slotRetention))).getD x default =
          (splitOff framer.frames (slot - slotRetention)).getD x default :=
        getD_capped (fun a ha => habove a (mem_of_mem_splitOff ha)) few
      _ = framer.frames.getD x default := by
        rw [ExtTreeMap.getD_eq_getD_getElem?, getElem?_splitOff, if_pos hcutoff,
          ExtTreeMap.getD_eq_getD_getElem?]
  · rw [heq]
    exact getD_capped habove few

end Framer

end Shipstern.Preconf
