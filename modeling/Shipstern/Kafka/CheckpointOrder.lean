import Shipstern.Kafka.CleanWrites
import Shipstern.Kafka.Passthrough
import Shipstern.Lib.Log
import Shipstern.Lib.Maxima

/-!
# No checkpoint precedes its data

The log of a run is read as attempts: each sends the records of a slot, joined, and sends the
checkpoint only when all of them were acked. What follows a slot is logged only after the
write of the slot has succeeded. The passthrough sink has no attempts over a whole slot; its
watermarks are the successive maxima of the slots that it received.
-/

open Shipstern.Core

namespace Shipstern.Kafka

open BlockCoordinator Log Maxima

/-! ## Reading a log -/

namespace LogEntry

/-- The record of an acked send that is no checkpoint. -/
def ackedRecords : LogEntry → List FutureRecord
  | .sent .data _ record true => [record]
  | _ => []

/-- The slot of a checkpoint that was acked. -/
def ackedCheckpoint : LogEntry → List Nat
  | .sent .checkpoint slot _ true => [slot]
  | _ => []

/-- The slot whose write has succeeded. -/
def completedSlot : LogEntry → List Nat
  | .completed slot => [slot]
  | _ => []

end LogEntry

/-! ## What one retried write logs -/

/-- A log of attempts, all but the last failed. A last attempt that failed was the last that
was allowed. -/
def Retried (Attempted : Bool → List LogEntry → Prop) (maxAttempts : Nat) (ok : Bool)
    (log : List LogEntry) : Prop :=
  ∃ (tried : List (List LogEntry)) (last : List LogEntry), log = tried.flatten ++ last ∧
    (∀ es ∈ tried, Attempted false es) ∧ Attempted ok last ∧ tried.length < maxAttempts ∧
    (ok = false → tried.length + 1 = maxAttempts)

section Retry

variable {Attempted : Bool → List LogEntry → Prop} {maxAttempts : Nat} {ok : Bool}
  {log : List LogEntry}

theorem withRetry_log (Attempted : Bool → List LogEntry → Prop)
    {f : Producer → Except SinkError Unit × Producer}
    (appends : ∀ p, ∃ es, (f p).2.log = p.log ++ es ∧ Attempted (f p).1.isOk es)
    (maxAttempts : Nat) (context : Text) (slot : Nat) (p : Producer) :
    ∃ log, (withRetry maxAttempts context slot f p).2.log = p.log ++ log ∧
      Retried Attempted (max maxAttempts 1) (withRetry maxAttempts context slot f p).1.isOk
        log := by
  obtain ⟨n, t, hle, hrepeats, hlast, hfull⟩ := Retry.tries_spec f (fun outcome => !outcome.isOk)
    (max maxAttempts 1 - 1) p
  have hagain : ∀ s, (!(f s).1.isOk) = true →
      ∃ es, Attempted false es ∧ (f s).2.log = s.log ++ es := by
    intro s hasked
    obtain ⟨es, hlog, hes⟩ := appends s
    have hfailed : (f s).1.isOk = false := by simpa using hasked
    exact ⟨es, hfailed ▸ hes, hlog⟩
  obtain ⟨tried, hlength, htried, hlog⟩ := hrepeats.log Producer.log hagain
  obtain ⟨last, hlastLog, hlastOk⟩ := appends t
  have hresult : (withRetry maxAttempts context slot f p).1.isOk = (f t).1.isOk ∧
      (withRetry maxAttempts context slot f p).2 = (f t).2 := by
    rw [withRetry, Retry.retry, hlast]
    cases hft : f t with
    | mk result q => cases result <;> exact ⟨rfl, rfl⟩
  refine ⟨tried.flatten ++ last, ?_, tried, last, rfl, htried, ?_, by omega, ?_⟩
  · rw [hresult.2, hlastLog, hlog, List.append_assoc]
  · rw [hresult.1]
    exact hlastOk
  · rw [hresult.1]
    intro hfailed
    have := hfull (by simp [hfailed])
    omega

/-- What holds of every entry of an attempt holds of every entry of the log. -/
theorem Retried.forall_mem {Q : LogEntry → Prop} (h : Retried Attempted maxAttempts ok log)
    (hattempt : ∀ ok es, Attempted ok es → ∀ e ∈ es, Q e) : ∀ e ∈ log, Q e := by
  obtain ⟨tried, last, rfl, htried, hlast, -⟩ := h
  intro e he
  obtain he | he := List.mem_append.mp he
  · obtain ⟨es, hes, he⟩ := List.mem_flatten.mp he
    exact hattempt false es (htried es hes) e he
  · exact hattempt ok last hlast e he

/-- What is read off entry by entry and not found in failed attempts is that of the last. -/
theorem Retried.flatMap_eq {β : Type} (h : Retried Attempted maxAttempts ok log)
    (read : LogEntry → List β)
    (hfailed : ∀ es, Attempted false es → es.flatMap read = []) :
    ∃ last, Attempted ok last ∧ log.flatMap read = last.flatMap read := by
  obtain ⟨tried, last, rfl, htried, hlast, -⟩ := h
  refine ⟨last, hlast, ?_⟩
  have hnone : tried.flatten.flatMap read = [] := by
    rw [List.flatMap_eq_nil_iff]
    intro e he
    obtain ⟨es, hes, he⟩ := List.mem_flatten.mp he
    exact List.flatMap_eq_nil_iff.mp (hfailed es (htried es hes)) e he
  rw [List.flatMap_append, hnone, List.nil_append]

end Retry

/-! ## Watermarks -/

/-- The records of messages, as they are sent. -/
def messageRecords (msgs : List AccountMsg) : List FutureRecord :=
  (msgs.filterMap (·.record)).map PreparedRecord.toFuture

/-- A watermark is sent after the acks of all records received before the first message with
a later slot. -/
def Covered (sink : AccountPassthroughSink) (msgs : List AccountMsg) (front : List LogEntry)
    (e : LogEntry) : Prop :=
  ∀ slot record acked, e = .sent .checkpoint slot record acked →
    record = sink.watermarkRecord slot ∧
      messageRecords (msgs.takeWhile (·.slot ≤ slot)) <+: front.flatMap (·.ackedRecords)

/-- The acked watermarks of a run that received these messages. A run that did not fail has
sent all successive maxima of the slots, the last of them when the channel was closed. -/
structure WatermarksOrdered (sink : AccountPassthroughSink) (msgs : List AccountMsg) (ok : Bool)
    (log : List LogEntry) : Prop where
  covered : Justified (Covered sink msgs) [] log
  maxima : ∃ unsent,
    SuccessiveMaxima (msgs.map (·.slot)) (log.flatMap (·.ackedCheckpoint) ++ unsent) ∧
      (ok = true → unsent = [])

section Passthrough

variable {broker : Broker} {sink : AccountPassthroughSink}

/-- A send logs itself with its answer. -/
theorem Producer.send_cases (broker : Broker) (purpose : Purpose) (slot : Nat)
    (record : FutureRecord) (p : Producer) :
    ∃ q : Producer,
      (p.send broker purpose slot record = (none, q) ∧
        q.log = p.log ++ [.sent purpose slot record true]) ∨
      ∃ err, p.send broker purpose slot record = (some err, q) ∧
        q.log = p.log ++ [.sent purpose slot record false] := by
  rw [Producer.send]
  split
  · dsimp only
    split
    · exact ⟨_, .inl ⟨rfl, rfl⟩⟩
    · exact ⟨_, .inl ⟨rfl, rfl⟩⟩
  · exact ⟨_, .inr ⟨_, rfl, rfl⟩⟩

/-- The write of a message sends its record and no checkpoint. -/
theorem writeRecord_log (broker : Broker) (sink : AccountPassthroughSink) (msg : AccountMsg)
    (p : Producer) :
    ∃ log, (sink.writeRecord broker msg p).2.log = p.log ++ log ∧
      (∀ e ∈ log, ∃ record acked, e = .sent .data msg.slot record acked) ∧
      ((sink.writeRecord broker msg p).1.isOk = true →
        log.flatMap (·.ackedRecords) = messageRecords [msg]) := by
  cases hrecord : msg.record with
  | none =>
      refine ⟨[], ?_, by simp, fun _ => by simp [messageRecords, hrecord]⟩
      simp [AccountPassthroughSink.writeRecord, hrecord]
  | some record =>
      have hsent : ∀ p, ∃ es,
          (AccountPassthroughSink.publishPassthroughRecord broker msg.slot record p).2.log =
              p.log ++ es ∧
            es = [.sent .data msg.slot record.toFuture
              (AccountPassthroughSink.publishPassthroughRecord broker msg.slot record
                p).1.isOk] := by
        intro p
        refine ⟨_, ?_, rfl⟩
        obtain ⟨q, ⟨hsend, hlog⟩ | ⟨err, hsend, hlog⟩⟩ :=
          Producer.send_cases broker .data msg.slot record.toFuture p
        · simp [AccountPassthroughSink.publishPassthroughRecord, hsend, hlog, Except.isOk,
            Except.toBool]
        · simp [AccountPassthroughSink.publishPassthroughRecord, hsend, hlog, Except.isOk,
            Except.toBool]
      obtain ⟨log, hlog, hretried⟩ := withRetry_log
        (fun ok es => es = [.sent .data msg.slot record.toFuture ok]) hsent
        sink.maxAttempts "Passthrough account write".toList msg.slot p
      rw [AccountPassthroughSink.writeRecord]
      simp only [hrecord]
      refine ⟨log, hlog, ?_, ?_⟩
      · refine hretried.forall_mem ?_
        rintro ok _ rfl e he
        exact ⟨_, _, List.mem_singleton.mp he⟩
      · intro hok
        rw [hok] at hretried
        obtain ⟨_, rfl, hread⟩ := hretried.flatMap_eq LogEntry.ackedRecords (by
          rintro _ rfl
          simp [LogEntry.ackedRecords])
        rw [hread]
        simp [LogEntry.ackedRecords, messageRecords, hrecord]

/-- A watermark is sent until it is acked or the attempts are exhausted. -/
theorem emitWatermark_log (broker : Broker) (sink : AccountPassthroughSink) (slot : Nat)
    (p : Producer) :
    ∃ log, (sink.emitWatermarkWithRetry broker slot p).2.log = p.log ++ log ∧
      (∀ e ∈ log, ∃ acked, e = .sent .checkpoint slot (sink.watermarkRecord slot) acked) ∧
      log.flatMap (·.ackedCheckpoint) =
        if (sink.emitWatermarkWithRetry broker slot p).1.isOk then [slot] else [] := by
  have hsent : ∀ p, ∃ es, (sink.emitWatermark broker slot p).2.log = p.log ++ es ∧
      es = [.sent .checkpoint slot (sink.watermarkRecord slot)
        (sink.emitWatermark broker slot p).1.isOk] := by
    intro p
    refine ⟨_, ?_, rfl⟩
    obtain ⟨q, ⟨hsend, hlog⟩ | ⟨err, hsend, hlog⟩⟩ :=
      Producer.send_cases broker .checkpoint slot (sink.watermarkRecord slot) p
    · simp [AccountPassthroughSink.emitWatermark, hsend, hlog, Except.isOk, Except.toBool]
    · simp [AccountPassthroughSink.emitWatermark, hsend, hlog, Except.isOk, Except.toBool]
  obtain ⟨log, hlog, hretried⟩ := withRetry_log
    (fun ok es => es = [.sent .checkpoint slot (sink.watermarkRecord slot) ok]) hsent
    sink.maxAttempts "Emit account watermark".toList slot p
  rw [AccountPassthroughSink.emitWatermarkWithRetry]
  refine ⟨log, hlog, ?_, ?_⟩
  · refine hretried.forall_mem ?_
    rintro ok _ rfl e he
    exact ⟨_, List.mem_singleton.mp he⟩
  · obtain ⟨_, rfl, hread⟩ := hretried.flatMap_eq LogEntry.ackedCheckpoint (by
      rintro _ rfl
      simp [LogEntry.ackedCheckpoint])
    rw [hread]
    split
    · next hok => rw [hok, List.flatMap_singleton, LogEntry.ackedCheckpoint]
    · next hfailed =>
        rw [Bool.not_eq_true] at hfailed
        rw [hfailed, List.flatMap_singleton]
        rfl

theorem ackedRecords_of_checkpoints {log : List LogEntry}
    (h : ∀ e ∈ log, ∃ slot record acked, e = .sent .checkpoint slot record acked) :
    log.flatMap (·.ackedRecords) = [] := by
  rw [List.flatMap_eq_nil_iff]
  intro e he
  obtain ⟨slot, record, acked, rfl⟩ := h e he
  rfl

theorem ackedCheckpoint_of_records {log : List LogEntry}
    (h : ∀ e ∈ log, ∃ slot record acked, e = .sent .data slot record acked) :
    log.flatMap (·.ackedCheckpoint) = [] := by
  rw [List.flatMap_eq_nil_iff]
  intro e he
  obtain ⟨slot, record, acked, rfl⟩ := h e he
  rfl

/-- What asks nothing of a data record holds throughout the sends of data records. -/
theorem justified_of_records {P : List LogEntry → LogEntry → Prop} {past log : List LogEntry}
    (h : ∀ e ∈ log, ∃ slot record acked, e = .sent .data slot record acked)
    (hdata : ∀ front slot record acked, P front (.sent .data slot record acked)) :
    Justified P past log := by
  rintro front e back rfl
  obtain ⟨slot, record, acked, rfl⟩ := h e (by simp)
  exact hdata _ slot record acked

theorem covered_of_records {msgs : List AccountMsg} {past log : List LogEntry}
    (h : ∀ e ∈ log, ∃ slot record acked, e = .sent .data slot record acked) :
    Justified (Covered sink msgs) past log :=
  justified_of_records h fun _ _ _ _ => nofun

/-- The sends of one watermark are covered when the records up to its slot have been acked. -/
theorem covered_of_watermarks {msgs : List AccountMsg} {past log : List LogEntry} {slot : Nat}
    (h : ∀ e ∈ log, ∃ acked, e = .sent .checkpoint slot (sink.watermarkRecord slot) acked)
    (hacks : messageRecords (msgs.takeWhile (·.slot ≤ slot)) <+:
      past.flatMap (·.ackedRecords)) :
    Justified (Covered sink msgs) past log := by
  rintro front e back rfl slot' record acked rfl
  obtain ⟨_, hentry⟩ := h (.sent .checkpoint slot' record acked) (by simp)
  cases hentry
  refine ⟨rfl, ?_⟩
  rw [List.flatMap_append]
  exact hacks.trans (List.prefix_append _ _)

theorem takeWhile_passed {received msgs : List AccountMsg} {current : Option Nat} {slot : Nat}
    (hcurrent : ∀ msg ∈ received, ∃ slot ∈ current, msg.slot ≤ slot) (hslot : current = some slot)
    (hnext : ∀ msg ∈ msgs.head?, slot < msg.slot) :
    (received ++ msgs).takeWhile (·.slot ≤ slot) = received := by
  have hpassed : ∀ msg ∈ received, msg.slot ≤ slot := by
    intro msg hmsg
    obtain ⟨held, hheld, hle⟩ := hcurrent msg hmsg
    cases hslot.symm.trans hheld
    exact hle
  rw [List.takeWhile_append_of_pos (by simpa using hpassed)]
  cases msgs with
  | nil => simp
  | cons msg msgs => simp [hnext msg rfl]

/-- A part of a run, after `past`: its checkpoints are covered, and of the expected watermarks
it has sent the first, all of them if it did not fail. -/
def Streamed (sink : AccountPassthroughSink) (msgs : List AccountMsg) (past : List LogEntry)
    (expected : List Nat) (p : Producer) (r : Except SinkError Unit × Producer) : Prop :=
  ∃ log, r.2.log = p.log ++ log ∧ Justified (Covered sink msgs) past log ∧
    ∃ unsent, expected = log.flatMap (·.ackedCheckpoint) ++ unsent ∧
      (r.1.isOk = true → unsent = [])

section Streamed

variable {msgs : List AccountMsg} {past log : List LogEntry} {given expected : List Nat}
  {p q : Producer} {r : Except SinkError Unit × Producer}

theorem Streamed.after (h : Streamed sink msgs (past ++ log) expected q r)
    (hlog : q.log = p.log ++ log) (hcovered : Justified (Covered sink msgs) past log)
    (hgiven : log.flatMap (·.ackedCheckpoint) = given) :
    Streamed sink msgs past (given ++ expected) p r := by
  obtain ⟨rest, hrest, hrestCovered, unsent, rfl, hunsent⟩ := h
  refine ⟨log ++ rest, ?_, justified_append.mpr ⟨hcovered, hrestCovered⟩, unsent, ?_, hunsent⟩
  · rw [hrest, hlog, List.append_assoc]
  · rw [List.flatMap_append, hgiven, List.append_assoc]

theorem Streamed.failed {e : SinkError} (hlog : q.log = p.log ++ log)
    (hcovered : Justified (Covered sink msgs) past log)
    (hnone : log.flatMap (·.ackedCheckpoint) = []) :
    Streamed sink msgs past expected p (.error e, q) :=
  ⟨log, hlog, hcovered, expected, by rw [hnone, List.nil_append], nofun⟩

end Streamed

/-- The loop, after the messages `received`: their records were acked, and the slot it holds
is the largest of theirs. -/
theorem runFrom_log (broker : Broker) (sink : AccountPassthroughSink)
    (received msgs : List AccountMsg) (current : Option Nat) (p : Producer)
    (past : List LogEntry)
    (hacks : past.flatMap (·.ackedRecords) = messageRecords received)
    (hcurrent : ∀ msg ∈ received, ∃ slot ∈ current, msg.slot ≤ slot) :
    Streamed sink (received ++ msgs) past (givenUp current (msgs.map (·.slot))) p
      (sink.runFrom broker current msgs p) := by
  induction msgs generalizing received current p past with
  | nil =>
      cases current with
      | none => exact ⟨[], by simp [AccountPassthroughSink.runFrom], .nil, [], by simp [givenUp]⟩
      | some slot =>
          obtain ⟨log, hlog, hmarks, hread⟩ := emitWatermark_log broker sink slot p
          refine ⟨log, hlog, covered_of_watermarks hmarks ?_, ?_⟩
          · rw [takeWhile_passed hcurrent rfl (by simp), hacks]
          · rw [AccountPassthroughSink.runFrom, hread, List.map_nil, givenUp]
            split
            · exact ⟨[], rfl, fun _ => rfl⟩
            · next hfailed => exact ⟨[slot], rfl, fun hok => absurd hok hfailed⟩
  | cons msg msgs ih =>
      obtain ⟨log, hlog, hrecords, hread⟩ := writeRecord_log broker sink msg p
      have hcovered : Justified (Covered sink (received ++ msg :: msgs)) past log :=
        covered_of_records fun e he => ⟨_, hrecords e he⟩
      have hnone : log.flatMap (·.ackedCheckpoint) = [] :=
        ackedCheckpoint_of_records fun e he => ⟨_, hrecords e he⟩
      have hall : received ++ msg :: msgs = (received ++ [msg]) ++ msgs := by simp
      rw [AccountPassthroughSink.runFrom]
      cases hwrite : sink.writeRecord broker msg p with
      | mk result q =>
      rw [hwrite] at hlog hread
      cases result with
      | error err => exact .failed hlog hcovered hnone
      | ok =>
          have hacks' : (past ++ log).flatMap (·.ackedRecords) =
              messageRecords (received ++ [msg]) := by
            rw [List.flatMap_append, hacks, hread rfl, messageRecords, messageRecords,
              messageRecords, ← List.map_append, ← List.filterMap_append]
          -- The slot that is held next is at least that of every message so far.
          have hheld : ∀ slot, msg.slot ≤ slot → (∀ prev ∈ current, prev ≤ slot) →
              ∀ m ∈ received ++ [msg], ∃ s ∈ some slot, m.slot ≤ s := by
            intro slot hmsg hprev m hm
            obtain hm | hm := List.mem_append.mp hm
            · obtain ⟨prev, hmem, hle⟩ := hcurrent m hm
              exact ⟨slot, rfl, hle.trans (hprev prev hmem)⟩
            · cases List.mem_singleton.mp hm
              exact ⟨slot, rfl, hmsg⟩
          cases current with
          | none =>
              have hnext := ih (received ++ [msg]) (some msg.slot) q (past ++ log) hacks'
                (hheld msg.slot le_rfl (by simp))
              rw [← hall] at hnext
              exact hnext.after hlog hcovered hnone
          | some prev =>
              simp only [List.map_cons, givenUp]
              split
              · next hlt =>
                  obtain ⟨marks, hmarksLog, hmarks, hmarksRead⟩ :=
                    emitWatermark_log broker sink prev q
                  have hmarksCovered : Justified (Covered sink (received ++ msg :: msgs))
                      (past ++ log) marks := by
                    refine covered_of_watermarks hmarks ?_
                    rw [takeWhile_passed hcurrent rfl (by simpa using hlt), hacks', messageRecords,
                      messageRecords, List.filterMap_append, List.map_append]
                    exact List.prefix_append _ _
                  cases hemit : sink.emitWatermarkWithRetry broker prev q with
                  | mk emitted q' =>
                  rw [hemit] at hmarksLog hmarksRead
                  cases emitted with
                  | error err =>
                      refine Streamed.after (.failed hmarksLog hmarksCovered ?_) hlog hcovered hnone
                      rw [hmarksRead]
                      rfl
                  | ok =>
                      have hnext := ih (received ++ [msg]) (some msg.slot) q' (past ++ log ++ marks)
                        ?_ (hheld msg.slot le_rfl (by simpa using hlt.le))
                      · rw [← hall] at hnext
                        exact (hnext.after hmarksLog hmarksCovered hmarksRead).after hlog hcovered
                          hnone
                      · rw [List.flatMap_append, hacks', ackedRecords_of_checkpoints,
                          List.append_nil]
                        intro e he
                        obtain ⟨acked, rfl⟩ := hmarks e he
                        exact ⟨_, _, _, rfl⟩
              · next hle =>
                  have hnext := ih (received ++ [msg]) (some prev) q (past ++ log) hacks'
                    (hheld prev (not_lt.mp hle) (by simp))
                  rw [← hall] at hnext
                  exact hnext.after hlog hcovered hnone

theorem run_watermarksOrdered (msgs : List AccountMsg) (p : Producer) :
    ∃ log, (sink.run broker msgs p).2.log = p.log ++ log ∧
      WatermarksOrdered sink msgs (sink.run broker msgs p).1.isOk log := by
  obtain ⟨log, hlog, hcovered, unsent, hmaxima, hunsent⟩ :=
    runFrom_log broker sink [] msgs none p [] rfl (by simp)
  refine ⟨log, hlog, hcovered, unsent, ?_, hunsent⟩
  rw [← hmaxima]
  exact successiveMaxima_givenUp _

end Passthrough

/-! ## Slots -/

/-- The sends of the records of a slot, with their answers. -/
def SlotWritePlan.recordSends (plan : SlotWritePlan) (acks : List Bool) : List LogEntry :=
  List.zipWith (fun record acked => .sent .data plan.slot record.toFuture acked) plan.records acks

/-- The sends of the records of a slot, all of them acked. -/
def SlotWritePlan.ackedSends (plan : SlotWritePlan) : List LogEntry :=
  plan.records.map fun record => .sent .data plan.slot record.toFuture true

/-- What `publish_plan` logs: its records, and the checkpoint if all of them were acked. -/
inductive PublishLog (plan : SlotWritePlan) : Bool → List LogEntry → Prop
  | unsent {acks : List Bool} (made : acks.length = plan.records.length) (failed : false ∈ acks) :
      PublishLog plan false (plan.recordSends acks)
  | published (acked : Bool) :
      PublishLog plan acked
        (plan.ackedSends ++ [.sent .checkpoint plan.slot plan.checkpointRecord acked])

/-- What `execute` logs. A transaction may be refused before anything is sent, and may fail
after all was acked. -/
inductive AttemptLog (plan : SlotWritePlan) : Bool → List LogEntry → Prop
  | refused : AttemptLog plan false [.attempt plan.slot]
  | ended {published ok : Bool} {es : List LogEntry} (publish : PublishLog plan published es)
      (acked : ok = true → published = true) : AttemptLog plan ok (.attempt plan.slot :: es)

/-- What is logged while slots are written one after the other, every one with success. -/
inductive Written (maxAttempts : Nat) : List SlotWritePlan → List LogEntry → Prop
  | none : Written maxAttempts [] []
  | slot {plan : SlotWritePlan} {plans : List SlotWritePlan} {es log : List LogEntry}
      (written : Retried (AttemptLog plan) maxAttempts true es)
      (rest : Written maxAttempts plans log) :
      Written maxAttempts (plan :: plans) (es ++ .completed plan.slot :: log)

/-- A checkpoint is that of one of the slots. Right before it, all records of the slot were
acked in the same attempt, and the writes of all earlier slots had succeeded. -/
def FollowsData (plans : List SlotWritePlan) (front : List LogEntry) (e : LogEntry) : Prop :=
  ∀ slot record acked, e = .sent .checkpoint slot record acked →
    ∃ done plan later earlier, plans = done ++ plan :: later ∧
      slot = plan.slot ∧ record = plan.checkpointRecord ∧
      front = earlier ++ .attempt slot :: plan.ackedSends ∧
      earlier.flatMap (·.completedSlot) = done.map (·.slot)

/-- A run that did not fail has written every slot. A run that failed has sent nothing for
any slot after the one whose attempts were exhausted. -/
structure CheckpointsOrdered (plans : List SlotWritePlan) (maxAttempts : Nat) (ok : Bool)
    (log : List LogEntry) : Prop where
  follows : Justified (FollowsData plans) [] log
  finished : ok = true → Written maxAttempts plans log
  stopped : ok = false → log = [] ∨
    ∃ done plan later written tried, plans = done ++ plan :: later ∧
      log = written ++ tried ∧ Written maxAttempts done written ∧
      Retried (AttemptLog plan) maxAttempts false tried

section Slots

variable {broker : Broker} {executor : SlotWriteExecutor} {plan : SlotWritePlan}
  {p p' : Producer} {r : Except SinkError Unit}

/-- All sends are made and logged, whatever their answers. -/
theorem sendAll_log (broker : Broker) (slot : Nat) (records : List PreparedRecord)
    (p : Producer) :
    ∃ acks : List Bool,
      acks = (sendAll broker slot (records.map PreparedRecord.toFuture) p).1.map (·.isNone) ∧
      acks.length = records.length ∧
      (sendAll broker slot (records.map PreparedRecord.toFuture) p).2.log = p.log ++
        List.zipWith (fun record acked => .sent .data slot record.toFuture acked) records acks := by
  induction records generalizing p with
  | nil => exact ⟨[], rfl, rfl, by simp [sendAll]⟩
  | cons record records ih =>
      obtain ⟨q, ⟨hsend, hlog⟩ | ⟨err, hsend, hlog⟩⟩ :=
        Producer.send_cases broker .data slot record.toFuture p
      · obtain ⟨acks, hacks, hlength, hrest⟩ := ih q
        refine ⟨true :: acks, ?_, congrArg (· + 1) hlength, ?_⟩
        · simp [sendAll, hsend, hacks]
        · simp [sendAll, hsend, hrest, hlog]
      · obtain ⟨acks, hacks, hlength, hrest⟩ := ih q
        refine ⟨false :: acks, ?_, congrArg (· + 1) hlength, ?_⟩
        · simp [sendAll, hsend, hacks]
        · simp [sendAll, hsend, hrest, hlog]

theorem mem_recordSends {acks : List Bool} {e : LogEntry} (h : e ∈ plan.recordSends acks) :
    ∃ slot record acked, e = .sent .data slot record acked := by
  obtain ⟨i, hi, rfl⟩ := List.getElem_of_mem h
  simp only [SlotWritePlan.recordSends, List.getElem_zipWith]
  exact ⟨_, _, _, rfl⟩

theorem mem_ackedSends {e : LogEntry} (h : e ∈ plan.ackedSends) :
    ∃ slot record acked, e = .sent .data slot record acked := by
  obtain ⟨record, -, rfl⟩ := List.mem_map.mp h
  exact ⟨_, _, _, rfl⟩

/-- A failed send is among the answers. -/
theorem failed_of_findSome {results : List (Option Text)} {err : Text}
    (h : results.findSome? id = some err) : false ∈ results.map (·.isNone) := by
  obtain ⟨result, hmem, hresult⟩ := List.exists_of_findSome?_eq_some h
  refine List.mem_map.mpr ⟨result, hmem, ?_⟩
  rw [show result = some err from hresult]
  rfl

/-- Without a failed send all answers are acks. -/
theorem recordSends_of_findSome {results : List (Option Text)}
    (hlength : (results.map (·.isNone)).length = plan.records.length)
    (h : results.findSome? id = none) :
    plan.recordSends (results.map (·.isNone)) = plan.ackedSends := by
  have hacked : results.map (·.isNone) = List.replicate plan.records.length true := by
    rw [← hlength, List.eq_replicate_iff]
    refine ⟨rfl, fun acked hacked => ?_⟩
    obtain ⟨result, hmem, rfl⟩ := List.mem_map.mp hacked
    rw [show result = none from List.findSome?_eq_none_iff.mp h result hmem]
    rfl
  rw [SlotWritePlan.recordSends, SlotWritePlan.ackedSends, hacked, ← List.map_const',
    List.zipWith_map_right, List.zipWith_self]

theorem publishPlan_log (h : SlotWriteExecutor.publishPlan broker plan p = (r, p')) :
    ∃ es, p'.log = p.log ++ es ∧ PublishLog plan r.isOk es := by
  rw [SlotWriteExecutor.publishPlan, batchPublishRecords] at h
  obtain ⟨acks, hacks, hlength, hlog⟩ := sendAll_log broker plan.slot plan.records p
  cases hsent : sendAll broker plan.slot (plan.records.map PreparedRecord.toFuture) p with
  | mk results mid =>
  rw [hsent] at h hlog hacks
  subst hacks
  have hrecords : mid.log = p.log ++ plan.recordSends (results.map (·.isNone)) := hlog
  cases hfirst : results.findSome? id with
  | some err =>
      simp only [hfirst] at h
      cases h
      exact ⟨_, hrecords, .unsent hlength (failed_of_findSome hfirst)⟩
  | none =>
      rw [recordSends_of_findSome hlength hfirst] at hrecords
      simp only [hfirst, SlotWritePlan.publishCheckpoint] at h
      obtain ⟨q, ⟨hsend, hq⟩ | ⟨err, hsend, hq⟩⟩ :=
        Producer.send_cases broker .checkpoint plan.slot plan.checkpointRecord mid
      · rw [hsend] at h
        cases h
        refine ⟨_, ?_, .published true⟩
        rw [hq, hrecords, List.append_assoc]
      · rw [hsend] at h
        cases h
        refine ⟨_, ?_, .published false⟩
        rw [hq, hrecords, List.append_assoc]

theorem abortTransaction_log {slot : Nat} {cause : Text}
    (h : executor.abortTransaction broker slot cause p = (r, p')) : p'.log = p.log := by
  obtain ⟨-, a, rfl⟩ | ⟨e, a, -, rfl⟩ := abortTransaction_cases h
  · rfl
  · rfl

/-- A transaction is refused before anything is sent, or its plan is published. -/
theorem writeTransaction_log (h : executor.writeTransaction broker plan p = (r, p')) :
    ∃ es, p'.log = p.log ++ es ∧ AttemptLog plan r.isOk (.attempt plan.slot :: es) := by
  rw [SlotWriteExecutor.writeTransaction] at h
  cases hbegin : runTransactionalOp executor.transactionMaxAttempts
      "Failed to begin Kafka transaction".toList (·.beginTransaction broker) p with
  | mk begun p₁ =>
  obtain ⟨rfl, hclosed, b, rfl⟩ | ⟨e, b, rfl, rfl⟩ := begin_cases hbegin
  · cases hpublish : SlotWriteExecutor.publishPlan broker plan
        { p with begins := b, isOpen := true, pending := [] } with
    | mk published p₂ =>
    obtain ⟨es, hlog, hes⟩ := publishPlan_log hpublish
    simp only [hbegin, hpublish] at h
    cases published with
    | error err =>
        simp only at h
        cases habort : executor.abortTransaction broker plan.slot
            "Kafka transactional slot write failed".toList p₂ with
        | mk aborted p₃ =>
        have habortLog := abortTransaction_log habort
        simp only [habort] at h
        cases aborted with
        | ok =>
            cases h
            exact ⟨es, habortLog.trans hlog, .ended hes Bool.false_ne_true.elim⟩
        | error abortErr =>
            cases h
            exact ⟨es, habortLog.trans hlog, .ended hes Bool.false_ne_true.elim⟩
    | ok =>
        simp only at h
        cases hcommit : commitTransactionalOp executor.transactionMaxAttempts
            "Failed to commit Kafka transaction".toList (·.commitTransaction broker) p₂ with
        | mk finished p₃ =>
        simp only [hcommit] at h
        obtain ⟨rfl, c, -, rfl⟩ | ⟨e, c, rfl, -, rfl⟩ | ⟨e, c, rfl, -, rfl⟩ :=
          commit_cases hcommit
        · cases h
          exact ⟨es, hlog, .ended hes fun _ => rfl⟩
        · simp only at h
          cases habort : executor.abortTransaction broker plan.slot
              "Kafka transaction commit requires abort".toList { p₂ with commits := c } with
          | mk aborted p₄ =>
          have habortLog := abortTransaction_log habort
          simp only [habort] at h
          cases aborted with
          | ok =>
              cases h
              exact ⟨es, habortLog.trans hlog, .ended hes Bool.false_ne_true.elim⟩
          | error abortErr =>
              cases h
              exact ⟨es, habortLog.trans hlog, .ended hes Bool.false_ne_true.elim⟩
        · cases h
          exact ⟨es, hlog, .ended hes Bool.false_ne_true.elim⟩
  · rw [hbegin] at h
    cases h
    exact ⟨[], by simp, .refused⟩

theorem execute_log (broker : Broker) (executor : SlotWriteExecutor) (plan : SlotWritePlan)
    (p : Producer) :
    ∃ es, (executor.execute broker plan p).2.log = p.log ++ es ∧
      AttemptLog plan (executor.execute broker plan p).1.isOk es := by
  rw [SlotWriteExecutor.execute]
  split
  · cases hpublish : SlotWriteExecutor.publishPlan broker plan (p.note (.attempt plan.slot)) with
    | mk result q =>
    obtain ⟨es, hlog, hes⟩ := publishPlan_log hpublish
    exact ⟨.attempt plan.slot :: es, by simp [hlog, Producer.note], .ended hes id⟩
  · cases hwrite : executor.writeTransaction broker plan (p.note (.attempt plan.slot)) with
    | mk result q =>
    obtain ⟨es, hlog, hes⟩ := writeTransaction_log hwrite
    rw [SlotWriteExecutor.executeTransactional, hwrite]
    exact ⟨.attempt plan.slot :: es, by simp [hlog, Producer.note], hes⟩

/-- The loop writes slots until one of them cannot be written. -/
theorem writeSlots_log {α : Type} (broker : Broker) (executor : SlotWriteExecutor) (context : Text)
    (slot : α → Nat) (plan : α → SlotWritePlan) (hslot : ∀ item, slot item = (plan item).slot)
    (items : List α) (p : Producer) :
    ∃ log,
      (executor.writeSlots broker context slot (fun item => .ok (plan item)) items p).2.log =
        p.log ++ log ∧
      ((executor.writeSlots broker context slot (fun item => .ok (plan item)) items p).1.isOk =
          true → Written (max executor.writeMaxAttempts 1) (items.map plan) log) ∧
      ((executor.writeSlots broker context slot (fun item => .ok (plan item)) items p).1.isOk =
          false → ∃ done failed later written tried,
        items.map plan = done ++ failed :: later ∧ log = written ++ tried ∧
        Written (max executor.writeMaxAttempts 1) done written ∧
        Retried (AttemptLog failed) (max executor.writeMaxAttempts 1) false tried) := by
  induction items generalizing p with
  | nil => exact ⟨[], by simp [SlotWriteExecutor.writeSlots], fun _ => .none, fun h => by cases h⟩
  | cons item items ih =>
      obtain ⟨es, hlog, hretried⟩ := withRetry_log (AttemptLog (plan item))
        (execute_log broker executor (plan item)) executor.writeMaxAttempts context (slot item) p
      rw [SlotWriteExecutor.writeSlots]
      cases hwrite : withRetry executor.writeMaxAttempts context (slot item)
          (executor.execute broker (plan item)) p with
      | mk result q =>
      rw [hwrite] at hlog hretried
      cases result with
      | error err =>
          exact ⟨es, hlog, Bool.false_ne_true.elim,
            fun _ => ⟨[], plan item, items.map plan, [], es, rfl, rfl, .none, hretried⟩⟩
      | ok =>
          obtain ⟨log, hrest, hfinished, hstopped⟩ := ih (q.note (.completed (slot item)))
          refine ⟨es ++ .completed (plan item).slot :: log, ?_, ?_, ?_⟩
          · have hq : q.log = p.log ++ es := hlog
            refine hrest.trans ?_
            simp [Producer.note, hq, hslot]
          · intro hok
            exact .slot hretried (hfinished hok)
          · intro hfailed
            obtain ⟨done, failed, later, written, tried, hplans, rfl, hwritten, htried⟩ :=
              hstopped hfailed
            refine ⟨plan item :: done, failed, later, es ++ .completed (plan item).slot :: written,
              tried, ?_, ?_, .slot hretried hwritten, htried⟩
            · rw [List.map_cons, hplans, List.cons_append]
            · simp

section Follows

variable {plans done later : List SlotWritePlan} {past es log : List LogEntry}
  {maxAttempts : Nat} {ok : Bool}

theorem AttemptLog.completedSlot_eq_nil (h : AttemptLog plan ok es) :
    es.flatMap (·.completedSlot) = [] := by
  have hsends : ∀ {sends : List LogEntry},
      (∀ e ∈ sends, ∃ slot record acked, e = .sent .data slot record acked) →
        sends.flatMap (·.completedSlot) = [] := by
    intro sends hdata
    rw [List.flatMap_eq_nil_iff]
    intro e he
    obtain ⟨slot, record, acked, rfl⟩ := hdata e he
    rfl
  cases h with
  | refused => rfl
  | ended publish acked =>
      cases publish with
      | unsent made failed =>
          rw [List.flatMap_cons, hsends fun _ => mem_recordSends]
          rfl
      | published acked =>
          rw [List.flatMap_cons, List.flatMap_append, hsends fun _ => mem_ackedSends]
          rfl

theorem AttemptLog.follows (h : AttemptLog plan ok es) (hplans : plans = done ++ plan :: later)
    (hdone : past.flatMap (·.completedSlot) = done.map (·.slot)) :
    Justified (FollowsData plans) past es ∧
      (past ++ es).flatMap (·.completedSlot) = done.map (·.slot) := by
  refine ⟨?_, by rw [List.flatMap_append, hdone, h.completedSlot_eq_nil, List.append_nil]⟩
  cases h with
  | refused => exact justified_cons.mpr ⟨nofun, .nil⟩
  | ended publish acked =>
      cases publish with
      | unsent made failed =>
          exact justified_cons.mpr
            ⟨nofun, justified_of_records (fun _ => mem_recordSends) fun _ _ _ _ => nofun⟩
      | published acked =>
          refine justified_cons.mpr ⟨nofun, justified_append.mpr
            ⟨justified_of_records (fun _ => mem_ackedSends) fun _ _ _ _ => nofun,
              justified_cons.mpr ⟨?_, .nil⟩⟩⟩
          rintro slot record acked' hentry
          cases hentry
          exact ⟨done, plan, later, past, hplans, rfl, rfl, by simp, hdone⟩

theorem Retried.follows (h : Retried (AttemptLog plan) maxAttempts ok log)
    (hplans : plans = done ++ plan :: later)
    (hdone : past.flatMap (·.completedSlot) = done.map (·.slot)) :
    Justified (FollowsData plans) past log ∧
      (past ++ log).flatMap (·.completedSlot) = done.map (·.slot) := by
  obtain ⟨tried, last, rfl, htried, hlast, -⟩ := h
  obtain ⟨hbefore, hdone'⟩ := Justified.flatten (P := FollowsData plans)
    (I := fun past => past.flatMap (·.completedSlot) = done.map (·.slot))
    (fun es hes past hpast => (htried es hes).follows hplans hpast) hdone
  obtain ⟨hafter, hdone''⟩ := hlast.follows hplans hdone'
  rw [← List.append_assoc]
  exact ⟨justified_append.mpr ⟨hbefore, hafter⟩, hdone''⟩

/-- The slots of a log in which every write succeeds follow those done before. -/
theorem Written.follows {written : List SlotWritePlan} (h : Written maxAttempts written log)
    (hplans : plans = done ++ (written ++ later))
    (hdone : past.flatMap (·.completedSlot) = done.map (·.slot)) :
    Justified (FollowsData plans) past log ∧
      (past ++ log).flatMap (·.completedSlot) = (done ++ written).map (·.slot) := by
  induction h generalizing done past with
  | none => exact ⟨.nil, by simpa using hdone⟩
  | @slot plan written es log hretried _ ih =>
      obtain ⟨hslot, hdone'⟩ := hretried.follows hplans hdone
      have hnext : (past ++ es ++ [LogEntry.completed plan.slot]).flatMap (·.completedSlot) =
          (done ++ [plan]).map (·.slot) := by
        rw [List.flatMap_append, hdone']
        simp [LogEntry.completedSlot]
      have hplans' : plans = (done ++ [plan]) ++ (written ++ later) := by simpa using hplans
      obtain ⟨hrest, hdone''⟩ := ih hplans' hnext
      refine ⟨justified_append.mpr ⟨hslot, justified_cons.mpr ⟨nofun, hrest⟩⟩, ?_⟩
      simpa using hdone''

end Follows

theorem run_checkpointsOrdered {α : Type} (context : Text) (slot : α → Nat)
    (plan : α → SlotWritePlan) (hslot : ∀ item, slot item = (plan item).slot) (items : List α)
    (p : Producer) :
    ∃ log,
      (executor.run broker context slot (fun item => .ok (plan item)) items p).2.log =
        p.log ++ log ∧
      CheckpointsOrdered (items.map plan) (max executor.writeMaxAttempts 1)
        (executor.run broker context slot (fun item => .ok (plan item)) items p).1.isOk log := by
  obtain ⟨i, hinit⟩ := initializeTransactions_inits broker executor p
  rw [SlotWriteExecutor.run]
  cases hrun : executor.initializeTransactions broker p with
  | mk result q =>
  rw [hrun] at hinit
  have hq : q.log = p.log := by
    obtain rfl : q = { p with inits := i } := hinit
    rfl
  cases result with
  | error err => exact ⟨[], by simpa using hq, .nil, Bool.false_ne_true.elim, fun _ => .inl rfl⟩
  | ok =>
      obtain ⟨log, hlog, hfinished, hstopped⟩ :=
        writeSlots_log broker executor context slot plan hslot items q
      refine ⟨log, by rw [← hq]; exact hlog, ?_, hfinished, fun hfailed => .inr (hstopped hfailed)⟩
      cases hok : (executor.writeSlots broker context slot (fun item => .ok (plan item)) items
          q).1.isOk with
      | true =>
          have hall : items.map plan = [] ++ (items.map plan ++ []) := by simp
          exact ((hfinished hok).follows hall rfl).1
      | false =>
          obtain ⟨done, failed, later, written, tried, hplans, rfl, hwritten, htried⟩ :=
            hstopped hok
          have hall : items.map plan = [] ++ (done ++ failed :: later) := hplans
          have hstart : ([] : List LogEntry).flatMap (·.completedSlot) =
              ([] : List SlotWritePlan).map (·.slot) := rfl
          obtain ⟨hbefore, hdone⟩ := hwritten.follows hall hstart
          obtain ⟨hafter, -⟩ := htried.follows hplans hdone
          exact justified_append.mpr ⟨hbefore, hafter⟩

end Slots

/-- For every broker, from every state of the producer: in the runs of the slot sinks every
checkpoint follows the acks of its records in the same attempt and the complete writes of the
earlier slots, and a slot that cannot be written is the last of which anything is sent; in
the runs of the passthrough sink the watermarks are the successive maxima of the slots, each
sent after the acks of what it covers. -/
theorem checkpoints_follow_data (bs58 : Bs58) (broker : Broker) (sink : TransactionSlotSink)
    (slots : List (InstructionSlot PreparedRecord)) (acctSink : AccountSlotSink)
    (acctSlots : List (AccountSlot PreparedRecord)) (passthrough : AccountPassthroughSink)
    (msgs : List AccountMsg) (p : Producer) :
    (∃ log, (sink.run bs58 broker slots p).2.log = p.log ++ log ∧
      CheckpointsOrdered (slots.map (sink.plan bs58)) (max sink.executor.writeMaxAttempts 1)
        (sink.run bs58 broker slots p).1.isOk log) ∧
    (∃ log, (acctSink.run broker acctSlots p).2.log = p.log ++ log ∧
      CheckpointsOrdered (acctSlots.map acctSink.plan) (max acctSink.executor.writeMaxAttempts 1)
        (acctSink.run broker acctSlots p).1.isOk log) ∧
    (∃ log, (passthrough.run broker msgs p).2.log = p.log ++ log ∧
      WatermarksOrdered passthrough msgs (passthrough.run broker msgs p).1.isOk log) :=
  ⟨run_checkpointsOrdered _ _ (sink.plan bs58) (fun _ => rfl) slots p,
    run_checkpointsOrdered _ _ acctSink.plan (fun _ => rfl) acctSlots p,
    run_watermarksOrdered msgs p⟩

end Shipstern.Kafka
