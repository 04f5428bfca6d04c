import Shipstern.Lib.Machine
import Shipstern.Runtime.Buffer

/-!
# The buffer loses no update and bounds concurrency

Three invariants of the step relation, each preserved by every step of every actor. The
permits are conserved. The phase of the producer fixes which of the flags are set, so that
an entry taken after the abort flag is never spawned. And as long as the stream has not
ended badly, what was received is what was spawned, what waits and what the producer holds,
in this order. The drain barrier then is a matter of counting: whoever holds all permits
leaves none for a queued entry or a running job.
-/

namespace Shipstern.Runtime.Buffer

variable {υ ε : Type} {jobs : Jobs} {s t : State υ ε}

theorem Bridge.hand_load (abort : Bool) (entry : Taken υ) :
    (if abort then Bridge.discarding entry else .spawning entry).hand = [entry.update] := by
  cases abort <;> rfl

section Permits

/-- Every permit is free, with the producer, with a queued entry or with a running job. -/
def PermitsKept (s : State υ ε) : Prop :=
  s.free + s.phase.permits s.jobs + s.queued.length + s.running.length = s.jobs

theorem Step.jobs_eq (h : Step s t) : t.jobs = s.jobs := by
  cases h <;> rfl

theorem PermitsKept.step (h : Step s t) (hs : PermitsKept s) : PermitsKept t := by
  unfold PermitsKept State.queued at *
  cases h with
  | receive update phase | receiveErr error phase | receiveNone phase | stopReceiving phase =>
      simpa [phase, Phase.permits, State.leave] using hs
  | acquire phase permit =>
      simp only [phase, Phase.permits] at hs ⊢
      omega
  | stopAcquiring phase => simpa [phase, Phase.permits, State.leave] using hs
  | send phase alive =>
      simp only [phase, Phase.permits, List.length_append, List.length_singleton] at hs ⊢
      omega
  | sendErr phase gone =>
      simp only [phase, Phase.permits, State.leave] at hs ⊢
      omega
  | settle phase _ | dropSender phase | timeout phase | join phase _ =>
      simpa [phase, Phase.permits] using hs
  | acquireMany phase permits | releaseMany phase =>
      simp only [phase, Phase.permits] at hs ⊢
      omega
  | take bridge queue =>
      simp only [bridge, queue, Bridge.hand, List.length_append, List.length_cons,
        List.length_nil] at hs ⊢
      omega
  | load bridge =>
      rw [Bridge.hand_load]
      simpa [bridge, Bridge.hand] using hs
  | discard bridge | spawn bridge =>
      simp only [bridge, Bridge.hand, List.length_append, List.length_singleton,
        List.length_nil] at hs ⊢
      omega
  | exit bridge empty disconnected => simpa [bridge, Bridge.hand] using hs
  | finish front back update panicked running =>
      simp only [running, List.length_append, List.length_cons] at hs ⊢
      omega

end Permits

section Abort

/-- What the abort flag says about the entries that the bridge took. -/
structure LateKept (s : State υ ε) : Prop where
  taken : ∀ entry, s.bridge = .taken entry → entry.afterAbort = true → s.abort = true
  discarding : ∀ entry, s.bridge = .discarding entry → s.abort = true
  spawning : ∀ entry, s.bridge = .spawning entry → entry.afterAbort = false
  spawned : ∀ entry ∈ s.spawned, entry.afterAbort = false

/-- A step that leaves the bridge alone and does not clear the flag keeps what it says. -/
theorem LateKept.of_eq (hs : LateKept s) (bridge : t.bridge = s.bridge)
    (abort : s.abort = true → t.abort = true) (spawned : t.spawned = s.spawned) : LateKept t where
  taken := fun entry h hlate => abort (hs.taken entry (bridge ▸ h) hlate)
  discarding := fun entry h => abort (hs.discarding entry (bridge ▸ h))
  spawning := fun entry h => hs.spawning entry (bridge ▸ h)
  spawned := fun entry h => hs.spawned entry (spawned ▸ h)

theorem LateKept.step (h : Step s t) (hs : LateKept s) : LateKept t := by
  cases h with
  | settle phase left => exact hs.of_eq rfl (fun h => by simp [h]) rfl
  | take bridge queue =>
      refine ⟨?_, ?_, ?_, hs.spawned⟩
      · intro entry h hlate
        cases h
        exact hlate
      · intro entry h
        contradiction
      · intro entry h
        contradiction
  | @load entry bridge =>
      cases habort : s.abort with
      | true =>
          refine ⟨?_, ?_, ?_, hs.spawned⟩ <;> intro entry h
          · contradiction
          · rfl
          · contradiction
      | false =>
          refine ⟨?_, ?_, ?_, hs.spawned⟩ <;> intro entry' h
          · contradiction
          · contradiction
          · cases h
            by_contra hlate
            have := hs.taken entry bridge (by simpa using hlate)
            simp [habort] at this
  | discard bridge =>
      refine ⟨?_, ?_, ?_, hs.spawned⟩ <;> intro entry h <;> contradiction
  | exit bridge empty disconnected =>
      refine ⟨?_, ?_, ?_, hs.spawned⟩ <;> intro entry h <;> contradiction
  | @spawn taken bridge =>
      refine ⟨?_, ?_, ?_, ?_⟩
      · intro entry h
        contradiction
      · intro entry h
        contradiction
      · intro entry h
        contradiction
      · intro entry h
        obtain hold | hnew := List.mem_append.mp h
        · exact hs.spawned entry hold
        · rw [List.mem_singleton.mp hnew]
          exact hs.spawning taken bridge
  | _ => exact hs.of_eq rfl id rfl

/-- Whether the producer is still in its loop. -/
def Phase.looping : Phase υ → Bool
  | .receiving | .acquiring _ | .sending _ => true
  | _ => false

/-- The loop has no ending while it goes on, and the flag is only set after a bad one. -/
structure EndingKept (s : State υ ε) : Prop where
  looping : s.phase.looping = true → s.ending = none
  left : s.phase.looping = false → ∃ ending, s.ending = some ending
  abort : s.abort = true → ∃ ending, s.ending = some ending ∧ ending.drain = false

/-- In the loop the flag is not set. -/
theorem EndingKept.abort_eq_false (hs : EndingKept s) (looping : s.phase.looping = true) :
    s.abort = false := by
  by_contra h
  obtain ⟨ending, hending, -⟩ := hs.abort (by simpa using h)
  rw [hs.looping looping] at hending
  contradiction

theorem EndingKept.leave (hs : EndingKept s) (looping : s.phase.looping = true)
    (ending : Ending ε) : EndingKept (s.leave ending) where
  looping := fun h => by contradiction
  left := fun _ => ⟨ending, rfl⟩
  abort := fun h => by
    rw [State.leave, hs.abort_eq_false looping] at h
    contradiction

theorem EndingKept.of_eq (hs : EndingKept s) (phase : t.phase.looping = s.phase.looping)
    (ending : t.ending = s.ending) (abort : t.abort = s.abort) : EndingKept t where
  looping := fun h => ending.trans (hs.looping (phase ▸ h))
  left := fun h => ending ▸ hs.left (phase ▸ h)
  abort := fun h => by
    rw [ending]
    exact hs.abort (abort ▸ h)

theorem EndingKept.step (h : Step s t) (hs : EndingKept s) : EndingKept t := by
  cases h with
  | receive update phase => exact hs.of_eq (by rw [phase]; rfl) rfl rfl
  | receiveErr error phase => exact hs.leave (by rw [phase]; rfl) _
  | receiveNone phase => exact hs.leave (by rw [phase]; rfl) _
  | stopReceiving phase => exact hs.leave (by rw [phase]; rfl) _
  | acquire phase permit => exact hs.of_eq (by rw [phase]; rfl) rfl rfl
  | stopAcquiring phase => exact hs.leave (by rw [phase]; rfl) _
  | send phase alive => exact hs.of_eq (by rw [phase]; rfl) rfl rfl
  | sendErr phase gone =>
      exact (hs.leave (by rw [phase]; rfl) .bridgeGone).of_eq rfl rfl rfl
  | @settle ending phase left =>
      refine ⟨fun h => by contradiction, fun _ => ⟨ending, left⟩, ?_⟩
      intro h
      cases hdrain : ending.drain with
      | true =>
          have habort : s.abort = true := by simpa [hdrain] using h
          exact hs.abort habort
      | false => exact ⟨ending, left, hdrain⟩
  | dropSender phase => exact hs.of_eq (by rw [phase]; rfl) rfl rfl
  | acquireMany phase permits => exact hs.of_eq (by rw [phase]; rfl) rfl rfl
  | releaseMany phase => exact hs.of_eq (by rw [phase]; rfl) rfl rfl
  | timeout phase => exact hs.of_eq (by rw [phase]; rfl) rfl rfl
  | join phase exited => exact hs.of_eq (by rw [phase]; rfl) rfl rfl
  | _ => exact hs.of_eq rfl rfl rfl

end Abort

section Order

/-- The update in the hand of the producer. -/
def Phase.hand : Phase υ → List υ
  | .acquiring update | .sending update => [update]
  | _ => []

/-- The loop goes on, or it was left because the stream was closed. -/
def Clean (s : State υ ε) : Prop := ∀ ending, s.ending = some ending → ending.drain = true

/-- Unless the stream ended badly, nothing is lost and nothing overtakes. -/
def OrderKept (s : State υ ε) : Prop :=
  Clean s → s.received = s.spawned.map (·.update) ++ s.queued ++ s.phase.hand

/-- The entry that the bridge discards was aborted. -/
theorem not_clean_of_discarding (late : LateKept s) (ends : EndingKept s) {entry : Taken υ}
    (bridge : s.bridge = .discarding entry) : ¬ Clean s := by
  intro hclean
  obtain ⟨ending, hending, hbad⟩ := ends.abort (late.discarding entry bridge)
  rw [hclean ending hending] at hbad
  contradiction

theorem OrderKept.step (h : Step s t) (late : LateKept s) (ends : EndingKept s)
    (hs : OrderKept s) : OrderKept t := by
  intro hclean
  cases h with
  | receive update phase =>
      rw [hs hclean, phase]
      simp [Phase.hand, State.queued]
  | receiveErr error phase =>
      have hbad := hclean _ rfl
      contradiction
  | receiveNone phase =>
      have hbefore : Clean s := by
        intro ending hending
        rw [ends.looping (by rw [phase]; rfl)] at hending
        contradiction
      simpa [phase, Phase.hand, State.leave, State.queued] using hs hbefore
  | stopReceiving phase =>
      have hbad := hclean _ rfl
      contradiction
  | acquire phase permit =>
      rw [hs hclean, phase]
      rfl
  | stopAcquiring phase =>
      have hbad := hclean _ rfl
      contradiction
  | send phase alive =>
      rw [hs hclean, phase]
      simp [Phase.hand, State.queued]
  | sendErr phase gone =>
      have hbad := hclean _ rfl
      contradiction
  | settle phase _ | dropSender phase | acquireMany phase _ | releaseMany phase | timeout phase =>
      rw [hs hclean, phase]
      rfl
  | join phase exited =>
      rw [hs hclean, phase]
      rfl
  | take bridge queue =>
      rw [hs hclean]
      simp [State.queued, bridge, queue, Bridge.hand]
  | load bridge =>
      rw [hs hclean]
      simp only [State.queued, bridge, Bridge.hand_load]
      rfl
  | discard bridge =>
      have hbefore : Clean s := hclean
      exact absurd hbefore (not_clean_of_discarding late ends bridge)
  | spawn bridge =>
      rw [hs hclean]
      simp [State.queued, bridge, Bridge.hand]
  | exit bridge empty disconnected =>
      rw [hs hclean]
      simp [State.queued, bridge, Bridge.hand]
  | finish front back update panicked running =>
      rw [hs hclean]
      rfl

end Order

section Drain

/-- Past the drain barrier, unless it timed out. -/
def State.pastBarrier (s : State υ ε) : Prop :=
  s.phase = .drained ∨ ((s.phase = .joining ∨ s.phase = .returned) ∧ s.timedOut = false)

/-- Nothing is queued and nothing runs. -/
def State.Idle (s : State υ ε) : Prop := s.queued = [] ∧ s.running = []

/-- Whoever gets all permits leaves none for an entry or a job. -/
theorem PermitsKept.idle (hs : PermitsKept s) (few : s.jobs ≤ u32Max)
    (permits : allPermits s.jobs ≤ s.free) : s.Idle := by
  have hall : allPermits s.jobs = s.jobs := Nat.min_eq_left few
  rw [PermitsKept] at hs
  rw [hall] at permits
  exact ⟨List.length_eq_zero_iff.mp (by omega), List.length_eq_zero_iff.mp (by omega)⟩

/-- Past the barrier the system is idle. -/
def BarrierKept (s : State υ ε) : Prop := s.pastBarrier → s.Idle

theorem BarrierKept.step (h : Step s t) (permits : PermitsKept s) (few : s.jobs ≤ u32Max)
    (hs : BarrierKept s) : BarrierKept t := by
  have hbridge : ∀ entry : Taken υ, s.bridge.hand = [entry.update] → ¬ s.pastBarrier := by
    intro entry hhand hpast
    have hqueued := (hs hpast).1
    rw [State.queued, hhand] at hqueued
    contradiction
  intro hpast
  cases h with
  | acquireMany phase hpermits => exact permits.idle few hpermits
  | releaseMany phase => exact hs (.inl phase)
  | timeout phase =>
      obtain hphase | ⟨-, htime⟩ := hpast <;> contradiction
  | join phase exited =>
      obtain hphase | ⟨-, htime⟩ := hpast
      · contradiction
      · exact hs (.inr ⟨.inl phase, htime⟩)
  | take bridge queue =>
      have hqueued := (hs hpast).1
      rw [State.queued, queue] at hqueued
      simp at hqueued
  | @load entry bridge => exact absurd hpast (hbridge entry (by rw [bridge]; rfl))
  | @discard entry bridge => exact absurd hpast (hbridge entry (by rw [bridge]; rfl))
  | @spawn entry bridge => exact absurd hpast (hbridge entry (by rw [bridge]; rfl))
  | exit bridge empty disconnected => exact ⟨empty, (hs hpast).2⟩
  | finish front back update panicked running =>
      have hnone := (hs hpast).2
      rw [running] at hnone
      simp at hnone
  | _ =>
      obtain hphase | ⟨hphase | hphase, -⟩ := hpast <;> contradiction

end Drain

section Jobs

/-- A spawned job runs until it ends. -/
def JobsKept (s : State υ ε) : Prop :=
  (s.spawned.map (·.update)).Perm (s.running ++ s.finished.map Prod.fst)

theorem JobsKept.step (h : Step s t) (hs : JobsKept s) : JobsKept t := by
  cases h with
  | @spawn entry bridge =>
      rw [JobsKept, List.map_append]
      refine (hs.append_right _).trans ?_
      rw [List.append_assoc, List.append_assoc]
      exact List.perm_append_comm.append_left s.running
  | finish front back update panicked running =>
      rw [JobsKept, running] at hs
      refine hs.trans ?_
      rw [List.map_append, ← List.append_assoc]
      exact (List.perm_middle.append_right _).trans (List.perm_append_singleton update _).symm
  | _ => exact hs

/-- Whether the sender is dropped. -/
def Phase.dropped : Phase υ → Bool
  | .draining | .drained | .joining | .returned => true
  | _ => false

/-- The producer returns when the bridge has emptied the queue. -/
structure ExitKept (s : State υ ε) : Prop where
  dropped : s.phase.dropped = true → s.senderAlive = false
  exited : s.bridge = .exited → s.queue = []
  returned : s.phase = .returned → s.bridge = .exited

theorem ExitKept.step (h : Step s t) (hs : ExitKept s) : ExitKept t := by
  have hbusy : ∀ {p : Prop}, s.bridge ≠ .exited → s.phase = .returned → p :=
    fun hbridge h => absurd (hs.returned h) hbridge
  cases h with
  | send phase alive =>
      exact ⟨fun h => by contradiction, fun h => absurd h alive, fun h => by contradiction⟩
  | dropSender phase => exact ⟨fun _ => rfl, hs.exited, fun h => by contradiction⟩
  | acquireMany phase permits =>
      exact ⟨fun _ => hs.dropped (by rw [phase]; rfl), hs.exited, fun h => by contradiction⟩
  | releaseMany phase =>
      exact ⟨fun _ => hs.dropped (by rw [phase]; rfl), hs.exited, fun h => by contradiction⟩
  | timeout phase =>
      exact ⟨fun _ => hs.dropped (by rw [phase]; rfl), hs.exited, fun h => by contradiction⟩
  | join phase exited =>
      exact ⟨fun _ => hs.dropped (by rw [phase]; rfl), hs.exited, fun _ => exited⟩
  | exit bridge empty disconnected => exact ⟨hs.dropped, fun _ => empty, fun _ => rfl⟩
  | take bridge queue =>
      exact ⟨hs.dropped, fun h => by contradiction, fun h => hbusy (by simp [bridge]) h⟩
  | @load entry bridge =>
      refine ⟨hs.dropped, fun h => ?_, fun h => hbusy (by simp [bridge]) h⟩
      cases habort : s.abort <;> simp [habort] at h
  | discard bridge =>
      exact ⟨hs.dropped, fun h => by contradiction, fun h => hbusy (by simp [bridge]) h⟩
  | spawn bridge =>
      exact ⟨hs.dropped, fun h => by contradiction, fun h => hbusy (by simp [bridge]) h⟩
  | finish front back update panicked running => exact ⟨hs.dropped, hs.exited, hs.returned⟩
  | _ => exact ⟨fun h => by contradiction, hs.exited, fun h => by contradiction⟩

end Jobs

/-- All invariants together. -/
structure Kept (jobs : Jobs) (s : State υ ε) : Prop where
  jobs_eq : s.jobs = jobs.count
  permits : PermitsKept s
  late : LateKept s
  ends : EndingKept s
  order : OrderKept s
  barrier : BarrierKept s
  spawned : JobsKept s
  exit : ExitKept s

theorem Kept.init (jobs : Jobs) : Kept jobs ({ jobs := jobs.count } : State υ ε) where
  jobs_eq := rfl
  permits := rfl
  late := ⟨fun _ h => by contradiction, fun _ h => by contradiction, fun _ h => by contradiction,
    fun _ h => by contradiction⟩
  ends := ⟨fun _ => rfl, fun h => by contradiction, fun h => by contradiction⟩
  order := fun _ => rfl
  barrier := fun _ => ⟨rfl, rfl⟩
  spawned := .refl _
  exit := ⟨fun h => by contradiction, fun h => by contradiction, fun h => by contradiction⟩

theorem Kept.step (h : Step s t) (hs : Kept jobs s) : Kept jobs t where
  jobs_eq := h.jobs_eq.trans hs.jobs_eq
  permits := hs.permits.step h
  late := hs.late.step h
  ends := hs.ends.step h
  order := hs.order.step h hs.late hs.ends
  barrier := hs.barrier.step h hs.permits (hs.jobs_eq ▸ jobs.le)
  spawned := hs.spawned.step h
  exit := hs.exit.step h

theorem Reachable.kept (h : Reachable jobs s) : Kept jobs s :=
  Machine.invariant_of_steps (fun _ _ => Kept.step) h (Kept.init jobs)

/-- The permits are conserved in every reachable state. After a clean close whose drain does
not time out, what was received was spawned, in this order, and has ended. After a stop or
an error, no entry taken under the abort flag is spawned and no entry keeps a permit. -/
theorem buffer_dispatch (jobs : Jobs) (s : State υ ε) (h : Reachable jobs s) :
    (s.free + s.phase.permits s.jobs + s.queued.length + s.running.length = jobs.count ∧
      s.queued.length + s.running.length ≤ jobs.count) ∧
    (s.phase = .returned → s.ending = some .closed → s.timedOut = false →
      s.spawned.map (·.update) = s.received ∧ s.running = [] ∧
        s.received.Perm (s.finished.map Prod.fst)) ∧
    (s.ending = some .stopped ∨ (∃ error, s.ending = some (.status error)) →
      (∀ entry ∈ s.spawned, entry.afterAbort = false) ∧
        (s.phase = .returned → s.queued = [] ∧ s.free + s.running.length = jobs.count)) := by
  have hkept := h.kept
  have hpermits := hkept.permits
  rw [PermitsKept] at hpermits
  have hjobs := hkept.jobs_eq
  refine ⟨⟨by omega, by omega⟩, ?_, ?_⟩
  · intro hphase hending htime
    have hclean : Clean s := by
      intro ending h
      rw [hending] at h
      cases h
      rfl
    obtain ⟨hqueued, hrunning⟩ := hkept.barrier (.inr ⟨.inr hphase, htime⟩)
    have horder : s.spawned.map (·.update) = s.received := by
      simpa [hqueued, hphase, Phase.hand] using (hkept.order hclean).symm
    have hjobs := hkept.spawned
    rw [JobsKept, horder, hrunning] at hjobs
    exact ⟨horder, hrunning, hjobs⟩
  · intro _
    refine ⟨hkept.late.spawned, ?_⟩
    intro hphase
    have hexited := hkept.exit.returned hphase
    have hqueued : s.queued = [] := by
      rw [State.queued, hexited, hkept.exit.exited hexited]
      rfl
    rw [hqueued, hphase, hjobs] at hpermits
    exact ⟨hqueued, hpermits⟩

/-- Two jobs at a time on a machine with eight cores. -/
def twoJobs : Jobs := .ofConfig (some 2) 8 (by decide)

/-- Two updates, one of which panics in its handler, and a stream that is closed. -/
theorem buffer_dispatch_of_twoUpdates :
    ∃ s : State String Unit, Reachable twoJobs s ∧ s.phase = .returned ∧ s.received = ["a", "b"] ∧
      s.spawned.map (·.update) = ["a", "b"] ∧ s.running = [] ∧
        s.received.Perm (s.finished.map Prod.fst) := by
  have start : Reachable twoJobs ({ jobs := twoJobs.count } : State String Unit) := .refl
  have first := ((start.tail (.receive "a" rfl)).tail (.acquire rfl (by decide))).tail
    (.send rfl (by simp))
  have second := ((first.tail (.receive "b" rfl)).tail (.acquire rfl (by decide))).tail
    (.send rfl (by simp))
  have spawned := ((second.tail (.take rfl rfl)).tail (.load rfl)).tail (.spawn rfl)
  have closed := ((spawned.tail (.receiveNone rfl)).tail (.settle rfl rfl)).tail (.dropSender rfl)
  have panicked := closed.tail (.finish [] [] "a" true rfl)
  have last := ((panicked.tail (.take rfl rfl)).tail (.load rfl)).tail (.spawn rfl)
  have idle := (last.tail (.finish [] [] "b" false rfl)).tail (.exit rfl rfl rfl)
  have returned := ((idle.tail (.acquireMany rfl (by decide))).tail (.releaseMany rfl)).tail
    (.join rfl rfl)
  obtain ⟨horder, hrunning, hfinished⟩ :=
    (buffer_dispatch twoJobs _ returned).2.1 rfl rfl rfl
  exact ⟨_, returned, rfl, rfl, horder, hrunning, hfinished⟩

section Shutdown

open Relation

/-- How far the bridge is from its exit. -/
def Bridge.work : Bridge υ → Nat
  | .taken _ => 4
  | .spawning _ => 3
  | .discarding _ => 2
  | .idle => 1
  | .exited => 0

/-- What is left to do before the system is at rest. -/
def State.work (s : State υ ε) : Nat := 5 * s.queue.length + s.bridge.work + s.running.length

/-- A step of the bridge or of a job, which the producer does not see. -/
structure Progress (s t : State υ ε) : Prop where
  step : Step s t
  work : t.work < s.work
  phase : t.phase = s.phase
  timedOut : t.timedOut = s.timedOut

theorem exists_progress (kept : Kept jobs s) (dropped : s.phase.dropped = true)
    (busy : 0 < s.work) : ∃ t, Progress s t := by
  have hjob : s.running ≠ [] → ∃ t, Progress s t := by
    intro h
    obtain ⟨update, rest, hrunning⟩ := List.exists_cons_of_ne_nil h
    refine ⟨_, .finish [] rest update false hrunning, ?_, rfl, rfl⟩
    simp [State.work, hrunning]
  cases hbridge : s.bridge with
  | idle =>
      cases hqueue : s.queue with
      | nil =>
          refine ⟨_, .exit hbridge hqueue (kept.exit.dropped dropped), ?_, rfl, rfl⟩
          simp [State.work, hbridge, Bridge.work]
      | cons update rest =>
          refine ⟨_, .take hbridge hqueue, ?_, rfl, rfl⟩
          simp only [State.work, hbridge, hqueue, Bridge.work, List.length_cons]
          omega
  | taken entry =>
      refine ⟨_, .load hbridge, ?_, rfl, rfl⟩
      have hless : (if s.abort then Bridge.discarding entry else .spawning entry).work < 4 := by
        cases s.abort <;> simp [Bridge.work]
      simpa [State.work, hbridge, Bridge.work] using hless
  | spawning entry =>
      refine ⟨_, .spawn hbridge, ?_, rfl, rfl⟩
      simp only [State.work, hbridge, Bridge.work, List.length_append, List.length_singleton]
      omega
  | discarding entry =>
      refine ⟨_, .discard hbridge, ?_, rfl, rfl⟩
      simp [State.work, hbridge, Bridge.work]
  | exited =>
      apply hjob
      intro hrunning
      simp [State.work, hbridge, Bridge.work, kept.exit.exited hbridge, hrunning] at busy

/-- Once the sender is dropped the bridge and the jobs come to rest. -/
theorem exists_rest (h : Reachable jobs s) (dropped : s.phase.dropped = true) :
    ∃ t, ReflTransGen Step s t ∧ t.work = 0 ∧ t.phase = s.phase ∧ t.timedOut = s.timedOut := by
  induction hwork : s.work using Nat.strongRecOn generalizing s with
  | _ n ih =>
      subst hwork
      by_cases hbusy : 0 < s.work
      · obtain ⟨t, hprogress⟩ := exists_progress h.kept dropped hbusy
        obtain ⟨rest, hsteps, hwork, hphase, htime⟩ := ih t.work hprogress.work
          (h.tail hprogress.step) (by rw [hprogress.phase]; exact dropped) rfl
        exact ⟨rest, .head hprogress.step hsteps, hwork, hphase.trans hprogress.phase,
          htime.trans hprogress.timedOut⟩
      · exact ⟨s, .refl, by omega, rfl, rfl⟩

theorem rest_of_work (h : s.work = 0) : s.bridge = .exited ∧ s.queue = [] ∧ s.running = [] := by
  have hbridge : s.bridge.work = 0 := by
    rw [State.work] at h
    omega
  refine ⟨?_, List.length_eq_zero_iff.mp ?_, List.length_eq_zero_iff.mp ?_⟩
  · cases hb : s.bridge <;> simp [hb, Bridge.work] at hbridge ⊢
  · rw [State.work] at h
    omega
  · rw [State.work] at h
    omega

theorem exists_return_of_joining (h : Reachable jobs s) (phase : s.phase = .joining) :
    ∃ t, ReflTransGen Step s t ∧ t.phase = .returned ∧ t.timedOut = s.timedOut := by
  obtain ⟨t, hsteps, hwork, hphase, htime⟩ := exists_rest h (by rw [phase]; rfl)
  exact ⟨_, hsteps.tail (.join (hphase.trans phase) (rest_of_work hwork).1), rfl, htime⟩

theorem exists_return_of_draining (h : Reachable jobs s) (phase : s.phase = .draining) :
    ∃ t, ReflTransGen Step s t ∧ t.phase = .returned ∧ t.timedOut = s.timedOut := by
  obtain ⟨t, hsteps, hwork, hphase, htime⟩ := exists_rest h (by rw [phase]; rfl)
  rw [phase] at hphase
  have hkept : Kept jobs t := Reachable.kept (h.trans hsteps)
  have hpermits : allPermits t.jobs ≤ t.free := by
    obtain ⟨hexited, hqueue, hrunning⟩ := rest_of_work hwork
    have hsum := hkept.permits
    simp only [PermitsKept, State.queued, hexited, hqueue, hrunning, hphase, Phase.permits,
      Bridge.hand, List.append_nil, List.length_nil] at hsum
    have hall : allPermits t.jobs ≤ t.jobs := Nat.min_le_left _ _
    omega
  have hdrained := (hsteps.tail (.acquireMany hphase hpermits)).tail (.releaseMany rfl)
  obtain ⟨u, hlast, hreturned, htime'⟩ := exists_return_of_joining (h.trans hdrained) rfl
  exact ⟨u, hdrained.trans hlast, hreturned, htime'.trans htime⟩

theorem exists_return_of_dropping (h : Reachable jobs s) (phase : s.phase = .dropping) :
    ∃ t, ReflTransGen Step s t ∧ t.phase = .returned ∧ t.timedOut = s.timedOut := by
  have hdropped := Step.dropSender phase
  obtain ⟨t, hsteps, hreturned, htime⟩ := exists_return_of_draining (h.tail hdropped) rfl
  exact ⟨t, .head hdropped hsteps, hreturned, htime⟩

/-- The shutdown never blocks: from every state out of the loop the task can return, and
without running into the timeout. -/
theorem shutdown_completes (h : Reachable jobs s) (left : s.phase.looping = false) :
    ∃ t, ReflTransGen Step s t ∧ t.phase = .returned ∧ t.timedOut = s.timedOut := by
  cases phase : s.phase with
  | receiving | acquiring _ | sending _ =>
      rw [phase] at left
      contradiction
  | settling =>
      obtain ⟨ending, hending⟩ := h.kept.ends.left left
      have hsettled := Step.settle phase hending
      obtain ⟨t, hsteps, hreturned, htime⟩ := exists_return_of_dropping (h.tail hsettled) rfl
      exact ⟨t, .head hsettled hsteps, hreturned, htime⟩
  | dropping => exact exists_return_of_dropping h phase
  | draining => exact exists_return_of_draining h phase
  | drained =>
      have hreleased := Step.releaseMany phase
      obtain ⟨t, hsteps, hreturned, htime⟩ := exists_return_of_joining (h.tail hreleased) rfl
      exact ⟨t, .head hreleased hsteps, hreturned, htime⟩
  | joining => exact exists_return_of_joining h phase
  | returned => exact ⟨s, .refl, phase, rfl⟩

end Shutdown

end Shipstern.Runtime.Buffer
