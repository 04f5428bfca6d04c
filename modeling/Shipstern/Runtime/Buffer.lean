import Mathlib

/-!
# The buffer between the stream and the handlers

`Buffer::run_yellowstone` as a step relation over its three actors. The producer task
takes updates from the stream, waits for a permit and puts the update with its permit in an
unbounded queue. The bridge thread takes the entries out and spawns a job for each, which
owns the permit until it ends. When the loop is left the producer sets the abort flag unless
the stream was closed, drops the sender, waits for all permits and joins the bridge.

A state has what the actors share and, in its last fields, what has happened so far. A
permit is not an object of its own: it is held by whoever holds the update it was
acquired for.
-/

namespace Shipstern.Runtime.Buffer

def u32Max : Nat := UInt32.size - 1

/-- A number of jobs that `drain_in_flight` can ask for in one call. -/
structure Jobs where
  count : Nat
  pos : 1 ≤ count
  le : count ≤ u32Max

/-- `Semaphore::MAX_PERMITS`. -/
def maxPermits : Nat := (UInt64.size - 1) >>> 3

/-- The configured number of jobs, or else the parallelism of the machine, clamped to what a
semaphore takes. -/
def clampJobs (jobs : Option Nat) (parallelism : Nat) : Nat :=
  max 1 (min (jobs.getD parallelism) maxPermits)

def Jobs.ofConfig (jobs : Option Nat) (parallelism : Nat) (le : clampJobs jobs parallelism ≤ u32Max) :
    Jobs where
  count := clampJobs jobs parallelism
  pos := Nat.le_max_left _ _
  le := le

/-- What `drain_in_flight` acquires. -/
def allPermits (jobs : Nat) : Nat := min jobs u32Max

/-- Why the loop of the producer was left. -/
inductive Ending (ε : Type)
  | closed
  | stopped
  | status (error : ε)
  | bridgeGone

/-- Only a closed stream lets the queue run out. -/
def Ending.drain {ε : Type} : Ending ε → Bool
  | .closed => true
  | _ => false

/-- Where the producer is. -/
inductive Phase (υ : Type)
  | receiving
  | acquiring (update : υ)
  | sending (update : υ)
  | settling
  | dropping
  | draining
  | drained
  | joining
  | returned

/-- An entry that the bridge took, and whether the abort flag was set at that moment. -/
structure Taken (υ : Type) where
  update : υ
  afterAbort : Bool

/-- Where the bridge is. -/
inductive Bridge (υ : Type)
  | idle
  | taken (entry : Taken υ)
  | spawning (entry : Taken υ)
  | discarding (entry : Taken υ)
  | exited

structure State (υ ε : Type) where
  jobs : Nat
  phase : Phase υ := .receiving
  ending : Option (Ending ε) := none
  senderAlive : Bool := true
  abort : Bool := false
  /-- The permits that nobody holds. -/
  free : Nat := jobs
  queue : List υ := []
  bridge : Bridge υ := .idle
  running : List υ := []
  /-- The `Ok` updates that the stream gave out. -/
  received : List υ := []
  spawned : List (Taken υ) := []
  discarded : List υ := []
  /-- The jobs that ended, and whether by a panic. -/
  finished : List (υ × Bool) := []
  timedOut : Bool := false

variable {υ ε : Type}

/-- Break out of the loop. -/
def State.leave (s : State υ ε) (ending : Ending ε) : State υ ε :=
  { s with phase := .settling, ending := some ending }

inductive Step : State υ ε → State υ ε → Prop
  -- The loop of the producer; the stop channel is selected in both waits.
  | receive {s : State υ ε} (update : υ) (phase : s.phase = .receiving) :
      Step s { s with phase := .acquiring update, received := s.received ++ [update] }
  | receiveErr {s : State υ ε} (error : ε) (phase : s.phase = .receiving) :
      Step s (s.leave (.status error))
  | receiveNone {s : State υ ε} (phase : s.phase = .receiving) : Step s (s.leave .closed)
  | stopReceiving {s : State υ ε} (phase : s.phase = .receiving) : Step s (s.leave .stopped)
  | acquire {s : State υ ε} {update : υ} (phase : s.phase = .acquiring update)
      (permit : 0 < s.free) :
      Step s { s with phase := .sending update, free := s.free - 1 }
  | stopAcquiring {s : State υ ε} {update : υ} (phase : s.phase = .acquiring update) :
      Step s (s.leave .stopped)
  | send {s : State υ ε} {update : υ} (phase : s.phase = .sending update)
      (alive : s.bridge ≠ .exited) :
      Step s { s with phase := .receiving, queue := s.queue ++ [update] }
  | sendErr {s : State υ ε} {update : υ} (phase : s.phase = .sending update)
      (gone : s.bridge = .exited) :
      Step s { s.leave .bridgeGone with free := s.free + 1 }
  -- The producer after the loop. The abort flag is stored before the sender is dropped.
  | settle {s : State υ ε} {ending : Ending ε} (phase : s.phase = .settling)
      (left : s.ending = some ending) :
      Step s { s with phase := .dropping, abort := s.abort || !ending.drain }
  | dropSender {s : State υ ε} (phase : s.phase = .dropping) :
      Step s { s with phase := .draining, senderAlive := false }
  | acquireMany {s : State υ ε} (phase : s.phase = .draining)
      (permits : allPermits s.jobs ≤ s.free) :
      Step s { s with phase := .drained, free := s.free - allPermits s.jobs }
  | releaseMany {s : State υ ε} (phase : s.phase = .drained) :
      Step s { s with phase := .joining, free := s.free + allPermits s.jobs }
  | timeout {s : State υ ε} (phase : s.phase = .draining) :
      Step s { s with phase := .joining, timedOut := true }
  | join {s : State υ ε} (phase : s.phase = .joining) (exited : s.bridge = .exited) :
      Step s { s with phase := .returned }
  -- The bridge.
  | take {s : State υ ε} {update : υ} {rest : List υ} (bridge : s.bridge = .idle)
      (queue : s.queue = update :: rest) :
      Step s { s with bridge := .taken ⟨update, s.abort⟩, queue := rest }
  | load {s : State υ ε} {entry : Taken υ} (bridge : s.bridge = .taken entry) :
      Step s { s with bridge := if s.abort then .discarding entry else .spawning entry }
  | discard {s : State υ ε} {entry : Taken υ} (bridge : s.bridge = .discarding entry) :
      Step s
        { s with
          bridge := .idle
          free := s.free + 1
          discarded := s.discarded ++ [entry.update] }
  | spawn {s : State υ ε} {entry : Taken υ} (bridge : s.bridge = .spawning entry) :
      Step s
        { s with
          bridge := .idle
          running := s.running ++ [entry.update]
          spawned := s.spawned ++ [entry] }
  | exit {s : State υ ε} (bridge : s.bridge = .idle) (empty : s.queue = [])
      (disconnected : s.senderAlive = false) :
      Step s { s with bridge := .exited }
  -- A job drops its permit when it returns and when it unwinds.
  | finish {s : State υ ε} (front back : List υ) (update : υ) (panicked : Bool)
      (running : s.running = front ++ update :: back) :
      Step s
        { s with
          running := front ++ back
          free := s.free + 1
          finished := s.finished ++ [(update, panicked)] }

/-- The states of the runs with the given number of jobs. -/
abbrev Reachable (jobs : Jobs) (s : State υ ε) : Prop :=
  Relation.ReflTransGen Step { jobs := jobs.count } s

/-- The update and the permit in the hand of the bridge. -/
def Bridge.hand : Bridge υ → List υ
  | .taken entry | .spawning entry | .discarding entry => [entry.update]
  | _ => []

/-- What was sent and is neither discarded nor running yet. -/
def State.queued (s : State υ ε) : List υ := s.bridge.hand ++ s.queue

/-- The permits in the hand of the producer. -/
def Phase.permits (jobs : Nat) : Phase υ → Nat
  | .sending _ => 1
  | .drained => allPermits jobs
  | _ => 0

end Shipstern.Runtime.Buffer
