import Shipstern.Lib.Window
import Shipstern.Preconf.Framer

/-!
# Resubscribing a feed stream

`reconnect.rs`: one feed stream and the streams that follow it after retryable failures. A
stream is what it yields before it ends, and whether it was up for 60 s when it dropped. The
answers of the server to the subscribe calls are a script, so that `calls` counts the calls.

`stream::unfold` calls `next` until it is done, and `next` loops until it has an item. The stream
of items is therefore the run of the turns of that loop, and `resubscribing` is this run with the
items and the events of its turns. The wait before a subscribe passes time and nothing else.
-/

namespace Shipstern.Preconf

/-- `tonic::Code`. -/
inductive Code
  | ok
  | cancelled
  | unknown
  | invalidArgument
  | deadlineExceeded
  | notFound
  | alreadyExists
  | permissionDenied
  | resourceExhausted
  | failedPrecondition
  | aborted
  | outOfRange
  | unimplemented
  | internal
  | unavailable
  | dataLoss
  | unauthenticated
deriving DecidableEq

structure Status where
  code : Code
  message : String
deriving DecidableEq

/-- A transaction or a slot start proves the stream delivers. -/
def FeedUpdate.isProgress : FeedUpdate → Bool
  | .harmonic _ (some (.transaction _)) => true
  | .harmonic _ (some (.slotStart _)) => true
  | .bam _ (some (.transaction _)) => true
  | _ => false

/-- The codes that clear with time. -/
def retryable : Code → Bool
  | .unavailable => true
  | .dataLoss => true
  | .resourceExhausted => true
  | .internal => true
  | .unknown => true
  | .aborted => true
  | .cancelled => true
  | .deadlineExceeded => true
  | _ => false

/-- When and how often a stream is resubscribed. -/
structure Policy where
  enabled : Bool
  maxRetries : Option UInt32

/-- Whether failure number `attempt` gets another subscribe. -/
def Policy.retries (policy : Policy) (attempt : UInt32) (code : Option Code) : Bool :=
  policy.enabled && code.all retryable && policy.maxRetries.all (attempt ≤ ·)

def u32Max : Nat := UInt32.size - 1

/-- `u32::saturating_add(1)`. -/
def saturatingSucc (attempt : UInt32) : UInt32 :=
  if attempt.toNat = u32Max then attempt else attempt + 1

/-- What a stream yields until it ends, and whether it was stable when it dropped. -/
structure Upstream where
  items : List (Except Status FeedUpdate)
  stable : Bool

/-- What a subscribe call meets: an answer, or none within the subscribe timeout. -/
inductive Subscribe
  | answered (result : Except Status Upstream)
  | silent

def bounded : Subscribe → Except Status Upstream
  | .answered result => result
  | .silent => .error ⟨.deadlineExceeded, "subscribe did not answer"⟩

/-- What one stream yields: an update, a new subscribe that succeeded, or the end. -/
inductive Item
  | update (update : Except Status FeedUpdate)
  | reconnected
  | ended

structure Resubscriber where
  stream : Option Upstream
  attempt : UInt32
  done : Bool
  /-- The calls of `open_stream` so far. -/
  calls : Nat

namespace Resubscriber

def start (first : Upstream) : Resubscriber where
  stream := some first
  attempt := 0
  done := false
  calls := 0

/-- Subscribe once. -/
def resubscribe (script : Nat → Subscribe) (s : Resubscriber) :
    Except Status Unit × Resubscriber :=
  match bounded (script s.calls) with
  | .error status => (.error status, { s with calls := s.calls + 1 })
  | .ok stream => (.ok (), { s with stream := some stream, calls := s.calls + 1 })

/-- Schedule the next subscribe, or return the final item when the policy refuses one. -/
def failed (policy : Policy) (s : Resubscriber) (status : Option Status) :
    Option Item × Resubscriber :=
  let s := if s.stream.any (·.stable) then { s with attempt := 0 } else s
  let attempt := saturatingSucc s.attempt
  if policy.retries attempt (status.map (·.code)) then
    (none, { s with attempt := attempt, stream := none })
  else
    (some (status.elim .ended fun status => .update (.error status)), { s with done := true })

/-- One turn of the loop in `next`. -/
def turn (policy : Policy) (script : Nat → Subscribe) (s : Resubscriber) :
    Option Item × Resubscriber :=
  match s.stream with
  | none =>
      match resubscribe script s with
      | (.ok _, s) => (some .reconnected, s)
      | (.error status, s) => failed policy s (some status)
  | some stream =>
      match stream.items with
      | [] => failed policy s none
      | .error status :: rest =>
          failed policy { s with stream := some { stream with items := rest } } (some status)
      | .ok update :: rest =>
          let s := { s with stream := some { stream with items := rest } }
          (some (.update (.ok update)), if update.isProgress then { s with attempt := 0 } else s)

end Resubscriber

/-- What happens in one turn. -/
inductive Event
  | opened
  | refused (status : Status)
  | delivered (update : FeedUpdate)
  | dropped (status : Option Status) (stable : Bool)

namespace Event

/-- `open_stream` is called. -/
def isCall : Event → Bool
  | .opened => true
  | .refused _ => true
  | _ => false

/-- The attempts start over: at a transaction or a slot start, and at the drop of a stable
stream. -/
def isReset : Event → Bool
  | .delivered update => update.isProgress
  | .dropped _ stable => stable
  | _ => false

end Event

/-- What happens in the next turn. -/
def Resubscriber.event (script : Nat → Subscribe) (s : Resubscriber) : Event :=
  match s.stream with
  | none =>
      match bounded (script s.calls) with
      | .ok _ => .opened
      | .error status => .refused status
  | some stream =>
      match stream.items with
      | [] => .dropped none stream.stable
      | .error status :: _ => .dropped (some status) stream.stable
      | .ok update :: _ => .delivered update

/-- A run of turns: the items that the stream yielded, and the events. -/
structure Run where
  state : Resubscriber
  items : List Item
  events : List Event

/-- The next turn, unless the stream is done. -/
def Run.advance (policy : Policy) (script : Nat → Subscribe) (run : Run) : Run :=
  if run.state.done then run
  else
    { state := (run.state.turn policy script).2
      items := run.items ++ (run.state.turn policy script).1.toList
      events := run.events ++ [run.state.event script] }

/-- The stream after `k` turns. -/
def resubscribing (policy : Policy) (script : Nat → Subscribe) (first : Upstream) : Nat → Run
  | 0 => ⟨.start first, [], []⟩
  | k + 1 => (resubscribing policy script first k).advance policy script

/-! ## What the items are to be -/

/-- The updates before the first failure. -/
def okUpdates : List (Except Status FeedUpdate) → List FeedUpdate
  | .ok update :: rest => update :: okUpdates rest
  | _ => []

/-- The first failure, or the clean end. -/
def failure : List (Except Status FeedUpdate) → Option Status
  | [] => none
  | .error status :: _ => some status
  | .ok _ :: rest => failure rest

/-- The items for the updates of a stream. -/
def updates (items : List (Except Status FeedUpdate)) : List Item :=
  (okUpdates items).map fun update => .update (.ok update)

/-- The streams that the first `calls` calls opened. -/
def opened (script : Nat → Subscribe) (calls : Nat) : List Upstream :=
  (List.range calls).filterMap fun call => (bounded (script call)).toOption

/-- The first stream, and every opened one behind its reconnect. -/
def delivery (first : Upstream) (streams : List Upstream) : List Item :=
  updates first.items ++ streams.flatMap fun stream => .reconnected :: updates stream.items

/-- The failure that the last call led to: its own, or that of the stream it opened. -/
def lastFailure (script : Nat → Subscribe) (first : Upstream) : Nat → Option Status
  | 0 => failure first.items
  | call + 1 =>
      match bounded (script call) with
      | .ok stream => failure stream.items
      | .error status => some status

/-- The item for a failure that is not retried. -/
def finalItem (status : Option Status) : Item :=
  status.elim .ended fun status => .update (.error status)

/-- The items that the current stream still has. -/
def Resubscriber.pending (s : Resubscriber) : List Item :=
  s.stream.elim [] fun stream => updates stream.items

/-! ## What a turn does -/

namespace Resubscriber

variable {policy : Policy} {script : Nat → Subscribe}

/-- A turn that meets a failure: of a call, or of the current stream. -/
inductive Fails (script : Nat → Subscribe) (s : Resubscriber) :
    Event → Option Status → Nat → Prop
  | call {status : Status} (hnone : s.stream = none)
      (hcall : bounded (script s.calls) = .error status) :
      Fails script s (.refused status) (some status) (s.calls + 1)
  | drop {stream : Upstream} (hstream : s.stream = some stream)
      (hempty : okUpdates stream.items = []) :
      Fails script s (.dropped (failure stream.items) stream.stable) (failure stream.items) s.calls

/-- The number of the failure that the turn meets. -/
def attemptAt (s : Resubscriber) (event : Event) : UInt32 :=
  saturatingSucc (if event.isReset then 0 else s.attempt)

/-- What a turn can do. -/
inductive Turn (policy : Policy) (script : Nat → Subscribe) (s : Resubscriber) :
    Event → Option Item → Resubscriber → Prop
  | opened {stream : Upstream} (hnone : s.stream = none)
      (hcall : bounded (script s.calls) = .ok stream) :
      Turn policy script s .opened (some .reconnected)
        { s with stream := some stream, calls := s.calls + 1 }
  | delivered {stream : Upstream} {update : FeedUpdate} {rest : List (Except Status FeedUpdate)}
      (hstream : s.stream = some stream) (hitems : stream.items = .ok update :: rest) :
      Turn policy script s (.delivered update) (some (.update (.ok update)))
        { s with
          stream := some { stream with items := rest }
          attempt := if update.isProgress then 0 else s.attempt }
  | retried {event : Event} {status : Option Status} {calls : Nat}
      (hfails : Fails script s event status calls)
      (hretries : policy.retries (s.attemptAt event) (status.map (·.code)) = true) :
      Turn policy script s event none
        { s with stream := none, attempt := s.attemptAt event, calls := calls }
  | gaveUp {event : Event} {status : Option Status} {calls : Nat} {s' : Resubscriber}
      (hfails : Fails script s event status calls)
      (hrefused : policy.retries (s.attemptAt event) (status.map (·.code)) = false)
      (hdone : s'.done = true) (hcalls : s'.calls = calls) :
      Turn policy script s event (some (finalItem status)) s'

theorem failed_retries {s : Resubscriber} {status : Option Status} {attempt : UInt32}
    (hattempt : attempt = saturatingSucc (if s.stream.any (·.stable) then 0 else s.attempt))
    (h : policy.retries attempt (status.map (·.code)) = true) :
    failed policy s status = (none, { s with stream := none, attempt := attempt }) := by
  subst hattempt
  unfold failed
  dsimp only
  by_cases hstable : s.stream.any (·.stable) = true
  · rw [if_pos hstable] at h ⊢
    rw [if_pos h, if_pos hstable]
  · rw [if_neg hstable] at h ⊢
    rw [if_pos h, if_neg hstable]

theorem failed_refused {s : Resubscriber} {status : Option Status} {attempt : UInt32}
    (hattempt : attempt = saturatingSucc (if s.stream.any (·.stable) then 0 else s.attempt))
    (h : policy.retries attempt (status.map (·.code)) = false) :
    ∃ s' : Resubscriber, failed policy s status = (some (finalItem status), s') ∧
      s'.done = true ∧ s'.calls = s.calls := by
  subst hattempt
  unfold failed
  dsimp only
  by_cases hstable : s.stream.any (·.stable) = true
  · rw [if_pos hstable] at h ⊢
    rw [if_neg (by simp [h])]
    exact ⟨_, rfl, rfl, rfl⟩
  · rw [if_neg hstable] at h ⊢
    rw [if_neg (by simp [h])]
    exact ⟨_, rfl, rfl, rfl⟩

/-- A turn that hands its failure to `failed` retries or gives up. -/
theorem turn_of_failed {s before : Resubscriber} {event : Event} {status : Option Status}
    (hfails : Fails script s event status before.calls)
    (hattempt : s.attemptAt event =
      saturatingSucc (if before.stream.any (·.stable) then 0 else before.attempt))
    (hsame : ∀ attempt, { before with stream := none, attempt := attempt } =
      { s with stream := none, attempt := attempt, calls := before.calls }) :
    Turn policy script s event (failed policy before status).1 (failed policy before status).2 := by
  cases hretries : policy.retries (s.attemptAt event) (status.map (·.code)) with
  | true =>
      rw [failed_retries hattempt hretries, hsame]
      exact .retried hfails hretries
  | false =>
      obtain ⟨s', hfailed, hdone, hcalls⟩ := failed_refused hattempt hretries
      rw [hfailed]
      exact .gaveUp hfails hretries hdone hcalls

theorem turn_spec (policy : Policy) (script : Nat → Subscribe) (s : Resubscriber) :
    Turn policy script s (s.event script) (s.turn policy script).1 (s.turn policy script).2 := by
  cases hstream : s.stream with
  | none =>
      cases hcall : bounded (script s.calls) with
      | ok stream =>
          have hevent : s.event script = .opened := by simp [event, hstream, hcall]
          have hturn : s.turn policy script =
              (some .reconnected, { s with stream := some stream, calls := s.calls + 1 }) := by
            simp [turn, resubscribe, hstream, hcall]
          rw [hevent, hturn]
          exact .opened hstream hcall
      | error status =>
          have hevent : s.event script = .refused status := by simp [event, hstream, hcall]
          have hturn : s.turn policy script =
              failed policy { s with calls := s.calls + 1 } (some status) := by
            simp [turn, resubscribe, hstream, hcall]
          rw [hevent, hturn]
          refine turn_of_failed (.call hstream hcall) ?_ fun _ => rfl
          simp [attemptAt, Event.isReset, hstream]
  | some stream =>
      cases hitems : stream.items with
      | nil =>
          have hevent : s.event script = .dropped (failure stream.items) stream.stable := by
            simp [event, hstream, hitems, failure]
          have hturn : s.turn policy script = failed policy s (failure stream.items) := by
            simp [turn, hstream, hitems, failure]
          rw [hevent, hturn]
          refine turn_of_failed (.drop hstream (by simp [hitems, okUpdates])) ?_ fun _ => rfl
          rw [attemptAt, Event.isReset, hstream]
          rfl
      | cons head rest =>
          cases head with
          | error status =>
              have hevent : s.event script = .dropped (failure stream.items) stream.stable := by
                simp [event, hstream, hitems, failure]
              have hturn : s.turn policy script =
                  failed policy { s with stream := some { stream with items := rest } }
                    (failure stream.items) := by
                simp [turn, hstream, hitems, failure]
              rw [hevent, hturn]
              exact turn_of_failed (.drop hstream (by simp [hitems, okUpdates])) rfl fun _ => rfl
          | ok update =>
              have hevent : s.event script = .delivered update := by
                simp [event, hstream, hitems]
              have hturn : s.turn policy script = (some (.update (.ok update)),
                  { s with
                    stream := some { stream with items := rest }
                    attempt := if update.isProgress then 0 else s.attempt }) := by
                simp only [turn, hstream, hitems]
                split <;> rfl
              rw [hevent, hturn]
              exact .delivered hstream hitems

end Resubscriber

/-! ## The items of a run -/

section Items

variable {policy : Policy} {script : Nat → Subscribe} {first : Upstream}

theorem opened_succ (script : Nat → Subscribe) (calls : Nat) :
    opened script (calls + 1) =
      opened script calls ++ (bounded (script calls)).toOption.toList := by
  rw [opened, List.range_succ, List.filterMap_append, opened]
  cases hcall : bounded (script calls) with
  | ok stream => simp [hcall, Except.toOption]
  | error status => simp [hcall, Except.toOption]

theorem delivery_append (first : Upstream) (streams : List Upstream) (stream : Upstream) :
    delivery first (streams ++ [stream]) =
      delivery first streams ++ .reconnected :: updates stream.items := by
  simp [delivery]

theorem updates_of_okUpdates_nil {items : List (Except Status FeedUpdate)}
    (h : okUpdates items = []) : updates items = [] := by
  rw [updates, h, List.map_nil]

/-- With what its stream still has, a run has yielded all items up to its last call; a run that
is done has added the last failure. -/
structure Delivering (script : Nat → Subscribe) (first : Upstream) (run : Run) : Prop where
  items : run.state.done = false →
    run.items ++ run.state.pending = delivery first (opened script run.state.calls)
  failing : run.state.done = false → ∀ stream ∈ run.state.stream,
    failure stream.items = lastFailure script first run.state.calls
  final : run.state.done = true →
    run.items = delivery first (opened script run.state.calls) ++
      [finalItem (lastFailure script first run.state.calls)]

theorem Delivering.start (script : Nat → Subscribe) (first : Upstream) :
    Delivering script first ⟨.start first, [], []⟩ := by
  constructor
  · intro _
    simp [Resubscriber.start, Resubscriber.pending, delivery, opened]
  · intro _ stream hstream
    cases hstream
    rfl
  · intro hdone
    contradiction

/-- A failure ends the items of the last call, and it is the last failure. -/
theorem Delivering.fails {run : Run} (h : Delivering script first run)
    (hlive : run.state.done = false) {event : Event} {status : Option Status} {calls : Nat}
    (hfails : run.state.Fails script event status calls) :
    run.items = delivery first (opened script calls) ∧ status = lastFailure script first calls := by
  have hitems := h.items hlive
  cases hfails with
  | call hnone hcall =>
      rw [Resubscriber.pending, hnone, Option.elim_none, List.append_nil] at hitems
      rw [opened_succ, hcall, lastFailure, hcall]
      exact ⟨hitems.trans (congrArg _ (List.append_nil _).symm), rfl⟩
  | drop hstream hempty =>
      rw [Resubscriber.pending, hstream, Option.elim_some, updates_of_okUpdates_nil hempty,
        List.append_nil] at hitems
      exact ⟨hitems, h.failing hlive _ hstream⟩

theorem Delivering.advance {run : Run} (h : Delivering script first run) :
    Delivering script first (run.advance policy script) := by
  rw [Run.advance]
  split
  · exact h
  · next hlive =>
      have hlive : run.state.done = false := by simpa using hlive
      have hitems := h.items hlive
      generalize hitem : (run.state.turn policy script).1 = item
      generalize hstate : (run.state.turn policy script).2 = state
      generalize hevent : run.state.event script = event
      have hturn := Resubscriber.turn_spec policy script run.state
      rw [hitem, hstate, hevent] at hturn
      cases hturn with
      | @opened stream hnone hcall =>
          rw [Resubscriber.pending, hnone, Option.elim_none, List.append_nil] at hitems
          refine ⟨fun _ => ?_, fun _ other hother => ?_, fun hdone => ?_⟩
          · rw [opened_succ, hcall]
            change (run.items ++ [Item.reconnected]) ++ updates stream.items =
              delivery first (opened script run.state.calls ++ [stream])
            rw [hitems, delivery_append, List.append_assoc]
            rfl
          · cases hother
            rw [lastFailure, hcall]
          · exact absurd (hlive.symm.trans hdone) (by decide)
      | @delivered stream update rest hstream hupdates =>
          rw [Resubscriber.pending, hstream, Option.elim_some, hupdates] at hitems
          refine ⟨fun _ => ?_, fun _ other hother => ?_, fun hdone => ?_⟩
          · rw [← hitems, List.append_assoc]
            rfl
          · cases hother
            have hfailing := h.failing hlive stream hstream
            rw [hupdates] at hfailing
            exact hfailing
          · exact absurd (hlive.symm.trans hdone) (by decide)
      | @retried _ status calls hfails _ =>
          obtain ⟨hdelivered, -⟩ := h.fails hlive hfails
          refine ⟨fun _ => ?_, fun _ other hother => ?_, fun hdone => ?_⟩
          · change (run.items ++ []) ++ [] = delivery first (opened script calls)
            rw [List.append_nil, List.append_nil, hdelivered]
          · contradiction
          · exact absurd (hlive.symm.trans hdone) (by decide)
      | @gaveUp _ status calls _ hfails _ hdone hcalls =>
          obtain ⟨hdelivered, hstatus⟩ := h.fails hlive hfails
          refine ⟨fun hlive' => ?_, fun hlive' => ?_, fun _ => ?_⟩
          · exact absurd (hlive'.symm.trans hdone) (by decide)
          · exact absurd (hlive'.symm.trans hdone) (by decide)
          · rw [hcalls, ← hstatus, hdelivered]
            rfl

theorem delivering (policy : Policy) (script : Nat → Subscribe) (first : Upstream) (k : Nat) :
    Delivering script first (resubscribing policy script first k) := by
  induction k with
  | zero => exact .start script first
  | succ k ih => exact ih.advance

theorem resubscribing_done {k : Nat}
    (hdone : (resubscribing policy script first k).state.done = true) (j : Nat) :
    resubscribing policy script first (k + j) = resubscribing policy script first k := by
  induction j with
  | zero => rfl
  | succ j ih =>
      rw [← Nat.add_assoc, resubscribing, ih, Run.advance, if_pos hdone]

/-! ## Progress -/

/-- While the stream still has updates, a turn hands on the first of them. -/
theorem Resubscriber.Turn.delivers {s s' : Resubscriber} {event : Event} {item : Option Item}
    (h : s.Turn policy script event item s') {head : Item} {items : List Item}
    (hpending : s.pending = head :: items) :
    s'.pending = items ∧ s'.calls = s.calls ∧ s'.done = s.done := by
  have hfails : ∀ {status : Option Status} {calls : Nat}, ¬ s.Fails script event status calls := by
    intro status calls hfails
    cases hfails with
    | call hnone =>
        rw [Resubscriber.pending, hnone] at hpending
        contradiction
    | drop hstream hempty =>
        rw [Resubscriber.pending, hstream, Option.elim_some, updates_of_okUpdates_nil hempty]
          at hpending
        contradiction
  cases h with
  | opened hnone =>
      rw [Resubscriber.pending, hnone] at hpending
      contradiction
  | delivered hstream hitems =>
      rw [Resubscriber.pending, hstream, Option.elim_some, hitems] at hpending
      exact ⟨(List.cons.inj hpending).2, rfl, rfl⟩
  | retried h => exact absurd h hfails
  | gaveUp h => exact absurd h hfails

/-- Once the updates of the stream are handed on, a turn calls, or ends the run, or drops the
stream. -/
theorem Resubscriber.Turn.moves_on {s s' : Resubscriber} {event : Event} {item : Option Item}
    (h : s.Turn policy script event item s') (hlive : s.done = false) (hpending : s.pending = []) :
    s'.done = true ∨ s'.done = false ∧
      (s'.calls = s.calls + 1 ∨ s'.calls = s.calls ∧ s.stream.isSome = true ∧ s'.stream = none) := by
  cases h with
  | opened => exact .inr ⟨hlive, .inl rfl⟩
  | delivered hstream hitems =>
      rw [Resubscriber.pending, hstream, Option.elim_some, hitems] at hpending
      contradiction
  | retried hfails =>
      refine .inr ⟨hlive, ?_⟩
      cases hfails with
      | call => exact .inl rfl
      | drop hstream => exact .inr ⟨rfl, by rw [hstream]; rfl, rfl⟩
  | gaveUp _ _ hdone => exact .inl hdone

theorem resubscribing_turn {k : Nat}
    (hlive : (resubscribing policy script first k).state.done = false) :
    ∃ event item, (resubscribing policy script first k).state.Turn policy script event item
      (resubscribing policy script first (k + 1)).state := by
  have hlive' : ¬ (resubscribing policy script first k).state.done = true := by simp [hlive]
  rw [resubscribing, Run.advance, if_neg hlive']
  exact ⟨_, _, Resubscriber.turn_spec policy script _⟩

/-- A run that goes on hands on all updates of its stream. -/
theorem exists_drained (policy : Policy) (script : Nat → Subscribe) (first : Upstream) (k : Nat)
    (hlive : (resubscribing policy script first k).state.done = false) :
    ∃ j, (resubscribing policy script first j).state.done = false ∧
      (resubscribing policy script first j).state.calls =
        (resubscribing policy script first k).state.calls ∧
      (resubscribing policy script first j).state.pending = [] := by
  generalize hpending : (resubscribing policy script first k).state.pending = items
  induction items generalizing k with
  | nil => exact ⟨k, hlive, rfl, hpending⟩
  | cons head items ih =>
      obtain ⟨event, item, hturn⟩ := resubscribing_turn hlive
      obtain ⟨hrest, hcalls, hdone⟩ := hturn.delivers hpending
      obtain ⟨j, hlive', hcalls', hnone⟩ := ih (k + 1) (hdone.trans hlive) hrest
      exact ⟨j, hlive', hcalls'.trans hcalls, hnone⟩

/-- A run that has handed on all updates of its stream calls again or ends. -/
theorem exists_next_call (k : Nat)
    (hlive : (resubscribing policy script first k).state.done = false)
    (hpending : (resubscribing policy script first k).state.pending = []) :
    ∃ j, (resubscribing policy script first j).state.done = true ∨
      (resubscribing policy script first j).state.done = false ∧
        (resubscribing policy script first j).state.calls =
          (resubscribing policy script first k).state.calls + 1 := by
  obtain ⟨event, item, hturn⟩ := resubscribing_turn hlive
  obtain hdone | ⟨hlive', hcalls | ⟨hcalls, -, hnone⟩⟩ := hturn.moves_on hlive hpending
  · exact ⟨k + 1, .inl hdone⟩
  · exact ⟨k + 1, .inr ⟨hlive', hcalls⟩⟩
  · -- The stream was dropped, so the turn after it is a call.
    have hpending' : (resubscribing policy script first (k + 1)).state.pending = [] := by
      rw [Resubscriber.pending, hnone]
      rfl
    obtain ⟨event', item', hturn'⟩ := resubscribing_turn hlive'
    obtain hdone | ⟨hlive'', hcalls' | ⟨-, hsome, -⟩⟩ := hturn'.moves_on hlive' hpending'
    · exact ⟨k + 2, .inl hdone⟩
    · exact ⟨k + 2, .inr ⟨hlive'', hcalls'.trans (congrArg (· + 1) hcalls)⟩⟩
    · rw [hnone] at hsome
      contradiction

/-- A run ends, or makes any number of calls and hands on everything up to the last of them. -/
theorem exists_delivered (policy : Policy) (script : Nat → Subscribe) (first : Upstream)
    (calls : Nat) :
    ∃ k, (resubscribing policy script first k).state.done = true ∨
      (resubscribing policy script first k).state.done = false ∧
        (resubscribing policy script first k).state.calls = calls ∧
        (resubscribing policy script first k).state.pending = [] := by
  induction calls with
  | zero =>
      obtain ⟨k, hlive, hcalls, hpending⟩ :=
        exists_drained policy script first 0 rfl
      exact ⟨k, .inr ⟨hlive, hcalls, hpending⟩⟩
  | succ calls ih =>
      obtain ⟨k, hdone | ⟨hlive, rfl, hpending⟩⟩ := ih
      · exact ⟨k, .inl hdone⟩
      · obtain ⟨j, hdone | ⟨hlive', hcalls⟩⟩ := exists_next_call k hlive hpending
        · exact ⟨j, .inl hdone⟩
        · obtain ⟨i, hlive'', hcalls', hpending'⟩ := exists_drained policy script first j hlive'
          exact ⟨i, .inr ⟨hlive'', hcalls'.trans hcalls, hpending'⟩⟩

end Items

/-! ## The attempts of a run -/

section Attempts

variable {policy : Policy} {script : Nat → Subscribe} {first : Upstream}

theorem saturatingSucc_toNat (attempt : UInt32) :
    (saturatingSucc attempt).toNat = min (attempt.toNat + 1) u32Max := by
  have hlt : attempt.toNat < 2 ^ 32 := attempt.toNat_lt
  have hmax : u32Max = 2 ^ 32 - 1 := rfl
  rw [saturatingSucc]
  split
  · omega
  · have hone : (1 : UInt32).toNat = 1 := rfl
    rw [UInt32.toNat_add, hone, Nat.mod_eq_of_lt (by omega)]
    omega

/-- The subscribe calls since the last reset. -/
def attempts (events : List Event) : Nat := Window.count Event.isReset Event.isCall events

/-- The attempt counts the calls since the last reset; before a call it counts that call. -/
structure Counting (policy : Policy) (script : Nat → Subscribe) (first : Upstream) (run : Run) :
    Prop where
  calls : run.state.calls = run.events.countP Event.isCall
  attempt : run.state.done = false → run.state.attempt.toNat =
    min (attempts run.events + if run.state.stream.isNone then 1 else 0) u32Max
  allowed : run.state.done = false → run.state.stream = none →
    ∀ limit ∈ policy.maxRetries, run.state.attempt.toNat ≤ limit.toNat
  within : ∀ limit ∈ policy.maxRetries, limit.toNat < u32Max →
    Window.Within Event.isReset Event.isCall limit.toNat run.events
  gaveUp : run.state.done = true → policy.enabled = true → ∀ limit ∈ policy.maxRetries,
    (lastFailure script first run.state.calls).all (fun status => retryable status.code) = true →
      attempts run.events = limit.toNat

theorem Counting.start (policy : Policy) (script : Nat → Subscribe) (first : Upstream) :
    Counting policy script first ⟨.start first, [], []⟩ := by
  constructor
  · rfl
  · exact fun _ => rfl
  · exact fun _ hnone => by contradiction
  · exact fun _ _ _ => .nil
  · exact fun hdone => by contradiction

theorem attempts_reset {events : List Event} {event : Event} (h : event.isReset = true) :
    attempts (events ++ [event]) = 0 :=
  Window.count_concat_reset h

theorem attempts_call {events : List Event} {event : Event} (h : event.isCall = true)
    (hreset : event.isReset = false) : attempts (events ++ [event]) = attempts events + 1 := by
  rw [attempts, Window.count_concat hreset, if_pos h]
  rfl

theorem attempts_quiet {events : List Event} {event : Event} (h : event.isCall = false)
    (hreset : event.isReset = false) : attempts (events ++ [event]) = attempts events := by
  rw [attempts, Window.count_concat hreset, if_neg (by simp [h])]
  rfl

/-- The next failure is one attempt further than the calls since the last reset. -/
theorem Counting.attemptAt {run : Run} (h : Counting policy script first run)
    (hlive : run.state.done = false) {event : Event} {status : Option Status} {calls : Nat}
    (hfails : run.state.Fails script event status calls) :
    (run.state.attemptAt event).toNat = min (attempts (run.events ++ [event]) + 1) u32Max := by
  have hattempt := h.attempt hlive
  have hmax : 0 < u32Max := by decide
  rw [Resubscriber.attemptAt, saturatingSucc_toNat]
  cases hfails with
  | @call status hnone =>
      rw [hnone, Option.isNone_none, if_pos rfl] at hattempt
      have hreset : (Event.refused status).isReset = false := rfl
      rw [attempts_call rfl hreset, hreset, if_neg Bool.false_ne_true, hattempt]
      omega
  | @drop stream hstream hempty =>
      rw [hstream, Option.isNone_some, if_neg Bool.false_ne_true] at hattempt
      cases hstable : stream.stable with
      | true =>
          have hreset : (Event.dropped (failure stream.items) true).isReset = true := rfl
          rw [attempts_reset hreset, hreset, if_pos rfl]
          rfl
      | false =>
          have hreset : (Event.dropped (failure stream.items) false).isReset = false := rfl
          rw [attempts_quiet rfl hreset, hreset, if_neg Bool.false_ne_true, hattempt]
          omega

/-- A call is within the limit, because the failure before it was. -/
theorem Counting.call_within {run : Run} (h : Counting policy script first run)
    (hlive : run.state.done = false) (hnone : run.state.stream = none) {limit : UInt32}
    (hlimit : limit ∈ policy.maxRetries) (hmax : limit.toNat < u32Max) :
    attempts run.events + 1 ≤ limit.toNat := by
  have hattempt := h.attempt hlive
  have hallowed := h.allowed hlive hnone limit hlimit
  rw [hnone, Option.isNone_none, if_pos rfl] at hattempt
  omega

/-- Every turn keeps the calls since the last reset within the limit. -/
theorem Counting.event_within {run : Run} (h : Counting policy script first run)
    (hlive : run.state.done = false) {limit : UInt32} (hlimit : limit ∈ policy.maxRetries)
    (hmax : limit.toNat < u32Max) {event : Event}
    (hcall : event.isCall = true → run.state.stream = none) :
    attempts (run.events ++ [event]) ≤ limit.toNat := by
  have hbefore : attempts run.events ≤ limit.toNat :=
    h.within limit hlimit hmax run.events List.prefix_rfl
  cases hreset : event.isReset with
  | true =>
      rw [attempts_reset hreset]
      exact Nat.zero_le _
  | false =>
      cases hkind : event.isCall with
      | true =>
          rw [attempts_call hkind hreset]
          exact h.call_within hlive (hcall hkind) hlimit hmax
      | false =>
          rw [attempts_quiet hkind hreset]
          exact hbefore

theorem Resubscriber.Fails.calls_eq {s : Resubscriber} {event : Event} {status : Option Status}
    {calls : Nat} (h : s.Fails script event status calls) :
    calls = s.calls + [event].countP Event.isCall ∧
      (event.isCall = true → s.stream = none) := by
  cases h with
  | call hnone => exact ⟨rfl, fun _ => hnone⟩
  | drop => exact ⟨rfl, fun hcall => by contradiction⟩

theorem Counting.advance {run : Run} (h : Counting policy script first run)
    (hdelivering : Delivering script first run) :
    Counting policy script first (run.advance policy script) := by
  rw [Run.advance]
  split
  · exact h
  · next hlive =>
      have hlive : run.state.done = false := by simpa using hlive
      have hattempt := h.attempt hlive
      have hwithin : ∀ {event : Event}, (event.isCall = true → run.state.stream = none) →
          ∀ limit ∈ policy.maxRetries, limit.toNat < u32Max →
            Window.Within Event.isReset Event.isCall limit.toNat (run.events ++ [event]) :=
        fun hcall limit hlimit hmax =>
          (h.within limit hlimit hmax).concat (h.event_within hlive hlimit hmax hcall)
      generalize (run.state.turn policy script).1.toList = items
      generalize hitem : (run.state.turn policy script).1 = item
      generalize hstate : (run.state.turn policy script).2 = state
      generalize hevent : run.state.event script = event
      have hturn := Resubscriber.turn_spec policy script run.state
      rw [hitem, hstate, hevent] at hturn
      cases hturn with
      | opened hnone hcall =>
          rw [hnone, Option.isNone_none, if_pos rfl] at hattempt
          refine ⟨?_, fun _ => ?_, fun _ hnone' => ?_, hwithin fun _ => hnone, fun hdone => ?_⟩
          · rw [List.countP_append, ← h.calls]
            rfl
          · rw [attempts_call rfl rfl]
            exact hattempt
          · contradiction
          · exact absurd (hlive.symm.trans hdone) (by decide)
      | @delivered stream update rest hstream hupdates =>
          rw [hstream, Option.isNone_some, if_neg Bool.false_ne_true] at hattempt
          refine ⟨?_, fun _ => ?_, fun _ hnone => ?_, hwithin fun hcall => ?_, fun hdone => ?_⟩
          · rw [List.countP_append, ← h.calls]
            rfl
          · cases hprogress : update.isProgress with
            | true =>
                have hreset : (Event.delivered update).isReset = true := hprogress
                rw [attempts_reset hreset]
                rfl
            | false =>
                have hreset : (Event.delivered update).isReset = false := hprogress
                rw [attempts_quiet rfl hreset]
                exact hattempt
          · contradiction
          · contradiction
          · exact absurd (hlive.symm.trans hdone) (by decide)
      | @retried _ status calls hfails hretries =>
          obtain ⟨hcalls, hcall⟩ := hfails.calls_eq
          refine ⟨?_, fun _ => h.attemptAt hlive hfails, fun _ _ limit hlimit => ?_, hwithin hcall,
            fun hdone => ?_⟩
          · rw [List.countP_append, ← h.calls]
            exact hcalls
          · rw [Policy.retries, Option.mem_def.mp hlimit] at hretries
            simp only [Bool.and_eq_true, Option.all_some, decide_eq_true_eq] at hretries
            exact UInt32.le_iff_toNat_le.mp hretries.2
          · exact absurd (hlive.symm.trans hdone) (by decide)
      | @gaveUp _ status calls _ hfails hrefused hdone hcalls =>
          obtain ⟨hcount, hcall⟩ := hfails.calls_eq
          refine ⟨?_, fun hlive' => ?_, fun hlive' => ?_, hwithin hcall, ?_⟩
          · rw [List.countP_append, ← h.calls, hcalls]
            exact hcount
          · exact absurd (hlive'.symm.trans hdone) (by decide)
          · exact absurd (hlive'.symm.trans hdone) (by decide)
          · intro _ henabled limit hlimit hretryable
            rw [hcalls, ← (hdelivering.fails hlive hfails).2] at hretryable
            have hcode : (status.map (·.code)).all retryable = true := by
              rw [Option.all_map]
              exact hretryable
            rw [Policy.retries, henabled, hcode, Option.mem_def.mp hlimit] at hrefused
            have hover : ¬ run.state.attemptAt event ≤ limit := by simpa using hrefused
            rw [UInt32.le_iff_toNat_le, h.attemptAt hlive hfails] at hover
            have hmax : limit.toNat < u32Max := by omega
            have hbound := h.event_within hlive hlimit hmax hcall
            change attempts (run.events ++ [event]) = limit.toNat
            omega

theorem counting (policy : Policy) (script : Nat → Subscribe) (first : Upstream) (k : Nat) :
    Counting policy script first (resubscribing policy script first k) := by
  induction k with
  | zero => exact .start policy script first
  | succ k ih => exact ih.advance (delivering policy script first k)

end Attempts

/-- For every policy, script and number of turns: the items are the updates of the first stream,
then for each opened stream a reconnect and its updates, and after a refused failure that failure
and nothing else; and a run that does not end comes to make every call and hands on all items up
to it. With a cap on the retries, a stretch without a reset has at most that many subscribe calls,
and an enabled policy gives up on a retryable failure after exactly that many. -/
theorem resubscribing_delivers (policy : Policy) (script : Nat → Subscribe) (first : Upstream)
    (k : Nat) :
    ((resubscribing policy script first k).state.done = false →
      (resubscribing policy script first k).items ++
          (resubscribing policy script first k).state.pending =
        delivery first (opened script (resubscribing policy script first k).state.calls)) ∧
    ((resubscribing policy script first k).state.done = true →
      (resubscribing policy script first k).items =
          delivery first (opened script (resubscribing policy script first k).state.calls) ++
            [finalItem (lastFailure script first
              (resubscribing policy script first k).state.calls)] ∧
        ∀ j, resubscribing policy script first (k + j) = resubscribing policy script first k) ∧
    (∀ calls, ∃ turns, (resubscribing policy script first turns).state.done = true ∨
      (resubscribing policy script first turns).state.calls = calls ∧
        (resubscribing policy script first turns).items =
          delivery first (opened script calls)) ∧
    (resubscribing policy script first k).state.calls =
      (resubscribing policy script first k).events.countP Event.isCall ∧
    (∀ limit ∈ policy.maxRetries, limit.toNat < u32Max →
      ∀ stretch, stretch <:+: (resubscribing policy script first k).events →
        (∀ event ∈ stretch, event.isReset = false) →
          stretch.countP Event.isCall ≤ limit.toNat) ∧
    ((resubscribing policy script first k).state.done = true → policy.enabled = true →
      ∀ limit ∈ policy.maxRetries,
        (lastFailure script first (resubscribing policy script first k).state.calls).all
            (fun status => retryable status.code) = true →
          (Window.sinceReset Event.isReset
            (resubscribing policy script first k).events).countP Event.isCall = limit.toNat) := by
  have hdelivering := delivering policy script first k
  have hcounting := counting policy script first k
  refine ⟨hdelivering.items, fun hdone => ⟨hdelivering.final hdone, resubscribing_done hdone⟩,
    fun calls => ?_, hcounting.calls, ?_, hcounting.gaveUp⟩
  · obtain ⟨turns, hdone | ⟨hlive, rfl, hpending⟩⟩ :=
      exists_delivered policy script first calls
    · exact ⟨turns, .inl hdone⟩
    · have hitems := (delivering policy script first turns).items hlive
      rw [hpending, List.append_nil] at hitems
      exact ⟨turns, .inr ⟨rfl, hitems⟩⟩
  · intro limit hlimit hmax stretch hstretch hreset
    exact (hcounting.within limit hlimit hmax).stretch hstretch hreset

def down : Status := ⟨.unavailable, "down"⟩

/-- A stream that fails at once, and a server that stays down. -/
def downNow : Upstream := ⟨[.error down], false⟩

def stayDown : Nat → Subscribe := fun _ => .answered (.error down)

/-- The largest cap. -/
def largestCap : Policy := ⟨true, some (UInt32.ofNat u32Max)⟩

theorem largestCap_retries (attempt : UInt32) {code : Option Code}
    (h : code.all retryable = true) : largestCap.retries attempt code = true := by
  have hlt : attempt.toNat < 2 ^ 32 := attempt.toNat_lt
  have hcap : (UInt32.ofNat u32Max).toNat = 2 ^ 32 - 1 := rfl
  have hle : attempt ≤ UInt32.ofNat u32Max := by
    rw [UInt32.le_iff_toNat_le, hcap]
    omega
  simp [Policy.retries, largestCap, h, hle]

/-- The attempt saturates at the largest cap, so the calls never end. -/
theorem stayDown_events (k : Nat) :
    (resubscribing largestCap stayDown downNow (k + 1)).events =
        .dropped (some down) false :: List.replicate k (.refused down) ∧
      (resubscribing largestCap stayDown downNow (k + 1)).state.stream = none ∧
      (resubscribing largestCap stayDown downNow (k + 1)).state.done = false := by
  induction k with
  | zero => exact ⟨rfl, rfl, rfl⟩
  | succ k ih =>
      obtain ⟨hevents, hnone, hlive⟩ := ih
      rw [resubscribing, Run.advance, if_neg (by simp [hlive])]
      generalize resubscribing largestCap stayDown downNow (k + 1) = run at hevents hnone hlive
      have hturn := Resubscriber.turn_spec largestCap stayDown run.state
      generalize run.state.turn largestCap stayDown = result at hturn
      obtain ⟨item, state⟩ := result
      have hevent : run.state.event stayDown = .refused down := by
        simp [Resubscriber.event, hnone, stayDown, bounded]
      rw [hevent] at hturn ⊢
      cases hturn with
      | retried hfails =>
          refine ⟨?_, rfl, hlive⟩
          change run.events ++ [.refused down] = _
          rw [hevents, List.replicate_succ', List.cons_append]
      | gaveUp hfails hrefused =>
          cases hfails
          rw [largestCap_retries _ (by decide)] at hrefused
          contradiction

/-- A disabled policy gives up without a call although every failure is retryable; and with the
largest cap there are stretches without a reset that have more calls. -/
theorem retries_not_exact :
    ((resubscribing ⟨false, some 3⟩ stayDown downNow 1).state.done = true ∧
      (lastFailure stayDown downNow 0).all (fun status => retryable status.code) = true ∧
      (resubscribing ⟨false, some 3⟩ stayDown downNow 1).events.countP Event.isCall = 0) ∧
    ∃ k stretch, stretch <:+: (resubscribing largestCap stayDown downNow k).events ∧
      (∀ event ∈ stretch, event.isReset = false) ∧
      u32Max < stretch.countP Event.isCall := by
  refine ⟨⟨by decide, by decide, by decide⟩, u32Max + 2,
    List.replicate (u32Max + 1) (.refused down), ?_, ?_, ?_⟩
  · rw [(stayDown_events (u32Max + 1)).1]
    exact (List.suffix_cons _ _).isInfix
  · intro event hevent
    rw [List.eq_of_mem_replicate hevent]
    rfl
  · have hcall : (Event.refused down).isCall = true := rfl
    rw [List.countP_replicate, if_pos hcall]
    exact Nat.lt_succ_self _

/-- The second subscribe fails, the third one is answered too late and the fourth one opens a
stream that delivers and then is refused for good. -/
def flakyServer : Nat → Subscribe
  | 0 => .answered (.ok ⟨[.ok (.bam [] (some .ping))], true⟩)
  | 1 => .answered (.error down)
  | 2 => .silent
  | _ => .answered (.ok ⟨[.ok (.harmonic [] (some (.slotStart 7))),
      .error ⟨.permissionDenied, "off"⟩, .ok (.bam [] (some .ping))], false⟩)

theorem resubscribing_delivers_of_flakyServer :
    (resubscribing ⟨true, some 4⟩ flakyServer downNow 9).items =
      [.reconnected, .update (.ok (.bam [] (some .ping))), .reconnected,
        .update (.ok (.harmonic [] (some (.slotStart 7)))),
        .update (.error ⟨.permissionDenied, "off"⟩)] := by
  obtain ⟨-, hdone, -⟩ := resubscribing_delivers ⟨true, some 4⟩ flakyServer downNow 9
  exact (hdone rfl).1

end Shipstern.Preconf
