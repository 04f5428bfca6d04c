import Mathlib
import Shipstern.Runtime.Builder

/-!
# Handles that edit the live filters, and the loop that sends them

`RuntimeHandle` and the select loop of the Yellowstone source as one step relation. The two
sides share a watch slot: the handles replace the set in it under a lock, the source reads
the newest set and sends it to the sink. Any number of handles may call at any time; a call
waits for the lock, so a waiting call has no state of its own. An edit is an arbitrary
function that runs under the lock and may panic.

The source takes a set and only later learns whether the sink accepted it, and the handles
go on while it waits. The last fields of a state are the history of the run.
-/

open Shipstern.Core

namespace Shipstern.Runtime

/-- Parser ids a set subscribes for. -/
def Filters.parserIds (filters : Filters) : List String := filters.parsersFilters.keys

namespace Handle

/-- Why a filter update never reached the source. -/
inductive FilterUpdateError
  | closed
  | unknownParser (id : String)
deriving DecidableEq

/-- Refuse a set naming a parser that has no registered pipeline. -/
def validate (initial filters : Filters) : Except FilterUpdateError Unit :=
  match filters.parserIds.find? fun id => (initial.get id).isNone with
  | none => .ok ()
  | some unknown => .error (.unknownParser unknown)

/-- The calls of a handle. -/
inductive Request
  | updateFilters (edit : Filters → Filters)
  | sendFilterUpdate (filters : Filters)
  | resetFilters

/-- Every call is an `update_filters` with this edit. -/
def Request.edit (initial : Filters) : Request → Filters → Filters
  | .updateFilters edit => edit
  | .sendFilterUpdate filters => fun _ => filters
  | .resetFilters => fun _ => initial

/-- What the holder of the lock has done. -/
inductive Stage
  | locked (request : Request)
  | edited (request : Request) (next : Filters)

/-- Where the source is. -/
inductive Source
  | waiting
  | connecting (first : Filters)
  | selecting
  | sending (filters : Filters)
  | exited

structure State where
  autoReconnect : Bool
  initial : Filters
  /-- The set in the watch slot. -/
  published : Filters
  /-- The slot has changed since the source last read it. -/
  unseen : Bool := false
  receiverAlive : Bool := true
  handlesAlive : Bool := true
  lock : Option Stage := none
  source : Source := .waiting
  pendingFilters : Option Filters := none
  /-- The calls that returned, in lock order. -/
  calls : List (Request × Except FilterUpdateError Unit) := []
  /-- The sets that were in the slot. -/
  history : List Filters
  /-- The first subscribe request and the sets the sink accepted. -/
  accepted : List Filters := []

/-- `FilterState::new`: the slot starts with the set the pipelines were built with. -/
def State.init (autoReconnect : Bool) (filters : Filters) : State where
  autoReconnect := autoReconnect
  initial := filters
  published := filters
  history := [filters]

/-- Release the lock and return to the caller. -/
def State.return (s : State) (request : Request) (result : Except FilterUpdateError Unit) :
    State :=
  { s with lock := none, calls := s.calls ++ [(request, result)] }

/-- The source drops its receiver when it is gone. -/
def State.exit (s : State) : State := { s with source := .exited, receiverAlive := false }

inductive Step : State → State → Prop
  -- `update_filters` on any handle.
  | acquire {s : State} (request : Request) (alive : s.handlesAlive = true)
      (unlocked : s.lock = none) : Step s { s with lock := some (.locked request) }
  | edit {s : State} {request : Request} (lock : s.lock = some (.locked request)) :
      Step s { s with lock := some (.edited request (request.edit s.initial s.published)) }
  | panic {s : State} {request : Request} (lock : s.lock = some (.locked request)) :
      Step s { s with lock := none }
  | refuse {s : State} {request : Request} {next : Filters} {error : FilterUpdateError}
      (lock : s.lock = some (.edited request next)) (invalid : validate s.initial next = .error error) :
      Step s (s.return request (.error error))
  | skip {s : State} {request : Request} {next : Filters}
      (lock : s.lock = some (.edited request next)) (valid : validate s.initial next = .ok ())
      (same : s.published = next) :
      Step s (s.return request (if s.receiverAlive then .ok () else .error .closed))
  | send {s : State} {request : Request} {next : Filters}
      (lock : s.lock = some (.edited request next)) (valid : validate s.initial next = .ok ())
      (changed : s.published ≠ next) (receiver : s.receiverAlive = true) :
      Step s
        { s.return request (.ok ()) with
          published := next
          unseen := true
          history := s.history ++ [next] }
  | sendErr {s : State} {request : Request} {next : Filters}
      (lock : s.lock = some (.edited request next)) (valid : validate s.initial next = .ok ())
      (changed : s.published ≠ next) (closed : s.receiverAlive = false) :
      Step s (s.return request (.error .closed))
  | dropHandles {s : State} (unlocked : s.lock = none) : Step s { s with handlesAlive := false }
  -- The source up to its first request, which is the newest set and marks it seen.
  | run {s : State} (source : s.source = .waiting) :
      Step s { s with source := .connecting s.published, unseen := false }
  | subscribe {s : State} {first : Filters} (source : s.source = .connecting first) :
      Step s { s with source := .selecting, accepted := [first] }
  -- The loop of the source. A stream update leaves all of this alone.
  | streamUpdate {s : State} (source : s.source = .selecting) : Step s s
  | takeUpdate {s : State} (source : s.source = .selecting) (receiver : s.receiverAlive = true)
      (unseen : s.unseen = true) :
      Step s { s with source := .sending s.published, unseen := false }
  | retire {s : State} (source : s.source = .selecting) (seen : s.unseen = false)
      (gone : s.handlesAlive = false) : Step s { s with receiverAlive := false }
  | retryTick {s : State} {filters : Filters} (source : s.source = .selecting)
      (pending : s.pendingFilters = some filters) :
      Step s { s with source := .sending filters, pendingFilters := none }
  | accept {s : State} {filters : Filters} (source : s.source = .sending filters) :
      Step s
        { s with
          source := .selecting
          pendingFilters := none
          accepted := s.accepted ++ [filters] }
  | reject {s : State} {filters : Filters} (source : s.source = .sending filters) :
      Step s
        { s with
          source := .selecting
          pendingFilters := if s.autoReconnect then some filters else none }
  -- The runtime is dropped, the connection fails, the stream ends or the task is cancelled.
  | exit {s : State} : Step s s.exit

/-- The states of the runs from a set of filters. -/
abbrev Reachable (autoReconnect : Bool) (filters : Filters) (s : State) : Prop :=
  Relation.ReflTransGen Step (.init autoReconnect filters) s

/-- The edits of the calls that returned `Ok`, one after the other. -/
def applied (initial : Filters) (calls : List (Request × Except FilterUpdateError Unit)) :
    Filters :=
  calls.foldl
    (fun filters call => match call.2 with
      | .ok () => call.1.edit initial filters
      | .error _ => filters)
    initial

end Handle

end Shipstern.Runtime
