import Shipstern.Lib.Machine
import Shipstern.Runtime.Handle

/-!
# Filter edits are neither lost nor reordered

Two invariants of the steps of the handles and the source. `Edits` is about the slot: what
it holds is what the successful calls made of the initial set. `Delivery` is about the way
to the sink: the history of the slot splits into what the source has read and what it has
not, the accepted sets together with the one still owed are a subsequence of the part that
was read, and the two end with the same set.
-/

namespace Shipstern.Runtime.Handle

variable {s t : State} {autoReconnect : Bool} {filters : Filters}

theorem validate_eq_ok {initial next : Filters} (h : validate initial next = .ok ()) :
    ∀ id ∈ next.parserIds, (initial.get id).isSome := by
  rw [validate] at h
  split at h
  · next hnone =>
      intro id hid
      have hsome := List.find?_eq_none.mp hnone id hid
      simpa [Option.isSome_iff_ne_none] using hsome
  · contradiction

theorem applied_concat (initial : Filters) (calls : List (Request × Except FilterUpdateError Unit))
    (request : Request) (result : Except FilterUpdateError Unit) :
    applied initial (calls ++ [(request, result)]) =
      match result with
      | .ok () => request.edit initial (applied initial calls)
      | .error _ => applied initial calls := by
  rw [applied, List.foldl_append]
  rfl

section Edits

/-- The slot holds what the successful calls made of the initial set. -/
structure Edits (filters : Filters) (s : State) : Prop where
  initial : s.initial = filters
  applied : s.published = applied filters s.calls
  registered : ∀ id ∈ s.published.parserIds, (filters.get id).isSome
  edited : ∀ request next, s.lock = some (.edited request next) →
    next = request.edit filters s.published

theorem Edits.init (autoReconnect : Bool) (filters : Filters) :
    Edits filters (.init autoReconnect filters) where
  initial := rfl
  applied := rfl
  registered := fun id hid => by
    obtain ⟨f, hf⟩ := (OrderedMap.mem_keys_iff _ id).mp hid
    rw [Filters.get]
    exact Option.isSome_iff_exists.mpr ⟨f, hf⟩
  edited := fun _ _ h => by contradiction

/-- A step that leaves the slot and the calls alone. -/
theorem Edits.of_eq (hs : Edits filters s) (initial : t.initial = s.initial)
    (published : t.published = s.published) (calls : t.calls = s.calls)
    (lock : ∀ request next, t.lock = some (.edited request next) →
      next = request.edit filters s.published) : Edits filters t where
  initial := initial.trans hs.initial
  applied := by rw [published, calls, hs.applied]
  registered := by
    rw [published]
    exact hs.registered
  edited := by
    rw [published]
    exact lock

/-- A call that returns an error leaves the slot alone. -/
theorem Edits.return_error (hs : Edits filters s) (request : Request) (error : FilterUpdateError) :
    Edits filters (s.return request (.error error)) where
  initial := hs.initial
  applied := by
    rw [State.return, applied_concat]
    exact hs.applied
  registered := hs.registered
  edited := fun _ _ h => by contradiction

theorem Edits.step (h : Step s t) (hs : Edits filters s) : Edits filters t := by
  cases h with
  | acquire request alive unlocked => exact hs.of_eq rfl rfl rfl fun _ _ h => by cases h
  | edit lock =>
      refine hs.of_eq rfl rfl rfl ?_
      intro request next h
      cases h
      rw [hs.initial]
  | panic lock => exact hs.of_eq rfl rfl rfl fun _ _ h => by contradiction
  | @refuse request next error lock invalid => exact hs.return_error request error
  | @skip request next lock valid same =>
      cases halive : s.receiverAlive with
      | false => exact hs.return_error request .closed
      | true =>
          refine ⟨hs.initial, ?_, hs.registered, fun _ _ h => by contradiction⟩
          rw [State.return, applied_concat, ← hs.applied, ← hs.edited request next lock]
          exact same
  | @send request next lock valid changed receiver =>
      refine ⟨hs.initial, ?_, ?_, fun _ _ h => by contradiction⟩
      · rw [State.return, applied_concat, ← hs.applied, ← hs.edited request next lock]
      · rw [hs.initial] at valid
        exact validate_eq_ok valid
  | @sendErr request next lock valid changed closed => exact hs.return_error request .closed
  | _ => exact hs.of_eq rfl rfl rfl hs.edited

end Edits

section Delivery

/-- The set that the source has taken and that the sink has not accepted yet. -/
def State.owed (s : State) : List Filters :=
  match s.source with
  | .connecting first => [first]
  | .selecting => s.pendingFilters.toList
  | .sending filters => [filters]
  | .waiting | .exited => []

/-- Whether the source has a subscription or is about to get it. -/
def Source.running : Source → Bool
  | .connecting _ | .selecting | .sending _ => true
  | .waiting | .exited => false

/-- Whether the source has not got its subscription yet. -/
def Source.starting : Source → Bool
  | .waiting | .connecting _ => true
  | .selecting | .sending _ | .exited => false

/-- The history of the slot up to the last read and after it, and what became of the former. -/
structure Split (s : State) (seen unread : List Filters) : Prop where
  history : s.history = seen ++ unread
  unread_iff : s.unseen = true ↔ unread ≠ []
  sublist : (s.accepted ++ s.owed).Sublist seen
  last : s.autoReconnect = true → s.source.running = true →
    (s.accepted ++ s.owed).getLast? = seen.getLast?

/-- What the source has still to send is the newest set it has read. -/
structure Delivery (s : State) : Prop where
  published : s.history.getLast? = some s.published
  split : ∃ seen unread, Split s seen unread
  fresh : s.source.starting = true → s.accepted = [] ∧ s.pendingFilters = none

theorem Delivery.init (autoReconnect : Bool) (filters : Filters) :
    Delivery (.init autoReconnect filters) where
  published := rfl
  split := ⟨[filters], [], ⟨rfl, by simp [State.init], by simp [State.init, State.owed],
    fun _ h => by contradiction⟩⟩
  fresh := fun _ => ⟨rfl, rfl⟩

/-- A step that leaves the slot and the source alone. -/
theorem Delivery.of_eq (hs : Delivery s) (history : t.history = s.history)
    (published : t.published = s.published) (unseen : t.unseen = s.unseen)
    (accepted : t.accepted = s.accepted) (source : t.source = s.source)
    (pending : t.pendingFilters = s.pendingFilters) (auto : t.autoReconnect = s.autoReconnect) :
    Delivery t := by
  obtain ⟨seen, unread, h⟩ := hs.split
  have howed : t.owed = s.owed := by rw [State.owed, State.owed, source, pending]
  refine ⟨by rw [history, published, hs.published], ⟨seen, unread, ?_⟩, ?_⟩
  · refine ⟨history.trans h.history, by rw [unseen, h.unread_iff], ?_, ?_⟩
    · rw [accepted, howed]
      exact h.sublist
    · rw [accepted, howed, auto, source]
      exact h.last
  · rw [source, accepted, pending]
    exact hs.fresh

/-- A step of the source that keeps what it has accepted and what it owes. -/
theorem Delivery.of_owed (hs : Delivery s) (history : t.history = s.history)
    (published : t.published = s.published) (unseen : t.unseen = s.unseen)
    (auto : t.autoReconnect = s.autoReconnect)
    (owed : t.accepted ++ t.owed = s.accepted ++ s.owed) (running : s.source.running = true)
    (started : t.source.starting = false) : Delivery t := by
  obtain ⟨seen, unread, h⟩ := hs.split
  refine ⟨by rw [history, published, hs.published], ⟨seen, unread, ?_⟩, ?_⟩
  · refine ⟨history.trans h.history, by rw [unseen, h.unread_iff], ?_, ?_⟩
    · rw [owed]
      exact h.sublist
    · intro hauto _
      rw [owed]
      exact h.last (auto ▸ hauto) running
  · intro hstarting
    rw [started] at hstarting
    contradiction

/-- A step that gives up on what is owed. -/
theorem Delivery.of_dropped (hs : Delivery s) (history : t.history = s.history)
    (published : t.published = s.published) (unseen : t.unseen = s.unseen)
    (accepted : t.accepted = s.accepted) (owed : t.owed = [])
    (gone : ¬ (t.autoReconnect = true ∧ t.source.running = true))
    (started : t.source.starting = false) : Delivery t := by
  obtain ⟨seen, unread, h⟩ := hs.split
  refine ⟨by rw [history, published, hs.published], ⟨seen, unread, ?_⟩, ?_⟩
  · refine ⟨history.trans h.history, by rw [unseen, h.unread_iff], ?_, ?_⟩
    · rw [accepted, owed, List.append_nil]
      exact (List.sublist_append_left _ _).trans h.sublist
    · intro hauto hrunning
      exact absurd ⟨hauto, hrunning⟩ gone
  · intro hstarting
    rw [started] at hstarting
    contradiction

theorem Delivery.step (h : Step s t) (hs : Delivery s) : Delivery t := by
  cases h with
  | @send request next lock valid changed receiver =>
      obtain ⟨seen, unread, hsplit⟩ := hs.split
      refine ⟨by simp, ⟨seen, unread ++ [next], ?_⟩, hs.fresh⟩
      refine ⟨?_, by simp, hsplit.sublist, hsplit.last⟩
      rw [hsplit.history, List.append_assoc]
  | run source =>
      obtain ⟨haccepted, hpending⟩ := hs.fresh (by rw [source]; rfl)
      refine ⟨hs.published, ⟨s.history, [], ?_⟩, fun _ => ⟨haccepted, hpending⟩⟩
      have hmem : s.published ∈ s.history := List.mem_of_getLast? hs.published
      refine ⟨by simp, by simp, ?_, ?_⟩
      · rw [haccepted]
        exact List.singleton_sublist.mpr hmem
      · intro _ _
        rw [haccepted]
        exact hs.published.symm
  | @subscribe first source =>
      obtain ⟨haccepted, hpending⟩ := hs.fresh (by rw [source]; rfl)
      refine hs.of_owed rfl rfl rfl rfl ?_ (by rw [source]; rfl) rfl
      simp [State.owed, source, haccepted, hpending]
  | takeUpdate source receiver unseen =>
      obtain ⟨seen, unread, hsplit⟩ := hs.split
      have hpublished : s.published ∈ unread := by
        have hlast := hs.published
        rw [hsplit.history, List.getLast?_append_of_ne_nil _ (hsplit.unread_iff.mp unseen)] at hlast
        exact List.mem_of_getLast? hlast
      have haccepted : s.accepted.Sublist seen :=
        (List.sublist_append_left _ _).trans hsplit.sublist
      refine ⟨hs.published, ⟨s.history, [], ?_⟩, fun h => by contradiction⟩
      refine ⟨by simp, by simp, ?_, ?_⟩
      · rw [hsplit.history]
        exact haccepted.append (List.singleton_sublist.mpr hpublished)
      · intro _ _
        rw [hs.published]
        exact List.getLast?_concat
  | @retryTick filters source pending =>
      refine hs.of_owed rfl rfl rfl rfl ?_ (by rw [source]; rfl) rfl
      simp [State.owed, source, pending]
  | accept source =>
      refine hs.of_owed rfl rfl rfl rfl ?_ (by rw [source]; rfl) rfl
      simp [State.owed, source]
  | @reject filters source =>
      cases hauto : s.autoReconnect with
      | true =>
          refine hs.of_owed rfl rfl rfl hauto.symm ?_ (by rw [source]; rfl) rfl
          simp [State.owed, source]
      | false => exact hs.of_dropped rfl rfl rfl rfl rfl (by simp) rfl
  | exit =>
      refine hs.of_dropped rfl rfl rfl rfl rfl ?_ rfl
      rintro ⟨-, hrunning⟩
      contradiction
  | _ => exact hs.of_eq rfl rfl rfl rfl rfl rfl rfl

end Delivery

theorem Step.autoReconnect_eq (h : Step s t) : t.autoReconnect = s.autoReconnect := by
  cases h <;> rfl

/-- All invariants together. -/
structure Kept (autoReconnect : Bool) (filters : Filters) (s : State) : Prop where
  auto : s.autoReconnect = autoReconnect
  edits : Edits filters s
  delivery : Delivery s

theorem Reachable.kept (h : Reachable autoReconnect filters s) : Kept autoReconnect filters s :=
  Machine.invariant_of_steps
    (fun _ _ hstep hs =>
      ⟨hstep.autoReconnect_eq.trans hs.auto, hs.edits.step hstep, hs.delivery.step hstep⟩)
    h ⟨rfl, .init autoReconnect filters, .init autoReconnect filters⟩

/-- The slot holds the initial set with the edits of all calls that returned `Ok`, and names
registered parsers only. The sink accepts a subsequence of the published sets. With
auto-reconnect on and no send under way, a source that owes nothing has sent the newest set. -/
theorem filter_edits_kept (autoReconnect : Bool) (filters : Filters) (s : State)
    (h : Reachable autoReconnect filters s) :
    (s.published = applied filters s.calls ∧
      ∀ id ∈ s.published.parserIds, (filters.get id).isSome) ∧
    s.accepted.Sublist s.history ∧
    (autoReconnect = true → s.source = .selecting → s.unseen = false → s.pendingFilters = none →
      s.accepted.getLast? = some s.published) := by
  obtain ⟨hauto, hedits, hdelivery⟩ := Reachable.kept h
  obtain ⟨seen, unread, hsplit⟩ := hdelivery.split
  refine ⟨⟨hedits.applied, hedits.registered⟩, ?_, ?_⟩
  · calc
      s.accepted.Sublist (s.accepted ++ s.owed) := List.sublist_append_left _ _
      List.Sublist _ seen := hsplit.sublist
      List.Sublist _ (seen ++ unread) := List.sublist_append_left _ _
      _ = s.history := hsplit.history.symm
  · intro hon hsource hseen hpending
    have howed : s.owed = [] := by rw [State.owed, hsource, hpending]; rfl
    have hunread : unread = [] := by
      by_contra hne
      rw [hsplit.unread_iff.mpr hne] at hseen
      contradiction
    calc
      s.accepted.getLast? = (s.accepted ++ s.owed).getLast? := by rw [howed, List.append_nil]
      _ = seen.getLast? := hsplit.last (hauto.trans hon) (by rw [hsource]; rfl)
      _ = s.history.getLast? := by rw [hsplit.history, hunread, List.append_nil]
      _ = some s.published := hdelivery.published

/-- One slot pipeline. -/
def slotFilters : Filters := ⟨OrderedMap.filled [("slots", { slot := some {} })]⟩

/-- No subscription at all. -/
def noFilters : Filters := ⟨∅⟩

theorem slotFilters_ne_noFilters : slotFilters ≠ noFilters := by
  intro h
  have hget : slotFilters.get "slots" = noFilters.get "slots" := by rw [h]
  have hsome : (slotFilters.get "slots").isSome = true := by decide +kernel
  rw [hget] at hsome
  exact absurd hsome (by decide +kernel)

/-- A handle empties the set while the source runs, and the source takes the empty set. -/
theorem reachable_sending :
    ∃ s, Reachable true slotFilters s ∧ s.source = .sending noFilters ∧ s.unseen = false ∧
      s.pendingFilters = none ∧ s.published = noFilters ∧ s.accepted = [slotFilters] := by
  have start : Reachable true slotFilters (.init true slotFilters) := .refl
  have subscribed := (start.tail (.run rfl)).tail (.subscribe rfl)
  have edited := (subscribed.tail (.acquire (.sendFilterUpdate noFilters) rfl rfl)).tail (.edit rfl)
  have sent := edited.tail (.send rfl rfl slotFilters_ne_noFilters rfl)
  exact ⟨_, sent.tail (.takeUpdate rfl rfl rfl), rfl, rfl, rfl, rfl, rfl⟩

/-- Once the sink has accepted the set, it is the last one accepted. -/
theorem filter_edits_kept_of_emptied :
    ∃ s, Reachable true slotFilters s ∧ s.published = noFilters ∧
      s.published = applied slotFilters s.calls ∧ s.accepted.getLast? = some noFilters := by
  obtain ⟨s, hreach, hsource, hseen, hpending, hpublished, -⟩ := reachable_sending
  have haccepted := hreach.tail (.accept hsource)
  obtain ⟨⟨happlied, -⟩, -, hlast⟩ := filter_edits_kept true slotFilters _ haccepted
  have hnewest := hlast rfl rfl hseen rfl
  rw [hpublished] at hnewest
  exact ⟨_, haccepted, hpublished, happlied, hnewest⟩

/-- While a send is under way the newest set is neither unseen nor pending nor accepted. -/
theorem last_accepted_lags_in_flight :
    ¬ ∀ (filters : Filters) (s : State), Reachable true filters s →
      (s.source = .selecting ∨ ∃ sent, s.source = .sending sent) →
      s.unseen = false → s.pendingFilters = none → s.accepted.getLast? = some s.published := by
  intro h
  obtain ⟨s, hreach, hsource, hseen, hpending, hpublished, haccepted⟩ := reachable_sending
  have hlast := h slotFilters s hreach (.inr ⟨_, hsource⟩) hseen hpending
  rw [haccepted, hpublished] at hlast
  exact slotFilters_ne_noFilters (Option.some.inj hlast)

end Shipstern.Runtime.Handle
