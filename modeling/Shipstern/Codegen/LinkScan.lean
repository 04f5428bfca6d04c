import Shipstern.Codegen.SchemaBuild

/-!
# The scan for linked event payloads

Every round scans the events that may be scanned and are not yet. The rounds end, since the events
of a name are all scanned in one round, and what they find are the names that are reached by links
from the roots.
-/

namespace Shipstern.Codegen

open Codama

theorem mem_collectFieldLinks {fields : List StructFieldTypeNode} {name : Name} :
    name ∈ collectFieldLinks fields ↔ ∃ field ∈ fields, name ∈ collectLinks field.type := by
  induction fields with
  | nil => simp [collectFieldLinks]
  | cons field fields ih =>
      obtain ⟨fieldName, strategy, type, default⟩ := field
      rw [collectFieldLinks, List.mem_append, ih, List.exists_mem_cons_iff]

theorem mem_collectItemLinks {items : List TypeNode} {name : Name} :
    name ∈ collectItemLinks items ↔ ∃ item ∈ items, name ∈ collectLinks item := by
  induction items with
  | nil => simp [collectItemLinks]
  | cons item items ih => rw [collectItemLinks, List.mem_append, ih, List.exists_mem_cons_iff]

section Scan

variable (scannable : List Name → EventNode → Bool) (events : List EventNode)

/-- The events of a round. -/
def pendingEvents (scanned links : List Name) : List EventNode :=
  events.filter fun event => scannable links event && !scanned.contains event.name

/-- Runs of the loop, until a round has no events. -/
inductive Scans : List Name → List Name → List Name → Prop
  | stop {scanned links : List Name} (h : pendingEvents scannable events scanned links = []) :
      Scans scanned links links
  | round {scanned links result : List Name}
      (h : pendingEvents scannable events scanned links ≠ [])
      (next : Scans
        (scanned ++ (pendingEvents scannable events scanned links).map (·.name))
        (links ++ (pendingEvents scannable events scanned links).flatMap (collectLinks ·.data))
        result) :
      Scans scanned links result

/-- The events that are not scanned. -/
def unscanned (scanned : List Name) : Nat := events.countP fun event => event.name ∉ scanned

variable {scannable events}

theorem mem_pendingEvents {scanned links : List Name} {event : EventNode} :
    event ∈ pendingEvents scannable events scanned links ↔
      event ∈ events ∧ scannable links event = true ∧ event.name ∉ scanned := by
  simp [pendingEvents]

/-- A round leaves fewer events that are not scanned. -/
theorem unscanned_lt {scanned links : List Name}
    (h : pendingEvents scannable events scanned links ≠ []) :
    unscanned events (scanned ++ (pendingEvents scannable events scanned links).map (·.name)) <
      unscanned events scanned := by
  obtain ⟨event, hevent⟩ := List.exists_mem_of_ne_nil _ h
  obtain ⟨hmem, -, hnew⟩ := mem_pendingEvents.mp hevent
  rw [unscanned, unscanned, List.countP_eq_length_filter, List.countP_eq_length_filter]
  refine lt_of_not_ge fun hle => ?_
  -- otherwise the same events are left, and the event of this round is one of them
  have hsub : List.Sublist
      (events.filter fun other => decide (other.name ∉ scanned ++
        (pendingEvents scannable events scanned links).map (·.name)))
      (events.filter fun other => decide (other.name ∉ scanned)) := by
    refine List.monotone_filter_right _ fun other hother => ?_
    simp only [List.mem_append, decide_eq_true_eq, not_or] at hother ⊢
    exact hother.1
  have hleft : event ∈ events.filter fun other => decide (other.name ∉ scanned) :=
    List.mem_filter.mpr ⟨hmem, by simpa using hnew⟩
  rw [← hsub.eq_of_length_le hle, List.mem_filter, decide_eq_true_eq] at hleft
  exact hleft.2 (List.mem_append_right _ (List.mem_map_of_mem hevent))

/-- With room for the events that are not scanned the loop runs to its end. -/
theorem scanEvents_scans {room : Nat} {scanned links : List Name}
    (h : unscanned events scanned < room) :
    Scans scannable events scanned links (scanEvents scannable events room scanned links) := by
  induction room generalizing scanned links with
  | zero => contradiction
  | succ room ih =>
      rw [scanEvents]
      cases hpending : pendingEvents scannable events scanned links with
      | nil =>
          have hnone := hpending
          rw [pendingEvents] at hnone
          rw [hnone]
          exact .stop hpending
      | cons event pending =>
          have hsome := hpending
          rw [pendingEvents] at hsome
          rw [hsome]
          have hne : pendingEvents scannable events scanned links ≠ [] := by
            rw [hpending]
            exact List.cons_ne_nil _ _
          have hfewer := unscanned_lt hne
          refine .round hne ?_
          rw [hpending] at hfewer ⊢
          exact ih (by omega)

end Scan

/-! ## What is reached -/

section

variable (programEvents : Bool) (program : ProgramNode) (events : List EventNode)

/-- The names of the defined types. -/
def definedNames : List Name := program.definedTypes.map (toPascalCase ·.name)

/-- The name is linked to from the roots: directly, or by an event that is emitted or that is
itself linked to and not defined. -/
inductive Reached : Name → Prop
  | root {name : Name} (h : name ∈ rootLinks program) : Reached name
  | emitted {event : EventNode} {name : Name} (hfeature : programEvents = true)
      (hevent : event ∈ events) (h : name ∈ collectLinks event.data) : Reached name
  | linked {event : EventNode} {name : Name} (hevent : event ∈ events)
      (hlinked : Reached (toPascalCase event.name))
      (hundefined : toPascalCase event.name ∉ definedNames program)
      (h : name ∈ collectLinks event.data) : Reached name

/-- An event may be scanned. -/
def mayScan (links : List Name) (event : EventNode) : Bool :=
  programEvents || (links.contains (toPascalCase event.name) &&
    !(definedNames program).contains (toPascalCase event.name))

/-- The names that are linked to in the end. -/
def finalLinks : List Name :=
  scanEvents (mayScan programEvents program) events (events.length + 1) [] (rootLinks program)

/-- What holds before each round. -/
structure Scanning (scanned links : List Name) : Prop where
  roots : ∀ name ∈ rootLinks program, name ∈ links
  reached : ∀ name ∈ links, Reached programEvents program events name
  scanned : ∀ event ∈ events, event.name ∈ scanned →
    ∀ name ∈ collectLinks event.data, name ∈ links

variable {programEvents program events}

theorem mayScan_iff {links : List Name} {event : EventNode} :
    mayScan programEvents program links event = true ↔ programEvents = true ∨
      toPascalCase event.name ∈ links ∧ toPascalCase event.name ∉ definedNames program := by
  simp [mayScan]

theorem Scanning.round {scanned links : List Name}
    (h : Scanning programEvents program events scanned links) :
    Scanning programEvents program events
      (scanned ++ (pendingEvents (mayScan programEvents program) events scanned links).map (·.name))
      (links ++ (pendingEvents (mayScan programEvents program) events scanned links).flatMap
        (collectLinks ·.data)) := by
  refine ⟨fun name hname => List.mem_append_left _ (h.roots name hname), fun name hname => ?_,
    fun event hevent hscanned name hname => ?_⟩
  · obtain hname | hname := List.mem_append.mp hname
    · exact h.reached name hname
    · obtain ⟨event, hpending, hname⟩ := List.mem_flatMap.mp hname
      obtain ⟨hevent, hmay, -⟩ := mem_pendingEvents.mp hpending
      obtain hfeature | ⟨hlinked, hundefined⟩ := mayScan_iff.mp hmay
      · exact .emitted hfeature hevent hname
      · exact .linked hevent (h.reached _ hlinked) hundefined hname
  · by_cases hbefore : event.name ∈ scanned
    · exact List.mem_append_left _ (h.scanned event hevent hbefore name hname)
    · -- an event of the same name is scanned in this round, so this one is, too
      obtain hscanned := (List.mem_append.mp hscanned).resolve_left hbefore
      obtain ⟨other, hpending, hsame⟩ := List.mem_map.mp hscanned
      obtain ⟨-, hmay, -⟩ := mem_pendingEvents.mp hpending
      have hmine : mayScan programEvents program links event = true := by
        rw [mayScan, ← hsame]
        exact hmay
      exact List.mem_append_right _
        (List.mem_flatMap.mpr ⟨event, mem_pendingEvents.mpr ⟨hevent, hmine, hbefore⟩, hname⟩)

/-- At the end of the loop, the links are exactly what is reached. -/
theorem Scans.mem_iff {scanned links result : List Name}
    (h : Scans (mayScan programEvents program) events scanned links result)
    (hscanning : Scanning programEvents program events scanned links) {name : Name} :
    name ∈ result ↔ Reached programEvents program events name := by
  induction h with
  | @stop scanned links hnone =>
      have hclosed : ∀ event ∈ events, mayScan programEvents program links event = true →
          ∀ name ∈ collectLinks event.data, name ∈ links := by
        intro event hevent hmay
        refine hscanning.scanned event hevent (not_not.mp fun hnew => ?_)
        have hpending := mem_pendingEvents.mpr ⟨hevent, hmay, hnew⟩
        rw [hnone] at hpending
        contradiction
      refine ⟨hscanning.reached name, fun hreached => ?_⟩
      induction hreached with
      | root h => exact hscanning.roots _ h
      | emitted hfeature hevent h =>
          exact hclosed _ hevent (mayScan_iff.mpr (.inl hfeature)) _ h
      | linked hevent _ hundefined h ih =>
          exact hclosed _ hevent (mayScan_iff.mpr (.inr ⟨ih, hundefined⟩)) _ h
  | round _ _ ih => exact ih hscanning.round

theorem finalLinks_scans :
    Scans (mayScan programEvents program) events [] (rootLinks program)
      (finalLinks programEvents program events) := by
  refine scanEvents_scans (Nat.lt_succ_of_le ?_)
  exact List.countP_le_length

theorem mem_finalLinks {name : Name} :
    name ∈ finalLinks programEvents program events ↔
      Reached programEvents program events name := by
  refine finalLinks_scans.mem_iff ⟨fun _ h => h, fun _ h => .root h, fun _ _ hscanned => ?_⟩
  contradiction

/-- The payloads that are added are those of the events that are reached and not defined. -/
theorem mem_linkedEventPayloads {definedType : DefinedTypeNode} :
    definedType ∈ linkedEventPayloads programEvents program events ↔
      ∃ event ∈ events, ∃ payload, eventStruct event.data = some payload ∧
        definedType = ⟨event.name, .struct payload⟩ ∧
        Reached programEvents program events (toPascalCase event.name) ∧
        toPascalCase event.name ∉ definedNames program := by
  have hmem : ∀ event : EventNode,
      ((finalLinks programEvents program events).contains (toPascalCase event.name) &&
        !(definedNames program).contains (toPascalCase event.name)) = true ↔
      Reached programEvents program events (toPascalCase event.name) ∧
        toPascalCase event.name ∉ definedNames program := by
    intro event
    rw [← mem_finalLinks]
    simp
  have hdef : linkedEventPayloads programEvents program events =
      (events.filter fun event =>
        (finalLinks programEvents program events).contains (toPascalCase event.name) &&
          !(definedNames program).contains (toPascalCase event.name)).filterMap fun event =>
        (eventStruct event.data).map fun payload => ⟨event.name, .struct payload⟩ := rfl
  rw [hdef, List.mem_filterMap]
  constructor
  · rintro ⟨event, hevent, hpayload⟩
    obtain ⟨hevent, hlinked⟩ := List.mem_filter.mp hevent
    obtain ⟨payload, hstruct, rfl⟩ := Option.map_eq_some_iff.mp hpayload
    exact ⟨event, hevent, payload, hstruct, rfl, (hmem event).mp hlinked⟩
  · rintro ⟨event, hevent, payload, hstruct, rfl, hreached⟩
    exact ⟨event, List.mem_filter.mpr ⟨hevent, (hmem event).mpr hreached⟩, by rw [hstruct]; rfl⟩

end

end Shipstern.Codegen
