import Shipstern.Codegen.EventReports
import Shipstern.Lib.Surplus

/-!
# Events that are emitted both ways

A program can emit one event by self-CPI and in its log. The generated parser extends the events
of the self-CPIs by the events of the log, and marks for each log event that repeats a self-CPI
event the first one that is not marked yet. What is appended is the surplus of the log.
-/

open Shipstern.Core

namespace Shipstern.Codegen

open Surplus

namespace ProgramParser

variable {Ix Event : Type} [BEq Event]

/-- The self-CPI events, extended by the log events. -/
def mergeEvents (cpi logEvents : List Event) : List Event :=
  (logEvents.foldl addLogEvent (cpi, cpi.map fun _ => false)).1

theorem programEvents_eq_mergeEvents (parser : ProgramParser Ix Event) (bs58 : Bs58)
    (ix : InstructionUpdate) :
    parser.programEvents bs58 ix =
      mergeEvents (parser.cpiEvents ix)
        (resolveEventsFromLogs parser.toEventParser bs58 parser.programId ix.logMessages) := rfl

/-- How many self-CPI events equal to an event are marked. -/
def markedCount (cpi : List Event) (matched : List Bool) (event : Event) : Nat :=
  (cpi.zip matched).countP fun (c, m) => m && c == event

/-- After the log events seen so far, as many occurrences of each event are marked as have been
seen, or all of them. -/
structure Marks (cpi seen : List Event) (matched : List Bool) : Prop where
  length : matched.length = cpi.length
  count : ∀ event, markedCount cpi matched event = min (cpi.count event) (seen.count event)

theorem marks_start (cpi : List Event) : Marks cpi [] (cpi.map fun _ => false) := by
  refine ⟨List.length_map _, fun event => ?_⟩
  rw [List.count_nil, Nat.min_zero, markedCount, List.countP_eq_zero]
  rintro ⟨c, m⟩ hmem
  obtain ⟨_, -, rfl⟩ := List.mem_map.mp (List.of_mem_zip hmem).2
  exact Bool.false_ne_true

theorem markedCount_add_unmarked {cpi : List Event} {matched : List Bool}
    (h : matched.length = cpi.length) (event : Event) :
    markedCount cpi matched event +
        (cpi.zip matched).countP (fun (c, m) => !m && c == event) = cpi.count event := by
  have hmap : cpi.count event = (cpi.zip matched).countP fun (c, _) => c == event := by
    conv_lhs => rw [← List.map_fst_zip h.ge, List.count, List.countP_map]
    rfl
  rw [hmap, markedCount]
  generalize cpi.zip matched = pairs
  induction pairs with
  | nil => rfl
  | cons pair pairs ih =>
      obtain ⟨c, m⟩ := pair
      simp only [List.countP_cons, ← ih]
      cases m <;> simp <;> omega

/-- Marking one event more raises the count of the events equal to it. -/
theorem markedCount_set {cpi : List Event} {matched : List Bool} {i : Nat} {c : Event}
    (hget : (cpi.zip matched)[i]? = some (c, false)) (event : Event) :
    markedCount cpi (matched.set i true) event =
      markedCount cpi matched event + if c == event then 1 else 0 := by
  induction cpi generalizing matched i with
  | nil => simp at hget
  | cons d cpi ih =>
      cases matched with
      | nil => simp at hget
      | cons m matched =>
          cases i with
          | zero =>
              rw [List.zip_cons_cons, List.getElem?_cons_zero] at hget
              obtain ⟨rfl, rfl⟩ := Prod.mk.inj (Option.some.inj hget)
              simp [markedCount, List.countP_cons]
          | succ i =>
              rw [List.zip_cons_cons, List.getElem?_cons_succ] at hget
              have hrest := ih hget
              rw [markedCount, markedCount] at hrest ⊢
              rw [List.set_cons_succ, List.zip_cons_cons, List.zip_cons_cons, List.countP_cons,
                List.countP_cons, hrest]
              omega

variable [EquivBEq Event]

/-- One log event: it marks an occurrence, or all occurrences are marked and it is appended. -/
theorem addLogEvent_spec {cpi seen : List Event} {matched : List Bool}
    (h : Marks cpi seen matched) (extra : List Event) (event : Event) :
    ∃ matched', Marks cpi (seen ++ [event]) matched' ∧
      addLogEvent (cpi ++ extra, matched) event =
        (cpi ++ extra ++ if cpi.count event ≤ seen.count event then [event] else [], matched') := by
  have hzip : (cpi ++ extra).zip matched = cpi.zip matched := by
    rw [← List.append_nil matched, List.zip_append h.length.symm, List.zip_nil_right,
      List.append_nil, List.append_nil]
  have htotal := markedCount_add_unmarked h.length event
  have hmarked := h.count event
  have hseen : ∀ other, (seen ++ [event]).count other =
      seen.count other + if event == other then 1 else 0 := by
    intro other
    simp [List.count_cons]
  rw [addLogEvent]
  simp only [hzip]
  cases hfind : (cpi.zip matched).findIdx? fun (c, m) => !m && c == event with
  | none =>
      have hnone : (cpi.zip matched).countP (fun (c, m) => !m && c == event) = 0 := by
        rw [List.countP_eq_zero]
        intro pair hmem
        simp [List.findIdx?_eq_none_iff.mp hfind pair hmem]
      have hle : cpi.count event ≤ seen.count event := by omega
      refine ⟨matched, ⟨h.length, fun other => ?_⟩, by rw [if_pos hle]⟩
      rw [h.count, hseen]
      split
      · next heq =>
          have hcpi := count_congr heq cpi
          have hcount := count_congr heq seen
          omega
      · rfl
  | some i =>
      obtain ⟨hlt, hfound, -⟩ := List.findIdx?_eq_some_iff_getElem.mp hfind
      rcases hpair : (cpi.zip matched)[i] with ⟨c, m⟩
      rw [hpair] at hfound
      obtain ⟨hm, hequal⟩ := (Bool.and_eq_true _ _).mp hfound
      obtain rfl : m = false := by simpa using hm
      have hget : (cpi.zip matched)[i]? = some (c, false) := by
        rw [List.getElem?_eq_getElem hlt, hpair]
      have hpos : 0 < (cpi.zip matched).countP fun (c, m) => !m && c == event :=
        List.countP_pos_iff.mpr ⟨_, List.mem_of_getElem? hget, hfound⟩
      have hgt : ¬cpi.count event ≤ seen.count event := by omega
      refine ⟨matched.set i true, ⟨by rw [List.length_set, h.length], fun other => ?_⟩,
        by rw [if_neg hgt, List.append_nil]⟩
      have hsame : (c == other) = (event == other) := by
        rw [BEq.comm (a := c), BEq.comm (a := event)]
        exact beq_congr hequal other
      rw [markedCount_set hget, h.count, hseen, hsame]
      split
      · next heq =>
          have hcpi := count_congr heq cpi
          have hcount := count_congr heq seen
          omega
      · rfl

/-- The loop over the log events, from any point of it on. -/
theorem foldl_addLogEvent_eq {cpi seen : List Event} {matched : List Bool}
    (h : Marks cpi seen matched) (extra logEvents : List Event) :
    (logEvents.foldl addLogEvent (cpi ++ extra, matched)).1 =
      cpi ++ extra ++ surplusAfter cpi seen logEvents := by
  induction logEvents generalizing seen extra matched with
  | nil => rw [List.foldl_nil, surplusAfter, List.append_nil]
  | cons event logEvents ih =>
      obtain ⟨matched', hmarks, hstep⟩ := addLogEvent_spec h extra event
      rw [List.foldl_cons, hstep, List.append_assoc cpi, ih hmarks, surplusAfter]
      split <;> simp

/-- The events of the log that are left, for each event as many of its first occurrences removed
as it has among the self-CPI events, come after the self-CPI events. Every event occurs as often
as it was emitted the way it was emitted more often. -/
theorem mergeEvents_eq (cpi logEvents : List Event) :
    mergeEvents cpi logEvents = cpi ++ surplus cpi logEvents ∧
      ∀ event, (mergeEvents cpi logEvents).count event =
        max (cpi.count event) (logEvents.count event) := by
  have hmerge : mergeEvents cpi logEvents = cpi ++ surplus cpi logEvents := by
    have hfold := foldl_addLogEvent_eq (marks_start cpi) [] logEvents
    rw [List.append_nil] at hfold
    exact hfold
  refine ⟨hmerge, fun event => ?_⟩
  rw [hmerge]
  exact count_append_surplus cpi logEvents event

theorem mergeEvents_eq_repeated :
    mergeEvents [1, 1, 2] [1, 3, 1, 1, 3] = [1, 1, 2] ++ surplus [1, 1, 2] [1, 3, 1, 1, 3] ∧
      ∀ event, (mergeEvents [1, 1, 2] [1, 3, 1, 1, 3]).count event =
        max ([1, 1, 2].count event) ([1, 3, 1, 1, 3].count event) :=
  mergeEvents_eq [1, 1, 2] [1, 3, 1, 1, 3]

end ProgramParser

end Shipstern.Codegen
