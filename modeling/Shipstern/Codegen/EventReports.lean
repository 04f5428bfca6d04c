import Shipstern.Codegen.Discriminator
import Shipstern.Codegen.LogEvents

/-!
# Events reported by the generated instruction parser

The generated `InstructionParser::parse` for a program with events. Each instruction of the
program scans the whole slice of the log that belongs to it, the frames of the instructions
below it included. `reportedLines` are the positions of the lines whose events a scan finds.

In a transaction whose log renders its instruction tree, and where the scanner misreads no
line, an event line is found by every instruction of the program that has the frame of the
line in its slice. It is reported once if and only if only one of these instructions parses.
-/

open Shipstern.Core

namespace Shipstern.Codegen

open InstructionUpdate

/-! ## The generated parser -/

/-- What the generated code of a program calls and the constants it contains. -/
structure ProgramParser (Ix Event : Type) extends EventParser Event where
  programId : Pubkey
  resolveInstructionDefault : List Pubkey → List UInt8 → Path → Except ParseError Ix
  eventIxTag : List UInt8
  eventPayloadOffset : Nat

structure ProgramEventOutput (Ix Event : Type) where
  instruction : Option Ix
  programEvents : List Event

namespace ProgramParser

variable {Ix Event : Type} [BEq Event] (parser : ProgramParser Ix Event) (bs58 : Bs58)

/-- The events that the instruction emitted by invoking its own program. -/
def cpiEvents (ix : InstructionUpdate) : List Event :=
  ix.inner.filterMap fun inner =>
    if parser.eventIxTag <+: inner.data ∧ parser.eventPayloadOffset ≤ inner.data.length ∧
        inner.program = parser.programId then
      parser.resolveEventDefault inner.accounts (inner.data.drop parser.eventPayloadOffset)
    else none

/-- A log event repeats the first self-CPI event equal to it that is not matched yet. -/
def addLogEvent (state : List Event × List Bool) (event : Event) : List Event × List Bool :=
  match (state.1.zip state.2).findIdx? fun (cpi, matched) => !matched && cpi == event with
  | some i => (state.1, state.2.set i true)
  | none => (state.1 ++ [event], state.2)

def programEvents (ix : InstructionUpdate) : List Event :=
  let cpi := parser.cpiEvents ix
  ((resolveEventsFromLogs parser.toEventParser bs58 parser.programId ix.logMessages).foldl
    addLogEvent (cpi, cpi.map fun _ => false)).1

def parse (ix : InstructionUpdate) : Except ParseError (ProgramEventOutput Ix Event) :=
  if ix.program ≠ parser.programId then .error .filtered
  else if parser.eventIxTag <+: ix.data then .error .filtered
  else do
    let instruction ← parser.resolveInstructionDefault ix.accounts ix.data ix.path
    .ok ⟨some instruction, parser.programEvents bs58 ix⟩

/-- The parser returns a result for the instruction. -/
def Parses (ix : InstructionUpdate) : Bool :=
  match parser.parse bs58 ix with
  | .ok _ => true
  | .error _ => false

theorem Parses.program {parser : ProgramParser Ix Event} {bs58 : Bs58} {ix : InstructionUpdate}
    (h : parser.Parses bs58 ix = true) : ix.program = parser.programId := by
  by_contra hne
  rw [Parses, parse, if_pos hne] at h
  cases h

theorem parse_programEvents {ix : InstructionUpdate} {output : ProgramEventOutput Ix Event}
    (h : parser.parse bs58 ix = .ok output) :
    output.programEvents = parser.programEvents bs58 ix := by
  rw [parse] at h
  split at h
  · cases h
  · split at h
    · cases h
    · cases hresolve : parser.resolveInstructionDefault ix.accounts ix.data ix.path with
      | error e =>
          rw [hresolve] at h
          cases h
      | ok instruction =>
          rw [hresolve] at h
          cases h
          rfl

/-- Log events that repeat no self-CPI event are appended. -/
theorem foldl_addLogEvent {cpi logEvents : List Event} {matched : List Bool} (extra : List Event)
    (hlength : matched.length = cpi.length)
    (h : ∀ c ∈ cpi, ∀ event ∈ logEvents, (c == event) = false) :
    (logEvents.foldl addLogEvent (cpi ++ extra, matched)).1 = cpi ++ extra ++ logEvents := by
  induction logEvents generalizing extra with
  | nil => simp
  | cons event logEvents ih =>
      have hzip : (cpi ++ extra).zip matched = cpi.zip matched := by
        rw [← List.append_nil matched, List.zip_append hlength.symm, List.zip_nil_right,
          List.append_nil, List.append_nil]
      have hnone : (((cpi ++ extra).zip matched).findIdx? fun (c, m) => !m && c == event) = none := by
        rw [hzip, List.findIdx?_eq_none_iff]
        rintro ⟨c, m⟩ hmem
        simp [h c (List.of_mem_zip hmem).1 event List.mem_cons_self]
      rw [List.foldl_cons, addLogEvent]
      simp only [hnone]
      rw [List.append_assoc, ih (extra ++ [event]) fun c hc e he =>
        h c hc e (List.mem_cons_of_mem event he)]
      simp

end ProgramParser

/-! ## Positions of reported lines -/

section Positions

variable {Event : Type} (parser : EventParser Event) (targetProgram : List Char)

/-- The scan of the lines from position `pos` on, with the position of each event. -/
def creditedLines : List (List Char) → Nat → List LogLine → List (Nat × Event)
  | _, _, [] => []
  | stack, pos, line :: rest =>
      let scan := EventScan.step parser targetProgram ⟨stack, []⟩ line
      scan.events.map (fun event => (pos, event)) ++
        creditedLines scan.invocationStack (pos + 1) rest

theorem step_append (scan : EventScan Event) (line : LogLine) :
    scan.step parser targetProgram line =
      ⟨(EventScan.step parser targetProgram ⟨scan.invocationStack, []⟩ line).invocationStack,
        scan.events ++
          (EventScan.step parser targetProgram ⟨scan.invocationStack, []⟩ line).events⟩ := by
  simp only [EventScan.step]
  cases invokedProgram line with
  | some program => simp
  | none =>
      cases closesInvocation line with
      | true => simp
      | false =>
          cases dataPayload line with
          | none => simp
          | some encoded =>
              simp only [Bool.false_eq_true, if_false]
              split
              · simp
              · cases parser.resolveEncoded encoded <;> simp

theorem foldl_events (scan : EventScan Event) (pos : Nat) (logs : List LogLine) :
    (logs.foldl (EventScan.step parser targetProgram) scan).events =
      scan.events ++ (creditedLines parser targetProgram scan.invocationStack pos logs).map
        Prod.snd := by
  induction logs generalizing scan pos with
  | nil => simp [creditedLines]
  | cons line logs ih =>
      rw [List.foldl_cons, ih _ (pos + 1), step_append, creditedLines]
      simp [Function.comp_def]

/-- A reported event is the event of the line at its position. -/
theorem resolve_of_mem_creditedLines {stack : List (List Char)} {pos i : Nat} {event : Event}
    {logs : List LogLine} (h : (i, event) ∈ creditedLines parser targetProgram stack pos logs) :
    pos ≤ i ∧ ∃ line, logs[i - pos]? = some line ∧
      (dataPayload line).bind parser.resolveEncoded = some event := by
  induction logs generalizing stack pos with
  | nil => simp [creditedLines] at h
  | cons line logs ih =>
      rw [creditedLines, List.mem_append] at h
      obtain h | h := h
      · obtain ⟨e, he, heq⟩ := List.mem_map.mp h
        cases heq
        refine ⟨le_rfl, line, by simp, ?_⟩
        simp only [EventScan.step] at he
        cases hinvoked : invokedProgram line with
        | some program => simp [hinvoked] at he
        | none =>
            cases hcloses : closesInvocation line with
            | true => simp [hinvoked, hcloses] at he
            | false =>
                cases hdata : dataPayload line with
                | none => simp [hinvoked, hcloses, hdata] at he
                | some encoded =>
                    simp only [hinvoked, hcloses, hdata, Bool.false_eq_true, if_false] at he
                    split at he
                    · cases he
                    · cases hresolve : parser.resolveEncoded encoded with
                      | none => simp [hresolve] at he
                      | some resolved =>
                          rw [Option.bind_some, hresolve]
                          simpa [hresolve, eq_comm] using he
      · obtain ⟨hle, line', hget, hevent⟩ := ih h
        refine ⟨by omega, line', ?_, hevent⟩
        have hindex : i - pos = i - (pos + 1) + 1 := by omega
        rw [hindex, List.getElem?_cons_succ, hget]

/-- The positions of the data lines directly in a frame of the program. -/
def attributedLines : List (List Char) → Nat → List LogLine → List Nat
  | _, _, [] => []
  | opened, pos, line :: rest =>
      (attributedEvent parser targetProgram opened line).toList.map (fun _ => pos) ++
        attributedLines (frameStep opened line) (pos + 1) rest

theorem creditedLines_positions {stack : List (List Char)} {pos : Nat} {logs : List LogLine}
    (h : ReadAlike stack logs) :
    (creditedLines parser targetProgram stack pos logs).map Prod.fst =
      attributedLines parser targetProgram stack pos logs := by
  induction logs generalizing stack pos with
  | nil => rfl
  | cons line logs ih =>
      obtain ⟨hline, hlogs⟩ := readAlike_cons.mp h
      have hstack := (step_invocationStack_iff parser targetProgram ⟨stack, []⟩ line).mpr hline
      have hevents := step_events parser targetProgram ⟨stack, []⟩ line hline
      rw [creditedLines, attributedLines, List.map_append, ih (hstack ▸ hlogs), hstack, hevents]
      simp [Function.comp_def]

theorem attributedLines_append (opened : List (List Char)) (pos : Nat)
    (front back : List LogLine) :
    attributedLines parser targetProgram opened pos (front ++ back) =
      attributedLines parser targetProgram opened pos front ++
        attributedLines parser targetProgram (front.foldl frameStep opened) (pos + front.length)
          back := by
  induction front generalizing opened pos with
  | nil => rfl
  | cons line front ih =>
      rw [List.cons_append, attributedLines, ih, attributedLines, List.append_assoc,
        List.foldl_cons, List.length_cons, Nat.add_assoc, Nat.add_comm 1]

/-- Positions come in increasing order. -/
theorem attributedLines_pairwise (opened : List (List Char)) (pos : Nat) (logs : List LogLine) :
    (attributedLines parser targetProgram opened pos logs).Pairwise (· < ·) ∧
      ∀ i ∈ attributedLines parser targetProgram opened pos logs, pos ≤ i := by
  induction logs generalizing opened pos with
  | nil => simp [attributedLines]
  | cons line logs ih =>
      obtain ⟨hpairwise, hle⟩ := ih (frameStep opened line) (pos + 1)
      rw [attributedLines]
      cases attributedEvent parser targetProgram opened line with
      | none =>
          refine ⟨by simpa using hpairwise, fun i hi => ?_⟩
          have hi := hle i (by simpa using hi)
          omega
      | some event =>
          simp only [Option.toList_some, List.map_cons, List.map_nil, List.singleton_append,
            List.pairwise_cons, List.mem_cons, forall_eq_or_imp]
          refine ⟨⟨fun i hi => ?_, hpairwise⟩, le_rfl, fun i hi => ?_⟩
          · have hi := hle i hi
            omega
          · have hi := hle i hi
            omega

end Positions

/-! ## Frames of a rendered transaction -/

/-- The line lies in the frame of the instruction and in no frame of its children. -/
def DirectlyHolds (ix : InstructionUpdate) (i : Nat) : Prop :=
  ix.logRange.Holds i ∧ ∀ child ∈ ix.inner, ¬child.logRange.Holds i

/-- The frames below a rendered list lie within its lines. -/
theorem renders_within_preorder {bs58 : Bs58} {depth pos : Nat}
    {ixs framed : List InstructionUpdate} {lines : List LogLine}
    (h : Renders bs58 depth pos ixs lines framed) :
    ∀ d ∈ framed.flatMap preorder,
      pos ≤ d.logRange.start ∧ d.logRange.stop ≤ pos + lines.length := by
  induction h with
  | done => simp
  | other _ _ ih =>
      intro d hd
      have hrange := ih d hd
      rw [List.length_cons]
      omega
  | @frame depth pos ix ixs inner framed body lines failure _ _ ihbody ihrest =>
      intro d hd
      simp only [List.length_cons, List.length_append]
      rw [List.flatMap_cons, preorder_eq, List.mem_append, List.mem_cons] at hd
      obtain (rfl | hd) | hd := hd
      · simp only [InstructionUpdate.inFrame]
        omega
      · have hrange := ihbody d hd
        omega
      · have hrange := ihrest d hd
        omega

/-- The instruction has its frame at a place of the log. -/
def Framed (bs58 : Bs58) (logs : List LogLine) (d : InstructionUpdate) : Prop :=
  ∃ depth pos ix inner body failure rest, d = InstructionUpdate.inFrame ix inner pos
      (pos + body.length + 2) ∧ Renders bs58 (depth + 1) (pos + 1) ix.inner body inner ∧
    logs.drop pos =
      invokeLine bs58 ix.program depth :: (body ++ closeLine bs58 ix.program failure :: rest)

/-- The instruction and all below it have no lines. -/
def Silent (d : InstructionUpdate) : Prop := ∀ o ∈ d.preorder, o.logRange = ⟨0, 0⟩

/-- Of two instructions, the second is below the first, or their frames are apart. -/
def BelowOrApart (a b : InstructionUpdate) : Prop :=
  b ∈ a.inner.flatMap preorder ∨ ∀ i, ¬(a.logRange.Holds i ∧ b.logRange.Holds i)

section Rendered

variable {bs58 : Bs58} {logs : List LogLine}

theorem framed_of_renders {depth pos : Nat} {ixs framed : List InstructionUpdate}
    {lines rest : List LogLine} (h : Renders bs58 depth pos ixs lines framed)
    (hlogs : logs.drop pos = lines ++ rest) : ∀ d ∈ framed.flatMap preorder, Framed bs58 logs d := by
  induction h generalizing rest with
  | done => simp
  | other _ _ ih => exact ih (drop_eq_cons hlogs).2
  | @frame depth pos ix ixs inner framed body lines failure hbody _ ihbody ihrest =>
      rw [List.cons_append, List.append_assoc] at hlogs
      obtain ⟨-, hdrop, -, hafter⟩ := drop_eq_frame hlogs
      intro d hd
      rw [List.flatMap_cons, preorder_eq, List.mem_append, List.mem_cons] at hd
      obtain (rfl | hd) | hd := hd
      · exact ⟨depth, pos, ix, inner, body, failure, _, rfl, hbody, hlogs⟩
      · exact ihbody hdrop d hd
      · exact ihrest hafter d hd

theorem pairwise_of_renders {depth pos : Nat} {ixs framed : List InstructionUpdate}
    {lines : List LogLine} (h : Renders bs58 depth pos ixs lines framed) :
    (framed.flatMap preorder).Pairwise BelowOrApart := by
  induction h with
  | done => simp
  | other _ _ ih => exact ih
  | @frame depth pos ix ixs inner framed body lines failure hbody hrest ihbody ihrest =>
      rw [List.flatMap_cons, preorder_eq, List.cons_append, List.pairwise_cons,
        List.pairwise_append]
      have hinside := renders_within_preorder hbody
      have hafter := renders_within_preorder hrest
      refine ⟨fun b hb => ?_, ihbody, ihrest, fun a ha b hb => Or.inr fun i hboth => ?_⟩
      · obtain hb | hb := List.mem_append.mp hb
        · exact Or.inl hb
        · refine Or.inr fun i hboth => ?_
          have hstop := hboth.1.2
          have hstart := hboth.2.1
          have hrange := hafter b hb
          simp only [InstructionUpdate.inFrame] at hstop
          omega
      · have hrange := hinside a ha
        have hrange' := hafter b hb
        have hstop := hboth.1.2
        have hstart := hboth.2.1
        omega

theorem silent_stripLogs (ix : InstructionUpdate) : Silent ix.stripLogs := by
  intro o ho
  rw [preorder_stripLogs] at ho
  obtain ⟨child, -, rfl⟩ := List.mem_map.mp ho
  rw [stripLogs_eq]

theorem Silent.not_holds {d o : InstructionUpdate} (h : Silent d) (ho : o ∈ d.preorder) (i : Nat) :
    ¬o.logRange.Holds i := by
  rw [h o ho]
  exact fun hholds => Nat.not_lt_zero i hholds.2

theorem mem_preorder_self (ix : InstructionUpdate) : ix ∈ ix.preorder := by
  rw [preorder_eq]
  exact List.mem_cons_self

/-- What is below an instruction below another one is below that one. -/
theorem preorder_sublist {d ix : InstructionUpdate} (h : d ∈ ix.preorder) :
    d.preorder.Sublist ix.preorder := by
  induction ix using tree_induction with
  | step ix ih =>
      rw [preorder_eq ix] at h ⊢
      obtain rfl | h := List.mem_cons.mp h
      · rw [preorder_eq]
      · obtain ⟨child, hchild, hd⟩ := List.mem_flatMap.mp h
        refine (ih child hchild hd).trans (.cons _ ?_)
        obtain ⟨front, back, heq⟩ := List.append_of_mem hchild
        rw [heq, List.flatMap_append, List.flatMap_cons]
        exact (List.sublist_append_left _ _).trans (List.sublist_append_right _ _)

theorem Silent.below {d o : InstructionUpdate} (h : Silent d) (ho : o ∈ d.preorder) : Silent o :=
  fun c hc => h c ((preorder_sublist ho).subset hc)

/-- The instructions of a rendered transaction have a frame or no lines at all, and any two
of them are one below the other or apart. -/
theorem visited_of_rendersOuter {precompile : Pubkey → Prop} {pos : Nat}
    {ixs framed : List InstructionUpdate} {lines : List LogLine}
    (h : RendersOuter bs58 precompile pos ixs lines framed) (hlogs : logs.drop pos = lines) :
    (∀ d ∈ framed.flatMap preorder, Framed bs58 logs d ∨ Silent d) ∧
      (framed.flatMap preorder).Pairwise BelowOrApart ∧
      ∀ d ∈ framed.flatMap preorder, ∀ i, d.logRange.Holds i → pos ≤ i := by
  induction h with
  | done => simp
  | other _ _ ih =>
      obtain ⟨hframed, hpairwise, hafter⟩ := ih (drop_eq_cons hlogs).2
      refine ⟨hframed, hpairwise, fun d hd i hi => ?_⟩
      have hle := hafter d hd i hi
      omega
  | @silent pos ix ixs framed lines _ _ ih =>
      obtain ⟨hframed, hpairwise, hafter⟩ := ih hlogs
      have hsilent := silent_stripLogs ix
      rw [List.flatMap_cons]
      refine ⟨fun d hd => ?_, List.pairwise_append.mpr ⟨?_, hpairwise, ?_⟩, fun d hd i hi => ?_⟩
      · obtain hd | hd := List.mem_append.mp hd
        · exact Or.inr (hsilent.below hd)
        · exact hframed d hd
      · refine List.pairwise_of_forall_mem_list fun a ha b _ => Or.inr fun i hboth => ?_
        exact hsilent.not_holds ha i hboth.1
      · exact fun a ha b _ => Or.inr fun i hboth => hsilent.not_holds ha i hboth.1
      · obtain hd | hd := List.mem_append.mp hd
        · exact absurd hi (hsilent.not_holds hd i)
        · exact hafter d hd i hi
  | @frame pos ix ixs inner framed body lines failure _ hbody _ ih =>
      obtain ⟨-, hdrop, -, hrest⟩ := drop_eq_frame hlogs
      obtain ⟨hframed, hpairwise, hafter⟩ := ih hrest
      have hinside := renders_within_preorder hbody
      rw [List.flatMap_cons, preorder_eq, List.cons_append]
      refine ⟨?_, List.pairwise_cons.mpr ⟨?_, List.pairwise_append.mpr
        ⟨pairwise_of_renders hbody, hpairwise, ?_⟩⟩, ?_⟩
      · intro d hd
        obtain rfl | hd := List.mem_cons.mp hd
        · exact Or.inl ⟨1, pos, ix, inner, body, failure, lines, rfl, hbody, hlogs⟩
        · obtain hd | hd := List.mem_append.mp hd
          · exact Or.inl (framed_of_renders hbody hdrop d hd)
          · exact hframed d hd
      · intro b hb
        obtain hb | hb := List.mem_append.mp hb
        · exact Or.inl hb
        · refine Or.inr fun i hboth => ?_
          have hle := hafter b hb i hboth.2
          have hlt := hboth.1.2
          simp only [InstructionUpdate.inFrame] at hlt
          omega
      · intro a ha b hb
        refine Or.inr fun i hboth => ?_
        have hle := hafter b hb i hboth.2
        have hlt := hboth.1.2
        have hrange := hinside a ha
        omega
      · intro d hd i hi
        obtain rfl | hd := List.mem_cons.mp hd
        · exact hi.1
        · obtain hd | hd := List.mem_append.mp hd
          · have hrange := hinside d hd
            have hstart := hi.1
            omega
          · have hle := hafter d hd i hi
            omega

/-- A frame contains the frames below it. -/
theorem holds_of_below {d o : InstructionUpdate} (h : Framed bs58 logs d ∨ Silent d)
    (ho : o ∈ d.preorder) {i : Nat} (hi : o.logRange.Holds i) : d.logRange.Holds i := by
  obtain ⟨depth, pos, ix, inner, body, failure, rest, rfl, hbody, -⟩ | hsilent := h
  · rw [preorder_eq] at ho
    obtain rfl | ho := List.mem_cons.mp ho
    · exact hi
    · have hrange := renders_within_preorder hbody o ho
      have hstart := hi.1
      have hstop := hi.2
      constructor
      · show pos ≤ i
        omega
      · show i < pos + body.length + 2
        omega
  · exact absurd hi (hsilent.not_holds ho i)

end Rendered

/-! ## Lines of the program in a slice -/

/-- The line lies directly in the frame of one of the instructions that runs the program. -/
def InFrameOf (programId : Pubkey) (ixs : List InstructionUpdate) (i : Nat) : Prop :=
  ∃ o ∈ ixs, DirectlyHolds o i ∧ o.program = programId

theorem inFrameOf_cons {programId : Pubkey} {ix : InstructionUpdate} {ixs : List InstructionUpdate}
    {i : Nat} : InFrameOf programId (ix :: ixs) i ↔
      (DirectlyHolds ix i ∧ ix.program = programId) ∨ InFrameOf programId ixs i := by
  simp [InFrameOf]

theorem inFrameOf_append {programId : Pubkey} {ixs ixs' : List InstructionUpdate} {i : Nat} :
    InFrameOf programId (ixs ++ ixs') i ↔
      InFrameOf programId ixs i ∨ InFrameOf programId ixs' i := by
  simp only [InFrameOf, List.mem_append, or_and_right, exists_or]

section Lines

variable {Event : Type} (parser : EventParser Event) {bs58 : Bs58} (h58 : bs58.Lawful)
  (programId : Pubkey) {logs : List LogLine}

/-- The event of the data line at a position of the log. -/
def lineEvent (logs : List LogLine) (i : Nat) : Option Event :=
  (logs[i]?).bind fun line => (dataPayload line).bind parser.resolveEncoded

theorem dataPayload_of_ne_other {line : LogLine} (h : classifyLogLine line ≠ .other) :
    dataPayload line = none := by
  by_contra hsome
  obtain ⟨encoded, hencoded⟩ := Option.ne_none_iff_exists'.mp hsome
  exact h (classify_of_data hencoded)

/-- A line that opens or closes a frame has no event. -/
theorem attributedEvent_of_ne_other {target : List Char} {opened : List (List Char)}
    {line : LogLine} (h : classifyLogLine line ≠ .other) :
    attributedEvent parser target opened line = none := by
  simp [attributedEvent, dataPayload_of_ne_other h]

theorem lineEvent_of_ne_other {i : Nat} {line : LogLine} (hget : logs[i]? = some line)
    (h : classifyLogLine line ≠ .other) : lineEvent parser logs i = none := by
  simp [lineEvent, hget, dataPayload_of_ne_other h]

include h58

theorem display_injective {a b : Pubkey} (h : a.display bs58 = b.display bs58) : a = b := by
  have hparse := h58.fromStr_display a
  rw [h, h58.fromStr_display] at hparse
  exact (Option.some.inj hparse).symm

theorem frameProgram_invokeLine (program : Pubkey) (depth : Nat) :
    frameProgram (invokeLine bs58 program depth) = program.display bs58 := by
  rw [frameProgram, invokeLine, programLine_eq, stripPrefix_append, Option.bind_some,
    splitOnce_append (space_not_mem_display h58 program)]
  rfl

theorem frameStep_invokeLine (opened : List (List Char)) (program : Pubkey) (depth : Nat) :
    frameStep opened (invokeLine bs58 program depth) = program.display bs58 :: opened := by
  simp only [frameStep, classify_invokeLine h58, frameProgram_invokeLine h58]

theorem frameStep_closeLine (opened : List (List Char)) (program : Pubkey)
    (failure : Option (List Char)) :
    frameStep opened (closeLine bs58 program failure) = opened.tail := by
  simp only [frameStep, classify_closeLine h58]

/-- Rendered lines leave the open frames as they were. -/
theorem foldl_frameStep_renders {depth pos : Nat} {ixs framed : List InstructionUpdate}
    {lines : List LogLine} (h : Renders bs58 depth pos ixs lines framed)
    (opened : List (List Char)) : lines.foldl frameStep opened = opened := by
  induction h generalizing opened with
  | done => rfl
  | other hline _ ih => rw [List.foldl_cons, frameStep, hline, ih]
  | frame failure _ _ ihbody ihrest =>
      rw [List.foldl_cons, List.foldl_append, List.foldl_cons, frameStep_invokeLine h58, ihbody,
        frameStep_closeLine h58, List.tail_cons, ihrest]

/-- The positions in a frame, those of its body: the boundary lines have no event. -/
theorem attributedLines_frame {depth pos : Nat} {program : Pubkey}
    {ixs inner : List InstructionUpdate} {body rest : List LogLine} {failure : Option (List Char)}
    (hbody : Renders bs58 (depth + 1) (pos + 1) ixs body inner) (target : List Char)
    (opened : List (List Char)) :
    attributedLines parser target opened pos (invokeLine bs58 program depth ::
        (body ++ closeLine bs58 program failure :: rest)) =
      attributedLines parser target (program.display bs58 :: opened) (pos + 1) body ++
        attributedLines parser target opened (pos + body.length + 2) rest := by
  have hinvoke : attributedEvent parser target opened (invokeLine bs58 program depth) = none :=
    attributedEvent_of_ne_other parser (by rw [classify_invokeLine h58]; decide)
  have hclose : attributedEvent parser target (program.display bs58 :: opened)
      (closeLine bs58 program failure) = none :=
    attributedEvent_of_ne_other parser (by rw [classify_closeLine h58]; decide)
  have hpos : pos + 1 + body.length + 1 = pos + body.length + 2 := by omega
  rw [attributedLines, hinvoke, frameStep_invokeLine h58, attributedLines_append,
    foldl_frameStep_renders h58 hbody, attributedLines, hclose, frameStep_closeLine h58, hpos]
  rfl

/-- In rendered lines, the positions of the program's event lines: those directly in a frame
of the program, where the frame around the lines counts as the last one. -/
theorem mem_attributedLines_renders {depth pos : Nat} {ixs framed : List InstructionUpdate}
    {lines rest : List LogLine} (h : Renders bs58 depth pos ixs lines framed)
    (hlogs : logs.drop pos = lines ++ rest) (opened : List (List Char)) (i : Nat) :
    i ∈ attributedLines parser (programId.display bs58) opened pos lines ↔
      pos ≤ i ∧ i < pos + lines.length ∧ (lineEvent parser logs i).isSome ∧
        (InFrameOf programId (framed.flatMap preorder) i ∨
          ((∀ f ∈ framed, ¬f.logRange.Holds i) ∧
            opened.head? = some (programId.display bs58))) := by
  induction h generalizing rest opened with
  | done => simp [attributedLines]; omega
  | @other depth pos ixs framed line lines hline hrest ih =>
      obtain ⟨hget, hdrop⟩ := drop_eq_cons hlogs
      have hstep : frameStep opened line = opened := by simp only [frameStep, hline]
      rw [attributedLines, hstep, List.mem_append, ih hdrop, List.length_cons]
      by_cases hi : i = pos
      · subst hi
        have hbelow : ¬InFrameOf programId (framed.flatMap preorder) i := by
          rintro ⟨o, ho, hholds, -⟩
          have hrange := renders_within_preorder hrest o ho
          have hstart := hholds.1.1
          omega
        have hframed : ∀ f ∈ framed, ¬f.logRange.Holds i := by
          intro f hf hholds
          have hrange := hrest.within f hf
          have hstart := hholds.1
          omega
        have hevent : lineEvent parser logs i = (dataPayload line).bind parser.resolveEncoded := by
          rw [lineEvent, hget, Option.bind_some]
        rw [hevent, attributedEvent]
        by_cases htop : opened.head? = some (programId.display bs58)
        · cases (dataPayload line).bind parser.resolveEncoded with
          | none => simp
          | some event => simpa [htop] using Or.inr hframed
        · simp [htop, hbelow]
      · have hfirst : i ∉ (attributedEvent parser (programId.display bs58) opened
            line).toList.map fun _ => pos := by
          intro hmem
          obtain ⟨-, -, rfl⟩ := List.mem_map.mp hmem
          exact hi rfl
        have hle : pos + 1 ≤ i ↔ pos ≤ i := by omega
        have hlt : i < pos + 1 + lines.length ↔ i < pos + (lines.length + 1) := by omega
        rw [hle, hlt]
        simp only [hfirst, false_or]
  | @frame depth pos ix ixs inner framed body lines failure hbody hrest ihbody ihrest =>
      rw [List.cons_append, List.append_assoc] at hlogs
      obtain ⟨hget, hdrop, hclose, hafter⟩ := drop_eq_frame hlogs
      have hinside := renders_within_preorder hbody
      have houtside := renders_within_preorder hrest
      have hdisplay : (ix.program.display bs58 :: opened).head? = some (programId.display bs58) ↔
          ix.program = programId := by
        rw [List.head?_cons, Option.some.injEq]
        exact ⟨display_injective h58, fun h => by rw [h]⟩
      have hin : InFrameOf programId (inner.flatMap preorder) i →
          pos + 1 ≤ i ∧ i < pos + 1 + body.length := by
        rintro ⟨o, ho, hholds, -⟩
        have hrange := hinside o ho
        have hstart := hholds.1.1
        have hstop := hholds.1.2
        omega
      have hout : InFrameOf programId (framed.flatMap preorder) i → pos + body.length + 2 ≤ i := by
        rintro ⟨o, ho, hholds, -⟩
        have hrange := houtside o ho
        have hstart := hholds.1.1
        omega
      have hown : ∀ d, d = ix.inFrame inner pos (pos + body.length + 2) →
          (DirectlyHolds d i ↔ (pos ≤ i ∧ i < pos + body.length + 2) ∧
            ∀ f ∈ inner, ¬f.logRange.Holds i) := by
        rintro d rfl
        rfl
      -- the boundary lines of the frame carry no event
      have hinvoke : (lineEvent parser logs i).isSome → i ≠ pos := by
        rintro hsome rfl
        rw [lineEvent_of_ne_other parser hget (by rw [classify_invokeLine h58]; decide)] at hsome
        cases hsome
      have hend : (lineEvent parser logs i).isSome → i ≠ pos + 1 + body.length := by
        rintro hsome rfl
        rw [lineEvent_of_ne_other parser hclose (by rw [classify_closeLine h58]; decide)] at hsome
        cases hsome
      have hframe : (ix.inFrame inner pos (pos + body.length + 2)).logRange.Holds i ↔
          pos ≤ i ∧ i < pos + body.length + 2 := Iff.rfl
      have hprogram : (ix.inFrame inner pos (pos + body.length + 2)).program = ix.program := rfl
      have hinner : (ix.inFrame inner pos (pos + body.length + 2)).inner = inner := rfl
      rw [attributedLines_frame parser h58 hbody, List.mem_append, ihbody hdrop, ihrest hafter,
        hdisplay, List.flatMap_cons, preorder_eq, inFrameOf_append, inFrameOf_cons, hown _ rfl,
        hprogram, hinner, List.forall_mem_cons, hframe, List.length_cons, List.length_append,
        List.length_cons]
      clear ihbody ihrest hown hframe hprogram hinner hdisplay hinside houtside
      generalize (∀ f ∈ inner, ¬f.logRange.Holds i) = apart
      generalize (∀ f ∈ framed, ¬f.logRange.Holds i) = apart'
      grind

/-- The event lines of the program in a frame are those directly in one of its frames. -/
theorem mem_attributedLines_inFrame {depth pos : Nat} {ix : InstructionUpdate}
    {inner : List InstructionUpdate} {body rest : List LogLine} {failure : Option (List Char)}
    (hbody : Renders bs58 (depth + 1) (pos + 1) ix.inner body inner)
    (hlogs : logs.drop pos =
      invokeLine bs58 ix.program depth :: (body ++ closeLine bs58 ix.program failure :: rest))
    (i : Nat) :
    i ∈ attributedLines parser (programId.display bs58) [] pos (invokeLine bs58 ix.program depth ::
        (body ++ [closeLine bs58 ix.program failure])) ↔
      (lineEvent parser logs i).isSome ∧
        InFrameOf programId (ix.inFrame inner pos (pos + body.length + 2)).preorder i := by
  have hframe : Renders bs58 depth pos [ix] (invokeLine bs58 ix.program depth ::
      (body ++ [closeLine bs58 ix.program failure]))
      [ix.inFrame inner pos (pos + body.length + 2)] := .frame failure hbody .done
  have hsplit : logs.drop pos = (invokeLine bs58 ix.program depth ::
      (body ++ [closeLine bs58 ix.program failure])) ++ rest := by
    rw [hlogs, List.cons_append, List.append_assoc, List.singleton_append]
  rw [mem_attributedLines_renders parser h58 programId hframe hsplit, List.flatMap_cons,
    List.flatMap_nil, List.append_nil]
  constructor
  · rintro ⟨-, -, hevent, hin | ⟨-, hhead⟩⟩
    · exact ⟨hevent, hin⟩
    · cases hhead
  · rintro ⟨hevent, hin⟩
    have hframed : Framed bs58 logs (ix.inFrame inner pos (pos + body.length + 2)) :=
      ⟨depth, pos, ix, inner, body, failure, rest, rfl, hbody, hlogs⟩
    have hholds : (ix.inFrame inner pos (pos + body.length + 2)).logRange.Holds i := by
      obtain ⟨o, ho, hdirect, -⟩ := hin
      exact holds_of_below (Or.inl hframed) ho hdirect.1
    refine ⟨hholds.1, ?_, hevent, Or.inl hin⟩
    have hstop : i < pos + body.length + 2 := hholds.2
    simp only [List.length_cons, List.length_append, List.length_nil]
    omega

end Lines

/-! ## Reports of a transaction -/

namespace ProgramParser

variable {Ix Event : Type} [BEq Event] (parser : ProgramParser Ix Event) (bs58 : Bs58)

/-- The log events that the scan of an instruction reports, with the positions of their
lines in the transaction log. -/
def reports (ix : InstructionUpdate) : List (Nat × Event) :=
  creditedLines parser.toEventParser (parser.programId.display bs58) [] ix.logRange.start
    ix.logMessages

def reportedLines (ix : InstructionUpdate) : List Nat := (parser.reports bs58 ix).map Prod.fst

/-- The lines that are reported by the instructions that parse, with repetitions. -/
def allReportedLines (visited : List InstructionUpdate) : List Nat :=
  (visited.filter (parser.Parses bs58)).flatMap (parser.reportedLines bs58)

/-- The events of a parsed instruction: those of its self-CPIs, then those of its reports. -/
theorem programEvents_eq {ix : InstructionUpdate}
    (h : ∀ cpi ∈ parser.cpiEvents ix, ∀ i, ix.logRange.Holds i →
      ∀ event, lineEvent parser.toEventParser ix.shared.logMessages i = some event →
        (cpi == event) = false) :
    parser.programEvents bs58 ix =
      parser.cpiEvents ix ++ (parser.reports bs58 ix).map Prod.snd := by
  have hlogEvents : resolveEventsFromLogs parser.toEventParser bs58 parser.programId
      ix.logMessages = (parser.reports bs58 ix).map Prod.snd :=
    (foldl_events parser.toEventParser _ ⟨[], []⟩ ix.logRange.start ix.logMessages).trans
      (List.nil_append _)
  have hdistinct : ∀ cpi ∈ parser.cpiEvents ix, ∀ event ∈ (parser.reports bs58 ix).map Prod.snd,
      (cpi == event) = false := by
    intro cpi hcpi event hevent
    obtain ⟨⟨i, event⟩, hreport, rfl⟩ := List.mem_map.mp hevent
    obtain ⟨hle, line, hget, hresolve⟩ := resolve_of_mem_creditedLines _ _ hreport
    obtain ⟨hlt, -⟩ := List.getElem?_eq_some_iff.mp hget
    have hstop : i < ix.logRange.stop := by
      rw [logMessages, List.length_drop, List.length_take] at hlt
      omega
    refine h cpi hcpi i ⟨hle, hstop⟩ event ?_
    rw [logMessages, List.getElem?_drop, Nat.add_sub_cancel' hle, List.getElem?_take_of_lt hstop]
      at hget
    rw [lineEvent, hget, Option.bind_some, hresolve]
  have hlength : ((parser.cpiEvents ix).map fun _ => false).length = (parser.cpiEvents ix).length :=
    List.length_map _
  have happend := foldl_addLogEvent [] hlength hdistinct
  rw [List.append_nil] at happend
  rw [programEvents, hlogEvents]
  exact happend

section Visited

omit [BEq Event]

variable {parser bs58} (h58 : bs58.Lawful) {logs : List LogLine} {d : InstructionUpdate}
  (hd : Framed bs58 logs d ∨ Silent d) (hshared : d.shared.logMessages = logs)
  (hread : ReadAlike [] d.logMessages)
include h58 hd hshared hread

theorem mem_reportedLines (i : Nat) :
    i ∈ parser.reportedLines bs58 d ↔ (lineEvent parser.toEventParser logs i).isSome ∧
      InFrameOf parser.programId d.preorder i := by
  rw [reportedLines, reports, creditedLines_positions _ _ hread]
  obtain ⟨depth, pos, ix, inner, body, failure, rest, rfl, hbody, hlogs⟩ | hsilent := hd
  · rw [logMessages_inFrame inner hlogs hshared]
    exact mem_attributedLines_inFrame parser.toEventParser h58 parser.programId hbody hlogs i
  · have hrange := hsilent d (mem_preorder_self d)
    constructor
    · intro hmem
      rw [logMessages, hrange] at hmem
      simp [attributedLines] at hmem
    · rintro ⟨-, o, ho, hdirect, -⟩
      exact absurd hdirect.1 (hsilent.not_holds ho i)

omit h58 hd hshared in
theorem nodup_reportedLines : (parser.reportedLines bs58 d).Nodup := by
  rw [reportedLines, reports, creditedLines_positions _ _ hread]
  exact (attributedLines_pairwise _ _ _ _ _).1.imp fun hlt => Nat.ne_of_lt hlt

end Visited

/-- Every event line in the own frame of an instruction that parses is reported once among
all instructions that parse, and by that instruction. -/
def ReportsOnce (logs : List LogLine) (visited : List InstructionUpdate) : Prop :=
  ∀ owner ∈ visited, parser.Parses bs58 owner → ∀ i, DirectlyHolds owner i →
    (lineEvent parser.toEventParser logs i).isSome →
      (parser.allReportedLines bs58 visited).count i = 1 ∧ i ∈ parser.reportedLines bs58 owner

/-- No instruction that parses has an event line in its own frame and lies below another
instruction that parses. -/
def NoNestedEvents (logs : List LogLine) (visited : List InstructionUpdate) : Prop :=
  ∀ d ∈ visited, parser.Parses bs58 d → ∀ owner ∈ d.inner.flatMap preorder,
    parser.Parses bs58 owner → ∀ i, DirectlyHolds owner i →
      lineEvent parser.toEventParser logs i = none

section Forest

variable {parser bs58} (h58 : bs58.Lawful) {logs : List LogLine}
  {visited : List InstructionUpdate}
  (hframed : ∀ d ∈ visited, Framed bs58 logs d ∨ Silent d)
  (hshared : ∀ d ∈ visited, d.shared.logMessages = logs)
  (hread : ∀ d ∈ visited, parser.Parses bs58 d → ReadAlike [] d.logMessages)
include h58 hframed hshared hread

/-- An instruction that parses reports the event lines of its own frame. -/
theorem mem_reportedLines_own {owner : InstructionUpdate} (howner : owner ∈ visited)
    (hparses : parser.Parses bs58 owner) {i : Nat} (hi : DirectlyHolds owner i)
    (hevent : (lineEvent parser.toEventParser logs i).isSome) :
    i ∈ parser.reportedLines bs58 owner := by
  rw [mem_reportedLines h58 (hframed owner howner) (hshared owner howner)
    (hread owner howner hparses)]
  exact ⟨hevent, owner, mem_preorder_self owner, hi, Parses.program hparses⟩

/-- It reports lines of its frame only. -/
theorem holds_of_mem_reportedLines {d : InstructionUpdate} (hd : d ∈ visited)
    (hparses : parser.Parses bs58 d) {i : Nat} (hi : i ∈ parser.reportedLines bs58 d) :
    d.logRange.Holds i := by
  rw [mem_reportedLines h58 (hframed d hd) (hshared d hd) (hread d hd hparses)] at hi
  obtain ⟨-, o, ho, hdirect, -⟩ := hi
  exact holds_of_below (hframed d hd) ho hdirect.1

/-- Without nested event lines, no other instruction that parses reports the line. -/
theorem reportsOnce_of_noNestedEvents (hpairwise : visited.Pairwise BelowOrApart)
    (hclosed : ∀ d ∈ visited, ∀ o ∈ d.preorder, o ∈ visited)
    (h : parser.NoNestedEvents bs58 logs visited) : parser.ReportsOnce bs58 logs visited := by
  intro owner howner hparses i hi hevent
  have hown := mem_reportedLines_own h58 hframed hshared hread howner hparses hi hevent
  refine ⟨?_, hown⟩
  obtain ⟨front, back, heq⟩ := List.append_of_mem howner
  have hsplit : parser.allReportedLines bs58 visited =
      parser.allReportedLines bs58 front ++ (parser.reportedLines bs58 owner ++
        parser.allReportedLines bs58 back) := by
    simp only [allReportedLines, heq, List.filter_append, List.filter_cons, hparses, if_true,
      List.flatMap_append, List.flatMap_cons]
  have hnot : ∀ d ∈ visited, parser.Parses bs58 d → ¬d.logRange.Holds i →
      i ∉ parser.reportedLines bs58 d := fun d hd hp hholds hmem =>
    hholds (holds_of_mem_reportedLines h58 hframed hshared hread hd hp hmem)
  rw [heq, List.pairwise_append, List.pairwise_cons] at hpairwise
  -- an instruction before the owner in preorder is above it or apart from it
  have hfront : i ∉ parser.allReportedLines bs58 front := by
    intro hmem
    obtain ⟨d, hd, hreported⟩ := List.mem_flatMap.mp hmem
    obtain ⟨hd, hp⟩ := List.mem_filter.mp hd
    have hvisited : d ∈ visited := heq ▸ List.mem_append_left _ hd
    obtain hbelow | hapart := hpairwise.2.2 d hd owner List.mem_cons_self
    · have hnone := h d hvisited hp owner hbelow hparses i hi
      rw [hnone] at hevent
      cases hevent
    · exact hnot d hvisited hp (fun hholds => hapart i ⟨hholds, hi.1⟩) hreported
  -- one after it is below it, in the frame of a child, or apart from it
  have hback : i ∉ parser.allReportedLines bs58 back := by
    intro hmem
    obtain ⟨d, hd, hreported⟩ := List.mem_flatMap.mp hmem
    obtain ⟨hd, hp⟩ := List.mem_filter.mp hd
    have hvisited : d ∈ visited := heq ▸ List.mem_append_right _ (List.mem_cons_of_mem owner hd)
    refine hnot d hvisited hp (fun hholds => ?_) hreported
    obtain hbelow | hapart := hpairwise.2.1.1 d hd
    · obtain ⟨child, hchild, hdchild⟩ := List.mem_flatMap.mp hbelow
      have hmemChild : child ∈ owner.preorder := by
        rw [preorder_eq]
        exact List.mem_cons_of_mem owner (List.mem_flatMap.mpr ⟨child, hchild, mem_preorder_self child⟩)
      exact hi.2 child hchild
        (holds_of_below (hframed child (hclosed owner howner child hmemChild)) hdchild hholds)
    · exact hapart i ⟨hi.1, hholds⟩
  rw [hsplit, List.count_append, List.count_append, List.count_eq_zero_of_not_mem hfront,
    List.count_eq_zero_of_not_mem hback,
    List.count_eq_one_of_mem (nodup_reportedLines (hread owner howner hparses)) hown]

/-- A nested event line is reported at least twice. -/
theorem noNestedEvents_of_reportsOnce
    (hsublist : ∀ d ∈ visited, d.preorder.Sublist visited)
    (h : parser.ReportsOnce bs58 logs visited) : parser.NoNestedEvents bs58 logs visited := by
  intro d hd hparses owner howner hownerParses i hi
  by_contra hsome
  have hevent : (lineEvent parser.toEventParser logs i).isSome :=
    Option.isSome_iff_ne_none.mpr hsome
  have hownerVisited : owner ∈ visited := by
    refine (hsublist d hd).subset ?_
    rw [preorder_eq]
    exact List.mem_cons_of_mem d howner
  have hown := mem_reportedLines_own h58 hframed hshared hread hownerVisited hownerParses hi hevent
  have houter : i ∈ parser.reportedLines bs58 d := by
    rw [mem_reportedLines h58 (hframed d hd) (hshared d hd) (hread d hd hparses)]
    refine ⟨hevent, owner, ?_, hi, Parses.program hownerParses⟩
    rw [preorder_eq]
    exact List.mem_cons_of_mem d howner
  have hbelow : i ∈ parser.allReportedLines bs58 (d.inner.flatMap preorder) :=
    List.mem_flatMap.mpr ⟨owner, List.mem_filter.mpr ⟨howner, hownerParses⟩, hown⟩
  have hsub : (parser.allReportedLines bs58 d.preorder).Sublist
      (parser.allReportedLines bs58 visited) :=
    ((hsublist d hd).filter _).flatMap _
  have hsplit : parser.allReportedLines bs58 d.preorder = parser.reportedLines bs58 d ++
      parser.allReportedLines bs58 (d.inner.flatMap preorder) := by
    rw [preorder_eq]
    simp only [allReportedLines, List.filter_cons, hparses, if_true, List.flatMap_cons]
  have hcount := hsub.count_le i
  rw [hsplit, List.count_append, (h owner hownerVisited hownerParses i hi hevent).1] at hcount
  have hone := List.count_pos_iff.mpr houter
  have hmore := List.count_pos_iff.mpr hbelow
  omega

end Forest

end ProgramParser

theorem mem_visited {ixs : List InstructionUpdate} {d : InstructionUpdate}
    (hd : d ∈ ixs.flatMap preorder) : d.preorder.Sublist (ixs.flatMap preorder) := by
  obtain ⟨ix, hix, hd⟩ := List.mem_flatMap.mp hd
  obtain ⟨front, back, heq⟩ := List.append_of_mem hix
  rw [heq, List.flatMap_append, List.flatMap_cons]
  exact (preorder_sublist hd).trans
    ((List.sublist_append_left _ _).trans (List.sublist_append_right _ _))

/-- For every transaction whose log renders its instruction tree and in which no event is
emitted both ways, and whose lines the scans do not misread: the events of a parsed
instruction are those of its self-CPIs and of its reports, and each event line is reported
once, by the instruction of its frame, if and only if no instruction that parses has event
lines of its own and lies below another one that parses. -/
theorem events_reported_once_iff {Ix Event : Type} [BEq Event] (parser : ProgramParser Ix Event)
    (bs58 : Bs58) (h58 : bs58.Lawful) (precompile : Pubkey → Prop)
    (outer framed : List InstructionUpdate) (logs : List LogLine)
    (hempty : ∀ ix ∈ outer, ix.stripLogs = ix)
    (hshared : ∀ ix ∈ outer, ∀ d ∈ ix.visitAll, d.shared.logMessages = logs)
    (hlog : RendersOuter bs58 precompile 0 outer logs framed)
    (honce : ∀ ix ∈ assignLogMessages bs58 logs outer, ∀ d ∈ ix.visitAll, parser.Parses bs58 d →
      ∀ cpi ∈ parser.cpiEvents d, ∀ i, d.logRange.Holds i → ∀ event,
        lineEvent parser.toEventParser logs i = some event → (cpi == event) = false)
    (hread : ∀ ix ∈ assignLogMessages bs58 logs outer, ∀ d ∈ ix.visitAll, parser.Parses bs58 d →
      ∀ front line rest, d.logMessages = front ++ line :: rest → ¬Misread (frames front) line) :
    (∀ ix ∈ assignLogMessages bs58 logs outer, ∀ d ∈ ix.visitAll, ∀ output,
      parser.parse bs58 d = .ok output →
        output.programEvents = parser.cpiEvents d ++ (parser.reports bs58 d).map Prod.snd) ∧
    (parser.ReportsOnce bs58 logs ((assignLogMessages bs58 logs outer).flatMap visitAll) ↔
      parser.NoNestedEvents bs58 logs ((assignLogMessages bs58 logs outer).flatMap visitAll)) := by
  have hassign := assignLogMessages_renders h58 hlog hempty
  have hvisit : visitAll = preorder := funext visitAll_eq
  rw [hvisit] at hshared honce hread ⊢
  have hkept := assignLogMessages_shared bs58 logs (P := fun shared => shared.logMessages = logs)
    hshared
  rw [hassign] at honce hread hkept ⊢
  obtain ⟨hframed, hpairwise, -⟩ := visited_of_rendersOuter hlog List.drop_zero
  have hmem : ∀ d ∈ framed.flatMap preorder, ∃ ix ∈ framed, d ∈ ix.preorder :=
    fun d hd => List.mem_flatMap.mp hd
  have hlogs : ∀ d ∈ framed.flatMap preorder, d.shared.logMessages = logs := by
    intro d hd
    obtain ⟨ix, hix, hd⟩ := hmem d hd
    exact hkept ix hix d hd
  have halike : ∀ d ∈ framed.flatMap preorder, parser.Parses bs58 d →
      ReadAlike [] d.logMessages := by
    intro d hd hparses
    obtain ⟨ix, hix, hd⟩ := hmem d hd
    exact hread ix hix d hd hparses
  refine ⟨fun ix hix d hd output hparse => ?_, ?_, ?_⟩
  · have hparses : parser.Parses bs58 d = true := by rw [ProgramParser.Parses, hparse]
    rw [parser.parse_programEvents bs58 hparse]
    refine parser.programEvents_eq bs58 ?_
    rw [hkept ix hix d hd]
    exact honce ix hix d hd hparses
  · exact ProgramParser.noNestedEvents_of_reportsOnce h58 hframed hlogs halike
      fun d hd => mem_visited hd
  · exact ProgramParser.reportsOnce_of_noNestedEvents h58 hframed hlogs halike hpairwise
      fun d hd o ho => (mem_visited hd).subset ho

/-- A program calls another one, and both emit an event in a data line. -/
def eventLogs (callee : UInt8) : List LogLine :=
  [invokeLine .bitcoin (Vector.replicate 32 0) 1,
    invokeLine .bitcoin (Vector.replicate 32 callee) 2,
    "Program data: AQ==".toList,
    closeLine .bitcoin (Vector.replicate 32 callee) none,
    "Program data: AQ==".toList,
    closeLine .bitcoin (Vector.replicate 32 0) none]

def eventIx (callee program : UInt8) (inner : List InstructionUpdate) : InstructionUpdate where
  program := Vector.replicate 32 program
  accounts := []
  data := [1]
  shared :=
    { slot := 0
      signature := []
      isVote := false
      txnIndex := 0
      err := none
      logMessages := eventLogs callee
      accounts := ⟨[], [], []⟩
      messageHeader := ⟨1, 0, 0⟩ }
  inner := inner
  path := []
  logRange := ⟨0, 0⟩

/-- A program without arguments that emits events of one byte. -/
def byteProgram : ProgramParser Unit UInt8 where
  toEventParser := byteEvents
  programId := Vector.replicate 32 0
  resolveInstructionDefault _ _ _ := .ok ()
  eventIxTag := [0xe4, 0x45, 0xa5, 0x2e, 0x51, 0xcb, 0x9a, 0x1d]
  eventPayloadOffset := 8

/-- The transaction after the assignment of its logs. -/
def eventFramed (callee : UInt8) : List InstructionUpdate :=
  [(eventIx callee 0 []).inFrame [(eventIx callee callee []).inFrame [] 1 4] 0 6]

theorem eventLogs_renders (callee : UInt8) :
    RendersOuter .bitcoin (fun _ => False) 0 [eventIx callee 0 [eventIx callee callee []]]
      (eventLogs callee) (eventFramed callee) := by
  have hdata : classifyLogLine "Program data: AQ==".toList = .other := by decide +kernel
  have hcallee : Renders .bitcoin 2 1 [eventIx callee callee []]
      [invokeLine .bitcoin (Vector.replicate 32 callee) 2, "Program data: AQ==".toList,
        closeLine .bitcoin (Vector.replicate 32 callee) none, "Program data: AQ==".toList]
      [(eventIx callee callee []).inFrame [] 1 4] :=
    @Renders.frame .bitcoin 2 1 (eventIx callee callee []) [] [] []
      ["Program data: AQ==".toList] ["Program data: AQ==".toList] none (.other hdata .done)
      (.other hdata .done)
  exact @RendersOuter.frame .bitcoin _ 0 (eventIx callee 0 [eventIx callee callee []]) []
    [(eventIx callee callee []).inFrame [] 1 4] [] _ [] none not_false hcallee .done

theorem assignLogMessages_eventLogs (callee : UInt8) :
    assignLogMessages .bitcoin (eventLogs callee) [eventIx callee 0 [eventIx callee callee []]] =
      eventFramed callee := by
  refine assignLogMessages_renders Bs58.bitcoin_lawful (eventLogs_renders callee) ?_
  simp [eventIx, stripLogs_eq]

/-- A program that calls itself. Both instructions parse, and the event of the inner one is
reported by both of them. -/
theorem self_call_reports_twice :
    RendersOuter .bitcoin (fun _ => False) 0 [eventIx 0 0 [eventIx 0 0 []]] (eventLogs 0)
        (eventFramed 0) ∧
      assignLogMessages .bitcoin (eventLogs 0) [eventIx 0 0 [eventIx 0 0 []]] = eventFramed 0 ∧
      ((eventFramed 0).flatMap visitAll).flatMap byteProgram.cpiEvents = [] ∧
      ((eventFramed 0).flatMap visitAll).map (byteProgram.Parses .bitcoin) = [true, true] ∧
      ((eventFramed 0).flatMap visitAll).map (byteProgram.reportedLines .bitcoin) =
        [[2, 4], [2]] ∧
      ¬byteProgram.ReportsOnce .bitcoin (eventLogs 0) ((eventFramed 0).flatMap visitAll) := by
  refine ⟨eventLogs_renders 0, assignLogMessages_eventLogs 0, by decide +kernel,
    by decide +kernel, by decide +kernel, fun h => ?_⟩
  have hmem : (eventIx 0 0 []).inFrame [] 1 4 ∈ (eventFramed 0).flatMap visitAll := by
    simp [eventFramed, visitAll_eq, preorder_eq, InstructionUpdate.inFrame, eventIx]
  have hparses : byteProgram.Parses .bitcoin ((eventIx 0 0 []).inFrame [] 1 4) = true := by
    decide +kernel
  have hholds : DirectlyHolds ((eventIx 0 0 []).inFrame [] 1 4) 2 := by
    refine ⟨⟨?_, ?_⟩, ?_⟩ <;> simp [InstructionUpdate.inFrame]
  have hevent : (lineEvent byteEvents (eventLogs 0) 2).isSome := by decide +kernel
  have hcount : (byteProgram.allReportedLines .bitcoin
      ((eventFramed 0).flatMap visitAll)).count 2 = 2 := by decide +kernel
  have honce := (h _ hmem hparses 2 hholds hevent).1
  rw [hcount] at honce
  cases honce

/-- Of a call to another program, the parser accepts the caller only. -/
theorem eventFramed_parses {d : InstructionUpdate}
    (hd : d ∈ (eventFramed 1).flatMap preorder) (hparses : byteProgram.Parses .bitcoin d) :
    d = (eventIx 1 0 []).inFrame [(eventIx 1 1 []).inFrame [] 1 4] 0 6 := by
  simp only [eventFramed, preorder, preorder.below, InstructionUpdate.inFrame, List.flatMap_cons,
    List.flatMap_nil, List.append_nil, List.mem_cons, List.not_mem_nil, or_false] at hd
  obtain rfl | rfl := hd
  · rfl
  · exact absurd (ProgramParser.Parses.program hparses) (by decide +kernel)

/-- The caller of another program reports its own event line, and only that. -/
theorem foreign_call_reports_once :
    byteProgram.ReportsOnce .bitcoin (eventLogs 1)
      ((assignLogMessages .bitcoin (eventLogs 1) [eventIx 1 0 [eventIx 1 1 []]]).flatMap
        visitAll) := by
  have hvisit : visitAll = preorder := funext visitAll_eq
  have hcaller : ∀ ix ∈ eventFramed 1, ∀ d ∈ ix.visitAll, byteProgram.Parses .bitcoin d →
      d = (eventIx 1 0 []).inFrame [(eventIx 1 1 []).inFrame [] 1 4] 0 6 := by
    intro ix hix d hd hparses
    rw [hvisit] at hd
    exact eventFramed_parses (List.mem_flatMap.mpr ⟨ix, hix, hd⟩) hparses
  refine (events_reported_once_iff byteProgram .bitcoin Bs58.bitcoin_lawful (fun _ => False)
    [eventIx 1 0 [eventIx 1 1 []]] (eventFramed 1) (eventLogs 1) ?_ ?_ (eventLogs_renders 1)
    ?_ ?_).2.mpr ?_
  · simp [eventIx, stripLogs_eq]
  · simp [eventIx, visitAll_eq, preorder, preorder.below]
  · rw [assignLogMessages_eventLogs]
    intro ix hix d hd hparses cpi hcpi
    have hnone : byteProgram.cpiEvents
        ((eventIx 1 0 []).inFrame [(eventIx 1 1 []).inFrame [] 1 4] 0 6) = [] := by decide +kernel
    rw [hcaller ix hix d hd hparses, hnone] at hcpi
    cases hcpi
  · rw [assignLogMessages_eventLogs]
    intro ix hix d hd hparses
    rw [hcaller ix hix d hd hparses]
    show ReadAlike [] (eventLogs 1)
    have hlines : ∀ n < 6, ¬Misread (frames ((eventLogs 1).take n)) ((eventLogs 1).getD n []) := by
      simp only [Misread]
      decide +kernel
    intro front line rest heq
    have hlength : front.length < 6 := by
      have hlogs := congrArg List.length heq
      simp only [eventLogs, List.length_cons, List.length_nil, List.length_append] at hlogs
      omega
    simpa [heq, frames] using hlines front.length hlength
  · rw [assignLogMessages_eventLogs, hvisit]
    intro d hd hparses owner howner hownerParses
    rw [eventFramed_parses hd hparses] at howner
    simp only [preorder, preorder.below, InstructionUpdate.inFrame, List.flatMap_cons,
      List.flatMap_nil, List.append_nil, List.mem_cons, List.not_mem_nil, or_false] at howner
    rw [howner] at hownerParses
    exact absurd (ProgramParser.Parses.program hownerParses) (by decide +kernel)

end Shipstern.Codegen
