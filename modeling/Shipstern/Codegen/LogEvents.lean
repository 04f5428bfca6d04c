import Shipstern.Core.LogAttribution

/-!
# Events from the log lines of a program

The generated `resolve_events_from_logs`: one pass over the lines with a stack of the
programs that are running. It recognises the lines that open and close a frame by
substrings, where the core looks at the structure of a line (`classifyLogLine`).

`frames` is the stack by the core's reading. The two stacks agree on a list of lines if and
only if no line is misread, and then the events are those of the core's frames.
-/

open Shipstern.Core

namespace Shipstern.Codegen

/-! ## The generated scanner -/

/-- `str::split_once` at a text. -/
def splitOnceText (delimiter : List Char) : List Char → Option (List Char × List Char)
  | [] => (stripPrefix delimiter []).map fun back => ([], back)
  | c :: text =>
      match stripPrefix delimiter (c :: text) with
      | some back => some ([], back)
      | none => (splitOnceText delimiter text).map fun (front, back) => (c :: front, back)

/-- The program of a line that opens a frame. -/
def invokedProgram (line : LogLine) : Option (List Char) := do
  let line ← stripPrefix "Program ".toList line
  let (program, _) ← splitOnceText " invoke [".toList line
  some program

def closesInvocation (line : LogLine) : Bool :=
  "Program ".toList <+: line ∧ (" success".toList <:+ line ∨ " failed:".toList <:+: line)

/-- What follows the prefix of a data line. -/
def dataPayload (line : LogLine) : Option (List Char) := stripPrefix "Program data: ".toList line

/-- `str::trim`. -/
def trim (text : List Char) : List Char :=
  ((text.dropWhile isWhitespace).reverse.dropWhile isWhitespace).reverse

/-- What the generated code calls on the payload of an event: the `STANDARD` engine of the
`base64` crate, and the resolution of an event by its discriminator. -/
structure EventParser (Event : Type) where
  decodeBase64 : List Char → Option (List UInt8)
  resolveEventDefault : List Pubkey → List UInt8 → Option Event

namespace EventParser

variable {Event : Type} (parser : EventParser Event)

/-- The event in the text of a `Program data: ` line. -/
def resolveEncoded (encoded : List Char) : Option Event := do
  let decoded ← parser.decodeBase64 (trim encoded)
  parser.resolveEventDefault [] decoded

end EventParser

/-- The variables of the loop. The top of the stack comes first. -/
structure EventScan (Event : Type) where
  invocationStack : List (List Char)
  events : List Event

section Scan

variable {Event : Type} (parser : EventParser Event) (targetProgram : List Char)

/-- One turn of the loop. -/
def EventScan.step (scan : EventScan Event) (line : LogLine) : EventScan Event :=
  match invokedProgram line with
  | some program => { scan with invocationStack := program :: scan.invocationStack }
  | none =>
      if closesInvocation line then { scan with invocationStack := scan.invocationStack.tail }
      else
        match dataPayload line with
        | none => scan
        | some encoded =>
            if scan.invocationStack.head? ≠ some targetProgram then scan
            else
              match parser.resolveEncoded encoded with
              | none => scan
              | some event => { scan with events := scan.events ++ [event] }

def scanLogs (logs : List LogLine) : EventScan Event :=
  logs.foldl (EventScan.step parser targetProgram) ⟨[], []⟩

/-- The events of the program's own data lines. -/
def resolveEventsFromLogs (bs58 : Bs58) (programId : Pubkey) (logs : List LogLine) : List Event :=
  (scanLogs parser (programId.display bs58) logs).events

end Scan

/-! ## Frames by the core's reading -/

/-- The second word of a line, where an invoke line has its program. -/
def frameProgram (line : LogLine) : List Char :=
  (((stripPrefix "Program ".toList line).bind (splitOnce ' ')).map Prod.fst).getD []

/-- What a line does to the open frames. -/
def frameStep (opened : List (List Char)) (line : LogLine) : List (List Char) :=
  match classifyLogLine line with
  | .invoke => frameProgram line :: opened
  | .close => opened.tail
  | .other => opened

/-- The frames that are open after the lines, the innermost first. -/
def frames (logs : List LogLine) : List (List Char) := logs.foldl frameStep []

section Reference

variable {Event : Type} (parser : EventParser Event) (targetProgram : List Char)

/-- The event of a line, given the frames that are open. -/
def attributedEvent (opened : List (List Char)) (line : LogLine) : Option Event :=
  if opened.head? = some targetProgram then
    (dataPayload line).bind parser.resolveEncoded
  else none

/-- The events of the data lines directly in a frame of the program, in order. -/
def attributedEvents : List (List Char) → List LogLine → List Event
  | _, [] => []
  | opened, line :: rest =>
      (attributedEvent parser targetProgram opened line).toList ++
        attributedEvents (frameStep opened line) rest

end Reference

/-! ## Lines that are read alike -/

theorem stripPrefix_eq_some {pattern text rest : List Char} :
    stripPrefix pattern text = some rest ↔ text = pattern ++ rest := by
  induction pattern generalizing text with
  | nil =>
      simp only [stripPrefix, Option.some.injEq, List.nil_append]
  | cons p pattern ih =>
      cases text with
      | nil => simp [stripPrefix]
      | cons c text =>
          by_cases hc : p = c
          · simp [stripPrefix, hc, ih]
          · have hc' : c ≠ p := fun h => hc h.symm
            simp [stripPrefix, hc, hc']

theorem splitOnce_eq_some {delimiter : Char} {text front back : List Char}
    (h : splitOnce delimiter text = some (front, back)) :
    text = front ++ delimiter :: back ∧ delimiter ∉ front := by
  induction text generalizing front with
  | nil => simp [splitOnce] at h
  | cons c text ih =>
      by_cases hc : c = delimiter
      · simp only [splitOnce, hc, if_true, Option.some.injEq, Prod.mk.injEq] at h
        obtain ⟨rfl, rfl⟩ := h
        simp [hc]
      · simp only [splitOnce, hc, if_false, Option.map_eq_some_iff, Prod.mk.injEq,
          Prod.exists] at h
        obtain ⟨front', back', hsplit, rfl, rfl⟩ := h
        obtain ⟨htext, hnot⟩ := ih hsplit
        have hc' : delimiter ≠ c := fun h => hc h.symm
        simp [htext, hnot, hc']

/-- Text before the first character of the delimiter stays in front. -/
theorem splitOnceText_append {d : Char} {delimiter front text : List Char} (h : d ∉ front) :
    splitOnceText (d :: delimiter) (front ++ text) =
      (splitOnceText (d :: delimiter) text).map fun (f, b) => (front ++ f, b) := by
  induction front with
  | nil => simp
  | cons c front ih =>
      have hc : d ≠ c := fun heq => h (heq ▸ List.mem_cons_self)
      have hfront : d ∉ front := fun hmem => h (List.mem_cons_of_mem c hmem)
      simp [splitOnceText, stripPrefix, hc, ih hfront, Function.comp_def]

/-- The words of a line that opens or closes a frame. -/
theorem classify_ne_other {line : LogLine} (h : classifyLogLine line ≠ .other) :
    ∃ second tail, line = "Program ".toList ++ (second ++ ' ' :: tail) ∧ ' ' ∉ second ∧
      second ∉ reservedTags ∧ frameProgram line = second ∧
      classifyLogLine line = (if classifyLogLine.isInvokeTail tail then .invoke else .close) ∧
      (classifyLogLine.isInvokeTail tail = false →
        tail = "success".toList ∨ "failed:".toList <+: tail) := by
  cases hstrip : stripPrefix "Program ".toList line with
  | none =>
      rw [classifyLogLine, hstrip] at h
      exact absurd rfl h
  | some rest =>
      cases hsplit : splitOnce ' ' rest with
      | none =>
          rw [classifyLogLine, hstrip] at h
          simp [hsplit] at h
      | some words =>
          obtain ⟨second, tail⟩ := words
          have hline : line = "Program ".toList ++ rest := stripPrefix_eq_some.mp hstrip
          obtain ⟨hrest, hspace⟩ := splitOnce_eq_some hsplit
          have hclassify : classifyLogLine line =
              if second ∈ reservedTags then .other
              else if classifyLogLine.isInvokeTail tail then .invoke
              else if tail = "success".toList ∨ "failed:".toList <+: tail then .close
              else .other := by
            rw [classifyLogLine, hstrip]
            simp only [hsplit]
          have hprogram : frameProgram line = second := by
            rw [frameProgram, hstrip, Option.bind_some, hsplit]
            rfl
          by_cases hreserved : second ∈ reservedTags
          · rw [hclassify, if_pos hreserved] at h
            exact absurd rfl h
          · rw [if_neg hreserved] at hclassify
            refine ⟨second, tail, by rw [hline, hrest], hspace, hreserved, hprogram, ?_⟩
            cases hinvoke : classifyLogLine.isInvokeTail tail with
            | true =>
                rw [hinvoke, if_pos rfl] at hclassify
                exact ⟨hclassify, fun hfalse => by cases hfalse⟩
            | false =>
                rw [hinvoke, if_neg Bool.false_ne_true] at hclassify
                by_cases hclose : tail = "success".toList ∨ "failed:".toList <+: tail
                · exact ⟨hclassify.trans (if_pos hclose), fun _ => hclose⟩
                · exact absurd (hclassify.trans (if_neg hclose)) h

/-- An invoke line opens a frame of the same program in both readings. -/
theorem invokedProgram_of_invoke {line : LogLine} (h : classifyLogLine line = .invoke) :
    invokedProgram line = some (frameProgram line) := by
  obtain ⟨second, tail, rfl, hspace, -, hprogram, hclassify, -⟩ :=
    classify_ne_other (h.trans_ne (by decide))
  have htail : classifyLogLine.isInvokeTail tail = true := by
    by_contra hnot
    rw [if_neg hnot, h] at hclassify
    cases hclassify
  obtain ⟨rest, hrest⟩ : ∃ rest, stripPrefix "invoke [".toList tail = some rest := by
    cases hstrip : stripPrefix "invoke [".toList tail with
    | none =>
        rw [classifyLogLine.isInvokeTail, hstrip] at htail
        cases htail
    | some rest => exact ⟨rest, rfl⟩
  have htext : ' ' :: tail = " invoke [".toList ++ rest := by
    rw [stripPrefix_eq_some.mp hrest]
    rfl
  have hsplit : splitOnceText " invoke [".toList (' ' :: tail) = some ([], rest) := by
    rw [splitOnceText, htext, stripPrefix_append]
  have hdelimiter : " invoke [".toList = ' ' :: "invoke [".toList := rfl
  have hfront : splitOnceText " invoke [".toList (second ++ ' ' :: tail) = some (second, rest) := by
    rw [hdelimiter, splitOnceText_append hspace, ← hdelimiter, hsplit]
    simp
  rw [hprogram, invokedProgram, stripPrefix_append, Option.bind_eq_bind, Option.bind_some, hfront]
  rfl

/-- A close line closes a frame in both readings, unless its text opens one. -/
theorem closesInvocation_of_close {line : LogLine} (h : classifyLogLine line = .close) :
    closesInvocation line = true := by
  obtain ⟨second, tail, rfl, -, -, -, hclassify, htail⟩ :=
    classify_ne_other (h.trans_ne (by decide))
  have hnot : classifyLogLine.isInvokeTail tail = false := by
    by_contra hnot
    rw [if_pos (by simpa using hnot), h] at hclassify
    cases hclassify
  rw [closesInvocation]
  refine decide_eq_true ⟨List.prefix_append _ _, ?_⟩
  obtain rfl | ⟨text, rfl⟩ := htail hnot
  · refine Or.inl ⟨"Program ".toList ++ second, ?_⟩
    rw [List.append_assoc]
    rfl
  · refine Or.inr ⟨"Program ".toList ++ second, text, ?_⟩
    rw [List.append_assoc, List.append_assoc]
    rfl

/-- A data line is no frame boundary for the core. -/
theorem classify_of_data {line : LogLine} {encoded : List Char}
    (h : dataPayload line = some encoded) : classifyLogLine line = .other := by
  have hline : line = "Program ".toList ++ ("data:".toList ++ ' ' :: encoded) := by
    rw [dataPayload, stripPrefix_eq_some] at h
    exact h
  have hsplit : splitOnce ' ' ("data:".toList ++ ' ' :: encoded) = some ("data:".toList, encoded) :=
    splitOnce_append (by decide) encoded
  rw [hline, classifyLogLine, stripPrefix_append]
  simp only [hsplit]
  rw [if_pos (by decide)]

/-- A line that the generated scanner takes for a frame boundary and the core does not: a
line other than an invoke line that has the text of one, or, in an open frame, a line of
neither kind that has the text of a close line. -/
def Misread (opened : List (List Char)) (line : LogLine) : Prop :=
  (classifyLogLine line ≠ .invoke ∧ (invokedProgram line).isSome) ∨
    (classifyLogLine line = .other ∧ closesInvocation line ∧ opened ≠ [])

section Agreement

variable {Event : Type} (parser : EventParser Event) (targetProgram : List Char)

/-- One turn changes the stack as the core would if and only if the line is not misread. -/
theorem step_invocationStack_iff (scan : EventScan Event) (line : LogLine) :
    (scan.step parser targetProgram line).invocationStack = frameStep scan.invocationStack line ↔
      ¬Misread scan.invocationStack line := by
  have hcons : ∀ (program : List Char) (stack : List (List Char)), program :: stack ≠ stack :=
    fun program stack h => by simpa using congrArg List.length h
  cases hkind : classifyLogLine line with
  | invoke =>
      simp [EventScan.step, invokedProgram_of_invoke hkind, frameStep, Misread, hkind]
  | close =>
      cases hinvoked : invokedProgram line with
      | none =>
          simp [EventScan.step, hinvoked, closesInvocation_of_close hkind, frameStep, Misread, hkind]
      | some program =>
          have htail : program :: scan.invocationStack ≠ scan.invocationStack.tail := by
            intro h
            have hlength := congrArg List.length h
            simp at hlength
            omega
          simp [EventScan.step, hinvoked, frameStep, Misread, hkind, htail]
  | other =>
      cases hinvoked : invokedProgram line with
      | some program =>
          simp [EventScan.step, hinvoked, frameStep, Misread, hkind, hcons]
      | none =>
          cases hcloses : closesInvocation line with
          | true =>
              cases hstack : scan.invocationStack with
              | nil => simp [EventScan.step, hinvoked, hcloses, frameStep, Misread, hkind, hstack]
              | cons program rest =>
                  simp [EventScan.step, hinvoked, hcloses, frameStep, Misread, hkind, hstack,
                    (hcons program rest).symm]
          | false =>
              have hsame : (scan.step parser targetProgram line).invocationStack =
                  scan.invocationStack := by
                simp only [EventScan.step, hinvoked, hcloses, Bool.false_eq_true, if_false]
                split <;> try rfl
                split <;> try rfl
                split <;> rfl
              simp [hsame, frameStep, Misread, hkind, hinvoked, hcloses]

/-- A line that is not misread adds the event that the core attributes to the program. -/
theorem step_events (scan : EventScan Event) (line : LogLine)
    (h : ¬Misread scan.invocationStack line) :
    (scan.step parser targetProgram line).events =
      scan.events ++ (attributedEvent parser targetProgram scan.invocationStack line).toList := by
  cases hdata : dataPayload line with
  | none =>
      have hevent : attributedEvent parser targetProgram scan.invocationStack line = none := by
        simp [attributedEvent, hdata]
      rw [hevent, EventScan.step, hdata]
      cases invokedProgram line with
      | some program => simp
      | none => cases closesInvocation line <;> simp
  | some encoded =>
      have hkind := classify_of_data hdata
      have hinvoked : invokedProgram line = none := by
        by_contra hsome
        exact h (Or.inl ⟨by simp [hkind], Option.isSome_iff_ne_none.mpr hsome⟩)
      cases hcloses : closesInvocation line with
      | true =>
          have hempty : scan.invocationStack = [] := by
            by_contra hopen
            exact h (Or.inr ⟨hkind, hcloses, hopen⟩)
          simp [EventScan.step, hinvoked, hcloses, attributedEvent, hempty]
      | false =>
          by_cases htop : scan.invocationStack.head? = some targetProgram
          · cases hresolve : parser.resolveEncoded encoded <;>
              simp [EventScan.step, hinvoked, hcloses, hdata, htop, hresolve, attributedEvent]
          · simp [EventScan.step, hinvoked, hcloses, hdata, htop, attributedEvent]

/-- No line is misread after the lines before it. -/
def ReadAlike (opened : List (List Char)) (logs : List LogLine) : Prop :=
  ∀ front line rest, logs = front ++ line :: rest → ¬Misread (front.foldl frameStep opened) line

theorem readAlike_cons {opened : List (List Char)} {line : LogLine} {logs : List LogLine} :
    ReadAlike opened (line :: logs) ↔
      ¬Misread opened line ∧ ReadAlike (frameStep opened line) logs := by
  constructor
  · intro h
    refine ⟨h [] line logs rfl, fun front l rest heq => ?_⟩
    exact h (line :: front) l rest (by rw [heq, List.cons_append])
  · rintro ⟨hline, hlogs⟩ front l rest heq
    cases front with
    | nil =>
        rw [List.nil_append, List.cons.injEq] at heq
        exact heq.1 ▸ hline
    | cons first front =>
        rw [List.cons_append, List.cons.injEq] at heq
        exact heq.1 ▸ hlogs front l rest heq.2

/-- From equal stacks, the stacks stay equal if and only if no line is misread. -/
theorem scan_invocationStack_iff (scan : EventScan Event) (logs : List LogLine) :
    (∀ n, ((logs.take n).foldl (EventScan.step parser targetProgram) scan).invocationStack =
        (logs.take n).foldl frameStep scan.invocationStack) ↔
      ReadAlike scan.invocationStack logs := by
  induction logs generalizing scan with
  | nil => simp [ReadAlike]
  | cons line logs ih =>
      have hstep := step_invocationStack_iff parser targetProgram scan line
      rw [readAlike_cons, ← hstep]
      constructor
      · intro h
        have hline : (scan.step parser targetProgram line).invocationStack =
            frameStep scan.invocationStack line := by simpa using h 1
        refine ⟨hline, hline ▸ (ih _).mp fun n => ?_⟩
        have hn := h (n + 1)
        rw [List.take_succ_cons, List.foldl_cons, List.foldl_cons] at hn
        rw [hn, hline]
      · rintro ⟨hline, hlogs⟩ n
        cases n with
        | zero => rfl
        | succ n =>
            rw [List.take_succ_cons, List.foldl_cons, List.foldl_cons, ← hline]
            exact (ih _).mpr (hline ▸ hlogs) n

theorem scan_events (scan : EventScan Event) (logs : List LogLine)
    (h : ReadAlike scan.invocationStack logs) :
    (logs.foldl (EventScan.step parser targetProgram) scan).events =
      scan.events ++ attributedEvents parser targetProgram scan.invocationStack logs := by
  induction logs generalizing scan with
  | nil => simp [attributedEvents]
  | cons line logs ih =>
      obtain ⟨hline, hlogs⟩ := readAlike_cons.mp h
      have hstack := (step_invocationStack_iff parser targetProgram scan line).mpr hline
      rw [List.foldl_cons, ih _ (hstack ▸ hlogs), hstack, step_events parser targetProgram scan line
        hline, attributedEvents, List.append_assoc]

end Agreement

/-- The events and, after every line, the open frames are those of the core's reading. -/
structure AttributesLikeCore {Event : Type} (parser : EventParser Event) (bs58 : Bs58)
    (programId : Pubkey) (logs : List LogLine) : Prop where
  events : resolveEventsFromLogs parser bs58 programId logs =
    attributedEvents parser (programId.display bs58) [] logs
  stack : ∀ n, (scanLogs parser (programId.display bs58) (logs.take n)).invocationStack =
    frames (logs.take n)

/-- Log events are attributed as the core does it if and only if no line other than an invoke
line has the text of one, and no line in an open frame that is neither an invoke nor a close
line has the text of a close line. -/
theorem attributesLikeCore_iff {Event : Type} (parser : EventParser Event) (bs58 : Bs58)
    (programId : Pubkey) (logs : List LogLine) :
    AttributesLikeCore parser bs58 programId logs ↔
      ∀ front line rest, logs = front ++ line :: rest → ¬Misread (frames front) line := by
  constructor
  · intro h
    exact (scan_invocationStack_iff parser _ ⟨[], []⟩ logs).mp h.stack
  · intro h
    refine ⟨?_, (scan_invocationStack_iff parser _ ⟨[], []⟩ logs).mpr h⟩
    exact (scan_events parser (programId.display bs58) ⟨[], []⟩ logs h).trans (List.nil_append _)

/-- Events of one byte in standard base64. -/
def byteEvents : EventParser UInt8 where
  decodeBase64 text := if text = "AQ==".toList then some [1] else none
  resolveEventDefault _ data := data.head?

/-- A message of the program that ends like a close line, before the program's event. -/
def loggedSuccess : List LogLine :=
  ["Program 11111111111111111111111111111111 invoke [1]".toList,
    "Program log: swap success".toList,
    "Program data: AQ==".toList,
    "Program 11111111111111111111111111111111 success".toList]

/-- The message closes the frame of the program for the generated scanner, and its event is
lost. -/
theorem logged_success_loses_event :
    resolveEventsFromLogs byteEvents .bitcoin (Vector.replicate 32 0) loggedSuccess = [] ∧
      attributedEvents byteEvents (Pubkey.display .bitcoin (Vector.replicate 32 0)) []
        loggedSuccess = [1] ∧
      ¬AttributesLikeCore byteEvents .bitcoin (Vector.replicate 32 0) loggedSuccess := by
  have hdisplay : Pubkey.display .bitcoin (Vector.replicate 32 0) =
      "11111111111111111111111111111111".toList := by decide +kernel
  have hlost : resolveEventsFromLogs byteEvents .bitcoin (Vector.replicate 32 0) loggedSuccess =
      [] := by
    rw [resolveEventsFromLogs, hdisplay]
    decide +kernel
  have hevent : attributedEvents byteEvents (Pubkey.display .bitcoin (Vector.replicate 32 0)) []
      loggedSuccess = [1] := by
    rw [hdisplay]
    decide +kernel
  refine ⟨hlost, hevent, fun h => ?_⟩
  have hevents := h.events
  rw [hlost, hevent] at hevents
  cases hevents

end Shipstern.Codegen
