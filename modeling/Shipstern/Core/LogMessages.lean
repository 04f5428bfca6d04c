import Shipstern.Core.Base58

/-!
# Log lines and their assignment to instructions

The scanners of `log_messages.rs` and the two log views of `InstructionUpdate`.
A line is an `invoke` or a `close` by its structure only, so that payload text cannot
imitate one. The assignment walks the lines with a cursor; every turn of its loop
consumes at least one line, so the number of lines bounds the number of turns.
-/

namespace Shipstern.Core

/-- Unicode white space (`char::is_whitespace`). -/
def isWhitespace (c : Char) : Bool :=
  let n := c.toNat
  (9 ≤ n ∧ n ≤ 13) ∨ n = 0x20 ∨ n = 0x85 ∨ n = 0xA0 ∨ n = 0x1680 ∨ (0x2000 ≤ n ∧ n ≤ 0x200A) ∨
    n = 0x2028 ∨ n = 0x2029 ∨ n = 0x202F ∨ n = 0x205F ∨ n = 0x3000

/-- `str::strip_prefix`. -/
def stripPrefix : List Char → List Char → Option (List Char)
  | [], text => some text
  | _ :: _, [] => none
  | p :: pattern, c :: text => if p = c then stripPrefix pattern text else none

/-- `str::split_once` at a character. -/
def splitOnce (delimiter : Char) : List Char → Option (List Char × List Char)
  | [] => none
  | c :: text =>
      if c = delimiter then some ([], text)
      else (splitOnce delimiter text).map fun (front, back) => (c :: front, back)

/-- Structural shape of a log line. -/
inductive LogLineKind
  | invoke
  | close
  | other
deriving DecidableEq

/-- The runtime tags that stand where a program id would. -/
def reservedTags : List (List Char) := ["log:".toList, "data:".toList, "return:".toList]

def classifyLogLine (line : LogLine) : LogLineKind :=
  match stripPrefix "Program ".toList line with
  | none => .other
  | some rest =>
      match splitOnce ' ' rest with
      | none => .other
      | some (second, tail) =>
          if second ∈ reservedTags then .other
          else if isInvokeTail tail then .invoke
          else if tail = "success".toList ∨ "failed:".toList <+: tail then .close
          else .other
where
  /-- `invoke [<digits>]`, with anything after the bracket. -/
  isInvokeTail (tail : List Char) : Bool :=
    match stripPrefix "invoke [".toList tail with
    | none => false
    | some afterInvoke =>
        let digits := afterInvoke.takeWhile (· ≠ ']')
        !digits.isEmpty && digits.all Char.isDigit

/-- A `Program <pubkey> invoke [1]` line. -/
def isOuterInvoke (line : LogLine) : Bool :=
  classifyLogLine line = .invoke ∧ " invoke [1]".toList <:+: line

/-- The program that a `Program <pubkey> invoke [<n>]` line names. -/
def invokedProgram (bs58 : Bs58) (line : LogLine) : Option Pubkey := do
  let rest ← stripPrefix "Program ".toList line
  let (second, _) ← splitOnce ' ' rest
  Pubkey.fromStr bs58 second

/-- The loop of `assign_logs_recursive`: `pos` is the next line, `depth` the number of
unmatched frames and `innerIdx` the next inner instruction. Returns the first unconsumed
line with the instruction. -/
def assignLogsLoop (logs : List LogLine) :
    Nat → Nat → Nat → Nat → Nat → InstructionUpdate → Nat × InstructionUpdate
  | 0, invokePos, _, pos, _, ix => (pos, { ix with logRange := ⟨invokePos, pos⟩ })
  | fuel + 1, invokePos, depth, pos, innerIdx, ix =>
      match logs[pos]? with
      | none => (pos, { ix with logRange := ⟨invokePos, pos⟩ })
      | some line =>
          match classifyLogLine line with
          | .invoke =>
              match ix.inner[innerIdx]? with
              | some child =>
                  let (next, child) := assignLogsLoop logs fuel pos 1 (pos + 1) 0 child
                  assignLogsLoop logs fuel invokePos depth next (innerIdx + 1)
                    { ix with inner := ix.inner.set innerIdx child }
              | none => assignLogsLoop logs fuel invokePos (depth + 1) (pos + 1) innerIdx ix
          | .close =>
              if depth - 1 = 0 then (pos + 1, { ix with logRange := ⟨invokePos, pos + 1⟩ })
              else assignLogsLoop logs fuel invokePos (depth - 1) (pos + 1) innerIdx ix
          | .other => assignLogsLoop logs fuel invokePos depth (pos + 1) innerIdx ix

/-- Assign log lines to the instruction whose invoke line is at `invokePos`, and to its
inner instructions. -/
def assignLogsRecursive (logs : List LogLine) (invokePos : Nat) (ix : InstructionUpdate) :
    Nat × InstructionUpdate :=
  assignLogsLoop logs logs.length invokePos 1 (invokePos + 1) 0 ix

/-- The position of the next outer invoke line. -/
def findOuterInvoke (logs : List LogLine) (cursor : Nat) : Option Nat :=
  ((logs.drop cursor).findIdx? isOuterInvoke).map (cursor + ·)

/-- The loop of `assign_log_messages` over the outer instructions. -/
def assignOuterLoop (bs58 : Bs58) (logs : List LogLine) :
    Nat → List InstructionUpdate → List InstructionUpdate
  | _, [] => []
  | cursor, ix :: rest =>
      match findOuterInvoke logs cursor with
      | none => ix :: rest
      | some pos =>
          if logs[pos]?.bind (invokedProgram bs58) ≠ some ix.program then
            ix :: assignOuterLoop bs58 logs cursor rest
          else
            let (cursor, ix) := assignLogsRecursive logs pos ix
            ix :: assignOuterLoop bs58 logs cursor rest

def assignLogMessages (bs58 : Bs58) (logs : List LogLine) (outer : List InstructionUpdate) :
    List InstructionUpdate :=
  if logs.isEmpty ∨ outer.isEmpty then outer
  else assignOuterLoop bs58 logs 0 outer

namespace InstructionUpdate

/-- The slice of the transaction log that belongs to the instruction. -/
def logMessages (ix : InstructionUpdate) : List LogLine :=
  (ix.shared.logMessages.take ix.logRange.stop).drop ix.logRange.start

/-- The lines at depth 1 of the frame structure, with the own invoke and close lines. -/
def directLines : Nat → List LogLine → List LogLine
  | _, [] => []
  | depth, line :: rest =>
      match classifyLogLine line with
      | .invoke =>
          if depth + 1 = 1 then line :: directLines (depth + 1) rest
          else directLines (depth + 1) rest
      | .close =>
          if depth = 1 then line :: directLines (depth - 1) rest
          else directLines (depth - 1) rest
      | .other =>
          if depth = 1 then line :: directLines depth rest else directLines depth rest

/-- Log lines emitted directly by the program of the instruction. -/
def directLogMessages (ix : InstructionUpdate) : List LogLine :=
  directLines 0 ix.logMessages

/-- The tree without its log ranges. -/
def stripLogs : InstructionUpdate → InstructionUpdate
  | ⟨program, accounts, data, shared, inner, path, _⟩ =>
      ⟨program, accounts, data, shared, stripBelow inner, path, ⟨0, 0⟩⟩
where
  stripBelow : List InstructionUpdate → List InstructionUpdate
    | [] => []
    | child :: rest => child.stripLogs :: stripBelow rest

theorem stripBelow_eq (inner : List InstructionUpdate) :
    stripLogs.stripBelow inner = inner.map stripLogs := by
  induction inner with
  | nil => rfl
  | cons child rest ih => simp [stripLogs.stripBelow, ih]

theorem stripLogs_eq (ix : InstructionUpdate) :
    ix.stripLogs = { ix with inner := ix.inner.map stripLogs, logRange := ⟨0, 0⟩ } := by
  cases ix
  simp [stripLogs, stripBelow_eq]

theorem preorder_stripLogs (ix : InstructionUpdate) :
    ix.stripLogs.preorder = ix.preorder.map stripLogs := by
  induction ix using tree_induction with
  | step ix ih =>
      rw [preorder_eq ix.stripLogs, preorder_eq ix, List.map_cons, List.map_flatMap]
      congr 1
      rw [stripLogs_eq, List.flatMap_map]
      exact List.flatMap_congr ih

end InstructionUpdate

section Assignment

variable {logs : List LogLine}

/-- The cursor never moves back. -/
theorem assignLogsLoop_pos_le (fuel invokePos depth pos innerIdx : Nat) (ix : InstructionUpdate) :
    pos ≤ (assignLogsLoop logs fuel invokePos depth pos innerIdx ix).1 := by
  induction fuel generalizing invokePos depth pos innerIdx ix with
  | zero => exact le_rfl
  | succ fuel ih =>
      have hnext : ∀ invokePos depth innerIdx ix,
          pos ≤ (assignLogsLoop logs fuel invokePos depth (pos + 1) innerIdx ix).1 :=
        fun invokePos depth innerIdx ix => (Nat.le_succ pos).trans (ih ..)
      rw [assignLogsLoop]
      split
      · exact le_rfl
      · split
        · split
          · exact (hnext ..).trans (ih ..)
          · exact hnext ..
        · split
          · exact Nat.le_succ pos
          · exact hnext ..
        · exact hnext ..

/-- The loop never stops for want of fuel: one turn per remaining line is enough. -/
theorem assignLogsLoop_fuel {fuel fuel' invokePos depth pos innerIdx : Nat}
    {ix : InstructionUpdate} (h : logs.length ≤ pos + fuel) (h' : logs.length ≤ pos + fuel') :
    assignLogsLoop logs fuel invokePos depth pos innerIdx ix =
      assignLogsLoop logs fuel' invokePos depth pos innerIdx ix := by
  induction fuel generalizing fuel' invokePos depth pos innerIdx ix with
  | zero =>
      have hend : logs[pos]? = none := List.getElem?_eq_none h
      cases fuel' with
      | zero => rfl
      | succ fuel' => simp [assignLogsLoop, hend]
  | succ fuel ih =>
      cases fuel' with
      | zero =>
          have hend : logs[pos]? = none := List.getElem?_eq_none h'
          simp [assignLogsLoop, hend]
      | succ fuel' =>
          have hstep : ∀ invokePos depth next innerIdx ix, pos + 1 ≤ next →
              assignLogsLoop logs fuel invokePos depth next innerIdx ix =
                assignLogsLoop logs fuel' invokePos depth next innerIdx ix := by
            intro invokePos depth next innerIdx ix hnext
            exact ih (by omega) (by omega)
          have hchild : ∀ child, assignLogsLoop logs fuel pos 1 (pos + 1) 0 child =
              assignLogsLoop logs fuel' pos 1 (pos + 1) 0 child :=
            fun child => hstep pos 1 (pos + 1) 0 child le_rfl
          simp only [assignLogsLoop, hchild]
          split
          · rfl
          · split
            · split
              · exact hstep _ _ _ _ _ (assignLogsLoop_pos_le ..)
              · exact hstep _ _ _ _ _ le_rfl
            · split
              · rfl
              · exact hstep _ _ _ _ _ le_rfl
            · exact hstep _ _ _ _ _ le_rfl

/-- The loop from any of its states, with fuel for all lines. -/
def assignLogsFrom (logs : List LogLine) (invokePos depth pos innerIdx : Nat)
    (ix : InstructionUpdate) : Nat × InstructionUpdate :=
  assignLogsLoop logs logs.length invokePos depth pos innerIdx ix

/-- One turn of the loop. -/
theorem assignLogsFrom_eq {line : LogLine} {pos : Nat} (hline : logs[pos]? = some line)
    (invokePos depth innerIdx : Nat) (ix : InstructionUpdate) :
    assignLogsFrom logs invokePos depth pos innerIdx ix =
      match classifyLogLine line with
      | .invoke =>
          match ix.inner[innerIdx]? with
          | some child =>
              assignLogsFrom logs invokePos depth (assignLogsFrom logs pos 1 (pos + 1) 0 child).1
                (innerIdx + 1)
                { ix with inner := ix.inner.set innerIdx (assignLogsFrom logs pos 1 (pos + 1) 0 child).2 }
          | none => assignLogsFrom logs invokePos (depth + 1) (pos + 1) innerIdx ix
      | .close =>
          if depth - 1 = 0 then (pos + 1, { ix with logRange := ⟨invokePos, pos + 1⟩ })
          else assignLogsFrom logs invokePos (depth - 1) (pos + 1) innerIdx ix
      | .other => assignLogsFrom logs invokePos depth (pos + 1) innerIdx ix := by
  have hpos : pos < logs.length := (List.getElem?_eq_some_iff.mp hline).1
  obtain ⟨fuel, hfuel⟩ : ∃ fuel, logs.length = fuel + 1 := ⟨logs.length - 1, by omega⟩
  have hstep : ∀ invokePos depth next innerIdx ix, pos + 1 ≤ next →
      assignLogsLoop logs fuel invokePos depth next innerIdx ix =
        assignLogsFrom logs invokePos depth next innerIdx ix := by
    intro invokePos depth next innerIdx ix hnext
    exact assignLogsLoop_fuel (by omega) (by omega)
  have hchild : ∀ child, assignLogsLoop logs fuel pos 1 (pos + 1) 0 child =
      assignLogsFrom logs pos 1 (pos + 1) 0 child :=
    fun child => hstep pos 1 (pos + 1) 0 child le_rfl
  rw [assignLogsFrom, hfuel, assignLogsLoop, hline]
  simp only [hchild]
  cases classifyLogLine line with
  | invoke =>
      simp only
      split
      · exact hstep _ _ _ _ _ (assignLogsLoop_pos_le ..)
      · exact hstep _ _ _ _ _ le_rfl
  | close =>
      simp only
      split
      · rfl
      · exact hstep _ _ _ _ _ le_rfl
  | other => exact hstep _ _ _ _ _ le_rfl

/-- The assignment changes log ranges and nothing else. -/
theorem assignLogsLoop_stripLogs (fuel invokePos depth pos innerIdx : Nat)
    (ix : InstructionUpdate) :
    (assignLogsLoop logs fuel invokePos depth pos innerIdx ix).2.stripLogs = ix.stripLogs := by
  have hrange : ∀ (ix : InstructionUpdate) (range : LogRange),
      InstructionUpdate.stripLogs { ix with logRange := range } = ix.stripLogs := by
    intro ix range
    simp [InstructionUpdate.stripLogs_eq]
  induction fuel generalizing invokePos depth pos innerIdx ix with
  | zero => exact hrange ix _
  | succ fuel ih =>
      rw [assignLogsLoop]
      split
      · exact hrange ix _
      · split
        · split
          · next child hchild =>
              obtain ⟨hlt, hget⟩ := List.getElem?_eq_some_iff.mp hchild
              have hset : (ix.inner.map InstructionUpdate.stripLogs).set innerIdx
                  child.stripLogs = ix.inner.map InstructionUpdate.stripLogs := by
                rw [← List.map_set, ← hget, List.set_getElem_self]
              rw [ih, InstructionUpdate.stripLogs_eq ix, InstructionUpdate.stripLogs_eq]
              simp only [List.map_set, ih, hset]
          · exact ih ..
        · split
          · exact hrange ix _
          · exact ih ..
        · exact ih ..

theorem assignOuterLoop_stripLogs (bs58 : Bs58) (cursor : Nat) (outer : List InstructionUpdate) :
    (assignOuterLoop bs58 logs cursor outer).map InstructionUpdate.stripLogs =
      outer.map InstructionUpdate.stripLogs := by
  induction outer generalizing cursor with
  | nil => rfl
  | cons ix rest ih =>
      rw [assignOuterLoop]
      split
      · rfl
      · split
        · rw [List.map_cons, List.map_cons, ih]
        · rw [List.map_cons, List.map_cons, ih, assignLogsRecursive, assignLogsLoop_stripLogs]

theorem assignLogMessages_stripLogs (logs : List LogLine) (bs58 : Bs58)
    (outer : List InstructionUpdate) :
    (assignLogMessages bs58 logs outer).map InstructionUpdate.stripLogs =
      outer.map InstructionUpdate.stripLogs := by
  rw [assignLogMessages]
  split
  · rfl
  · exact assignOuterLoop_stripLogs bs58 0 outer

end Assignment

end Shipstern.Core
