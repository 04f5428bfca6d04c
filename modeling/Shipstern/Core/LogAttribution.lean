import Shipstern.Core.LogMessages

/-!
# Log attribution inverts log production

`Renders` is how the runtime writes the log of instructions: an invoke line, then the logs
of the inner instructions in order with other lines anywhere between them, then a close
line. It carries the position of every frame, so that its last index is the list of
instructions with exactly the ranges of their frames. The assignment computes that list,
and the direct view of an instruction skips exactly the frames of its children.
-/

namespace Shipstern.Core

open InstructionUpdate

/-! ## The lines of a frame -/

/-- A line that names a program. -/
def programLine (bs58 : Bs58) (program : Pubkey) (tail : List Char) : LogLine :=
  "Program ".toList ++ (program.display bs58 ++ ' ' :: tail)

theorem programLine_eq (bs58 : Bs58) (program : Pubkey) (tail : List Char) :
    programLine bs58 program tail = "Program ".toList ++ (program.display bs58 ++ ' ' :: tail) :=
  rfl

/-- `Program <id> invoke [<depth>]`. -/
def invokeLine (bs58 : Bs58) (program : Pubkey) (depth : Nat) : LogLine :=
  programLine bs58 program ("invoke [".toList ++ (Nat.toDigits 10 depth ++ "]".toList))

/-- `Program <id> success`, or `Program <id> failed: <text>`. -/
def closeLine (bs58 : Bs58) (program : Pubkey) (failure : Option (List Char)) : LogLine :=
  programLine bs58 program
    (match failure with
    | none => "success".toList
    | some text => "failed: ".toList ++ text)

theorem stripPrefix_append (pattern text : List Char) :
    stripPrefix pattern (pattern ++ text) = some text := by
  induction pattern with
  | nil => rfl
  | cons c pattern ih => simp [stripPrefix, ih]

theorem splitOnce_append {delimiter : Char} {front : List Char} (h : delimiter ∉ front)
    (back : List Char) : splitOnce delimiter (front ++ delimiter :: back) = some (front, back) := by
  induction front with
  | nil => simp [splitOnce]
  | cons c front ih =>
      have hc : c ≠ delimiter := fun heq => h (heq ▸ List.mem_cons_self)
      have hfront : delimiter ∉ front := fun hmem => h (List.mem_cons_of_mem c hmem)
      simp [splitOnce, hc, ih hfront]

section Lines

variable {bs58 : Bs58} (h58 : bs58.Lawful)
include h58

theorem space_not_mem_display (program : Pubkey) : ' ' ∉ program.display bs58 := by
  intro hmem
  have halphabet := h58.encode_alphabet _ _ hmem
  revert halphabet
  decide

theorem display_not_reserved (program : Pubkey) : program.display bs58 ∉ reservedTags := by
  have hcolon : ':' ∉ program.display bs58 := by
    intro hmem
    have halphabet := h58.encode_alphabet _ _ hmem
    revert halphabet
    decide
  have htags : ∀ tag ∈ reservedTags, ':' ∈ tag := by decide
  exact fun hmem => hcolon (htags _ hmem)

/-- Classification of a line that names a program, by what follows the name. -/
theorem classify_programLine (program : Pubkey) (tail : List Char) :
    classifyLogLine (programLine bs58 program tail) =
      if classifyLogLine.isInvokeTail tail then .invoke
      else if tail = "success".toList ∨ "failed:".toList <+: tail then .close
      else .other := by
  rw [programLine_eq, classifyLogLine, stripPrefix_append]
  simp only [splitOnce_append (space_not_mem_display h58 program),
    if_neg (display_not_reserved h58 program)]

theorem classify_invokeLine (program : Pubkey) (depth : Nat) :
    classifyLogLine (invokeLine bs58 program depth) = .invoke := by
  have hdigit : ∀ c ∈ Nat.toDigits 10 depth, c.isDigit = true :=
    fun c hc => Nat.isDigit_of_mem_toDigits (by decide) (by decide) hc
  have hbracket : ∀ c ∈ Nat.toDigits 10 depth, decide (c ≠ ']') = true := by
    intro c hc
    have hc := hdigit c hc
    refine decide_eq_true ?_
    rintro rfl
    exact absurd hc (by decide)
  have htail : classifyLogLine.isInvokeTail
      ("invoke [".toList ++ (Nat.toDigits 10 depth ++ "]".toList)) = true := by
    rw [classifyLogLine.isInvokeTail, stripPrefix_append]
    simp only [List.takeWhile_append_of_pos hbracket, Bool.and_eq_true, List.all_eq_true]
    simpa [Nat.toDigits_ne_nil] using hdigit
  rw [invokeLine, classify_programLine h58, if_pos htail]

theorem classify_closeLine (program : Pubkey) (failure : Option (List Char)) :
    classifyLogLine (closeLine bs58 program failure) = .close := by
  cases failure with
  | none =>
      rw [closeLine, classify_programLine h58]
      decide
  | some text =>
      rw [closeLine, classify_programLine h58]
      have hinvoke : classifyLogLine.isInvokeTail ("failed: ".toList ++ text) = false := rfl
      have hfailed : "failed:".toList <+: "failed: ".toList ++ text := ⟨' ' :: text, rfl⟩
      simp only [hinvoke, hfailed, or_true, if_true, Bool.false_eq_true, if_false]

theorem isOuterInvoke_invokeLine (program : Pubkey) :
    isOuterInvoke (invokeLine bs58 program 1) = true := by
  have hinfix : " invoke [1]".toList <:+: invokeLine bs58 program 1 :=
    ⟨"Program ".toList ++ program.display bs58, [], by
      simp [invokeLine, programLine_eq, Nat.toDigits_of_lt_base]⟩
  simp only [isOuterInvoke, classify_invokeLine h58, hinfix, and_self, decide_true]

theorem invokedProgram_invokeLine (program : Pubkey) (depth : Nat) :
    invokedProgram bs58 (invokeLine bs58 program depth) = some program := by
  simp only [invokedProgram, invokeLine, programLine_eq, stripPrefix_append, Option.bind_eq_bind,
    Option.bind_some, splitOnce_append (space_not_mem_display h58 program), h58.fromStr_display]

end Lines

theorem isOuterInvoke_other {line : LogLine} (h : classifyLogLine line = .other) :
    isOuterInvoke line = false := by
  simp [isOuterInvoke, h]

/-! ## Rendering -/

/-- The instruction with the range of its frame, over inner instructions with theirs. -/
def InstructionUpdate.inFrame (ix : InstructionUpdate) (inner : List InstructionUpdate)
    (start stop : Nat) : InstructionUpdate :=
  { ix with inner := inner, logRange := ⟨start, stop⟩ }

/-- `Renders bs58 depth pos ixs lines framed`: the instructions `ixs` at call depth `depth`
write `lines` from index `pos` on, and `framed` is `ixs` with the index ranges of the frames. -/
inductive Renders (bs58 : Bs58) :
    Nat → Nat → List InstructionUpdate → List LogLine → List InstructionUpdate → Prop
  | done {depth pos : Nat} : Renders bs58 depth pos [] [] []
  | other {depth pos : Nat} {ixs framed : List InstructionUpdate} {line : LogLine}
      {lines : List LogLine} (hline : classifyLogLine line = .other)
      (hrest : Renders bs58 depth (pos + 1) ixs lines framed) :
      Renders bs58 depth pos ixs (line :: lines) framed
  | frame {depth pos : Nat} {ix : InstructionUpdate} {ixs inner framed : List InstructionUpdate}
      {body lines : List LogLine} (failure : Option (List Char))
      (hbody : Renders bs58 (depth + 1) (pos + 1) ix.inner body inner)
      (hrest : Renders bs58 depth (pos + body.length + 2) ixs lines framed) :
      Renders bs58 depth pos (ix :: ixs)
        (invokeLine bs58 ix.program depth :: (body ++ closeLine bs58 ix.program failure :: lines))
        (ix.inFrame inner pos (pos + body.length + 2) :: framed)

/-- The log of the outer instructions. The ones that run a precompile write nothing; the
others run other programs. -/
inductive RendersOuter (bs58 : Bs58) (precompile : Pubkey → Prop) :
    Nat → List InstructionUpdate → List LogLine → List InstructionUpdate → Prop
  | done {pos : Nat} : RendersOuter bs58 precompile pos [] [] []
  | other {pos : Nat} {ixs framed : List InstructionUpdate} {line : LogLine}
      {lines : List LogLine} (hline : classifyLogLine line = .other)
      (hrest : RendersOuter bs58 precompile (pos + 1) ixs lines framed) :
      RendersOuter bs58 precompile pos ixs (line :: lines) framed
  | silent {pos : Nat} {ix : InstructionUpdate} {ixs framed : List InstructionUpdate}
      {lines : List LogLine} (hsilent : precompile ix.program)
      (hrest : RendersOuter bs58 precompile pos ixs lines framed) :
      RendersOuter bs58 precompile pos (ix :: ixs) lines (ix.stripLogs :: framed)
  | frame {pos : Nat} {ix : InstructionUpdate} {ixs inner framed : List InstructionUpdate}
      {body lines : List LogLine} (failure : Option (List Char))
      (hlogging : ¬ precompile ix.program)
      (hbody : Renders bs58 2 (pos + 1) ix.inner body inner)
      (hrest : RendersOuter bs58 precompile (pos + body.length + 2) ixs lines framed) :
      RendersOuter bs58 precompile pos (ix :: ixs)
        (invokeLine bs58 ix.program 1 :: (body ++ closeLine bs58 ix.program failure :: lines))
        (ix.inFrame inner pos (pos + body.length + 2) :: framed)

/-! ## The assignment -/

section Assign

variable {bs58 : Bs58} (h58 : bs58.Lawful) {logs : List LogLine}

theorem drop_eq_cons {pos : Nat} {line : LogLine} {rest : List LogLine}
    (h : logs.drop pos = line :: rest) : logs[pos]? = some line ∧ logs.drop (pos + 1) = rest := by
  constructor
  · rw [← List.head?_drop, h, List.head?_cons]
  · rw [← List.tail_drop, h, List.tail_cons]

theorem drop_append {pos : Nat} {front rest : List LogLine} (h : logs.drop pos = front ++ rest) :
    logs.drop (pos + front.length) = rest := by
  rw [← List.drop_drop, h, List.drop_left]

/-- The lines of a frame: the invoke line, the body, the close line, and what follows. -/
theorem drop_eq_frame {pos : Nat} {invoke close : LogLine} {body rest : List LogLine}
    (h : logs.drop pos = invoke :: (body ++ close :: rest)) :
    logs[pos]? = some invoke ∧ logs.drop (pos + 1) = body ++ close :: rest ∧
      logs[pos + 1 + body.length]? = some close ∧ logs.drop (pos + body.length + 2) = rest := by
  obtain ⟨hinvoke, hbody⟩ := drop_eq_cons h
  obtain ⟨hclose, hrest⟩ := drop_eq_cons (drop_append hbody)
  have hend : pos + 1 + body.length + 1 = pos + body.length + 2 := by omega
  exact ⟨hinvoke, hbody, hclose, hend ▸ hrest⟩

include h58

/-- The close line of a frame ends the loop of its instruction. -/
theorem assignLogsFrom_close {pos len innerIdx : Nat} {program : Pubkey}
    {failure : Option (List Char)} (ix : InstructionUpdate)
    (hclose : logs[pos + 1 + len]? = some (closeLine bs58 program failure)) :
    assignLogsFrom logs pos 1 (pos + 1 + len) innerIdx ix =
      (pos + len + 2, { ix with logRange := ⟨pos, pos + len + 2⟩ }) := by
  have hend : pos + 1 + len + 1 = pos + len + 2 := by omega
  rw [assignLogsFrom_eq hclose, classify_closeLine h58]
  simp only [hend, Nat.sub_self, if_true]

/-- The loop over the body of a frame assigns the inner instructions that are rendered
there, and stands behind the body with its depth unchanged. -/
theorem assignLogsFrom_renders {depth pos : Nat} {ixs framed : List InstructionUpdate}
    {lines : List LogLine} (h : Renders bs58 depth pos ixs lines framed) :
    ∀ (invokePos : Nat) (parent : InstructionUpdate) (done : List InstructionUpdate)
      (rest : List LogLine), logs.drop pos = lines ++ rest → parent.inner = done ++ ixs →
      assignLogsFrom logs invokePos 1 pos done.length parent =
        assignLogsFrom logs invokePos 1 (pos + lines.length) (done.length + ixs.length)
          { parent with inner := done ++ framed } := by
  induction h with
  | done =>
      intro invokePos parent done rest _ hinner
      rw [← hinner, eta]
      rfl
  | @other depth pos ixs framed line lines hline _ ih =>
      intro invokePos parent done rest hlogs hinner
      obtain ⟨hget, hdrop⟩ := drop_eq_cons hlogs
      rw [assignLogsFrom_eq hget, hline]
      simp only
      rw [ih invokePos parent done rest hdrop hinner, List.length_cons, Nat.add_right_comm,
        Nat.add_assoc]
  | @frame depth pos ix ixs inner framed body lines failure _ _ ihbody ihrest =>
      intro invokePos parent done rest hlogs hinner
      rw [List.cons_append, List.append_assoc] at hlogs
      obtain ⟨hget, hdrop, hclose, hafter⟩ := drop_eq_frame hlogs
      have hchild : assignLogsFrom logs pos 1 (pos + 1) 0 ix =
          (pos + body.length + 2, ix.inFrame inner pos (pos + body.length + 2)) :=
        (ihbody pos ix [] _ hdrop rfl).trans (assignLogsFrom_close h58 _ hclose)
      have hnext : parent.inner[done.length]? = some ix := by
        rw [hinner, List.getElem?_append_right le_rfl, Nat.sub_self, List.getElem?_cons_zero]
      have hset : ∀ child, parent.inner.set done.length child = (done ++ [child]) ++ ixs := by
        intro child
        rw [hinner, List.set_append_right _ _ le_rfl, Nat.sub_self, List.set_cons_zero,
          List.append_assoc, List.singleton_append]
      rw [assignLogsFrom_eq hget, classify_invokeLine h58]
      simp only [hnext, hchild, hset]
      generalize ix.inFrame inner pos (pos + body.length + 2) = child
      have hlater := ihrest invokePos { parent with inner := (done ++ [child]) ++ ixs }
        (done ++ [child]) rest hafter rfl
      simp only [List.length_append, List.length_singleton, List.append_assoc,
        List.singleton_append] at hlater
      rw [List.append_assoc, List.singleton_append, hlater]
      congr 1
      · simp only [List.length_cons, List.length_append]
        omega
      · rw [List.length_cons]
        omega

/-- The frame of an outer instruction is assigned as a whole. -/
theorem assignLogsRecursive_frame {pos depth : Nat} {ix : InstructionUpdate}
    {inner : List InstructionUpdate} {body rest : List LogLine} {failure : Option (List Char)}
    (hbody : Renders bs58 depth (pos + 1) ix.inner body inner)
    (hlogs : logs.drop (pos + 1) = body ++ closeLine bs58 ix.program failure :: rest) :
    assignLogsRecursive logs pos ix =
      (pos + body.length + 2, ix.inFrame inner pos (pos + body.length + 2)) := by
  have hbegin := assignLogsFrom_renders h58 hbody pos ix [] _ hlogs rfl
  obtain ⟨hclose, -⟩ := drop_eq_cons (drop_append hlogs)
  exact hbegin.trans (assignLogsFrom_close h58 _ hclose)

omit h58 in
theorem findOuterInvoke_skip {pos : Nat} {line : LogLine} (hline : logs[pos]? = some line)
    (h : isOuterInvoke line = false) : findOuterInvoke logs pos = findOuterInvoke logs (pos + 1) := by
  have hdrop := List.drop_eq_getElem?_toList_append (l := logs) (i := pos)
  rw [hline, Option.toList_some, List.singleton_append] at hdrop
  rw [findOuterInvoke, hdrop, List.findIdx?_cons, h, findOuterInvoke]
  simp [Function.comp_def, Nat.add_comm, Nat.add_left_comm]

omit h58 in
theorem findOuterInvoke_here {pos : Nat} {line : LogLine} (hline : logs[pos]? = some line)
    (h : isOuterInvoke line = true) : findOuterInvoke logs pos = some pos := by
  have hdrop := List.drop_eq_getElem?_toList_append (l := logs) (i := pos)
  rw [hline, Option.toList_some, List.singleton_append] at hdrop
  rw [findOuterInvoke, hdrop, List.findIdx?_cons, h]
  simp

omit h58 in
theorem assignOuterLoop_of_none {cursor : Nat} {outer : List InstructionUpdate}
    (h : findOuterInvoke logs cursor = none) : assignOuterLoop bs58 logs cursor outer = outer := by
  cases outer with
  | nil => rfl
  | cons ix rest => simp [assignOuterLoop, h]

/-- The next outer frame belongs to a program that is not a precompile. -/
theorem RendersOuter.next_program {precompile : Pubkey → Prop} {pos : Nat}
    {ixs framed : List InstructionUpdate} {lines : List LogLine}
    (h : RendersOuter bs58 precompile pos ixs lines framed) (hlogs : logs.drop pos = lines)
    {next : Nat} (hnext : findOuterInvoke logs pos = some next) :
    ∃ program, logs[next]?.bind (invokedProgram bs58) = some program ∧ ¬ precompile program := by
  induction h with
  | done =>
      rw [findOuterInvoke, hlogs] at hnext
      simp at hnext
  | other hline _ ih =>
      obtain ⟨hget, hdrop⟩ := drop_eq_cons hlogs
      rw [findOuterInvoke_skip hget (isOuterInvoke_other hline)] at hnext
      exact ih hdrop hnext
  | silent _ _ ih => exact ih hlogs hnext
  | @frame pos ix ixs inner framed body lines failure hlogging _ _ _ =>
      obtain ⟨hget, -⟩ := drop_eq_cons hlogs
      rw [findOuterInvoke_here hget (isOuterInvoke_invokeLine h58 ix.program)] at hnext
      cases hnext
      refine ⟨ix.program, ?_, hlogging⟩
      rw [hget, Option.bind_some, invokedProgram_invokeLine h58]

/-- The loop over the outer instructions gives every frame to its instruction. The cursor
may lag behind the position of the rendering by lines that open no outer frame. -/
theorem assignOuterLoop_renders {precompile : Pubkey → Prop} {pos : Nat}
    {ixs framed : List InstructionUpdate} {lines : List LogLine}
    (h : RendersOuter bs58 precompile pos ixs lines framed) (hlogs : logs.drop pos = lines)
    (hempty : ∀ ix ∈ ixs, ix.stripLogs = ix) {cursor : Nat}
    (hcursor : findOuterInvoke logs cursor = findOuterInvoke logs pos) :
    assignOuterLoop bs58 logs cursor ixs = framed := by
  induction h generalizing cursor with
  | done => rfl
  | other hline _ ih =>
      obtain ⟨hget, hdrop⟩ := drop_eq_cons hlogs
      rw [findOuterInvoke_skip hget (isOuterInvoke_other hline)] at hcursor
      exact ih hdrop hempty hcursor
  | @silent pos ix ixs framed lines hsilent hrest ih =>
      rw [List.forall_mem_cons] at hempty
      have hlater := ih hlogs hempty.2 hcursor
      rw [hempty.1, ← hlater]
      cases hfind : findOuterInvoke logs cursor with
      | none => rw [assignOuterLoop_of_none hfind, assignOuterLoop_of_none hfind]
      | some next =>
          obtain ⟨program, hprogram, hnot⟩ := hrest.next_program h58 hlogs (hcursor ▸ hfind)
          have hother : some program ≠ some ix.program := by
            intro heq
            exact hnot (Option.some.inj heq ▸ hsilent)
          rw [assignOuterLoop, hfind]
          simp only [hprogram, hother, ne_eq, not_false_eq_true, if_true]
  | @frame pos ix ixs inner framed body lines failure _ hbody _ ih =>
      obtain ⟨hget, hdrop, -, hafter⟩ := drop_eq_frame hlogs
      rw [findOuterInvoke_here hget (isOuterInvoke_invokeLine h58 ix.program)] at hcursor
      have hprogram : logs[pos]?.bind (invokedProgram bs58) = some ix.program := by
        rw [hget, Option.bind_some, invokedProgram_invokeLine h58]
      rw [List.forall_mem_cons] at hempty
      rw [assignOuterLoop, hcursor]
      simp only [hprogram, ne_eq, not_true_eq_false, if_false,
        assignLogsRecursive_frame h58 hbody hdrop, ih hafter hempty.2 rfl]

theorem assignLogMessages_renders {precompile : Pubkey → Prop}
    {outer framed : List InstructionUpdate}
    (h : RendersOuter bs58 precompile 0 outer logs framed)
    (hempty : ∀ ix ∈ outer, ix.stripLogs = ix) :
    assignLogMessages bs58 logs outer = framed := by
  have hloop := assignOuterLoop_renders h58 h List.drop_zero hempty rfl
  rw [assignLogMessages]
  split
  · next hnone =>
      obtain hlogs | houter := hnone
      · have hfind : findOuterInvoke logs 0 = none := by
          rw [List.isEmpty_iff.mp hlogs]
          rfl
        rwa [assignOuterLoop_of_none hfind] at hloop
      · rw [List.isEmpty_iff.mp houter] at hloop ⊢
        exact hloop
  · exact hloop

end Assign

/-! ## The direct view -/

/-- An index of the range. -/
def LogRange.Holds (range : LogRange) (i : Nat) : Prop := range.start ≤ i ∧ i < range.stop

instance (range : LogRange) (i : Nat) : Decidable (range.Holds i) :=
  inferInstanceAs (Decidable (_ ∧ _))

/-- The `n` indexes from `pos` on that lie in no range of the given instructions. -/
def outside (ixs : List InstructionUpdate) (pos n : Nat) : List Nat :=
  (List.range' pos n).filter fun i => ∀ ix ∈ ixs, ¬ ix.logRange.Holds i

/-- The lines of the instruction's own range that lie in no range of a child. -/
def ownLines (logs : List LogLine) (ix : InstructionUpdate) : List LogLine :=
  (outside ix.inner ix.logRange.start (ix.logRange.stop - ix.logRange.start)).filterMap (logs[·]?)

theorem outside_append (ixs : List InstructionUpdate) (pos m n : Nat) :
    outside ixs pos (m + n) = outside ixs pos m ++ outside ixs (pos + m) n := by
  rw [outside, ← List.range'_append_1, List.filter_append]
  rfl

/-- Indexes that lie in no range are kept. -/
theorem outside_eq_range' {ixs : List InstructionUpdate} {pos n : Nat}
    (h : ∀ ix ∈ ixs, ∀ i, pos ≤ i → i < pos + n → ¬ ix.logRange.Holds i) :
    outside ixs pos n = List.range' pos n := by
  rw [outside, List.filter_eq_self]
  intro i hi
  rw [List.mem_range'_1] at hi
  exact decide_eq_true fun ix hix => h ix hix i hi.1 hi.2

/-- The indexes of a range are dropped. -/
theorem outside_cons_self {ix : InstructionUpdate} {ixs : List InstructionUpdate} {pos n : Nat}
    (h : ix.logRange = ⟨pos, pos + n⟩) : outside (ix :: ixs) pos n = [] := by
  rw [outside, List.filter_eq_nil_iff]
  intro i hi
  rw [List.mem_range'_1] at hi
  simp only [decide_eq_true_eq]
  exact fun hnone => hnone ix List.mem_cons_self (by rw [h]; exact hi)

/-- A range that ends before the indexes does not matter. -/
theorem outside_cons_of_le {ix : InstructionUpdate} {ixs : List InstructionUpdate} {pos n : Nat}
    (h : ix.logRange.stop ≤ pos) : outside (ix :: ixs) pos n = outside ixs pos n := by
  refine List.filter_congr fun i hi => ?_
  rw [List.mem_range'_1] at hi
  have hnot : ¬ ix.logRange.Holds i := fun hholds => by
    have hlt := hholds.2
    omega
  simp [hnot]

/-- Frames lie within the lines that render them. -/
theorem Renders.within {bs58 : Bs58} {depth pos : Nat} {ixs framed : List InstructionUpdate}
    {lines : List LogLine} (h : Renders bs58 depth pos ixs lines framed) :
    ∀ ix ∈ framed, pos ≤ ix.logRange.start ∧ ix.logRange.stop ≤ pos + lines.length := by
  induction h with
  | done => simp
  | other _ _ ih =>
      intro ix hix
      have hrange := ih ix hix
      rw [List.length_cons]
      omega
  | @frame depth pos ix ixs inner framed body lines failure _ _ _ ih =>
      rw [List.forall_mem_cons]
      simp only [List.length_cons, List.length_append]
      constructor
      · simp only [InstructionUpdate.inFrame]
        omega
      · intro child hchild
        have hrange := ih child hchild
        omega

section Direct

variable {bs58 : Bs58} (h58 : bs58.Lawful) {logs : List LogLine}
include h58

/-- Below the frame of a child the direct view yields nothing. -/
theorem directLines_below {depth pos : Nat} {ixs framed : List InstructionUpdate}
    {lines : List LogLine} (h : Renders bs58 depth pos ixs lines framed) (level : Nat)
    (rest : List LogLine) :
    directLines (level + 2) (lines ++ rest) = directLines (level + 2) rest := by
  induction h generalizing level rest with
  | done => rfl
  | other hline _ ih => simp [directLines, hline, ih]
  | frame failure _ _ ihbody ihrest =>
      simp [directLines, classify_invokeLine h58, classify_closeLine h58, ihbody, ihrest]

/-- At the level of the frame it yields the lines outside the frames of the children. -/
theorem directLines_renders {depth pos : Nat} {ixs framed : List InstructionUpdate}
    {lines : List LogLine} (h : Renders bs58 depth pos ixs lines framed)
    (tail rest : List LogLine) (hlogs : logs.drop pos = lines ++ rest) :
    directLines 1 (lines ++ tail) =
      (outside framed pos lines.length).filterMap (logs[·]?) ++ directLines 1 tail := by
  induction h with
  | done => rfl
  | @other depth pos ixs framed line lines hline hrest ih =>
      obtain ⟨hget, hdrop⟩ := drop_eq_cons hlogs
      have hhere : outside framed pos 1 = [pos] := by
        refine outside_eq_range' fun ix hix i hi hlt hholds => ?_
        have hrange := hrest.within ix hix
        have hstart := hholds.1
        omega
      rw [List.length_cons, Nat.add_comm, outside_append, hhere, List.filterMap_append]
      simp [directLines, hline, hget, ih hdrop]
  | @frame depth pos ix ixs inner framed body lines failure hbody hrest _ ih =>
      rw [List.cons_append, List.append_assoc] at hlogs
      obtain ⟨-, -, -, hafter⟩ := drop_eq_frame hlogs
      have hlength : (invokeLine bs58 ix.program depth ::
          (body ++ closeLine bs58 ix.program failure :: lines)).length =
            (body.length + 2) + lines.length := by
        simp only [List.length_cons, List.length_append]
        omega
      have hskip : directLines 1 (invokeLine bs58 ix.program depth ::
          (body ++ closeLine bs58 ix.program failure :: lines) ++ tail) =
            directLines 1 (lines ++ tail) := by
        simp [directLines, classify_invokeLine h58, classify_closeLine h58,
          directLines_below h58 hbody 0]
      have hlater : outside (ix.inFrame inner pos (pos + body.length + 2) :: framed)
          (pos + (body.length + 2)) lines.length =
            outside framed (pos + body.length + 2) lines.length :=
        outside_cons_of_le le_rfl
      rw [hskip, ih hafter, hlength, outside_append, outside_cons_self rfl, hlater,
        List.nil_append]

omit h58 in
/-- The log slice of an instruction whose frame starts at `pos`. -/
theorem logMessages_inFrame {depth pos : Nat} {ix : InstructionUpdate}
    (inner : List InstructionUpdate) {body rest : List LogLine} {failure : Option (List Char)}
    (hlogs : logs.drop pos =
      invokeLine bs58 ix.program depth :: (body ++ closeLine bs58 ix.program failure :: rest))
    (hshared : ix.shared.logMessages = logs) :
    (ix.inFrame inner pos (pos + body.length + 2)).logMessages =
      invokeLine bs58 ix.program depth :: (body ++ [closeLine bs58 ix.program failure]) := by
  rw [InstructionUpdate.logMessages, InstructionUpdate.inFrame]
  simp only [hshared, List.drop_take, hlogs]
  have hcount : pos + body.length + 2 - pos = (body.length + 1) + 1 := by omega
  simp [hcount, List.take_append]

/-- The direct view of an instruction whose frame starts at `pos`. -/
theorem directLogMessages_inFrame {depth pos : Nat} {ix : InstructionUpdate}
    {inner : List InstructionUpdate} {body rest : List LogLine} {failure : Option (List Char)}
    (hbody : Renders bs58 (depth + 1) (pos + 1) ix.inner body inner)
    (hlogs : logs.drop pos =
      invokeLine bs58 ix.program depth :: (body ++ closeLine bs58 ix.program failure :: rest))
    (hshared : ix.shared.logMessages = logs) :
    (ix.inFrame inner pos (pos + body.length + 2)).directLogMessages =
      ownLines logs (ix.inFrame inner pos (pos + body.length + 2)) := by
  obtain ⟨hget, hdrop, hclose, -⟩ := drop_eq_frame hlogs
  have hlines := logMessages_inFrame inner hlogs hshared
  have hinside : ∀ child ∈ inner, pos + 1 ≤ child.logRange.start ∧
      child.logRange.stop ≤ pos + 1 + body.length := hbody.within
  have hfirst : outside inner pos 1 = [pos] := by
    refine outside_eq_range' fun child hchild i hi hlt hholds => ?_
    have hrange := hinside child hchild
    have hstart := hholds.1
    omega
  have hlast : outside inner (pos + 1 + body.length) 1 = [pos + 1 + body.length] := by
    refine outside_eq_range' fun child hchild i hi hlt hholds => ?_
    have hrange := hinside child hchild
    have hstop := hholds.2
    omega
  have hown : outside inner pos (pos + body.length + 2 - pos) =
      pos :: (outside inner (pos + 1) body.length ++ [pos + 1 + body.length]) := by
    have hcount : pos + body.length + 2 - pos = 1 + (body.length + 1) := by omega
    rw [hcount, outside_append, hfirst, outside_append, hlast, List.singleton_append]
  have hright : ownLines logs (ix.inFrame inner pos (pos + body.length + 2)) =
      invokeLine bs58 ix.program depth ::
        ((outside inner (pos + 1) body.length).filterMap (logs[·]?) ++
          [closeLine bs58 ix.program failure]) := by
    rw [ownLines, InstructionUpdate.inFrame]
    simp [hown, hget, hclose]
  rw [directLogMessages, hlines, hright]
  simp [directLines, classify_invokeLine h58, classify_closeLine h58,
    directLines_renders h58 hbody _ _ hdrop]

/-- The direct view of every instruction in a rendered list. -/
theorem directLogMessages_renders {depth pos : Nat} {ixs framed : List InstructionUpdate}
    {lines rest : List LogLine} (h : Renders bs58 depth pos ixs lines framed)
    (hlogs : logs.drop pos = lines ++ rest) :
    ∀ ix ∈ framed, ∀ d ∈ ix.preorder, d.shared.logMessages = logs →
      d.directLogMessages = ownLines logs d := by
  induction h generalizing rest with
  | done => simp
  | other _ _ ih => exact ih (drop_eq_cons hlogs).2
  | @frame depth pos ix ixs inner framed body lines failure hbody _ ihbody ihrest =>
      rw [List.cons_append, List.append_assoc] at hlogs
      obtain ⟨-, hdrop, -, hafter⟩ := drop_eq_frame hlogs
      rw [List.forall_mem_cons]
      refine ⟨?_, ihrest hafter⟩
      intro d hd hshared
      rw [preorder_eq] at hd
      obtain rfl | hd := List.mem_cons.mp hd
      · exact directLogMessages_inFrame h58 hbody hlogs hshared
      · obtain ⟨child, hchild, hd⟩ := List.mem_flatMap.mp hd
        exact ihbody hdrop child hchild d hd hshared

omit h58 in
/-- An instruction without log lines has an empty direct view, and so has all below it. -/
theorem directLogMessages_stripLogs (ix : InstructionUpdate) :
    ∀ d ∈ ix.stripLogs.preorder, d.directLogMessages = ownLines logs d := by
  intro d hd
  rw [preorder_stripLogs] at hd
  obtain ⟨child, -, rfl⟩ := List.mem_map.mp hd
  rw [stripLogs_eq]
  simp [directLogMessages, InstructionUpdate.logMessages, directLines, ownLines, outside]

theorem directLogMessages_rendersOuter {precompile : Pubkey → Prop} {pos : Nat}
    {ixs framed : List InstructionUpdate} {lines : List LogLine}
    (h : RendersOuter bs58 precompile pos ixs lines framed) (hlogs : logs.drop pos = lines) :
    ∀ ix ∈ framed, ∀ d ∈ ix.preorder, d.shared.logMessages = logs →
      d.directLogMessages = ownLines logs d := by
  induction h with
  | done => simp
  | other _ _ ih => exact ih (drop_eq_cons hlogs).2
  | @silent pos ix ixs framed lines _ _ ih =>
      rw [List.forall_mem_cons]
      exact ⟨fun d hd _ => directLogMessages_stripLogs ix d hd, ih hlogs⟩
  | @frame pos ix ixs inner framed body lines failure _ hbody _ ih =>
      obtain ⟨-, hdrop, -, hafter⟩ := drop_eq_frame hlogs
      rw [List.forall_mem_cons]
      refine ⟨?_, ih hafter⟩
      intro d hd hshared
      rw [preorder_eq] at hd
      obtain rfl | hd := List.mem_cons.mp hd
      · exact directLogMessages_inFrame h58 hbody hlogs hshared
      · obtain ⟨child, hchild, hd⟩ := List.mem_flatMap.mp hd
        exact directLogMessages_renders h58 hbody hdrop child hchild d hd hshared

end Direct

/-- The assignment keeps the shared data of every instruction. -/
theorem assignLogMessages_shared (bs58 : Bs58) (logs : List LogLine)
    {outer : List InstructionUpdate} {P : InstructionShared → Prop}
    (h : ∀ ix ∈ outer, ∀ d ∈ ix.preorder, P d.shared) :
    ∀ ix ∈ assignLogMessages bs58 logs outer, ∀ d ∈ ix.preorder, P d.shared := by
  have hshared : ∀ ix : InstructionUpdate, ix.stripLogs.shared = ix.shared := by
    intro ix
    rw [stripLogs_eq]
  intro ix hix d hd
  have hstrip : ix.stripLogs ∈ outer.map stripLogs := by
    rw [← assignLogMessages_stripLogs logs bs58]
    exact List.mem_map_of_mem hix
  obtain ⟨built, hbuilt, hsame⟩ := List.mem_map.mp hstrip
  have hd : d.stripLogs ∈ built.preorder.map stripLogs := by
    rw [← preorder_stripLogs, hsame, preorder_stripLogs]
    exact List.mem_map_of_mem hd
  obtain ⟨e, he, heq⟩ := List.mem_map.mp hd
  rw [← hshared d, ← heq, hshared]
  exact h built hbuilt e he

/-- For every rendered forest, with other lines anywhere and silent precompiles, the
assignment gives each instruction the range of its own frame and a silent one an empty
range, and the direct view is the frame without the frames of the children. -/
theorem assignLogMessages_inverts_rendering (bs58 : Bs58) (h58 : bs58.Lawful)
    (precompile : Pubkey → Prop) (outer framed : List InstructionUpdate) (logs : List LogLine)
    (hempty : ∀ ix ∈ outer, ix.stripLogs = ix)
    (hshared : ∀ ix ∈ outer, ∀ d ∈ ix.visitAll, d.shared.logMessages = logs)
    (h : RendersOuter bs58 precompile 0 outer logs framed) :
    assignLogMessages bs58 logs outer = framed ∧
      ∀ ix ∈ framed, ∀ d ∈ ix.visitAll, d.directLogMessages = ownLines logs d := by
  have hassign := assignLogMessages_renders h58 h hempty
  refine ⟨hassign, ?_⟩
  simp only [visitAll_eq] at hshared ⊢
  have hkept := assignLogMessages_shared bs58 logs (P := fun shared => shared.logMessages = logs)
    hshared
  rw [hassign] at hkept
  intro ix hix d hd
  exact directLogMessages_rendersOuter h58 h List.drop_zero ix hix d hd (hkept ix hix d hd)

/-- A program that calls another one, which fails. The log text of the first imitates a
close line. -/
def callLogs : List LogLine :=
  ["Log truncated".toList,
    invokeLine .bitcoin (Vector.replicate 32 1) 1,
    "Program log: Program 11 success".toList,
    invokeLine .bitcoin (Vector.replicate 32 2) 2,
    closeLine .bitcoin (Vector.replicate 32 2) (some "custom program error: 0x1".toList),
    closeLine .bitcoin (Vector.replicate 32 1) none]

/-- An instruction of the transaction with these logs, as it is built. -/
def callIx (program : UInt8) (inner : List InstructionUpdate) : InstructionUpdate where
  program := Vector.replicate 32 program
  accounts := []
  data := []
  shared :=
    { slot := 0
      signature := []
      isVote := false
      txnIndex := 0
      err := none
      logMessages := callLogs
      accounts := ⟨[], [], []⟩
      messageHeader := ⟨1, 0, 0⟩ }
  inner := inner
  path := []
  logRange := ⟨0, 0⟩

theorem assignLogMessages_inverts_callLogs :
    assignLogMessages .bitcoin callLogs [callIx 3 [callIx 2 []], callIx 1 [callIx 2 []]] =
        [callIx 3 [callIx 2 []], (callIx 1 []).inFrame [(callIx 2 []).inFrame [] 3 5] 1 6] ∧
      ∀ ix ∈ [callIx 3 [callIx 2 []], (callIx 1 []).inFrame [(callIx 2 []).inFrame [] 3 5] 1 6],
        ∀ d ∈ ix.visitAll, d.directLogMessages = ownLines callLogs d := by
  refine assignLogMessages_inverts_rendering .bitcoin Bs58.bitcoin_lawful
    (fun program => program = Vector.replicate 32 3) _ _ callLogs ?_ ?_ ?_
  · simp [callIx, stripLogs_eq]
  · simp [callIx, visitAll_eq, preorder, preorder.below]
  · have hother : classifyLogLine "Log truncated".toList = .other := by decide +kernel
    have hlog : classifyLogLine "Program log: Program 11 success".toList = .other := by
      decide +kernel
    have hlogging : (callIx 1 [callIx 2 []]).program ≠ Vector.replicate 32 3 := by
      decide +kernel
    have hbody : Renders .bitcoin 2 2 [callIx 2 []] ["Program log: Program 11 success".toList,
        invokeLine .bitcoin (Vector.replicate 32 2) 2,
        closeLine .bitcoin (Vector.replicate 32 2) (some "custom program error: 0x1".toList)]
        [(callIx 2 []).inFrame [] 3 5] :=
      .other hlog (@Renders.frame .bitcoin 2 3 (callIx 2 []) [] [] [] [] [] (some _) .done .done)
    exact .other hother (.silent rfl (@RendersOuter.frame .bitcoin _ 1 (callIx 1 [callIx 2 []]) []
      [(callIx 2 []).inFrame [] 3 5] [] _ [] none hlogging hbody .done))

end Shipstern.Core
