import Shipstern.Lib.Checked
import Shipstern.Token.Instructions

/-!
# The parser of token instructions, and batches

A batch is a row of entries behind the tag 255: the number of accounts of the entry, the length of
its data, the data. The parser walks over the entries with two offsets, one in the data and one in
the accounts, and parses each entry as an instruction of its own, to a fixed depth.

`BatchEntry` is an entry as it is written. `parseBatch` succeeds exactly on the data that entries
encode, and returns these.
-/

open Shipstern.Core (Pubkey InstructionUpdate)

namespace Shipstern.Token

open Checked

@[match_pattern] abbrev withdrawExcessLamportsTag : UInt8 := 38
@[match_pattern] abbrev unwrapLamportsTag : UInt8 := 45
@[match_pattern] abbrev batchTag : UInt8 := 255
def maxBatchDepth : Nat := 8

/-- `slice::get` with a range. -/
def getRange {α : Type} (xs : List α) (start stop : Nat) : Option (List α) :=
  if start ≤ stop ∧ stop ≤ xs.length then some ((xs.take stop).drop start) else none

/-- `u32::try_from`. -/
def tryU32 (n : Nat) : Option UInt32 := if n < 2 ^ 32 then some (UInt32.ofNat n) else none

def okOrInvalid {α : Type} (message : String) : Option α → Parse α
  | some a => .ok a
  | none => .error (.invalidData message.toList)

/-- What a round of the loop reads, and the offsets after it. -/
structure BatchRound where
  numberOfAccounts : UInt32
  accounts : List Pubkey
  data : List UInt8
  batchIndex : Nat
  cursor : Nat
  accountOffset : Nat

/-- The entry at the two offsets. -/
def readBatchEntry (ix : InstructionUpdate) (count cursor accountOffset : Nat) :
    Parse BatchRound := do
  let numberOfAccounts ← okOrInvalid "Missing p-token batch account count" ix.data[cursor]?
  let length ← okOrInvalid "Missing p-token batch instruction length" ix.data[cursor + 1]?
  let nextCursor ← okOrInvalid "Invalid p-token batch instruction length"
    (checkedAdd (cursor + 2) length.toNat)
  let data ← okOrInvalid "Truncated p-token batch instruction data"
    (getRange ix.data (cursor + 2) nextCursor)
  let accountEnd ← okOrInvalid "Invalid p-token batch account count"
    (checkedAdd accountOffset numberOfAccounts.toNat)
  let accounts ← okOrInvalid "Too few accounts for p-token batch entry"
    (getRange ix.accounts accountOffset accountEnd)
  let number ← okOrInvalid "Too many accounts for p-token batch entry"
    (tryU32 numberOfAccounts.toNat)
  let batchIndex ← okOrInvalid "Too many p-token batch entries" (tryU32 count)
  pure ⟨number, accounts, data, batchIndex.toNat, nextCursor, accountEnd⟩

/-- The entry as an instruction of its own. -/
def innerIx (ix : InstructionUpdate) (index : Nat) (accounts : List Pubkey) (data : List UInt8) :
    InstructionUpdate :=
  { ix with accounts, data, inner := [], path := ix.path ++ [index] }

theorem okOrInvalid_ok {α : Type} {message : String} {result : Option α} {a : α} :
    okOrInvalid message result = .ok a ↔ result = some a := by
  cases result <;> simp [okOrInvalid]

/-- Entries are read one after the other. -/
theorem readBatchEntry_cursor {ix : InstructionUpdate} {count cursor accountOffset : Nat}
    {round : BatchRound} (h : readBatchEntry ix count cursor accountOffset = .ok round) :
    cursor < round.cursor := by
  obtain ⟨number, -, h⟩ := Fallible.bind_eq_ok.mp h
  obtain ⟨length, -, h⟩ := Fallible.bind_eq_ok.mp h
  obtain ⟨next, hnext, h⟩ := Fallible.bind_eq_ok.mp h
  obtain ⟨data, -, h⟩ := Fallible.bind_eq_ok.mp h
  obtain ⟨stop, -, h⟩ := Fallible.bind_eq_ok.mp h
  obtain ⟨accounts, -, h⟩ := Fallible.bind_eq_ok.mp h
  obtain ⟨number', -, h⟩ := Fallible.bind_eq_ok.mp h
  obtain ⟨index, -, h⟩ := Fallible.bind_eq_ok.mp h
  obtain rfl := Except.ok.inj h
  obtain ⟨-, rfl⟩ := checkedAdd_eq_some.mp (okOrInvalid_ok.mp hnext)
  show cursor < cursor + 2 + length.toNat
  omega

section

variable (child : InstructionUpdate → Parse (TokenProgram Instruction))

/-- The loop over the entries, from two offsets on. -/
def batchLoop (ix : InstructionUpdate) (cursor accountOffset : Nat)
    (instructions : List (BatchInstruction Instruction)) :
    Parse (List (BatchInstruction Instruction) × Nat) :=
  if cursor < ix.data.length then
    match hround : readBatchEntry ix instructions.length cursor accountOffset with
    | .error failure => .error failure
    | .ok round =>
        let parsed := (child (innerIx ix round.batchIndex round.accounts round.data)).toOption
        batchLoop ix round.cursor round.accountOffset
          (instructions ++ [⟨round.numberOfAccounts, round.accounts, round.data, parsed⟩])
  else .ok (instructions, accountOffset)
termination_by ix.data.length - cursor
decreasing_by
  have := readBatchEntry_cursor hround
  omega

def parseBatch (ix : InstructionUpdate) : Parse Instruction := do
  let (instructions, accountOffset) ← batchLoop child ix 1 0 []
  pure (.batch instructions (← sliceFrom ix.accounts accountOffset))

end

section

variable (unpack : List UInt8 → Option SplTokenInstruction)

/-- The parser, with a parser of batches. -/
def parseWith (batch : InstructionUpdate → Parse Instruction) (ix : InstructionUpdate) :
    Parse (TokenProgram Instruction) := do
  let message ←
    match ix.data.head? with
    | some withdrawExcessLamportsTag => withdrawExcessLamports ix.accounts
    | some unwrapLamportsTag => unwrapLamports ix.accounts ix.data
    | some batchTag => batch ix
    | _ =>
        match unpack ix.data with
        | none => .error (.unpack "Error unpacking token instruction data".toList)
        | some ixType => tokenMessage ix.accounts ixType
  pure ⟨some message⟩

def parseImplWithDepth (ix : InstructionUpdate) (batchDepth : Nat) :
    Parse (TokenProgram Instruction) :=
  parseWith unpack (fun ix =>
    if batchDepth ≥ maxBatchDepth then
      .error (.invalidData "Maximum p-token batch nesting exceeded".toList)
    else parseBatch (fun inner => parseImplWithDepth inner (batchDepth + 1)) ix) ix
termination_by maxBatchDepth - batchDepth

/-- `InstructionParser::parse_impl`. The decoder of the `spl-token` crate is a parameter. -/
def parseImpl (ix : InstructionUpdate) : Parse (TokenProgram Instruction) :=
  parseImplWithDepth unpack ix 0

end

/-! ## Entries as they are written -/

structure BatchEntry where
  numberOfAccounts : UInt8
  data : List UInt8
  short : data.length < 256

def BatchEntry.encode (entry : BatchEntry) : List UInt8 :=
  entry.numberOfAccounts :: UInt8.ofNat entry.data.length :: entry.data

/-- The number of accounts that entries take. -/
def accountsTaken (entries : List BatchEntry) : Nat :=
  (entries.map (·.numberOfAccounts.toNat)).sum

theorem accountsTaken_cons (entry : BatchEntry) (entries : List BatchEntry) :
    accountsTaken (entry :: entries) =
      entry.numberOfAccounts.toNat + accountsTaken entries := by
  rw [accountsTaken, List.map_cons, List.sum_cons, accountsTaken]

/-- Behind an entry. -/
theorem BatchEntry.drop_encode {entry : BatchEntry} {data rest : List UInt8} {cursor : Nat}
    (h : data.drop cursor = entry.encode ++ rest) :
    data.drop (cursor + 2 + entry.data.length) = rest := by
  have hlength : entry.encode.length = 2 + entry.data.length := by
    rw [BatchEntry.encode, List.length_cons, List.length_cons]
    omega
  rw [Nat.add_assoc, ← List.drop_drop, h, ← hlength, List.drop_left]

/-- What is read of an entry. -/
def BatchEntry.round (entry : BatchEntry) (ix : InstructionUpdate)
    (count cursor accountOffset : Nat) : BatchRound where
  numberOfAccounts := UInt32.ofNat entry.numberOfAccounts.toNat
  accounts := (ix.accounts.drop accountOffset).take entry.numberOfAccounts.toNat
  data := entry.data
  batchIndex := count
  cursor := cursor + 2 + entry.data.length
  accountOffset := accountOffset + entry.numberOfAccounts.toNat

theorem drop_eq_cons {α : Type} {xs : List α} {i : Nat} {x : α} :
    xs[i]? = some x ↔ xs.drop i = x :: xs.drop (i + 1) := by
  constructor
  · intro h
    obtain ⟨hi, rfl⟩ := List.getElem?_eq_some_iff.mp h
    exact List.drop_eq_getElem_cons hi
  · intro h
    rw [← List.head?_drop, h, List.head?_cons]

theorem getRange_eq_some {α : Type} {xs ys : List α} {start stop : Nat} :
    getRange xs start stop = some ys ↔
      start ≤ stop ∧ stop ≤ xs.length ∧ ys = (xs.drop start).take (stop - start) := by
  rw [getRange, List.drop_take]
  split
  · next h => simp [h.1, h.2, eq_comm]
  · next h => simp only [reduceCtorEq, false_iff]; exact fun hall => h ⟨hall.1, hall.2.1⟩

theorem tryU32_eq_some {n : Nat} {m : UInt32} :
    tryU32 n = some m ↔ n < 2 ^ 32 ∧ UInt32.ofNat n = m := by
  rw [tryU32]
  split
  case isTrue h => rw [Option.some.injEq, and_iff_right h]
  case isFalse h => exact ⟨nofun, fun hboth => absurd hboth.1 h⟩

section

variable {ix : InstructionUpdate} {count cursor accountOffset : Nat}

/-- What a round reads is an entry. -/
theorem readBatchEntry_ok {round : BatchRound}
    (h : readBatchEntry ix count cursor accountOffset = .ok round) :
    ∃ entry : BatchEntry, ∃ rest, ix.data.drop cursor = entry.encode ++ rest ∧
      accountOffset + entry.numberOfAccounts.toNat ≤ ix.accounts.length ∧ count < 2 ^ 32 ∧
      round = entry.round ix count cursor accountOffset := by
  obtain ⟨number, hnumber, h⟩ := Fallible.bind_eq_ok.mp h
  obtain ⟨length, hlength, h⟩ := Fallible.bind_eq_ok.mp h
  obtain ⟨next, hnext, h⟩ := Fallible.bind_eq_ok.mp h
  obtain ⟨data, hdata, h⟩ := Fallible.bind_eq_ok.mp h
  obtain ⟨stop, hstop, h⟩ := Fallible.bind_eq_ok.mp h
  obtain ⟨accounts, haccounts, h⟩ := Fallible.bind_eq_ok.mp h
  obtain ⟨number', hnumber', h⟩ := Fallible.bind_eq_ok.mp h
  obtain ⟨index, hindex, h⟩ := Fallible.bind_eq_ok.mp h
  obtain rfl := Except.ok.inj h
  rw [okOrInvalid_ok] at hnumber hlength hnext hdata hstop haccounts hnumber' hindex
  obtain ⟨-, rfl⟩ := checkedAdd_eq_some.mp hnext
  obtain ⟨-, rfl⟩ := checkedAdd_eq_some.mp hstop
  obtain ⟨-, hwithin, rfl⟩ := getRange_eq_some.mp hdata
  obtain ⟨-, henough, rfl⟩ := getRange_eq_some.mp haccounts
  obtain ⟨-, rfl⟩ := tryU32_eq_some.mp hnumber'
  obtain ⟨hcount, rfl⟩ := tryU32_eq_some.mp hindex
  have hlengthData : ((ix.data.drop (cursor + 2)).take length.toNat).length = length.toNat := by
    rw [List.length_take, List.length_drop]
    omega
  rw [Nat.add_sub_cancel_left]
  refine ⟨⟨number, (ix.data.drop (cursor + 2)).take length.toNat, ?_⟩,
    (ix.data.drop (cursor + 2)).drop length.toNat, ?_, henough, hcount, ?_⟩
  · rw [hlengthData]
    exact length.toNat_lt
  · rw [drop_eq_cons.mp hnumber, drop_eq_cons.mp hlength, BatchEntry.encode]
    simp only [hlengthData, UInt8.ofNat_toNat, List.cons_append, List.take_append_drop]
  · simp only [BatchEntry.round, hlengthData, Nat.add_sub_cancel_left]
    rw [UInt32.toNat_ofNat_of_lt' hcount]

/-- An entry is read where it is written, if there are accounts and not too many entries before. -/
theorem readBatchEntry_encode {entry : BatchEntry} {rest : List UInt8}
    (hdata : ix.data.drop cursor = entry.encode ++ rest)
    (haccounts : accountOffset + entry.numberOfAccounts.toNat ≤ ix.accounts.length)
    (hcount : count < 2 ^ 32) (hcursor : cursor ≤ 1 + 257 * count)
    (hoffset : accountOffset ≤ 255 * count) :
    readBatchEntry ix count cursor accountOffset =
      .ok (entry.round ix count cursor accountOffset) := by
  obtain ⟨number, data, short⟩ := entry
  have hnumber : ix.data[cursor]? = some number := by
    rw [← List.head?_drop, hdata]
    rfl
  have htail : ix.data.drop (cursor + 1) = UInt8.ofNat data.length :: (data ++ rest) := by
    rw [← List.drop_drop, hdata]
    rfl
  have hlength : ix.data[cursor + 1]? = some (UInt8.ofNat data.length) := by
    rw [← List.head?_drop, htail]
    rfl
  have hbody : ix.data.drop (cursor + 2) = data ++ rest := by
    rw [← List.drop_drop (i := 1), htail]
    rfl
  have hshort : (UInt8.ofNat data.length).toNat = data.length :=
    UInt8.toNat_ofNat_of_lt' short
  have hsmall := number.toNat_lt
  have hwithin : cursor + 2 + data.length ≤ ix.data.length := by
    have hbefore := (List.getElem?_eq_some_iff.mp hlength).1
    have hbodyLength := congrArg List.length hbody
    rw [List.length_drop, List.length_append] at hbodyLength
    omega
  have hnext : checkedAdd (cursor + 2) data.length = some (cursor + 2 + data.length) :=
    checkedAdd_eq_some.mpr ⟨by omega, rfl⟩
  have hrange : getRange ix.data (cursor + 2) (cursor + 2 + data.length) = some data := by
    refine getRange_eq_some.mpr ⟨by omega, hwithin, ?_⟩
    rw [hbody, Nat.add_sub_cancel_left, List.take_left]
  have hstop : checkedAdd accountOffset number.toNat = some (accountOffset + number.toNat) :=
    checkedAdd_eq_some.mpr ⟨by omega, rfl⟩
  have hkeys : getRange ix.accounts accountOffset (accountOffset + number.toNat) =
      some ((ix.accounts.drop accountOffset).take number.toNat) := by
    refine getRange_eq_some.mpr ⟨by omega, haccounts, ?_⟩
    rw [Nat.add_sub_cancel_left]
  have hnumber' : tryU32 number.toNat = some (UInt32.ofNat number.toNat) :=
    tryU32_eq_some.mpr ⟨by omega, rfl⟩
  have hindex : tryU32 count = some (UInt32.ofNat count) := tryU32_eq_some.mpr ⟨hcount, rfl⟩
  refine Fallible.bind_eq_ok.mpr ⟨_, okOrInvalid_ok.mpr hnumber, ?_⟩
  refine Fallible.bind_eq_ok.mpr ⟨_, okOrInvalid_ok.mpr hlength, ?_⟩
  rw [hshort]
  refine Fallible.bind_eq_ok.mpr ⟨_, okOrInvalid_ok.mpr hnext, ?_⟩
  refine Fallible.bind_eq_ok.mpr ⟨_, okOrInvalid_ok.mpr hrange, ?_⟩
  refine Fallible.bind_eq_ok.mpr ⟨_, okOrInvalid_ok.mpr hstop, ?_⟩
  refine Fallible.bind_eq_ok.mpr ⟨_, okOrInvalid_ok.mpr hkeys, ?_⟩
  refine Fallible.bind_eq_ok.mpr ⟨_, okOrInvalid_ok.mpr hnumber', ?_⟩
  refine Fallible.bind_eq_ok.mpr ⟨_, okOrInvalid_ok.mpr hindex, ?_⟩
  rw [UInt32.toNat_ofNat_of_lt' hcount]
  rfl

theorem okOrInvalid_inBounds {α : Type} (message : String) (result : Option α) :
    InBounds (okOrInvalid message result) := by
  cases result with
  | none => exact .error nofun
  | some a => exact .ok a

theorem readBatchEntry_inBounds (ix : InstructionUpdate) (count cursor accountOffset : Nat) :
    InBounds (readBatchEntry ix count cursor accountOffset) := by
  rw [readBatchEntry]
  repeat' first
    | refine (okOrInvalid_inBounds _ _).bind fun _ _ => ?_
    | exact .ok _

/-! ## The loop -/

variable (child : InstructionUpdate → Parse (TokenProgram Instruction)) (ix)

/-- The message of an entry at its place in the batch. -/
def batchInstruction (index accountOffset : Nat) (entry : BatchEntry) :
    BatchInstruction Instruction :=
  let accounts := (ix.accounts.drop accountOffset).take entry.numberOfAccounts.toNat
  { numberOfAccounts := UInt32.ofNat entry.numberOfAccounts.toNat
    accounts
    data := entry.data
    instruction := (child (innerIx ix index accounts entry.data)).toOption }

/-- The messages of entries that follow each other. -/
def batchInstructions (index accountOffset : Nat) :
    List BatchEntry → List (BatchInstruction Instruction)
  | [] => []
  | entry :: entries =>
      batchInstruction ix child index accountOffset entry ::
        batchInstructions (index + 1) (accountOffset + entry.numberOfAccounts.toNat) entries

variable {child ix}

theorem batchLoop_encode {entries : List BatchEntry}
    {done : List (BatchInstruction Instruction)}
    (hdata : ix.data.drop cursor = entries.flatMap BatchEntry.encode)
    (haccounts : accountOffset + accountsTaken entries ≤ ix.accounts.length)
    (hcount : done.length + entries.length ≤ 2 ^ 32) (hcursor : cursor ≤ 1 + 257 * done.length)
    (hoffset : accountOffset ≤ 255 * done.length) :
    batchLoop child ix cursor accountOffset done =
      .ok (done ++ batchInstructions ix child done.length accountOffset entries,
        accountOffset + accountsTaken entries) := by
  induction entries generalizing cursor accountOffset done with
  | nil =>
      have hend : ¬ cursor < ix.data.length := by
        rw [List.flatMap_nil, List.drop_eq_nil_iff] at hdata
        omega
      rw [batchLoop, if_neg hend, batchInstructions, List.append_nil]
      rfl
  | cons entry entries ih =>
      rw [List.flatMap_cons] at hdata
      rw [accountsTaken_cons, ← Nat.add_assoc] at haccounts
      rw [List.length_cons] at hcount
      have hmore : cursor < ix.data.length := by
        have hlength := congrArg List.length hdata
        rw [List.length_drop, List.length_append, BatchEntry.encode, List.length_cons] at hlength
        omega
      have hround := readBatchEntry_encode hdata (Nat.le_of_add_right_le haccounts) (by omega)
        hcursor hoffset
      have hrest := BatchEntry.drop_encode hdata
      have hsmall := entry.numberOfAccounts.toNat_lt
      have hshort := entry.short
      rw [batchLoop, if_pos hmore]
      split
      · next failure hfailure =>
          rw [hround] at hfailure
          cases hfailure
      · next round hok =>
          obtain rfl := Except.ok.inj (hround.symm.trans hok)
          have hlength : (done ++
              [batchInstruction ix child done.length accountOffset entry]).length =
                done.length + 1 := by rw [List.length_append, List.length_singleton]
          have hnext : batchLoop child ix (cursor + 2 + entry.data.length)
              (accountOffset + entry.numberOfAccounts.toNat)
              (done ++ [batchInstruction ix child done.length accountOffset entry]) = _ :=
            ih hrest haccounts (by omega) (by omega) (by omega)
          rw [hlength, List.append_assoc] at hnext
          rw [accountsTaken_cons, ← Nat.add_assoc]
          exact hnext

/-- What the loop accepts is a row of entries. -/
theorem batchLoop_ok {done instructions : List (BatchInstruction Instruction)} {stop : Nat}
    (hoffset : accountOffset ≤ ix.accounts.length) (hcount : done.length ≤ 2 ^ 32)
    (h : batchLoop child ix cursor accountOffset done = .ok (instructions, stop)) :
    ∃ entries, ix.data.drop cursor = entries.flatMap BatchEntry.encode ∧
      accountOffset + accountsTaken entries ≤ ix.accounts.length ∧
      done.length + entries.length ≤ 2 ^ 32 ∧ stop = accountOffset + accountsTaken entries ∧
      instructions = done ++ batchInstructions ix child done.length accountOffset entries := by
  induction cursor, accountOffset, done using batchLoop.induct child ix with
  | case1 cursor accountOffset done hmore failure hfailure =>
      rw [batchLoop, if_pos hmore] at h
      split at h
      · cases h
      · next hok =>
          rw [hfailure] at hok
          cases hok
  | case2 cursor accountOffset done hmore round hok parsed ih =>
      rw [batchLoop, if_pos hmore] at h
      split at h
      · cases h
      next round' hok' =>
      obtain rfl := Except.ok.inj (hok.symm.trans hok')
      obtain ⟨entry, rest, hdata, haccounts, hfew, rfl⟩ := readBatchEntry_ok hok
      have hlength : (done ++ [batchInstruction ix child done.length accountOffset entry]).length
          = done.length + 1 := by rw [List.length_append, List.length_singleton]
      obtain ⟨entries, hentries, henough, hfewer, rfl, rfl⟩ :=
        ih haccounts (hlength.trans_le (by omega)) h
      have hrest : rest = entries.flatMap BatchEntry.encode :=
        (BatchEntry.drop_encode hdata).symm.trans hentries
      refine ⟨entry :: entries, ?_, ?_, ?_, ?_, ?_⟩
      · rw [hdata, hrest, List.flatMap_cons]
      · rw [accountsTaken_cons, ← Nat.add_assoc]
        exact henough
      · rw [List.length_cons]
        have hfewer' : (done ++ [batchInstruction ix child done.length accountOffset entry]).length
          + entries.length ≤ 2 ^ 32 := hfewer
        omega
      · rw [accountsTaken_cons, ← Nat.add_assoc]
        rfl
      · rw [List.append_assoc]
        exact congrArg (fun n => done ++
          ([batchInstruction ix child done.length accountOffset entry] ++
            batchInstructions ix child n (accountOffset + entry.numberOfAccounts.toNat) entries))
          hlength
  | case3 cursor accountOffset done hend =>
      rw [batchLoop, if_neg hend] at h
      obtain ⟨rfl, rfl⟩ := Prod.mk.inj (Except.ok.inj h)
      refine ⟨[], ?_, hoffset, hcount, rfl, (List.append_nil _).symm⟩
      exact List.drop_eq_nil_of_le (Nat.le_of_not_lt hend)

/-- Which parser the entries are given does not decide whether the loop succeeds, nor how it
fails. -/
theorem batchLoop_error {child' : InstructionUpdate → Parse (TokenProgram Instruction)}
    {done : List (BatchInstruction Instruction)} {failure : Failure} :
    ∀ done' : List (BatchInstruction Instruction), done.length = done'.length →
      batchLoop child ix cursor accountOffset done = .error failure →
      batchLoop child' ix cursor accountOffset done' = .error failure := by
  induction cursor, accountOffset, done using batchLoop.induct child ix with
  | case1 cursor accountOffset done hmore failure' hfailure =>
      intro done' hdone h
      rw [batchLoop, if_pos hmore] at h ⊢
      rw [hdone] at hfailure
      split at h
      · next hfound =>
          rw [hdone] at hfound
          split
          · next hfound' =>
              obtain rfl := Except.error.inj (hfound.symm.trans hfound')
              exact h
          · next hok => rw [hfound] at hok; cases hok
      · next hok => rw [hdone, hfailure] at hok; cases hok
  | case2 cursor accountOffset done hmore round hok parsed ih =>
      intro done' hdone h
      rw [batchLoop, if_pos hmore] at h ⊢
      split at h
      · next hfailure => rw [hok] at hfailure; cases hfailure
      next round' hok' =>
      obtain rfl := Except.ok.inj (hok.symm.trans hok')
      rw [hdone] at hok
      split
      · next hfailure => rw [hok] at hfailure; cases hfailure
      next round' hok'' =>
      obtain rfl := Except.ok.inj (hok.symm.trans hok'')
      refine ih _ ?_ h
      rw [List.length_append, List.length_append, hdone]
      rfl
  | case3 cursor accountOffset done hend =>
      intro done' hdone h
      rw [batchLoop, if_neg hend] at h
      cases h

theorem batchInstructions_congr
    {child' : InstructionUpdate → Parse (TokenProgram Instruction)} {entries : List BatchEntry}
    (h : ∀ entry ∈ entries, ∀ index accounts,
      child (innerIx ix index accounts entry.data) =
        child' (innerIx ix index accounts entry.data)) (index accountOffset : Nat) :
    batchInstructions ix child index accountOffset entries =
      batchInstructions ix child' index accountOffset entries := by
  induction entries generalizing index accountOffset with
  | nil => rfl
  | cons entry entries ih =>
      rw [List.forall_mem_cons] at h
      rw [batchInstructions, batchInstructions, ih h.2, batchInstruction, batchInstruction, h.1]

/-- A batch is accepted exactly if it is a row of entries with enough accounts, and not too many. -/
theorem parseBatch_ok_iff {message : Instruction} :
    parseBatch child ix = .ok message ↔
      ∃ entries, ix.data.drop 1 = entries.flatMap BatchEntry.encode ∧
        accountsTaken entries ≤ ix.accounts.length ∧ entries.length ≤ 2 ^ 32 ∧
        message = .batch (batchInstructions ix child 0 0 entries)
          (ix.accounts.drop (accountsTaken entries)) := by
  constructor
  · intro h
    obtain ⟨⟨instructions, stop⟩, hloop, h⟩ := Fallible.bind_eq_ok.mp h
    obtain ⟨entries, hdata, haccounts, hcount, rfl, rfl⟩ :=
      batchLoop_ok (Nat.zero_le _) (Nat.zero_le _) hloop
    rw [Nat.zero_add] at haccounts h
    rw [List.length_nil, Nat.zero_add] at hcount
    dsimp only at h
    rw [sliceFrom_ok haccounts] at h
    exact ⟨entries, hdata, haccounts, hcount, (Except.ok.inj h).symm⟩
  · rintro ⟨entries, hdata, haccounts, hcount, rfl⟩
    have hloop : batchLoop child ix 1 0 [] = _ :=
      batchLoop_encode hdata (by omega) (by simpa using hcount) (by simp) (by simp)
    rw [parseBatch, hloop]
    show (sliceFrom ix.accounts (0 + accountsTaken entries) >>= _) = _
    rw [Nat.zero_add, sliceFrom_ok haccounts]
    rfl

theorem batchLoop_inBounds (done : List (BatchInstruction Instruction)) :
    InBounds (batchLoop child ix cursor accountOffset done) := by
  induction cursor, accountOffset, done using batchLoop.induct child ix with
  | case1 cursor accountOffset done hmore failure hfailure =>
      rw [batchLoop, if_pos hmore]
      split
      · next failure' hfailure' =>
          have hread := readBatchEntry_inBounds ix done.length cursor accountOffset
          rw [hfailure'] at hread
          exact .error fun heq => hread (congrArg Except.error heq)
      · next hok => rw [hfailure] at hok; cases hok
  | case2 cursor accountOffset done hmore round hok parsed ih =>
      rw [batchLoop, if_pos hmore]
      split
      · next hfailure => rw [hok] at hfailure; cases hfailure
      · next round' hok' =>
          obtain rfl := Except.ok.inj (hok.symm.trans hok')
          exact ih
  | case3 cursor accountOffset done hend =>
      rw [batchLoop, if_neg hend]
      exact .ok _

theorem parseBatch_inBounds : InBounds (parseBatch child ix) := by
  refine (batchLoop_inBounds []).bind fun found hloop => ?_
  obtain ⟨instructions, stop⟩ := found
  obtain ⟨entries, -, haccounts, -, rfl, -⟩ :=
    batchLoop_ok (Nat.zero_le _) (Nat.zero_le _) hloop
  exact .sliceFrom_bind haccounts fun _ => .ok _

/-- Parsers that agree on the entries agree on the batch. -/
theorem parseBatch_congr {child' : InstructionUpdate → Parse (TokenProgram Instruction)}
    (h : ∀ entries : List BatchEntry, ix.data.drop 1 = entries.flatMap BatchEntry.encode →
      ∀ entry ∈ entries, ∀ index accounts,
        child (innerIx ix index accounts entry.data) =
          child' (innerIx ix index accounts entry.data)) :
    parseBatch child ix = parseBatch child' ix := by
  cases hloop : batchLoop child ix 1 0 [] with
  | error failure =>
      have hloop' : batchLoop child' ix 1 0 [] = .error failure := batchLoop_error [] rfl hloop
      rw [parseBatch, parseBatch, hloop, hloop']
  | ok found =>
      obtain ⟨entries, hdata, haccounts, hcount, -, -⟩ :=
        batchLoop_ok (Nat.zero_le _) (Nat.zero_le _) hloop
      have hfirst : batchLoop child ix 1 0 [] = _ :=
        batchLoop_encode hdata haccounts hcount (by simp) (by simp)
      have hsecond : batchLoop child' ix 1 0 [] = _ :=
        batchLoop_encode hdata haccounts hcount (by simp) (by simp)
      rw [parseBatch, parseBatch, hfirst, hsecond, batchInstructions_congr (h entries hdata)]

end

end Shipstern.Token
