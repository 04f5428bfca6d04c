import Shipstern.Token.BatchParser

/-!
# Nested batches

An entry of a batch is parsed one level deeper, and from the eighth level on a batch is refused. So
the parser is the one without a bound on data that has no more levels than there is room for.
-/

open Shipstern.Core (Pubkey InstructionUpdate)

namespace Shipstern.Token

section

variable (unpack : List UInt8 → Option SplTokenInstruction)

/-- The data has at most `n` levels of batches. -/
def Levels : Nat → List UInt8 → Prop
  | 0, data => data.head? ≠ some batchTag
  | n + 1, data =>
      ∀ entries : List BatchEntry, data = batchTag :: entries.flatMap BatchEntry.encode →
        ∀ entry ∈ entries, Levels n entry.data

/-- The parser without a bound on the depth. -/
def parseUnbounded (ix : InstructionUpdate) : Parse (TokenProgram Instruction) :=
  parseWith unpack (parseBatch fun inner =>
    if inner.data.length < ix.data.length then parseUnbounded inner else .error .outOfBounds) ix
termination_by ix.data.length

/-- The bytes of the entries of a batch. -/
def encodeBatch (instructions : List (BatchInstruction Instruction)) : List UInt8 :=
  batchTag :: instructions.flatMap fun entry =>
    UInt8.ofNat entry.numberOfAccounts.toNat :: UInt8.ofNat entry.data.length :: entry.data

variable {unpack}

theorem parseWith_batch {batch : InstructionUpdate → Parse Instruction} {ix : InstructionUpdate}
    (h : ix.data.head? = some batchTag) :
    parseWith unpack batch ix = (fun message => ⟨some message⟩) <$> batch ix := by
  rw [parseWith, h]
  rfl

theorem parseWith_plain {batch batch' : InstructionUpdate → Parse Instruction}
    {ix : InstructionUpdate} (h : ix.data.head? ≠ some batchTag) :
    parseWith unpack batch ix = parseWith unpack batch' ix := by
  rw [parseWith, parseWith]
  split
  · rfl
  · rfl
  · next htag => exact (h htag).elim
  · rfl

theorem parseWith_congr {batch batch' : InstructionUpdate → Parse Instruction}
    {ix : InstructionUpdate} (h : ix.data.head? = some batchTag → batch ix = batch' ix) :
    parseWith unpack batch ix = parseWith unpack batch' ix := by
  by_cases htag : ix.data.head? = some batchTag
  · rw [parseWith_batch htag, parseWith_batch htag, h htag]
  · exact parseWith_plain htag

theorem BatchEntry.length_lt {entries : List BatchEntry} {entry : BatchEntry}
    (h : entry ∈ entries) : entry.data.length < (entries.flatMap BatchEntry.encode).length := by
  obtain ⟨before, later, rfl⟩ := List.append_of_mem h
  simp only [List.flatMap_append, List.flatMap_cons, List.length_append, BatchEntry.encode,
    List.length_cons]
  omega

/-- The unbounded parser calls itself on every entry. -/
theorem parseUnbounded_eq (ix : InstructionUpdate) :
    parseUnbounded unpack ix = parseWith unpack (parseBatch (parseUnbounded unpack)) ix := by
  rw [parseUnbounded]
  refine parseWith_congr fun _ => ?_
  refine parseBatch_congr fun entries hdata entry hentry index accounts => ?_
  have hshorter : entry.data.length < ix.data.length := by
    have hlt := BatchEntry.length_lt hentry
    rw [← hdata, List.length_drop] at hlt
    omega
  exact if_pos hshorter

theorem parseImplWithDepth_eq (ix : InstructionUpdate) (batchDepth : Nat) :
    parseImplWithDepth unpack ix batchDepth =
      parseWith unpack (fun ix =>
        if batchDepth ≥ maxBatchDepth then
          .error (.invalidData "Maximum p-token batch nesting exceeded".toList)
        else parseBatch (fun inner => parseImplWithDepth unpack inner (batchDepth + 1)) ix) ix := by
  rw [parseImplWithDepth]

/-- With enough room for its levels, data is parsed as without a bound. -/
theorem parseImplWithDepth_eq_unbounded {levels batchDepth : Nat}
    (hroom : levels + batchDepth ≤ maxBatchDepth) {ix : InstructionUpdate}
    (h : Levels levels ix.data) :
    parseImplWithDepth unpack ix batchDepth = parseUnbounded unpack ix := by
  induction levels generalizing batchDepth ix with
  | zero =>
      rw [parseImplWithDepth_eq, parseUnbounded_eq]
      exact parseWith_plain h
  | succ levels ih =>
      rw [parseImplWithDepth_eq, parseUnbounded_eq]
      refine parseWith_congr fun htag => ?_
      rw [if_neg (by omega)]
      refine parseBatch_congr fun entries hdata entry hentry index accounts => ?_
      refine ih (by omega) (h entries ?_ entry hentry)
      obtain ⟨rest, hrest⟩ := List.head?_eq_some_iff.mp htag
      rw [hrest] at hdata ⊢
      rw [← hdata]
      rfl

theorem withdrawExcessLamports_inBounds (accounts : List Pubkey) :
    InBounds (withdrawExcessLamports accounts) :=
  .check fun h => .index_bind (by omega) fun _ => .index_bind (by omega) fun _ =>
    .index_bind (by omega) fun _ => .sliceFrom_bind (by omega) fun _ => .ok _

theorem unpackOptionalU64_inBounds (input : List UInt8) : InBounds (unpackOptionalU64 input) := by
  rw [unpackOptionalU64.eq_def]
  split
  · exact .ok _
  · exact .ok _
  · split
    · exact .ok _
    · exact .error nofun
  · exact .error nofun

theorem unwrapLamports_inBounds (accounts : List Pubkey) {data : List UInt8} (h : 1 ≤ data.length) :
    InBounds (unwrapLamports accounts data) :=
  .check fun hcount => .index_bind (by omega) fun _ => .index_bind (by omega) fun _ =>
    .index_bind (by omega) fun _ => .sliceFrom_bind (by omega) fun _ => .sliceFrom_bind h fun _ =>
      (unpackOptionalU64_inBounds _).bind fun _ _ => .ok _

theorem parseWith_inBounds {batch : InstructionUpdate → Parse Instruction} {ix : InstructionUpdate}
    (hbatch : InBounds (batch ix)) : InBounds (parseWith unpack batch ix) := by
  rw [parseWith]
  split
  · exact (withdrawExcessLamports_inBounds _).bind fun _ _ => .ok _
  · next htag =>
      obtain ⟨rest, hrest⟩ := List.head?_eq_some_iff.mp htag
      have hlength : 1 ≤ ix.data.length := by
        rw [hrest, List.length_cons]
        omega
      exact (unwrapLamports_inBounds _ hlength).bind fun _ _ => .ok _
  · exact hbatch.bind fun _ _ => .ok _
  · split
    · exact .error nofun
    · exact (InBounds.tokenMessage _).bind fun _ _ => .ok _

theorem parseImplWithDepth_inBounds (ix : InstructionUpdate) (batchDepth : Nat) :
    InBounds (parseImplWithDepth unpack ix batchDepth) := by
  rw [parseImplWithDepth_eq]
  refine parseWith_inBounds ?_
  split
  · exact .error nofun
  · exact parseBatch_inBounds

/-! ## What a batch keeps -/

variable {child : InstructionUpdate → Parse (TokenProgram Instruction)} {ix : InstructionUpdate}

theorem encode_batchInstructions (index accountOffset : Nat) (entries : List BatchEntry) :
    ((batchInstructions ix child index accountOffset entries).flatMap fun entry =>
      UInt8.ofNat entry.numberOfAccounts.toNat :: UInt8.ofNat entry.data.length :: entry.data) =
      entries.flatMap BatchEntry.encode := by
  induction entries generalizing index accountOffset with
  | nil => rfl
  | cons entry entries ih =>
      have hnumber : UInt8.ofNat (UInt32.ofNat entry.numberOfAccounts.toNat).toNat =
          entry.numberOfAccounts := by
        have hsmall : entry.numberOfAccounts.toNat < UInt32.size :=
          entry.numberOfAccounts.toNat_lt.trans (by decide)
        rw [UInt32.toNat_ofNat_of_lt' hsmall, UInt8.ofNat_toNat]
      rw [batchInstructions, List.flatMap_cons, ih, List.flatMap_cons, BatchEntry.encode]
      simp only [batchInstruction, hnumber]

variable (child ix) in
/-- The accounts of the entries, and what is left, are the accounts. -/
theorem accounts_batchInstructions (index accountOffset : Nat) (entries : List BatchEntry) :
    (batchInstructions ix child index accountOffset entries).flatMap (·.accounts) ++
        ix.accounts.drop (accountOffset + accountsTaken entries) =
      ix.accounts.drop accountOffset := by
  induction entries generalizing index accountOffset with
  | nil => rfl
  | cons entry entries ih =>
      rw [batchInstructions, List.flatMap_cons, accountsTaken_cons, ← Nat.add_assoc,
        List.append_assoc, ih, ← List.drop_drop]
      exact List.take_append_drop _ _

/-- One entry of the result. -/
theorem mem_batchInstructions {index accountOffset : Nat} {entries : List BatchEntry}
    (haccounts : accountOffset + accountsTaken entries ≤ ix.accounts.length) {j : Nat}
    {entry : BatchInstruction Instruction}
    (h : (batchInstructions ix child index accountOffset entries)[j]? = some entry) :
    entry.data.length < 256 ∧ entry.accounts.length = entry.numberOfAccounts.toNat ∧
      entry.instruction = (child (innerIx ix (index + j) entry.accounts entry.data)).toOption := by
  induction entries generalizing index accountOffset j with
  | nil => cases h
  | cons written entries ih =>
      rw [accountsTaken_cons, ← Nat.add_assoc] at haccounts
      cases j with
      | zero =>
          obtain rfl := Option.some.inj h
          refine ⟨written.short, ?_, rfl⟩
          have hsmall : written.numberOfAccounts.toNat < UInt32.size :=
            written.numberOfAccounts.toNat_lt.trans (by decide)
          simp only [batchInstruction, List.length_take, List.length_drop]
          rw [UInt32.toNat_ofNat_of_lt' hsmall]
          omega
      | succ j =>
          have hrest := ih haccounts h
          rwa [Nat.add_right_comm, Nat.add_assoc] at hrest

end

theorem parseImpl_batch_iff {unpack : List UInt8 → Option SplTokenInstruction}
    {ix : InstructionUpdate} {rest : List UInt8} (hdata : ix.data = batchTag :: rest) :
    (∃ instructions remaining,
        parseImpl unpack ix = .ok ⟨some (.batch instructions remaining)⟩) ↔
      ∃ entries : List BatchEntry, rest = entries.flatMap BatchEntry.encode ∧
        accountsTaken entries ≤ ix.accounts.length ∧ entries.length ≤ 2 ^ 32 := by
  have htag : ix.data.head? = some batchTag := by
    rw [hdata]
    rfl
  have hrest : ix.data.drop 1 = rest := by
    rw [hdata]
    rfl
  rw [parseImpl, parseImplWithDepth_eq, parseWith_batch htag, if_neg (by decide)]
  constructor
  · rintro ⟨instructions, remaining, h⟩
    obtain ⟨message, hbatch, -⟩ := Fallible.map_eq_ok.mp h
    obtain ⟨entries, hentries, haccounts, hcount, -⟩ := parseBatch_ok_iff.mp hbatch
    exact ⟨entries, hrest.symm.trans hentries, haccounts, hcount⟩
  · rintro ⟨entries, hentries, haccounts, hcount⟩
    exact ⟨_, _, Fallible.map_eq_ok.mpr ⟨_, parseBatch_ok_iff.mpr
      ⟨entries, hrest.trans hentries, haccounts, hcount, rfl⟩, rfl⟩⟩

/-! ## Too many entries -/

/-- An entry without accounts and data. -/
def emptyEntry : BatchEntry := ⟨0, [], by decide⟩

theorem encode_replicate (n : Nat) :
    (List.replicate n emptyEntry).flatMap BatchEntry.encode = List.replicate (2 * n) 0 := by
  induction n with
  | zero => rfl
  | succ n ih =>
      rw [List.replicate_succ, List.flatMap_cons, ih, Nat.mul_succ, Nat.add_comm,
        ← List.replicate_append_replicate]
      rfl

/-- Zeros are the bytes of empty entries, and of nothing else. -/
theorem length_of_encode_zeros {entries : List BatchEntry} {n : Nat}
    (h : entries.flatMap BatchEntry.encode = List.replicate n 0) : n = 2 * entries.length := by
  induction entries generalizing n with
  | nil =>
      have hlength := congrArg List.length h
      rw [List.flatMap_nil, List.length_nil, List.length_replicate] at hlength
      exact hlength.symm
  | cons entry entries ih =>
      obtain ⟨number, data, short⟩ := entry
      rw [List.flatMap_cons, BatchEntry.encode, List.cons_append, List.cons_append] at h
      rcases n with - | - | n
      · cases h
      · cases (List.cons.inj h).2
      · obtain ⟨-, h⟩ := List.cons.inj h
        obtain ⟨hlength, h⟩ := List.cons.inj h
        have hempty : data.length = 0 := by
          have hnat := congrArg UInt8.toNat hlength
          rwa [UInt8.toNat_ofNat_of_lt' short] at hnat
        obtain rfl := List.eq_nil_of_length_eq_zero hempty
        rw [List.nil_append] at h
        rw [ih h, List.length_cons]
        omega

/-- One entry more than a path has indices for. -/
def manyEntries : List BatchEntry := List.replicate (2 ^ 32 + 1) emptyEntry

/-- The batch of these entries is refused. -/
theorem manyEntries_refused :
    accountsTaken manyEntries ≤ (withData []).accounts.length ∧
      ¬ ∃ instructions remaining,
        parseImpl (fun _ => none)
          (withData (batchTag :: manyEntries.flatMap BatchEntry.encode)) =
          .ok ⟨some (.batch instructions remaining)⟩ := by
  constructor
  · have hnone : accountsTaken manyEntries = 0 := by
      rw [accountsTaken, manyEntries, List.map_replicate, List.sum_replicate_nat]
      rfl
    rw [hnone]
    exact Nat.zero_le _
  · rw [parseImpl_batch_iff rfl]
    rintro ⟨entries, hentries, -, hcount⟩
    rw [manyEntries, encode_replicate] at hentries
    have hlength := length_of_encode_zeros hentries.symm
    omega

/-- What is known of a batch that was accepted at a depth. -/
structure BatchKept (unpack : List UInt8 → Option SplTokenInstruction) (ix : InstructionUpdate)
    (batchDepth : Nat) (instructions : List (BatchInstruction Instruction))
    (remainingAccounts : List Pubkey) : Prop where
  data : encodeBatch instructions = ix.data
  accounts : instructions.flatMap (·.accounts) ++ remainingAccounts = ix.accounts
  entries : ∀ index entry, instructions[index]? = some entry →
    entry.data.length < 256 ∧ entry.accounts.length = entry.numberOfAccounts.toNat ∧
      entry.instruction = (parseImplWithDepth unpack
        (innerIx ix index entry.accounts entry.data) (batchDepth + 1)).toOption ∧
      (maxBatchDepth ≤ batchDepth + 1 → entry.data.head? = some batchTag →
        entry.instruction = none)

/-- What the parser does with batches. -/
structure BatchExact (unpack : List UInt8 → Option SplTokenInstruction) : Prop where
  accepts_iff : ∀ ix rest, ix.data = batchTag :: rest →
    ((∃ instructions remaining,
        parseImpl unpack ix = .ok ⟨some (.batch instructions remaining)⟩) ↔
      ∃ entries : List BatchEntry, rest = entries.flatMap BatchEntry.encode ∧
        accountsTaken entries ≤ ix.accounts.length ∧ entries.length ≤ 2 ^ 32)
  kept : ∀ ix batchDepth instructions remaining, ix.data.head? = some batchTag →
    parseImplWithDepth unpack ix batchDepth = .ok ⟨some (.batch instructions remaining)⟩ →
    BatchKept unpack ix batchDepth instructions remaining
  tooDeep : ∀ ix batchDepth, ix.data.head? = some batchTag → maxBatchDepth ≤ batchDepth →
    parseImplWithDepth unpack ix batchDepth =
      .error (.invalidData "Maximum p-token batch nesting exceeded".toList)
  unbounded : ∀ ix, Levels maxBatchDepth ix.data → parseImpl unpack ix = parseUnbounded unpack ix
  recursive : ∀ ix,
    parseUnbounded unpack ix = parseWith unpack (parseBatch (parseUnbounded unpack)) ix
  /-- An entry is `none` because its parser refused it, never because it panicked. -/
  inBounds : ∀ ix batchDepth, InBounds (parseImplWithDepth unpack ix batchDepth)

/-- The parser accepts the batches of its grammar with at most `2 ^ 32` entries, and loses nothing
of them. -/
theorem batch_exact (unpack : List UInt8 → Option SplTokenInstruction) : BatchExact unpack where
  accepts_iff := fun _ _ => parseImpl_batch_iff
  kept := by
    intro ix batchDepth instructions remaining htag h
    rw [parseImplWithDepth_eq, parseWith_batch htag] at h
    obtain ⟨message, hbatch, hmessage⟩ := Fallible.map_eq_ok.mp h
    obtain rfl := Option.some.inj (congrArg TokenProgram.instruction hmessage)
    split at hbatch
    · cases hbatch
    obtain ⟨entries, hdata, haccounts, -, hsame⟩ := parseBatch_ok_iff.mp hbatch
    obtain ⟨rfl, rfl⟩ := Instruction.batch.inj hsame
    refine ⟨?_, ?_, fun index entry hentry => ?_⟩
    · obtain ⟨rest, hrest⟩ := List.head?_eq_some_iff.mp htag
      rw [encodeBatch, encode_batchInstructions, ← hdata, hrest]
      rfl
    · have hall := accounts_batchInstructions
        (fun inner => parseImplWithDepth unpack inner (batchDepth + 1)) ix 0 0 entries
      rwa [Nat.zero_add] at hall
    · obtain ⟨hshort, hlength, hinstruction⟩ :=
        mem_batchInstructions ((Nat.zero_add _).trans_le haccounts) hentry
      rw [Nat.zero_add] at hinstruction
      refine ⟨hshort, hlength, hinstruction, fun hdeep hinner => ?_⟩
      rw [hinstruction, parseImplWithDepth_eq, parseWith_batch hinner, if_pos hdeep]
      rfl
  tooDeep := by
    intro ix batchDepth htag hdeep
    rw [parseImplWithDepth_eq, parseWith_batch htag, if_pos hdeep]
    rfl
  unbounded := fun _ h => parseImplWithDepth_eq_unbounded (Nat.le_refl _) h
  recursive := parseUnbounded_eq
  inBounds := parseImplWithDepth_inBounds

end Shipstern.Token
