import Shipstern.BlockCoordinator.Completeness
import Shipstern.Core.InstructionTree
import Shipstern.Kafka.Handler

/-!
# What a run of the handler sends

The messages of one run in a normal form: a statistic of the transaction, what is sent for
each visited instruction, and `TransactionParsed` at the end. `Accounted` lists what can be
sent for one instruction. From that two facts about the records and statistics of a run
follow: its sort keys are distinct, and the decoded records together with the statistics
of undecoded instructions are as many as the instructions in the trees.
-/

open Shipstern.Core

namespace Shipstern.Kafka

open BlockCoordinator

/-- What is sent for one instruction: a decoded record, a fallback record and a statistic,
or the statistic alone. -/
inductive Accounted (slot : Slot) (key : InstructionRecordSortKey) :
    List (CoordinatorEvent PreparedRecord) → Prop
  | decoded (record : PreparedRecord) (decoded : record.isDecoded = true)
      (kind : record.kind = .instruction) :
      Accounted slot key [.instructionRecordParsed slot key record]
  | fallback (record : PreparedRecord) (undecoded : record.isDecoded = false)
      (kind : record.kind = .instruction) (hadError : Bool) :
      Accounted slot key
        [.instructionRecordParsed slot key record, .parseStats slot (undecodedKind hadError)]
  | alone (hadError : Bool) : Accounted slot key [.parseStats slot (undecodedKind hadError)]

/-- Nothing that is sent for an instruction finishes its transaction. -/
theorem Accounted.unfinished {slot : Slot} {key : InstructionRecordSortKey}
    {evs : List (CoordinatorEvent PreparedRecord)} (h : Accounted slot key evs) :
    ∀ e ∈ evs, e.isTransactionParsed slot = false := by
  cases h with
  | decoded => simp [CoordinatorEvent.isTransactionParsed]
  | fallback => simp [CoordinatorEvent.isTransactionParsed]
  | alone => simp [CoordinatorEvent.isTransactionParsed]

section Instruction

variable {bs58 : Bs58} {sink : KafkaSink}

theorem kind_of_parseInstructionLoop {context : InstructionRecordContext} {ix : InstructionUpdate}
    {hadError hadError' : Bool} {parsers : List DynInstructionParser} {record : PreparedRecord}
    (h : sink.parseInstructionLoop bs58 context ix hadError parsers = (some record, hadError')) :
    record.kind = .instruction := by
  induction parsers generalizing hadError with
  | nil =>
      rw [KafkaSink.parseInstructionLoop] at h
      cases h
  | cons parser parsers ih =>
      rw [KafkaSink.parseInstructionLoop] at h
      split at h
      · exact ih h
      · split at h
        · cases h
          rfl
        · exact ih h
        · split at h
          · cases h
            rfl
          · exact ih h

theorem instructionMessages_accounted (slot txIndex : Nat) (visited : InstructionUpdate × Path) :
    Accounted slot (sortKey txIndex visited.2)
      (instructionMessages bs58 sink slot txIndex visited) := by
  obtain ⟨ix, path⟩ := visited
  rw [instructionMessages]
  split
  · next record hadError hparse =>
      have hkind := kind_of_parseInstructionLoop hparse
      cases hdecoded : record.isDecoded with
      | true => exact .decoded record hdecoded hkind
      | false => exact .fallback record hdecoded hkind hadError
  · next hadError _ => exact .alone hadError

end Instruction

/-! ## The normal form -/

/-- The instructions that a run of the handler visits. -/
def visited (bs58 : Bs58) (update : TransactionUpdate) : List (InstructionUpdate × Path) :=
  match update.transaction with
  | none => []
  | some txInfo =>
      if (txInfo.statusMeta.bind (·.err)).isSome then []
      else
        match buildFromTxn bs58 update with
        | .error _ => []
        | .ok instructions => instructions.flatMap (·.visitAllWithFlatIndices)

/-- The number of instructions in the trees of a successful transaction that can be built. -/
def instructionCount (bs58 : Bs58) (update : TransactionUpdate) : Nat :=
  match update.transaction with
  | none => 0
  | some txInfo =>
      if (txInfo.statusMeta.bind (·.err)).isSome then 0
      else
        match buildFromTxn bs58 update with
        | .error _ => 0
        | .ok instructions => (instructions.map (·.size)).sum

/-- The statistic of the transaction itself, which a run sends first. -/
def status (update : TransactionUpdate) : List (CoordinatorEvent PreparedRecord) :=
  match update.transaction with
  | none => []
  | some txInfo =>
      [.parseStats update.slot
        (if (txInfo.statusMeta.bind (·.err)).isSome then .transactionStatusFailed
          else .transactionStatusSucceeded)]

def txIndex (update : TransactionUpdate) : Nat := update.transaction.elim 0 (·.index)

/-- Everything a run sends before its last message. -/
def parts (bs58 : Bs58) (sink : KafkaSink) (update : TransactionUpdate) :
    List (CoordinatorEvent PreparedRecord) :=
  status update ++
    (visited bs58 update).flatMap (instructionMessages bs58 sink update.slot (txIndex update))

theorem handle_eq (bs58 : Bs58) (sink : KafkaSink) (update : TransactionUpdate) :
    handle bs58 sink update = parts bs58 sink update ++ [.transactionParsed update.slot] := by
  rw [handle, parts, status, visited, txIndex]
  cases update.transaction with
  | none => rfl
  | some txInfo =>
      by_cases hfailed : (txInfo.statusMeta.bind (·.err)).isSome
      · simp only [hfailed, if_true]
        rfl
      · simp only [hfailed]
        cases buildFromTxn bs58 update with
        | error e => rfl
        | ok instructions =>
            simp [List.flatMap_assoc]

/-- Instructions are visited only if the trees of the transaction were built. -/
theorem visited_cases (bs58 : Bs58) (update : TransactionUpdate) :
    (visited bs58 update = [] ∧ instructionCount bs58 update = 0) ∨
      ∃ instructions, buildFromTxn bs58 update = .ok instructions ∧
        visited bs58 update = instructions.flatMap (·.visitAllWithFlatIndices) ∧
        instructionCount bs58 update = (instructions.map (·.size)).sum := by
  rw [visited, instructionCount]
  cases update.transaction with
  | none => exact .inl ⟨rfl, rfl⟩
  | some txInfo =>
      by_cases hfailed : (txInfo.statusMeta.bind (·.err)).isSome
      · exact .inl ⟨by simp [hfailed], by simp [hfailed]⟩
      · cases hbuild : buildFromTxn bs58 update with
        | error e => exact .inl ⟨by simp [hfailed], by simp [hfailed]⟩
        | ok instructions =>
            exact .inr ⟨instructions, rfl, by simp [hfailed], by simp [hfailed]⟩

theorem length_pairFlatIndices (outerIndex : Option Nat) (visited : Bool) (n : Nat)
    (ixs : List InstructionUpdate) :
    (InstructionUpdate.pairFlatIndices outerIndex visited n ixs).length = ixs.length := by
  induction ixs generalizing visited n with
  | nil => cases visited <;> rfl
  | cons ix rest ih =>
      cases visited with
      | false => simp [InstructionUpdate.pairFlatIndices, ih]
      | true => cases outerIndex <;> simp [InstructionUpdate.pairFlatIndices, ih]

theorem length_visited (bs58 : Bs58) (update : TransactionUpdate) :
    (visited bs58 update).length = instructionCount bs58 update := by
  obtain ⟨hvisited, hcount⟩ | ⟨instructions, -, hvisited, hcount⟩ := visited_cases bs58 update
  · rw [hvisited, hcount, List.length_nil]
  · rw [hvisited, hcount, List.length_flatMap]
    congr 1
    refine List.map_congr_left fun ix _ => ?_
    rw [InstructionUpdate.visitAllWithFlatIndices, length_pairFlatIndices,
      InstructionUpdate.visitAll_eq, InstructionUpdate.length_preorder]

/-! ## Balance -/

section Balance

variable {s : Slot}

/-- The records of the slot among the events. -/
def slotRecords (s : Slot) (evs : List (CoordinatorEvent PreparedRecord)) : List PreparedRecord :=
  (evs.filterMap (·.instructionRecord? s)).map Prod.snd

/-- The decoded records and the statistics of undecoded instructions are `n` together, and
there are at most as many fallback records as such statistics. -/
structure Balanced (s : Slot) (n : Nat) (evs : List (CoordinatorEvent PreparedRecord)) : Prop where
  total : (slotRecords s evs).countP (fun r => r.isDecoded && r.kind = .instruction) +
      evs.countP (·.isParseStat s .instructionFiltered) +
      evs.countP (·.isParseStat s .instructionError) = n
  fallback : (slotRecords s evs).countP (fun r => !r.isDecoded && r.kind = .instruction) ≤
      evs.countP (·.isParseStat s .instructionFiltered) +
        evs.countP (·.isParseStat s .instructionError)

theorem slotRecords_append (front back : List (CoordinatorEvent PreparedRecord)) :
    slotRecords s (front ++ back) = slotRecords s front ++ slotRecords s back := by
  rw [slotRecords, List.filterMap_append, List.map_append]
  rfl

namespace Balanced

variable {n m : Nat} {evs evs' : List (CoordinatorEvent PreparedRecord)}

theorem nil : Balanced s 0 [] := ⟨rfl, le_rfl⟩

theorem append (h : Balanced s n evs) (h' : Balanced s m evs') :
    Balanced s (n + m) (evs ++ evs') := by
  have htotal := h.total
  have htotal' := h'.total
  have hfallback := h.fallback
  have hfallback' := h'.fallback
  constructor
  · rw [slotRecords_append, List.countP_append, List.countP_append, List.countP_append]
    omega
  · rw [slotRecords_append, List.countP_append, List.countP_append, List.countP_append]
    omega

theorem perm (h : Balanced s n evs) (hperm : evs.Perm evs') : Balanced s n evs' := by
  have hrecords : (slotRecords s evs).Perm (slotRecords s evs') :=
    (hperm.filterMap _).map Prod.snd
  constructor
  · rw [← hrecords.countP_eq, ← hperm.countP_eq, ← hperm.countP_eq]
    exact h.total
  · rw [← hrecords.countP_eq, ← hperm.countP_eq, ← hperm.countP_eq]
    exact h.fallback

theorem flatMap {α : Type} {l : List α} {f : α → List (CoordinatorEvent PreparedRecord)}
    {n : α → Nat} (h : ∀ a ∈ l, Balanced s (n a) (f a)) :
    Balanced s (l.map n).sum (l.flatMap f) := by
  induction l with
  | nil => exact nil
  | cons a l ih =>
      rw [List.forall_mem_cons] at h
      rw [List.map_cons, List.sum_cons, List.flatMap_cons]
      exact h.1.append (ih h.2)

end Balanced

/-- Every instruction is accounted for once. -/
theorem Accounted.balanced {key : InstructionRecordSortKey}
    {evs : List (CoordinatorEvent PreparedRecord)} (h : Accounted s key evs) :
    Balanced s 1 evs := by
  cases h with
  | decoded record hdecoded hkind =>
      constructor <;> simp [slotRecords, CoordinatorEvent.instructionRecord?,
        CoordinatorEvent.isParseStat, hdecoded, hkind]
  | fallback record hundecoded hkind hadError =>
      cases hadError <;> constructor <;> simp [slotRecords, CoordinatorEvent.instructionRecord?,
        CoordinatorEvent.isParseStat, hundecoded, hkind, undecodedKind]
  | alone hadError =>
      cases hadError <;> constructor <;> simp [slotRecords, CoordinatorEvent.instructionRecord?,
        CoordinatorEvent.isParseStat, undecodedKind]

theorem balanced_status (update : TransactionUpdate) : Balanced s 0 (status update) := by
  rw [status]
  cases update.transaction with
  | none => exact .nil
  | some txInfo =>
      by_cases hfailed : (txInfo.statusMeta.bind (·.err)).isSome <;>
        constructor <;> simp [slotRecords, CoordinatorEvent.instructionRecord?,
          CoordinatorEvent.isParseStat, hfailed]

/-- What a run sends accounts for the instructions in the trees of its transaction. -/
theorem balanced_handle (bs58 : Bs58) (sink : KafkaSink) (update : TransactionUpdate) :
    Balanced update.slot (instructionCount bs58 update) (handle bs58 sink update) := by
  have hvisited : Balanced update.slot ((visited bs58 update).map fun _ => 1).sum
      ((visited bs58 update).flatMap
        (instructionMessages bs58 sink update.slot (txIndex update))) :=
    .flatMap fun entry _ => (instructionMessages_accounted update.slot _ entry).balanced
  have hlast : Balanced update.slot 0 [.transactionParsed update.slot] := ⟨rfl, le_rfl⟩
  have h := ((balanced_status update).append hvisited).append hlast
  rw [List.map_const', List.sum_replicate, length_visited] at h
  rw [handle_eq, parts]
  simpa using h

end Balance

/-! ## Sort keys -/

section Keys

variable {s : Slot}

/-- The sort keys of the records of the slot among the events. -/
def recordKeys (s : Slot) (evs : List (CoordinatorEvent PreparedRecord)) :
    List InstructionRecordSortKey :=
  (evs.filterMap (·.instructionRecord? s)).map Prod.fst

theorem recordKeys_flatMap {α : Type} (l : List α)
    (f : α → List (CoordinatorEvent PreparedRecord)) :
    recordKeys s (l.flatMap f) = l.flatMap fun a => recordKeys s (f a) := by
  rw [recordKeys, List.filterMap_flatMap, List.map_flatMap]
  rfl

theorem Accounted.recordKeys_sublist {key : InstructionRecordSortKey}
    {evs : List (CoordinatorEvent PreparedRecord)} (h : Accounted s key evs) :
    (recordKeys s evs).Sublist [key] := by
  cases h with
  | decoded => simp [recordKeys, CoordinatorEvent.instructionRecord?]
  | fallback => simp [recordKeys, CoordinatorEvent.instructionRecord?]
  | alone => simp [recordKeys, CoordinatorEvent.instructionRecord?]

theorem flatMap_sublist_map {α β : Type} {l : List α} {f : α → List β} {g : α → β}
    (h : ∀ a ∈ l, (f a).Sublist [g a]) : (l.flatMap f).Sublist (l.map g) := by
  induction l with
  | nil => exact List.nil_sublist _
  | cons a l ih =>
      rw [List.forall_mem_cons] at h
      rw [List.flatMap_cons, List.map_cons, ← List.singleton_append]
      exact h.1.append (ih h.2)

/-- A run sends at most one record for each flat index. -/
theorem recordKeys_handle (bs58 : Bs58) (sink : KafkaSink) (update : TransactionUpdate) :
    (recordKeys update.slot (handle bs58 sink update)).Sublist
      ((visited bs58 update).map fun entry => sortKey (txIndex update) entry.2) := by
  have hstatus : recordKeys update.slot (status update) = [] := by
    rw [status]
    cases update.transaction <;> rfl
  have hkeys : recordKeys update.slot (handle bs58 sink update) =
      (visited bs58 update).flatMap fun entry => recordKeys update.slot
        (instructionMessages bs58 sink update.slot (txIndex update) entry) := by
    rw [handle_eq, parts, ← recordKeys_flatMap]
    rw [recordKeys] at hstatus ⊢
    simp only [List.filterMap_append, List.map_append, hstatus]
    simp [recordKeys, CoordinatorEvent.instructionRecord?]
  rw [hkeys]
  exact flatMap_sublist_map fun entry _ =>
    (instructionMessages_accounted update.slot _ entry).recordKeys_sublist

/-- The flat indices of a tree start with the index of its outer instruction. -/
theorem flatIndices_of_path {ix : InstructionUpdate} {outer : Nat} (hpath : ix.path = [outer]) :
    (ix.visitAllWithFlatIndices.map Prod.snd).Nodup ∧
      ∀ path ∈ ix.visitAllWithFlatIndices.map Prod.snd, path.head? = some outer := by
  have hindices : ix.visitAllWithFlatIndices.map Prod.snd =
      [outer] :: (List.range (ix.inner.flatMap InstructionUpdate.preorder).length).map
        fun j => [outer, j] := by
    rw [InstructionUpdate.visitAllWithFlatIndices_eq ix hpath, List.map_cons, List.map_snd_zip]
    simp
  rw [hindices]
  refine ⟨List.nodup_cons.mpr ⟨by simp, ?_⟩, by simp⟩
  exact List.nodup_range.map fun i j h => by simpa using h

theorem nodup_visited (bs58 : Bs58) (update : TransactionUpdate) :
    ((visited bs58 update).map Prod.snd).Nodup := by
  obtain ⟨hvisited, -⟩ | ⟨instructions, hbuild, hvisited, -⟩ := visited_cases bs58 update
  · rw [hvisited]
    exact List.nodup_nil
  · obtain ⟨_, -, -, htree⟩ := attached_of_buildFromTxn hbuild
    rw [hvisited, List.map_flatMap, List.nodup_flatMap]
    constructor
    · intro ix hix
      obtain ⟨k, hk⟩ := List.mem_iff_getElem?.mp hix
      exact (flatIndices_of_path (htree k ix hk).1).1
    · rw [List.pairwise_iff_getElem]
      intro i j hi hj hlt path hpath hpath'
      have hi' := (htree i _ (List.getElem?_eq_getElem hi)).1
      have hj' := (htree j _ (List.getElem?_eq_getElem hj)).1
      have heq := ((flatIndices_of_path hi').2 path hpath).symm.trans
        ((flatIndices_of_path hj').2 path hpath')
      cases heq
      exact lt_irrefl _ hlt

/-- The records of a run have distinct sort keys, all with the index of its transaction. -/
theorem nodup_recordKeys_handle (bs58 : Bs58) (sink : KafkaSink) (update : TransactionUpdate) :
    (recordKeys update.slot (handle bs58 sink update)).Nodup := by
  refine (recordKeys_handle bs58 sink update).nodup ?_
  have hkeys : ((visited bs58 update).map fun entry => sortKey (txIndex update) entry.2) =
      ((visited bs58 update).map Prod.snd).map (sortKey (txIndex update)) := by
    rw [List.map_map]
    rfl
  rw [hkeys]
  refine (nodup_visited bs58 update).map ?_
  intro path path' h
  simpa [sortKey] using h

theorem txIndex_of_recordKeys {bs58 : Bs58} {sink : KafkaSink} {update : TransactionUpdate}
    {key : InstructionRecordSortKey}
    (h : key ∈ recordKeys update.slot (handle bs58 sink update)) :
    update.transaction.map (·.index) = some key.txIndex := by
  obtain ⟨entry, hentry, rfl⟩ := List.mem_map.mp ((recordKeys_handle bs58 sink update).subset h)
  rw [visited] at hentry
  cases htransaction : update.transaction with
  | none => simp [htransaction] at hentry
  | some txInfo => simp [sortKey, txIndex, htransaction]

end Keys

end Shipstern.Kafka
