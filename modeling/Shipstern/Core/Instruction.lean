import Mathlib
import Shipstern.Lib.Traversal

/-!
# Transactions and their instruction trees

The data model of `instruction.rs`: the parts of a transaction update that are read when
its instructions are built, and the tree of `InstructionUpdate`s that is the result.
Indexes, stack heights and path entries are natural numbers; the source notes that an
instruction count never exceeds `u32::MAX`.

`VisitAll` is the iterator of the source with its explicit stack. It lists the tree in
preorder, and `visitAllWithFlatIndices` numbers that list.
-/

namespace Shipstern.Core

/-- `KeyBytes<32>`. -/
abbrev Pubkey := Vector UInt8 32

/-- A public key from a slice, which must have 32 bytes. -/
def Pubkey.tryFrom (bytes : List UInt8) : Option Pubkey :=
  if h : bytes.length = 32 then some ⟨bytes.toArray, by simpa using h⟩ else none

@[simp] theorem Pubkey.tryFrom_toList (key : Pubkey) : Pubkey.tryFrom key.toList = some key := by
  have hlength : key.toList.length = 32 := by simp
  rw [Pubkey.tryFrom, dif_pos hlength]
  rfl

/-- A line of the transaction log, as its characters. -/
abbrev LogLine := List Char

/-- 0-based indices of the path to an instruction. -/
abbrev Path := List Nat

structure MessageHeader where
  numRequiredSignatures : Nat
  numReadonlySignedAccounts : Nat
  numReadonlyUnsignedAccounts : Nat
deriving DecidableEq

/-- An outer instruction: indexes into the account keys, and the payload. -/
structure CompiledInstruction where
  programIdIndex : Nat
  accounts : List UInt8
  data : List UInt8
deriving DecidableEq

/-- An inner instruction, with the height of the call stack it ran at. -/
structure InnerInstruction where
  programIdIndex : Nat
  accounts : List UInt8
  data : List UInt8
  stackHeight : Option Nat
deriving DecidableEq

/-- The inner instructions recorded for the outer instruction `index`. -/
structure InnerInstructions where
  index : Nat
  instructions : List InnerInstruction
deriving DecidableEq

structure Message where
  header : Option MessageHeader
  accountKeys : List (List UInt8)
  instructions : List CompiledInstruction
deriving DecidableEq

structure Transaction where
  message : Option Message
deriving DecidableEq

/-- The serialized error of a failed transaction. -/
structure TransactionError where
  err : List UInt8
deriving DecidableEq

structure TransactionStatusMeta where
  err : Option TransactionError
  innerInstructions : List InnerInstructions
  logMessages : List LogLine
  loadedWritableAddresses : List (List UInt8)
  loadedReadonlyAddresses : List (List UInt8)
deriving DecidableEq

structure SubscribeUpdateTransactionInfo where
  signature : List UInt8
  isVote : Bool
  transaction : Option Transaction
  statusMeta : Option TransactionStatusMeta
  index : Nat
deriving DecidableEq

structure TransactionUpdate where
  transaction : Option SubscribeUpdateTransactionInfo
  slot : Nat
deriving DecidableEq

/-- The keys of the accounts involved in a transaction. -/
structure AccountKeys where
  staticKeys : List (List UInt8)
  dynamicRw : List (List UInt8)
  dynamicRo : List (List UInt8)
deriving DecidableEq

inductive AccountKeyError
  | invalidIndex (index : Nat)
  | invalidKey
deriving DecidableEq

/-- The key at an index that runs through the given lists one after the other. -/
def AccountKeys.find : List (List (List UInt8)) → Nat → Option (Except AccountKeyError Pubkey)
  | [], _ => none
  | keys :: rest, i =>
      match keys[i]? with
      | none => find rest (i - keys.length)
      | some bytes =>
          match Pubkey.tryFrom bytes with
          | none => some (.error .invalidKey)
          | some key => some (.ok key)

def AccountKeys.get (keys : AccountKeys) (index : Nat) : Except AccountKeyError Pubkey :=
  (find [keys.staticKeys, keys.dynamicRw, keys.dynamicRo] index).getD
    (.error (.invalidIndex index))

/-- A required field that was missing from the transaction update. -/
inductive Missing
  | transactionInfo
  | transaction
  | transactionMeta
  | transactionMessage
  | transactionMessageHeader
deriving DecidableEq

inductive ParseError
  | missing (field : Missing)
  | invalidInnerInstructionIndex (index : Nat)
  | accountKey (error : AccountKeyError)
deriving DecidableEq

/-- Data shared by all instructions of a transaction. -/
structure InstructionShared where
  slot : Nat
  signature : List UInt8
  isVote : Bool
  txnIndex : Nat
  err : Option TransactionError
  logMessages : List LogLine
  accounts : AccountKeys
  messageHeader : MessageHeader
deriving DecidableEq

/-- A half-open range of log line indexes. -/
structure LogRange where
  start : Nat
  stop : Nat
deriving DecidableEq

/-- A parsed instruction with the instructions it invoked. -/
structure InstructionUpdate where
  program : Pubkey
  accounts : List Pubkey
  data : List UInt8
  shared : InstructionShared
  inner : List InstructionUpdate
  path : Path
  logRange : LogRange

namespace InstructionUpdate

@[simp] theorem eta (ix : InstructionUpdate) :
    (⟨ix.program, ix.accounts, ix.data, ix.shared, ix.inner, ix.path, ix.logRange⟩ :
      InstructionUpdate) = ix := by
  cases ix
  rfl

/-- An instruction, followed by everything below each of its inner instructions. -/
def preorder : InstructionUpdate → List InstructionUpdate
  | ⟨program, accounts, data, shared, inner, path, logRange⟩ =>
      ⟨program, accounts, data, shared, inner, path, logRange⟩ :: below inner
where
  below : List InstructionUpdate → List InstructionUpdate
    | [] => []
    | child :: rest => child.preorder ++ below rest

theorem preorder_below (inner : List InstructionUpdate) :
    preorder.below inner = inner.flatMap preorder := by
  induction inner with
  | nil => rfl
  | cons child rest ih => simp [preorder.below, ih]

theorem preorder_eq (ix : InstructionUpdate) :
    ix.preorder = ix :: ix.inner.flatMap preorder := by
  cases ix
  simp [preorder, preorder_below]

/-- The number of instructions in the tree. -/
def size : InstructionUpdate → Nat
  | ⟨_, _, _, _, inner, _, _⟩ => 1 + sizeBelow inner
where
  sizeBelow : List InstructionUpdate → Nat
    | [] => 0
    | child :: rest => child.size + sizeBelow rest

theorem preorder_isPreorder : Traversal.IsPreorder InstructionUpdate.inner preorder :=
  preorder_eq

/-- Induction on the tree: a property of all inner instructions passes to the outer one. -/
theorem tree_induction {P : InstructionUpdate → Prop}
    (step : ∀ ix, (∀ child ∈ ix.inner, P child) → P ix) (ix : InstructionUpdate) : P ix := by
  refine @InstructionUpdate.rec P (fun inner => ∀ child ∈ inner, P child) ?_ ?_ ?_ ix
  · intro program accounts data shared inner path logRange ih
    exact step _ ih
  · intro child hmem
    contradiction
  · intro head tail ihhead ihtail child hmem
    obtain rfl | hmem := List.mem_cons.mp hmem
    · exact ihhead
    · exact ihtail child hmem

theorem sizeBelow_eq (inner : List InstructionUpdate)
    (h : ∀ child ∈ inner, child.preorder.length = child.size) :
    (inner.flatMap preorder).length = size.sizeBelow inner := by
  induction inner with
  | nil => rfl
  | cons child rest ih =>
      rw [List.forall_mem_cons] at h
      rw [List.flatMap_cons, List.length_append, h.1, ih h.2, size.sizeBelow]

theorem length_preorder (ix : InstructionUpdate) : ix.preorder.length = ix.size := by
  induction ix using tree_induction with
  | step ix ih =>
      rw [preorder_eq, List.length_cons, sizeBelow_eq _ ih, Nat.add_comm]
      cases ix
      rfl

end InstructionUpdate

/-- The state of the iterator: not started, or the inner instructions still to come at
every level, the deepest level first. -/
inductive VisitAll
  | init (ix : InstructionUpdate)
  | started (stack : List (List InstructionUpdate))

namespace VisitAll

def next : VisitAll → Option (InstructionUpdate × VisitAll)
  | .init ix => some (ix, .started [ix.inner])
  | .started stack =>
      (Traversal.next InstructionUpdate.inner stack).map fun (ix, stack) => (ix, .started stack)

/-- The first `fuel` values of the iterator. -/
def collect : Nat → VisitAll → List InstructionUpdate
  | 0, _ => []
  | fuel + 1, visit =>
      match visit.next with
      | none => []
      | some (ix, visit) => ix :: collect fuel visit

theorem collect_started (fuel : Nat) (stack : List (List InstructionUpdate)) :
    collect fuel (.started stack) = Traversal.drain InstructionUpdate.inner fuel stack := by
  induction fuel generalizing stack with
  | zero => rfl
  | succ fuel ih =>
      cases hnext : Traversal.next InstructionUpdate.inner stack with
      | none => simp [collect, next, Traversal.drain, hnext]
      | some head => simp [collect, next, Traversal.drain, hnext, ih]

/-- The iterator yields the tree in preorder, and nothing after that. -/
theorem collect_init (ix : InstructionUpdate) {fuel : Nat} (hfuel : ix.size ≤ fuel) :
    collect fuel (.init ix) = ix.preorder := by
  rw [← InstructionUpdate.length_preorder, InstructionUpdate.preorder_eq,
    List.length_cons] at hfuel
  cases fuel with
  | zero => omega
  | succ fuel =>
      have hpending : Traversal.pending InstructionUpdate.preorder [ix.inner] =
          ix.inner.flatMap InstructionUpdate.preorder := by
        simp [Traversal.pending]
      have hrest : (Traversal.pending InstructionUpdate.preorder [ix.inner]).length ≤ fuel := by
        rw [hpending]
        omega
      have hdrain := Traversal.drain_eq_pending InstructionUpdate.preorder_isPreorder hrest
      rw [InstructionUpdate.preorder_eq ix, ← hpending, ← hdrain, ← collect_started]
      rfl

end VisitAll

namespace InstructionUpdate

/-- The instruction and all inner instructions, as the iterator yields them. -/
def visitAll (ix : InstructionUpdate) : List InstructionUpdate :=
  (VisitAll.init ix).collect ix.size

theorem visitAll_eq (ix : InstructionUpdate) : ix.visitAll = ix.preorder :=
  VisitAll.collect_init ix le_rfl

/-- Pair the visited instructions with their flat index: the first one keeps its own path,
the later ones are numbered below the outer index. -/
def pairFlatIndices (outerIndex : Option Nat) :
    Bool → Nat → List InstructionUpdate → List (InstructionUpdate × Path)
  | _, _, [] => []
  | false, nextInnerIndex, ix :: rest =>
      (ix, ix.path) :: pairFlatIndices outerIndex true nextInnerIndex rest
  | true, nextInnerIndex, ix :: rest =>
      match outerIndex with
      | none => (ix, ix.path) :: pairFlatIndices outerIndex true nextInnerIndex rest
      | some outer =>
          (ix, [outer, nextInnerIndex]) :: pairFlatIndices outerIndex true (nextInnerIndex + 1) rest

def visitAllWithFlatIndices (ix : InstructionUpdate) : List (InstructionUpdate × Path) :=
  pairFlatIndices ix.path.head? false 0 ix.visitAll

theorem pairFlatIndices_visited (outer n : Nat) (ixs : List InstructionUpdate) :
    pairFlatIndices (some outer) true n ixs =
      ixs.zip ((List.range' n ixs.length).map fun j => [outer, j]) := by
  induction ixs generalizing n with
  | nil => rfl
  | cons ix rest ih => simp [pairFlatIndices, ih, List.range'_succ]

/-- The outer instruction keeps its path and the `j`-th one after it gets `[outer, j]`. -/
theorem visitAllWithFlatIndices_eq (ix : InstructionUpdate) {outer : Nat}
    (hpath : ix.path = [outer]) :
    ix.visitAllWithFlatIndices =
      (ix, [outer]) :: (ix.inner.flatMap preorder).zip
        ((List.range (ix.inner.flatMap preorder).length).map fun j => [outer, j]) := by
  rw [visitAllWithFlatIndices, visitAll_eq, preorder_eq, hpath, List.head?_cons, pairFlatIndices,
    hpath, pairFlatIndices_visited, List.range_eq_range']

end InstructionUpdate

end Shipstern.Core
