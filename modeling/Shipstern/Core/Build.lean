import Shipstern.Core.LogMessages

/-!
# Building the instruction tree of a transaction

`build_from_txn` of `instruction.rs`. The inner instructions of a transaction come as flat
groups with stack heights. Two passes read the heights: `derivePathsFromStackheights` scans
them forward and gives every instruction its path, and `nestInner` walks the vector from the
back and moves every run of deeper instructions under the one before it.
-/

namespace Shipstern.Core

/-- Advance the last entry of the path stack (`if let Some(last) = path_stack.last_mut()`). -/
def bumpLast (stack : Path) : Path :=
  match stack.getLast? with
  | none => stack
  | some last => stack.dropLast ++ [last + 1]

/-- The path stack after an instruction at height `current`, whose predecessor ran at `prev`. -/
def nextStack (stack : Path) (prev current : Option Nat) : Path :=
  match current, prev with
  | some current, some prev =>
      match compare current prev with
      | .gt => stack ++ [0]
      | .eq => bumpLast stack
      | .lt => bumpLast (stack.take current)
  | _, _ => bumpLast stack

/-- The loop of `derive_paths_from_stackheights` after the first instruction. -/
def derivePathsLoop : Path → Option Nat → List (Option Nat) → List Path
  | _, _, [] => []
  | stack, prev, current :: rest =>
      let stack := nextStack stack prev current
      stack :: derivePathsLoop stack current rest

def derivePathsFromStackheights (heights : List (Option Nat)) (outerIndex : Nat) : List Path :=
  match heights with
  | [] => []
  | first :: rest => [outerIndex, 0] :: derivePathsLoop [outerIndex, 0] first rest

theorem length_derivePathsLoop (stack : Path) (prev : Option Nat) (heights : List (Option Nat)) :
    (derivePathsLoop stack prev heights).length = heights.length := by
  induction heights generalizing stack prev with
  | nil => rfl
  | cons current rest ih => simp [derivePathsLoop, ih]

/-- Every instruction has a path, so indexing the derived paths never fails. -/
theorem length_derivePaths (heights : List (Option Nat)) (outerIndex : Nat) :
    (derivePathsFromStackheights heights outerIndex).length = heights.length := by
  cases heights with
  | nil => rfl
  | cons first rest => simp [derivePathsFromStackheights, length_derivePathsLoop]

/-- The inner `while`: move the instructions that follow the parent and ran deeper than
`height` under it. -/
def adopt (height : Nat) (parent : InstructionUpdate) :
    List (InstructionUpdate × Option Nat) → InstructionUpdate × List (InstructionUpdate × Option Nat)
  | [] => (parent, [])
  | (child, h) :: rest =>
      if h.any (height < ·) then adopt height { parent with inner := parent.inner ++ [child] } rest
      else (parent, (child, h) :: rest)

/-- One turn of the nesting loop, for the parent at index `i`. A parent without a height is
left flat. -/
def nestStep (i : Nat) (inner : List (InstructionUpdate × Option Nat)) :
    List (InstructionUpdate × Option Nat) :=
  match inner[i]? with
  | some (parent, some height) =>
      let (parent, rest) := adopt height parent (inner.drop (i + 1))
      inner.take i ++ (parent, some height) :: rest
  | _ => inner

/-- The nesting loop, from parent index `i - 1` down to `0`. -/
def nestLoop : Nat → List (InstructionUpdate × Option Nat) → List (InstructionUpdate × Option Nat)
  | 0, inner => inner
  | i + 1, inner => nestLoop i (nestStep i inner)

def nestInner (inner : List (InstructionUpdate × Option Nat)) :
    List (InstructionUpdate × Option Nat) :=
  nestLoop (inner.length - 1) inner

def buildInstruction (shared : InstructionShared) (programIdIndex : Nat) (accounts : List UInt8)
    (data : List UInt8) (path : Path) : Except ParseError InstructionUpdate := do
  let program ← (shared.accounts.get programIdIndex).mapError .accountKey
  let accounts ← accounts.mapM fun i => (shared.accounts.get i.toNat).mapError .accountKey
  pure { program, accounts, data, shared, inner := [], path, logRange := ⟨0, 0⟩ }

def buildOuterInstruction (shared : InstructionShared) (ins : CompiledInstruction) (path : Path) :
    Except ParseError InstructionUpdate :=
  buildInstruction shared ins.programIdIndex ins.accounts ins.data path

def buildInnerInstruction (shared : InstructionShared) (ins : InnerInstruction) (path : Path) :
    Except ParseError (InstructionUpdate × Option Nat) :=
  (buildInstruction shared ins.programIdIndex ins.accounts ins.data path).map (·, ins.stackHeight)

/-- One turn of the loop of `attach_inner_instructions`. -/
def attachGroup (shared : InstructionShared) (outer : List InstructionUpdate)
    (group : InnerInstructions) : Except ParseError (List InstructionUpdate) :=
  match outer[group.index]? with
  | none => .error (.invalidInnerInstructionIndex group.index)
  | some parent => do
      let heights := group.instructions.map (·.stackHeight)
      let paths := derivePathsFromStackheights heights group.index
      have hpaths : paths.length = group.instructions.length :=
        (length_derivePaths heights group.index).trans (List.length_map _)
      let built := group.instructions.mapFinIdx fun idx ins hidx =>
        buildInnerInstruction shared ins (paths.get ⟨idx, hpaths ▸ hidx⟩)
      let inner ← built.mapM id
      let inner := (nestInner inner).map Prod.fst
      pure (outer.set group.index { parent with inner := parent.inner ++ inner })

def attachInnerInstructions (shared : InstructionShared) (groups : List InnerInstructions)
    (outer : List InstructionUpdate) : Except ParseError (List InstructionUpdate) :=
  groups.foldlM (attachGroup shared) outer

/-- `Option::ok_or` with a missing field. -/
def okOrMissing {α : Type} (field : Missing) : Option α → Except ParseError α
  | none => .error (.missing field)
  | some a => .ok a

def buildFromTxn (bs58 : Bs58) (txn : TransactionUpdate) :
    Except ParseError (List InstructionUpdate) := do
  let info ← okOrMissing .transactionInfo txn.transaction
  let transaction ← okOrMissing .transaction info.transaction
  let status ← okOrMissing .transactionMeta info.statusMeta
  let message ← okOrMissing .transactionMessage transaction.message
  let header ← okOrMissing .transactionMessageHeader message.header
  let shared : InstructionShared :=
    { slot := txn.slot
      signature := info.signature
      isVote := info.isVote
      txnIndex := info.index
      err := status.err
      logMessages := status.logMessages
      accounts :=
        { staticKeys := message.accountKeys
          dynamicRw := status.loadedWritableAddresses
          dynamicRo := status.loadedReadonlyAddresses }
      messageHeader := header }
  let outer ← message.instructions.zipIdx.mapM fun (ins, idx) =>
    buildOuterInstruction shared ins [idx]
  let outer ← attachInnerInstructions shared status.innerInstructions outer
  pure (assignLogMessages bs58 shared.logMessages outer)

end Shipstern.Core
