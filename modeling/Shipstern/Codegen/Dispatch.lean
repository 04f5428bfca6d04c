import Shipstern.Anchor.Items
import Shipstern.Codegen.Discriminator
import Shipstern.Lib.Grouping
import Shipstern.Lib.OrderedMap

/-!
# Dispatch of generated parsers

The generated `resolve_instruction_default` is a chain of arms in IDL order, one for each
group of instructions that share a discriminator. The account and event parsers are chains
of the same kind. For the items of an accepted Anchor IDL at most one arm of a chain matches
any data, so the order of the items does not matter.
-/

open Shipstern.Core

namespace Shipstern.Codegen

open Codama Anchor

/-! ## Groups -/

section Groups

variable {K A : Type} [DecidableEq K]

/-- Group the items that have a key, in the order of the first item of each group. -/
def groupsFrom (key : A → Gen (Option K)) :
    List (K × List A) → List A → Gen (List (K × List A))
  | groups, [] => .ok groups
  | groups, item :: rest => do
      match ← key item with
      | none => groupsFrom key groups rest
      | some k => groupsFrom key (Grouping.add k item groups) rest

end Groups

/-! ## The generated instruction parser -/

/-- One arm of a generated function: what it returns, if it does not fall through. -/
abbrev Arm (R : Type) := List Pubkey → List UInt8 → Option (Except ParseError R)

section Instructions

variable {R : Type} (codecs : BytesCodecs)
  (parse : InstructionNode → List Pubkey → List UInt8 → Except ParseError R)

def singleInstructionMatchArm (ix : InstructionNode) : Gen (Option (Arm R)) := do
  let info ← extractIxDiscriminatorInfo codecs ix
  .ok (info.map fun info accounts data =>
    if info.check data then some (parse ix accounts data) else none)

def ambiguousError (names : List Name) : ParseError :=
  .other ("Ambiguous instruction: variants [".toList ++ List.intercalate ", ".toList names ++
    ("] share the same discriminator and account count. " ++
      "Use CustomInstructionParser to disambiguate.").toList)

/-- The instructions by their number of accounts. -/
def byCount (instructions : List InstructionNode) : Std.ExtTreeMap Nat (List InstructionNode) :=
  instructions.foldl (fun m ix => OrderedMap.upsert m ix.accounts.length (· ++ [ix])) ∅

/-- The arms of a collision group, the highest account count first. -/
def resolveCollision (counts : List (Nat × List InstructionNode)) : Arm R :=
  fun accounts data =>
    match counts.find? fun (count, _) => count ≤ accounts.length with
    | some (_, [ix]) => some (parse ix accounts data)
    | some (_, ixs) => some (.error (ambiguousError (ixs.map InstructionNode.name)))
    | none =>
        -- only reached below the lowest account count of the group
        let ambiguous := counts.flatMap fun (_, ixs) =>
          if ixs.length = 1 then [] else ixs.map InstructionNode.name
        if ambiguous.isEmpty then none else some (.error (ambiguousError ambiguous))

def collisionGroupMatchArm (instructions : List InstructionNode) : Gen (Arm R) :=
  match instructions with
  | [] => .error .collisionGroup
  | first :: _ => do
      match ← extractIxDiscriminatorInfo codecs first with
      | none => .error .collisionGroup
      | some info =>
          .ok fun accounts data =>
            if info.check data then
              resolveCollision parse (byCount instructions).toList.reverse accounts data
            else none

/-- The arm of a group. -/
def groupMatchArm : List InstructionNode → Gen (Option (Arm R))
  | [ix] => singleInstructionMatchArm codecs parse ix
  | ixs => do
      let arm ← collisionGroupMatchArm codecs parse ixs
      .ok (some arm)

def instructionMatchArms (instructions : List InstructionNode) : Gen (List (Arm R)) := do
  let groups ← groupsFrom (extractIxDiscriminatorKey codecs) [] instructions
  let arms ← groups.mapM fun (_, ixs) => groupMatchArm codecs parse ixs
  .ok (arms.filterMap id)

/-- The message of the error at the end of the chain. The path is printed with `Debug`. -/
def notFoundMessage (debug : Path → List Char) (path : Path) : List Char :=
  "instruction discriminator not found at path ".toList ++ debug path

/-- The generated `resolve_instruction_default`. -/
def resolveInstructionDefault (debug : Path → List Char) (instructions : List InstructionNode) :
    Gen (List Pubkey → List UInt8 → Path → Except ParseError R) := do
  let arms ← instructionMatchArms codecs parse instructions
  .ok fun accounts data path =>
    (arms.findSome? fun arm => arm accounts data).getD
      (.error (.discriminatorNotFound (notFoundMessage debug path)))

end Instructions

/-! ## The generated event and account parsers -/

section Events

variable {R : Type} (codecs : BytesCodecs)
  (parse : EventNode → List Pubkey → List UInt8 → Except ParseError R)

def singleEventMatchArm (event : EventNode) : Gen (Option (Arm R)) := do
  let info ← extractEventDiscriminatorInfo codecs event
  .ok (info.map fun info accounts data =>
    if info.check data then some (parse event accounts data) else none)

/-- What the generator writes for the events: the arms, or a `compile_error!`. -/
inductive EventArms (R : Type)
  | arms (arms : List (Arm R))
  | compileError

/-- The arm of a group of events; a group of several is a `compile_error!`. -/
def eventGroupArms (groups : List (DiscriminatorKey × List EventNode)) : Gen (EventArms R) :=
  match groups with
  | [] => .ok (.arms [])
  | (_, [event]) :: rest => do
      let arm ← singleEventMatchArm codecs parse event
      match ← eventGroupArms rest with
      | .arms arms => .ok (.arms (arm.toList ++ arms))
      | .compileError => .ok .compileError
  | _ :: _ => .ok .compileError

def eventMatchArms (events : List EventNode) : Gen (EventArms R) := do
  let groups ← groupsFrom (extractEventDiscriminatorKey codecs) [] events
  eventGroupArms codecs parse groups

end Events

section Accounts

variable {R : Type} (codecs : BytesCodecs)
  (deserialize : AccountNode → List UInt8 → Except ParseError R)

/-- The test of an account arm, and where its data starts. -/
def accountTest (account : AccountNode) : Gen (Option ((List UInt8 → Bool) × Nat)) :=
  match account.discriminators with
  | [] => .ok none
  | .constant offset constant :: _ =>
      match constant.value with
      | .number (.unsignedInteger value) => do
          let bytes ← numberDiscriminatorBytes constant.type value
          .ok (some (fun data => getRange data offset (offset + bytes.length) == some bytes, 0))
      | .bytes bytes => do
          let bytes ← decodeDiscriminatorFieldBytes codecs bytes
          .ok (some (fun data => getRange data offset (offset + bytes.length) == some bytes,
            offset + bytes.length))
      | _ => .ok none
  | .field name offset :: _ =>
      match account.data with
      | .wrapped _ _ => .ok none
      | .value fields =>
          match fields.find? (·.name = name) with
          | some ⟨_, _, .fixedSize size _, some (.bytes bytes)⟩ => do
              let bytes ← decodeDiscriminatorFieldBytes codecs bytes
              -- an empty discriminator matches any data
              .ok (some (fun data =>
                match getRange data offset (offset + size) with
                | some slice => bytes.isEmpty || slice == bytes
                | none => false, offset + size))
          | _ => .ok none
  | .size size :: _ => .ok (some (fun data => data.length = size, 0))

/-- The arm of an account. -/
def accountMatchArm (account : AccountNode) :
    Gen (Option (List UInt8 → Option (Except ParseError R))) := do
  let test ← accountTest codecs account
  .ok (test.map fun (check, start) data =>
    if check data then some (deserialize account (data.drop start)) else none)

/-- The generated `try_unpack`. -/
def tryUnpack (unknown : List Char) (accounts : List AccountNode) :
    Gen (List UInt8 → Except ParseError R) := do
  let arms ← accounts.mapM (accountMatchArm codecs deserialize)
  .ok fun data => ((arms.filterMap id).findSome? fun arm => arm data).getD (.error (.other unknown))

end Accounts

end Shipstern.Codegen
