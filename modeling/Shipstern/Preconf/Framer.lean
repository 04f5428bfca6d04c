import Mathlib
import Shipstern.Core.Instruction
import Shipstern.Lib.Eviction

/-!
# The per-stream framer of the preconf source

`framer.rs` with the parts of `convert.rs` that it calls: feed updates in, runtime updates
out. Slots, indexes and counts are natural numbers; `clip` saturates at `u64::MAX`. The
two functions of `convert.rs` that leave the repository are the fields of a `Codec`.

The source drops index entries in two places, the `split_off` in `advance` and the
`pop_first` loop in `apply`. Both are taken from a `Pruning`, so that the framer that never
prunes runs the same code.
-/

open Std

namespace Shipstern.Preconf

open OrderedMap

section Convert

/-- The fields that every message version has and the runtime reads. -/
structure MessageParts where
  header : Core.MessageHeader
  accountKeys : List Core.Pubkey
  instructions : List Core.CompiledInstruction
deriving DecidableEq

inductive VersionedMessage
  | legacy (msg : MessageParts)
  | v0 (msg : MessageParts)
  | v1 (msg : MessageParts)
deriving DecidableEq

def VersionedMessage.parts : VersionedMessage → MessageParts
  | .legacy msg => msg
  | .v0 msg => msg
  | .v1 msg => msg

def VersionedMessage.isLegacy : VersionedMessage → Bool
  | .legacy _ => true
  | _ => false

structure VersionedTransaction where
  signatures : List (List UInt8)
  message : VersionedMessage
deriving DecidableEq

/-- What `convert.rs` takes from other crates: `wincode::deserialize_exact` and
`is_simple_vote_transaction_impl` of the signatures, whether the message is a legacy one,
and the programs. -/
structure Codec where
  deserializeExact : List UInt8 → Option VersionedTransaction
  isSimpleVoteTransactionImpl : List (List UInt8) → Bool → List Core.Pubkey → Bool

namespace Codec

def decode (codec : Codec) (bytes : List UInt8) : Option VersionedTransaction :=
  codec.deserializeExact bytes

def isVote (codec : Codec) (tx : VersionedTransaction) : Bool :=
  let keys := tx.message.parts.accountKeys
  let programs := tx.message.parts.instructions.filterMap fun ix => keys[ix.programIdIndex]?
  codec.isSimpleVoteTransactionImpl tx.signatures tx.message.isLegacy programs

end Codec

def transaction (tx : VersionedTransaction) : Core.Transaction :=
  let parts := tx.message.parts
  { message := some
      { header := some parts.header
        accountKeys := parts.accountKeys.map (·.toList)
        instructions := parts.instructions } }

/-- The feed reports an outcome and nothing else; a failure has an error with no bytes. -/
def statusMeta (failed : Bool) : Core.TransactionStatusMeta where
  err := if failed then some ⟨[]⟩ else none
  innerInstructions := []
  logMessages := []
  loadedWritableAddresses := []
  loadedReadonlyAddresses := []

end Convert

/-- Slots this far behind the frontier are gone for good. -/
def slotRetention : Nat := 64

/-- The hard cap on the index map. -/
def maxFrames : Nat := 4 * slotRetention

def u64Max : Nat := UInt64.size - 1

inductive ExecutionResult
  | success
  | executionFailure
  | feesOnly
deriving DecidableEq

/-- A transaction of either feed; the result is `none` if it is unset or unknown. -/
structure FeedTransaction where
  slot : Nat
  executionResult : Option ExecutionResult
  transaction : List UInt8

inductive HarmonicPayload
  | transaction (tx : FeedTransaction)
  | slotStart (slot : Nat)
  | slotEnd (slot : Nat)
  | clip (transactions : Nat)
  | ping

inductive BamPayload
  | transaction (tx : FeedTransaction)
  | clip (transactions : Nat)
  | ping

/-- One update from either feed. A payload that the crate does not know is `none`. -/
inductive FeedUpdate
  | harmonic (filters : List String) (payload : Option HarmonicPayload)
  | bam (filters : List String) (payload : Option BamPayload)

/-- An update for the runtime; the framer makes transaction updates only. -/
structure SubscribeUpdate where
  filters : List String
  transaction : Core.TransactionUpdate
deriving DecidableEq

/-- What a stream dropped or saw. -/
structure Counts where
  delivered : Nat := 0
  unknownResult : Nat := 0
  voteRuleDropped : Nat := 0
  undecodable : Nat := 0
  outOfFrame : Nat := 0
  clipped : Nat := 0
  restarts : Nat := 0
  unknownPayload : Nat := 0
  reconnects : Nat := 0
deriving DecidableEq

/-- The index state of a recent slot. -/
structure Frame where
  /-- The index of the slot's next transaction. -/
  next : Nat := 0
  isOpen : Bool := false
  /-- The slot got an end since its last start. -/
  ended : Bool := false
deriving DecidableEq

instance : Inhabited Frame := ⟨{}⟩

abbrev Frames := ExtTreeMap Nat Frame compare

structure Framer where
  /-- The parsers that asked for votes only (`true`) or no votes (`false`). -/
  voteRules : ExtTreeMap String Bool compare
  frames : Frames
  /-- The highest slot that ended on Harmonic, or that a BAM transaction named. -/
  frontier : Option Nat
  warnedUnknownResult : Bool
  counts : Counts

/-- How index entries are dropped: when the frontier moves and after every update. -/
structure Pruning where
  splitOff : Frames → Nat → Frames
  popFirst : Frames → Frames

/-- The pruning of the source. -/
def Pruning.source : Pruning where
  splitOff := OrderedMap.splitOff
  popFirst := capped maxFrames

/-- Keep every entry. -/
def Pruning.never : Pruning where
  splitOff := fun frames _ => frames
  popFirst := id

namespace Framer

def new (voteRules : ExtTreeMap String Bool compare) : Framer where
  voteRules := voteRules
  frames := ∅
  frontier := none
  warnedUnknownResult := false
  counts := {}

/-- Change the counts. -/
def count (framer : Framer) (f : Counts → Counts) : Framer :=
  { framer with counts := f framer.counts }

/-- `frames.entry(slot).or_default()`. -/
def frameAt (framer : Framer) (slot : Nat) : Frame := framer.frames.getD slot default

/-- Write through the reference that `frameAt` stands for. -/
def setFrame (framer : Framer) (slot : Nat) (f : Frame → Frame) : Framer :=
  { framer with frames := upsert framer.frames slot f }

def unknownPayload (framer : Framer) : Option SubscribeUpdate × Framer :=
  (none, framer.count fun c => { c with unknownPayload := c.unknownPayload + 1 })

def clip (framer : Framer) (withheld : Nat) : Option SubscribeUpdate × Framer :=
  (none, framer.count fun c => { c with clipped := min (c.clipped + withheld) u64Max })

/-- Move the frontier up and drop the index entries of slots that are gone for good. -/
def advance (pruning : Pruning) (framer : Framer) (slot : Nat) : Framer :=
  if framer.frontier.any (slot ≤ ·) then framer
  else
    { framer with
      frontier := some slot
      frames := pruning.splitOff framer.frames (slot - slotRetention) }

def nextIndex (framer : Framer) (slot : Nat) : Nat × Framer :=
  let frame := framer.frameAt slot
  let framer :=
    if frame.isOpen then framer
    else framer.count fun c => { c with outOfFrame := c.outOfFrame + 1 }
  (frame.next, framer.setFrame slot fun frame => { frame with next := frame.next + 1 })

def transaction (codec : Codec) (framer : Framer) (filters : List String) (slot : Nat)
    (result : Option ExecutionResult) (bytes : List UInt8) : Option SubscribeUpdate × Framer :=
  match result with
  | none =>
      (none, { framer with
        counts := { framer.counts with unknownResult := framer.counts.unknownResult + 1 }
        warnedUnknownResult := true })
  | some result =>
    match codec.decode bytes with
    | none => (none, framer.count fun c => { c with undecodable := c.undecodable + 1 })
    | some decoded =>
      match decoded.signatures.head? with
      | none => (none, framer.count fun c => { c with undecodable := c.undecodable + 1 })
      | some signature =>
          let isVote := codec.isVote decoded
          if filters.isEmpty then
            (none, framer.count fun c => { c with unknownPayload := c.unknownPayload + 1 })
          else
            let filters := filters.filter fun name =>
              framer.voteRules[name]?.all fun wanted => wanted == isVote
            if filters.isEmpty then
              (none, framer.count fun c => { c with voteRuleDropped := c.voteRuleDropped + 1 })
            else
              let (index, framer) := framer.nextIndex slot
              let info : Core.SubscribeUpdateTransactionInfo :=
                { signature := signature
                  isVote := isVote
                  transaction := some (Preconf.transaction decoded)
                  statusMeta := some (statusMeta (result ≠ .success))
                  index := index }
              (some { filters := filters, transaction := { transaction := some info, slot := slot } },
                framer)

def harmonic (codec : Codec) (pruning : Pruning) (framer : Framer) (filters : List String) :
    Option HarmonicPayload → Option SubscribeUpdate × Framer
  | some (.transaction tx) =>
      framer.transaction codec filters tx.slot tx.executionResult tx.transaction
  | some (.slotStart slot) =>
      let framer :=
        if (framer.frameAt slot).ended then
          framer.count fun c => { c with restarts := c.restarts + 1 }
        else framer
      (none, framer.setFrame slot fun frame => { frame with isOpen := true, ended := false })
  | some (.slotEnd slot) =>
      let framer := framer.setFrame slot fun frame => { frame with isOpen := false, ended := true }
      (none, framer.advance pruning slot)
  | some (.clip transactions) => framer.clip transactions
  | some .ping => (none, framer)
  | none => framer.unknownPayload

def bam (codec : Codec) (pruning : Pruning) (framer : Framer) (filters : List String) :
    Option BamPayload → Option SubscribeUpdate × Framer
  | some (.transaction tx) =>
      let framer := framer.setFrame tx.slot fun frame => { frame with isOpen := true }
      let (update, framer) :=
        framer.transaction codec filters tx.slot tx.executionResult tx.transaction
      (update, framer.advance pruning tx.slot)
  | some (.clip transactions) => framer.clip transactions
  | some .ping => (none, framer)
  | none => framer.unknownPayload

/-- At most one runtime update per feed update. -/
def apply (codec : Codec) (pruning : Pruning) (framer : Framer) (update : FeedUpdate) :
    Option SubscribeUpdate × Framer :=
  let (update, framer) :=
    match update with
    | .harmonic filters payload => framer.harmonic codec pruning filters payload
    | .bam filters payload => framer.bam codec pruning filters payload
  (update, { framer with frames := pruning.popFirst framer.frames })

/-- An open slot ended on the lost stream. -/
def reconnected (framer : Framer) : Framer :=
  { framer with
    frames := framer.frames.map fun _ frame =>
      { frame with ended := frame.ended || frame.isOpen, isOpen := false }
    counts := { framer.counts with reconnects := framer.counts.reconnects + 1 } }

end Framer

end Shipstern.Preconf
