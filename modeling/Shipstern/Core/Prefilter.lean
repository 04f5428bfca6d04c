import Mathlib
import Shipstern.Core.Instruction

/-!
# Prefilters and their merge

The prefilters of `lib.rs`: what a parser asks the server to send, and how the prefilters
of several parsers are merged. A `HashSet` of keys is a finite set. A `CuckooAccounts`
is a sorted vector without repetitions, so it is a finite set as well, and its
extend-sort-dedup merge is the union.
-/

namespace Shipstern.Core

/-- Accounts sent as one cuckoo filter. -/
structure CuckooAccounts where
  keys : Finset Pubkey := ∅
deriving DecidableEq

def CuckooAccounts.merge (lhs rhs : CuckooAccounts) : CuckooAccounts := ⟨lhs.keys ∪ rhs.keys⟩

/-- How the bytes of a comparison are written. -/
inductive MemcmpData
  | bytes (data : List UInt8)
  | base58 (text : String)
  | base64 (text : String)
deriving DecidableEq

/-- A lamport-balance comparison. -/
inductive LamportsCmp
  | eq (lamports : Nat)
  | ne (lamports : Nat)
  | lt (lamports : Nat)
  | gt (lamports : Nat)
deriving DecidableEq

/-- A server-side comparison on an account's contents. -/
inductive AccountFilter
  | memcmp (offset : Nat) (data : MemcmpData)
  | dataSize (size : Nat)
  | tokenAccountState (initialized : Bool)
  | lamports (cmp : LamportsCmp)
deriving DecidableEq

/-- The first loop of `same_account_filters`: the number of occurrences of each filter. -/
def countFilters (filters : List AccountFilter) : AccountFilter → Option Int :=
  filters.foldl (fun counts f => Function.update counts f (some ((counts f).getD 0 + 1)))
    fun _ => none

/-- The second loop: every filter takes one occurrence away; an unknown filter ends it. -/
def discountFilters : (AccountFilter → Option Int) → List AccountFilter →
    Option (AccountFilter → Option Int)
  | counts, [] => some counts
  | counts, f :: rest =>
      match counts f with
      | none => none
      | some count => discountFilters (Function.update counts f (some (count - 1))) rest

/-- Compare two account filter lists as multisets. The keys of the counter are the filters
of the left list. -/
def sameAccountFilters (lhs rhs : List AccountFilter) : Bool :=
  if lhs.length ≠ rhs.length then false
  else
    match discountFilters (countFilters lhs) rhs with
    | none => false
    | some counts => lhs.all fun f => counts f = some 0

/-- A prefilter for matching accounts. -/
structure AccountPrefilter where
  accounts : Finset Pubkey := ∅
  owners : Finset Pubkey := ∅
  filters : List AccountFilter := []
  nonemptyTxnSignature : Option Bool := none
  cuckooAccounts : CuckooAccounts := {}
deriving DecidableEq

def AccountPrefilter.merge (lhs rhs : AccountPrefilter) : AccountPrefilter where
  accounts := lhs.accounts ∪ rhs.accounts
  owners := lhs.owners ∪ rhs.owners
  cuckooAccounts := lhs.cuckooAccounts.merge rhs.cuckooAccounts
  filters := if !sameAccountFilters lhs.filters rhs.filters then [] else lhs.filters
  nonemptyTxnSignature :=
    if lhs.nonemptyTxnSignature ≠ rhs.nonemptyTxnSignature then none
    else lhs.nonemptyTxnSignature

/-- Which token-balance owners a transaction prefilter also matches its account sets
against. -/
inductive TokenAccounts
  | all
  | balanceChanged
deriving DecidableEq

/-- A prefilter for matching transactions. -/
structure TransactionPrefilter where
  accountsInclude : Finset Pubkey := ∅
  accountsRequired : Finset Pubkey := ∅
  accountsExclude : Finset Pubkey := ∅
  vote : Option Bool := none
  signature : Option String := none
  tokenAccounts : Option TokenAccounts := none
  failed : Option Bool := some false
  cuckooAccountsInclude : CuckooAccounts := {}
deriving DecidableEq

/-- The token mode of a merge: the wider of two that disagree. -/
def TokenAccounts.merge (lhs rhs : Option TokenAccounts) : Option TokenAccounts :=
  if lhs ≠ rhs then
    match lhs, rhs with
    | some .all, _ | _, some .all => some .all
    | _, _ => some .balanceChanged
  else lhs

def TransactionPrefilter.merge (lhs rhs : TransactionPrefilter) : TransactionPrefilter where
  accountsInclude := lhs.accountsInclude ∪ rhs.accountsInclude
  cuckooAccountsInclude := lhs.cuckooAccountsInclude.merge rhs.cuckooAccountsInclude
  accountsRequired := lhs.accountsRequired ∪ rhs.accountsRequired
  accountsExclude :=
    if lhs.tokenAccounts ≠ rhs.tokenAccounts then ∅
    else lhs.accountsExclude.filter (· ∈ rhs.accountsExclude)
  vote := if lhs.vote ≠ rhs.vote then none else lhs.vote
  signature := if lhs.signature ≠ rhs.signature then none else lhs.signature
  tokenAccounts := TokenAccounts.merge lhs.tokenAccounts rhs.tokenAccounts
  failed :=
    match lhs.failed, rhs.failed with
    | some a, some b => if a = b then some a else none
    | _, _ => none

/-- A prefilter for matching block metadata updates. -/
structure BlockMetaPrefilter where
deriving DecidableEq

def BlockMetaPrefilter.merge (lhs _rhs : BlockMetaPrefilter) : BlockMetaPrefilter := lhs

/-- A prefilter for matching block updates. -/
structure BlockPrefilter where
  accountsInclude : Finset Pubkey := ∅
  includeTransactions : Bool := false
  includeAccounts : Bool := false
  includeEntries : Bool := false
  cuckooAccountsInclude : CuckooAccounts := {}
deriving DecidableEq

def BlockPrefilter.merge (lhs rhs : BlockPrefilter) : BlockPrefilter where
  accountsInclude := lhs.accountsInclude ∪ rhs.accountsInclude
  cuckooAccountsInclude := lhs.cuckooAccountsInclude.merge rhs.cuckooAccountsInclude
  includeAccounts := lhs.includeAccounts || rhs.includeAccounts
  includeTransactions := lhs.includeTransactions || rhs.includeTransactions
  includeEntries := lhs.includeEntries || rhs.includeEntries

/-- A prefilter for matching slot updates. -/
structure SlotPrefilter where
  filterByCommitment : Bool := true
  interslotUpdates : Option Bool := none
deriving DecidableEq

def SlotPrefilter.merge (lhs rhs : SlotPrefilter) : SlotPrefilter where
  filterByCommitment := lhs.filterByCommitment && rhs.filterByCommitment
  interslotUpdates :=
    match lhs.interslotUpdates, rhs.interslotUpdates with
    | some a, some b => some (a || b)
    | some want, none | none, some want => some want
    | none, none => none

/-- What a parser receives of each kind of update; a missing part receives none. -/
structure Prefilter where
  account : Option AccountPrefilter := none
  transaction : Option TransactionPrefilter := none
  blockMeta : Option BlockMetaPrefilter := none
  block : Option BlockPrefilter := none
  slot : Option SlotPrefilter := none
deriving DecidableEq

def mergeOpt {α : Type} (merge : α → α → α) : Option α → Option α → Option α
  | none, rhs => rhs
  | some lhs, none => some lhs
  | some lhs, some rhs => some (merge lhs rhs)

def Prefilter.merge (lhs rhs : Prefilter) : Prefilter where
  account := mergeOpt AccountPrefilter.merge lhs.account rhs.account
  transaction := mergeOpt TransactionPrefilter.merge lhs.transaction rhs.transaction
  blockMeta := mergeOpt BlockMetaPrefilter.merge lhs.blockMeta rhs.blockMeta
  block := mergeOpt BlockPrefilter.merge lhs.block rhs.block
  slot := mergeOpt SlotPrefilter.merge lhs.slot rhs.slot

/-- `FromIterator`: the first prefilter, merged with the others in turn. -/
def Prefilter.fromIter : List Prefilter → Prefilter
  | [] => {}
  | ret :: rest => rest.foldl Prefilter.merge ret

end Shipstern.Core
