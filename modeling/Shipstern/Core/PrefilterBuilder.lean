import Mathlib
import Shipstern.Core.Prefilter

/-!
# Building prefilters

The checks of `lib.rs` before a subscription opens: `PrefilterBuilder`, whose setters keep
the first error for `build`, and the windows of account data, which the server cuts in one
pass and so needs in order. A `u64` is a `UInt64`; an addition that the source does not
check stops the program when it overflows.
-/

namespace Shipstern.Core

/-- Why a prefilter or a data slice is refused. -/
inductive PrefilterError
  | alreadySet (field : String)
  | badPubkey (bytes : List UInt8)
  | zeroLengthDataSlice (offset : UInt64)
  | dataSliceOverflow (offset length : UInt64)
  | dataSliceOutOfOrder (offset previous : UInt64)
  | dataSliceOverlap (offset stop : UInt64)
deriving DecidableEq

/-! ## The builder -/

/-- What the setters were given. The first error stays until `build`. -/
structure PrefilterBuilder where
  error : Option PrefilterError := none
  slots : Bool := false
  blockMetas : Bool := false
  blockAccountsInclude : Option (Finset Pubkey) := none
  blockIncludeAccounts : Bool := false
  blockIncludeTransactions : Bool := false
  blockIncludeEntries : Bool := false
  blockCuckooAccountsInclude : Option CuckooAccounts := none
  accountsIncludeAll : Bool := false
  accounts : Option (Finset Pubkey) := none
  accountOwners : Option (Finset Pubkey) := none
  accountFilters : Option (List AccountFilter) := none
  accountNonemptyTxnSignature : Option Bool := none
  accountCuckoo : Option CuckooAccounts := none
  transactionAccountsExclude : Option (Finset Pubkey) := none
  transactionVote : Option Bool := none
  transactionSignature : Option String := none
  transactionTokenAccounts : Option TokenAccounts := none
  slotInterslotUpdates : Option Bool := none
  transactionAccountsInclude : Option (Finset Pubkey) := none
  transactionAccountsRequired : Option (Finset Pubkey) := none
  transactionCuckooAccountsInclude : Option CuckooAccounts := none
deriving DecidableEq

def setOpt {α : Type} (opt : Option α) (field : String) (val : α) :
    Except PrefilterError (Option α) :=
  if opt.isSome then .error (.alreadySet field) else .ok (some val)

def collectPubkeys (items : List (List UInt8)) : Except PrefilterError (Finset Pubkey) := do
  let keys ← items.mapM fun bytes =>
    match Pubkey.tryFrom bytes with
    | some key => .ok key
    | none => .error (.badPubkey bytes)
  pure keys.toFinset

namespace PrefilterBuilder

/-- A part that was asked for: one that differs from the default. -/
def nonDefault {α : Type} [DecidableEq α] (default part : α) : Option α :=
  if part = default then none else some part

def build (builder : PrefilterBuilder) : Except PrefilterError Prefilter :=
  match builder.error with
  | some err => .error err
  | none =>
      let account : AccountPrefilter :=
        { accounts := builder.accounts.getD ∅
          owners := builder.accountOwners.getD ∅
          filters := builder.accountFilters.getD []
          nonemptyTxnSignature := builder.accountNonemptyTxnSignature
          cuckooAccounts := builder.accountCuckoo.getD {} }
      let transaction : TransactionPrefilter :=
        { accountsInclude := builder.transactionAccountsInclude.getD ∅
          accountsExclude := builder.transactionAccountsExclude.getD ∅
          accountsRequired := builder.transactionAccountsRequired.getD ∅
          vote := builder.transactionVote
          signature := builder.transactionSignature
          tokenAccounts := builder.transactionTokenAccounts
          cuckooAccountsInclude := builder.transactionCuckooAccountsInclude.getD {} }
      let block : BlockPrefilter :=
        { accountsInclude := builder.blockAccountsInclude.getD ∅
          includeAccounts := builder.blockIncludeAccounts
          includeTransactions := builder.blockIncludeTransactions
          includeEntries := builder.blockIncludeEntries
          cuckooAccountsInclude := builder.blockCuckooAccountsInclude.getD {} }
      let slot : SlotPrefilter := { interslotUpdates := builder.slotInterslotUpdates }
      .ok
        { account :=
            if builder.accountsIncludeAll then
              some
                { filters := account.filters
                  nonemptyTxnSignature := account.nonemptyTxnSignature }
            else nonDefault {} account
          transaction := nonDefault {} transaction
          blockMeta := if builder.blockMetas then some {} else none
          block := nonDefault {} block
          slot := if builder.slots ∨ slot ≠ {} then some slot else none }

def mutate (builder : PrefilterBuilder)
    (f : PrefilterBuilder → Except PrefilterError PrefilterBuilder) : PrefilterBuilder :=
  if builder.error.isSome then builder
  else
    match f builder with
    | .ok builder => builder
    | .error err => { builder with error := some err }

section Setters

variable (builder : PrefilterBuilder) (items : List (List UInt8))

def withTransactionAccountsExclude : PrefilterBuilder :=
  builder.mutate fun this => do
    let keys ← collectPubkeys items
    let set ← setOpt this.transactionAccountsExclude "transaction_accounts_exclude" keys
    pure { this with transactionAccountsExclude := set }

def withTransactionAccounts : PrefilterBuilder :=
  builder.mutate fun this => do
    let keys ← collectPubkeys items
    let set ← setOpt this.transactionAccountsRequired "transaction_accounts_required" keys
    pure { this with transactionAccountsRequired := set }

def withTransactionAccountsInclude : PrefilterBuilder :=
  builder.mutate fun this => do
    let keys ← collectPubkeys items
    let set ← setOpt this.transactionAccountsInclude "transaction_accounts_include" keys
    pure { this with transactionAccountsInclude := set }

def withTransactionCuckooAccountsInclude : PrefilterBuilder :=
  builder.mutate fun this => do
    let keys ← collectPubkeys items
    let set ← setOpt this.transactionCuckooAccountsInclude "transaction_cuckoo_accounts_include"
      ⟨keys⟩
    pure { this with transactionCuckooAccountsInclude := set }

def withTransactionVote (vote : Bool) : PrefilterBuilder :=
  builder.mutate fun this => do
    let set ← setOpt this.transactionVote "transaction_vote" vote
    pure { this with transactionVote := set }

def withTransactionSignature (signature : String) : PrefilterBuilder :=
  builder.mutate fun this => do
    let set ← setOpt this.transactionSignature "transaction_signature" signature
    pure { this with transactionSignature := set }

def withTransactionTokenAccounts (mode : TokenAccounts) : PrefilterBuilder :=
  builder.mutate fun this => do
    let set ← setOpt this.transactionTokenAccounts "transaction_token_accounts" mode
    pure { this with transactionTokenAccounts := set }

end Setters

/-- The transaction part of a built prefilter is what the setters were given. -/
theorem transaction_of_build {builder : PrefilterBuilder} {built : Prefilter}
    {a : TransactionPrefilter} (h : builder.build = .ok built) (ha : built.transaction = some a) :
    a.accountsExclude = builder.transactionAccountsExclude.getD ∅ ∧
      a.vote = builder.transactionVote ∧ a.signature = builder.transactionSignature ∧
      a.failed = some false := by
  rw [build] at h
  split at h
  · contradiction
  · cases h
    simp only [nonDefault] at ha
    split at ha
    · contradiction
    · cases ha
      exact ⟨rfl, rfl, rfl, rfl⟩

end PrefilterBuilder

/-! ## Windows of account data -/

/-- A window of account data to receive instead of the whole account. -/
structure AccountsDataSlice where
  offset : UInt64
  length : UInt64
deriving DecidableEq

/-- `u64::checked_add`. -/
def checkedAdd (a b : UInt64) : Option UInt64 :=
  if a.toNat + b.toNat < 2 ^ 64 then some (a + b) else none

/-- How a check ends that is not passed. -/
inductive Stop
  | rejected (err : PrefilterError)
  | arithmeticOverflow
deriving DecidableEq

/-- `a + b`, which stops the program on overflow. -/
def plainAdd (a b : UInt64) : Except Stop UInt64 :=
  match checkedAdd a b with
  | some sum => .ok sum
  | none => .error .arithmeticOverflow

namespace AccountsDataSlice

def validate (slice : AccountsDataSlice) : Except Stop Unit :=
  if slice.length = 0 then .error (.rejected (.zeroLengthDataSlice slice.offset))
  else if (checkedAdd slice.offset slice.length).isNone then
    .error (.rejected (.dataSliceOverflow slice.offset slice.length))
  else .ok ()

/-- The comparison of a slice with the one before it. -/
def follows (slice : AccountsDataSlice) : Option AccountsDataSlice → Except Stop Unit
  | none => .ok ()
  | some previous =>
      if slice.offset < previous.offset then
        .error (.rejected (.dataSliceOutOfOrder slice.offset previous.offset))
      else do
        let stop ← plainAdd previous.offset previous.length
        if slice.offset < stop then
          .error (.rejected (.dataSliceOverlap slice.offset stop))
        else .ok ()

/-- The loop of `validate_all`. -/
def validateFrom (previous : Option AccountsDataSlice) : List AccountsDataSlice → Except Stop Unit
  | [] => .ok ()
  | slice :: rest => do
      slice.validate
      slice.follows previous
      validateFrom (some slice) rest

def validateAll (slices : List AccountsDataSlice) : Except Stop Unit := validateFrom none slices

/-- The slice returns bytes and ends within the offset space. -/
structure Valid (slice : AccountsDataSlice) : Prop where
  nonempty : 0 < slice.length.toNat
  fits : slice.offset.toNat + slice.length.toNat < 2 ^ 64

/-- The window of `a` ends at or before the start of `b`. -/
def Before (a b : AccountsDataSlice) : Prop := a.offset.toNat + a.length.toNat ≤ b.offset.toNat

instance : IsTrans AccountsDataSlice Before where
  trans a b c hab hbc := by
    simp only [Before] at hab hbc ⊢
    omega

/-- The check accepts exactly if `P` holds, and it does not overflow when it refuses. -/
structure Decides (check : Except Stop Unit) (P : Prop) : Prop where
  accepts : check = .ok () ↔ P
  safe : check ≠ .error .arithmeticOverflow

/-- Checks in sequence: the second one may rely on what the first one has accepted. -/
theorem Decides.bind {check next : Except Stop Unit} {P Q : Prop} (h : Decides check P)
    (hnext : P → Decides next Q) : Decides (check >>= fun _ => next) (P ∧ Q) := by
  obtain ⟨haccepts, hsafe⟩ := h
  cases check with
  | error stop =>
      have hnot : ¬ P := by simpa using haccepts
      exact ⟨by simp [hnot, Bind.bind, Except.bind], hsafe⟩
  | ok _ =>
      have hP : P := haccepts.mp rfl
      obtain ⟨hnextAccepts, hnextSafe⟩ := hnext hP
      refine ⟨?_, hnextSafe⟩
      change next = .ok () ↔ P ∧ Q
      rw [hnextAccepts]
      simp [hP]

theorem Decides.congr {check : Except Stop Unit} {P Q : Prop} (h : Decides check P)
    (hPQ : P ↔ Q) : Decides check Q := ⟨h.accepts.trans hPQ, h.safe⟩

theorem validate_decides (slice : AccountsDataSlice) : Decides slice.validate slice.Valid := by
  have hlength : slice.length = 0 ↔ slice.length.toNat = 0 := by
    rw [← UInt64.toNat_inj]
    rfl
  rw [validate, checkedAdd]
  split
  · next hzero =>
      rw [hlength] at hzero
      refine ⟨⟨by simp, fun hvalid => ?_⟩, by simp⟩
      have hpos := hvalid.nonempty
      omega
  · next hne =>
      rw [hlength] at hne
      by_cases hfits : slice.offset.toNat + slice.length.toNat < 2 ^ 64
      · have hvalid : slice.Valid := ⟨by omega, hfits⟩
        rw [if_pos hfits]
        exact ⟨by simp [hvalid], by simp⟩
      · have hinvalid : ¬ slice.Valid := fun hvalid => hfits hvalid.fits
        rw [if_neg hfits]
        exact ⟨by simp [hinvalid], by simp⟩

/-- Behind a valid slice the addition does not overflow, and the comparison asks for what
`Before` says. -/
theorem follows_decides {previous : AccountsDataSlice} (hprevious : previous.Valid)
    (slice : AccountsDataSlice) : Decides (slice.follows (some previous))
      (previous.Before slice) := by
  have hadd : plainAdd previous.offset previous.length =
      .ok (previous.offset + previous.length) := by
    rw [plainAdd, checkedAdd, if_pos hprevious.fits]
  have hstop : (previous.offset + previous.length).toNat =
      previous.offset.toNat + previous.length.toNat := by
    rw [UInt64.toNat_add, Nat.mod_eq_of_lt hprevious.fits]
  simp only [follows, hadd, Before, UInt64.lt_iff_toNat_lt]
  split
  · next hlt => exact ⟨by simp; omega, by simp⟩
  · change Decides (ite _ _ _) _
    rw [hstop]
    split
    · next hlt => exact ⟨by simp; omega, by simp⟩
    · next hge => exact ⟨by simp; omega, by simp⟩

/-- The loop behind a valid slice accepts valid slices of which each ends before the next. -/
theorem validateFrom_decides {previous : AccountsDataSlice} (hprevious : previous.Valid)
    (slices : List AccountsDataSlice) :
    Decides (validateFrom (some previous) slices)
      ((∀ slice ∈ slices, slice.Valid) ∧ (previous :: slices).IsChain Before) := by
  induction slices generalizing previous with
  | nil => exact ⟨by simp [validateFrom], by simp [validateFrom]⟩
  | cons slice rest ih =>
      have hloop : Decides (validateFrom (some previous) (slice :: rest))
          (slice.Valid ∧ previous.Before slice ∧
            (∀ slice ∈ rest, slice.Valid) ∧ (slice :: rest).IsChain Before) :=
        (validate_decides slice).bind fun hvalid =>
          (follows_decides hprevious slice).bind fun _ => ih hvalid
      refine hloop.congr ?_
      rw [List.forall_mem_cons, List.isChain_cons_cons]
      tauto

theorem validateAll_decides (slices : List AccountsDataSlice) :
    Decides (validateAll slices) ((∀ slice ∈ slices, slice.Valid) ∧ slices.IsChain Before) := by
  cases slices with
  | nil => exact ⟨by simp [validateAll, validateFrom], by simp [validateAll, validateFrom]⟩
  | cons slice rest =>
      have hloop : Decides (validateAll (slice :: rest))
          (slice.Valid ∧ (∀ slice ∈ rest, slice.Valid) ∧ (slice :: rest).IsChain Before) :=
        (validate_decides slice).bind fun hvalid => validateFrom_decides hvalid rest
      refine hloop.congr ?_
      rw [List.forall_mem_cons, and_assoc]

/-- The neighbours decide: the list is accepted exactly if every slice is valid and any two
of them are disjoint and in order, and no run of the check overflows. -/
theorem validateAll_eq_ok_iff (slices : List AccountsDataSlice) :
    (validateAll slices = .ok () ↔
      (∀ slice ∈ slices, 0 < slice.length.toNat ∧
        slice.offset.toNat + slice.length.toNat < 2 ^ 64) ∧
      slices.Pairwise fun a b => a.offset.toNat + a.length.toNat ≤ b.offset.toNat) ∧
      validateAll slices ≠ .error .arithmeticOverflow := by
  have hvalid : ∀ slice : AccountsDataSlice, slice.Valid ↔ 0 < slice.length.toNat ∧
      slice.offset.toNat + slice.length.toNat < 2 ^ 64 :=
    fun slice => ⟨fun h => ⟨h.nonempty, h.fits⟩, fun h => ⟨h.1, h.2⟩⟩
  have hordered : slices.IsChain Before ↔
      slices.Pairwise fun a b => a.offset.toNat + a.length.toNat ≤ b.offset.toNat :=
    List.isChain_iff_pairwise
  obtain ⟨haccepts, hsafe⟩ := validateAll_decides slices
  simp only [hvalid, hordered] at haccepts
  exact ⟨haccepts, hsafe⟩

example : validateAll [⟨0, 8⟩, ⟨4, 8⟩] = .error (.rejected (.dataSliceOverlap 4 8)) := by decide

end AccountsDataSlice

end Shipstern.Core
