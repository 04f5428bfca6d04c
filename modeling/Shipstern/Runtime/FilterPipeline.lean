import Shipstern.Core.PrefilterBuilder
import Shipstern.Core.Subscription

/-!
# A parser with custom transaction filters

`FilterPipeline` of the runtime wraps a parser and subscribes with the merge of the parser's
prefilter and the custom one. A merge is what both sides together receive, so it gives up an
axis that only one side narrows: the merge with a parser that only requires accounts keeps
the included and required keys and the token mode of the custom filter, and drops its
excluded keys, its vote kind and its signature.
-/

open Shipstern.Core

namespace Shipstern.Runtime

/-- A pipeline as it subscribes: the prefilter of its parser, and the custom one. -/
structure FilterPipeline where
  parser : Prefilter
  additionalFilters : Prefilter
deriving DecidableEq

namespace FilterPipeline

/-- `additional_filters.build().unwrap()`: the constructor panics on the error. -/
def new (parser : Prefilter) (additionalFilters : PrefilterBuilder) :
    Except PrefilterError FilterPipeline :=
  additionalFilters.build.map fun built => ⟨parser, built⟩

def prefilter (pipeline : FilterPipeline) : Prefilter :=
  pipeline.parser.merge pipeline.additionalFilters

/-- The transaction prefilter of a parser that only requires accounts. -/
def requiring (accounts : Finset Pubkey) : TransactionPrefilter := { accountsRequired := accounts }

section Merged

variable (accounts : Finset Pubkey) (a : TransactionPrefilter)

/-! ## The axes of the merge -/

theorem merged_includeKeys : ((requiring accounts).merge a).includeKeys = a.includeKeys := by
  rw [TransactionPrefilter.includeKeys_merge]
  exact Finset.empty_union _

theorem merged_required :
    ((requiring accounts).merge a).accountsRequired = accounts ∪ a.accountsRequired := rfl

theorem merged_tokenAccounts : ((requiring accounts).merge a).tokenAccounts = a.tokenAccounts := by
  change TokenAccounts.merge none a.tokenAccounts = a.tokenAccounts
  match a.tokenAccounts with
  | none => rfl
  | some .all => rfl
  | some .balanceChanged => rfl

theorem merged_accountsExclude : ((requiring accounts).merge a).accountsExclude = ∅ := by
  change (if none ≠ a.tokenAccounts then ∅ else Finset.filter (· ∈ a.accountsExclude) ∅) = ∅
  rw [Finset.filter_empty, ite_self]

theorem merged_vote : ((requiring accounts).merge a).vote = none := by
  change (if none ≠ a.vote then none else none) = none
  rw [ite_self]

theorem merged_signature : ((requiring accounts).merge a).signature = none := by
  change (if none ≠ a.signature then none else none) = none
  rw [ite_self]

variable {accounts a}

theorem merged_failed (hfailed : a.failed = some false) :
    ((requiring accounts).merge a).failed = some false := by
  rw [TransactionPrefilter.merge_failed, hfailed]
  rfl

/-- A successful transaction with the given account keys, without token balances. -/
def plainTxn (keys : Finset Pubkey) (isVote : Bool) (signature : String) : TransactionEvent where
  accountKeys := keys
  owners := ∅
  changedOwners := ∅
  changedOwners_subset := noChangedOwners
  isVote := isVote
  failed := false
  signature := signature

@[simp] theorem keySet_plainTxn (keys : Finset Pubkey) (isVote : Bool) (signature : String)
    (mode : Option TokenAccounts) : (plainTxn keys isVote signature).keySet mode = keys := by
  match mode with
  | none => rfl
  | some .all => exact Finset.union_empty keys
  | some .balanceChanged => exact Finset.union_empty keys

/-- Whatever its vote kind, signature and further keys are, a transaction with all required
and included keys is received. -/
theorem merged_matches_plainTxn (hfailed : a.failed = some false) {keys : Finset Pubkey}
    (hrequired : accounts ∪ a.accountsRequired ⊆ keys) (hincluded : a.includeKeys ⊆ keys)
    (isVote : Bool) (signature : String) :
    ((requiring accounts).merge a).Matches (plainTxn keys isVote signature) where
  included := by
    rw [merged_includeKeys, keySet_plainTxn]
    obtain hempty | ⟨key, hkey⟩ := a.includeKeys.eq_empty_or_nonempty
    · exact .inl hempty
    · exact .inr ⟨key, hkey, hincluded hkey⟩
  required := by rwa [merged_required, keySet_plainTxn]
  excluded := by simp [merged_accountsExclude]
  vote v hv := by simp [merged_vote] at hv
  signature s hs := by simp [merged_signature] at hs
  failed f hf := by
    rw [merged_failed hfailed] at hf
    cases hf
    rfl

/-- What the merge still asks for is all that a custom filter without the three other axes
asks for. -/
theorem matches_of_merged {txn : TransactionEvent} (hfailed : a.failed = some false)
    (hexclude : a.accountsExclude = ∅) (hvote : a.vote = none) (hsignature : a.signature = none)
    (h : ((requiring accounts).merge a).Matches txn) : a.Matches txn where
  included := by
    have hincluded := h.included
    rwa [merged_includeKeys, merged_tokenAccounts] at hincluded
  required := by
    have hrequired := h.required
    rw [merged_required, merged_tokenAccounts] at hrequired
    exact Finset.subset_union_right.trans hrequired
  excluded := by simp [hexclude]
  vote v hv := by simp [hvote] at hv
  signature s hs := by simp [hsignature] at hs
  failed f hf := by
    refine h.failed f ?_
    rwa [merged_failed hfailed, ← hfailed]

theorem merged_narrows_iff (accounts : Finset Pubkey) (hfailed : a.failed = some false) :
    (∀ txn, ((requiring accounts).merge a).Matches txn → a.Matches txn) ↔
      a.accountsExclude = ∅ ∧ a.vote = none ∧ a.signature = none := by
  constructor
  · intro h
    let keys : Finset Pubkey :=
      accounts ∪ a.accountsRequired ∪ a.includeKeys ∪ a.accountsExclude
    have hreceived : ∀ isVote signature, a.Matches (plainTxn keys isVote signature) := by
      intro isVote signature
      refine h _ (merged_matches_plainTxn hfailed ?_ ?_ isVote signature)
      · exact Finset.subset_union_left.trans Finset.subset_union_left
      · exact Finset.subset_union_right.trans Finset.subset_union_left
    refine ⟨?_, ?_, ?_⟩
    · have hdisjoint := (hreceived false "").excluded
      rw [keySet_plainTxn] at hdisjoint
      exact Finset.disjoint_self_iff_empty _ |>.mp
        (hdisjoint.mono_right Finset.subset_union_right)
    · cases hvote : a.vote with
      | none => rfl
      | some v =>
          have hkind : (!v) = v := (hreceived (!v) "").vote v hvote
          simp at hkind
    · cases hsignature : a.signature with
      | none => rfl
      | some s =>
          have hown : s ++ "1" = s := (hreceived false (s ++ "1")).signature s hsignature
          simp at hown
  · rintro ⟨hexclude, hvote, hsignature⟩ txn
    exact matches_of_merged hfailed hexclude hvote hsignature

end Merged

/-- The custom filter is applied to every received transaction exactly if it excludes no
keys and sets neither the vote kind nor the signature. -/
theorem customFilters_applied_iff (parser : Prefilter) (accounts : Finset Pubkey)
    (builder : PrefilterBuilder) (pipeline : FilterPipeline) (a : TransactionPrefilter)
    (hparser : parser.transaction = some { accountsRequired := accounts })
    (hnew : FilterPipeline.new parser builder = .ok pipeline)
    (ha : pipeline.additionalFilters.transaction = some a) :
    (∀ txn : TransactionEvent, pipeline.prefilter.MatchesTransaction txn → a.Matches txn) ↔
      a.accountsExclude = ∅ ∧ a.vote = none ∧ a.signature = none := by
  rw [new] at hnew
  cases hbuild : builder.build with
  | error err =>
      rw [hbuild] at hnew
      contradiction
  | ok built =>
      rw [hbuild] at hnew
      cases hnew
      obtain ⟨-, -, -, hfailed⟩ := PrefilterBuilder.transaction_of_build hbuild ha
      rw [← merged_narrows_iff accounts hfailed]
      have hcustom : built.transaction = some a := ha
      have hpart : (prefilter ⟨parser, built⟩).transaction =
          some ((requiring accounts).merge a) := by
        simp only [prefilter, Prefilter.merge, hparser, hcustom]
        rfl
      simp only [Prefilter.MatchesTransaction, hpart, Option.some.injEq]
      constructor
      · intro h txn hmatches
        exact h txn ⟨_, rfl, hmatches⟩
      · rintro h txn ⟨_, rfl, hmatches⟩
        exact h txn hmatches

/-- What every generated parser subscribes with. -/
def oneProgram : Prefilter :=
  { transaction := some { accountsRequired := {Vector.replicate 32 1} } }

/-- The filter of the repository's example: one included account. -/
def includedAccount : PrefilterBuilder :=
  PrefilterBuilder.withTransactionAccountsInclude {} [List.replicate 32 2]

theorem customFilters_applied_iff_of_includedAccount :
    ∃ pipeline a, FilterPipeline.new oneProgram includedAccount = .ok pipeline ∧
      pipeline.additionalFilters.transaction = some a ∧
      ((∀ txn : TransactionEvent, pipeline.prefilter.MatchesTransaction txn → a.Matches txn) ↔
        a.accountsExclude = ∅ ∧ a.vote = none ∧ a.signature = none) := by
  have hnew : FilterPipeline.new oneProgram includedAccount =
      .ok ⟨oneProgram, { transaction := some { accountsInclude := {Vector.replicate 32 2} } }⟩ := by
    decide +kernel
  exact ⟨_, _, hnew, rfl, customFilters_applied_iff oneProgram {Vector.replicate 32 1}
    includedAccount _ _ rfl hnew rfl⟩

/-- A custom filter that hides the transactions of one account. -/
def excludedAccount : PrefilterBuilder :=
  PrefilterBuilder.withTransactionAccountsExclude {} [List.replicate 32 2]

/-- A transaction of the hidden account is received all the same. -/
theorem excludedAccount_received :
    ∃ pipeline a, FilterPipeline.new oneProgram excludedAccount = .ok pipeline ∧
      pipeline.additionalFilters.transaction = some a ∧
      ¬ ∀ txn : TransactionEvent, pipeline.prefilter.MatchesTransaction txn → a.Matches txn := by
  have hnew : FilterPipeline.new oneProgram excludedAccount =
      .ok ⟨oneProgram, { transaction := some { accountsExclude := {Vector.replicate 32 2} } }⟩ := by
    decide +kernel
  refine ⟨_, _, hnew, rfl, ?_⟩
  intro h
  let keys : Finset Pubkey := {Vector.replicate 32 1, Vector.replicate 32 2}
  have hreceived : ((requiring {Vector.replicate 32 1}).merge
      { accountsExclude := {Vector.replicate 32 2} }).Matches (plainTxn keys false "") :=
    merged_matches_plainTxn rfl (by decide +kernel) (by decide +kernel) false ""
  have hdisjoint := (h _ ⟨_, rfl, hreceived⟩).excluded
  rw [keySet_plainTxn] at hdisjoint
  exact absurd hdisjoint (by decide +kernel)

end FilterPipeline

end Shipstern.Runtime
