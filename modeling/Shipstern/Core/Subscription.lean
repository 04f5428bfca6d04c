import Mathlib
import Shipstern.Core.Prefilter

/-!
# The server rule, and what a merge still receives

Which account and transaction updates a prefilter matches on the server: the keys of a list
are alternatives and an empty list is no constraint, all fields have to match, all
comparisons have to hold, every required key and no excluded key may occur. The token mode
widens the key set of a transaction.

A merge is wider than either side on every axis except the two where an empty or smaller
list is the wider one: the lists of alternatives and the required keys. Where the two sides
agree on these, the merge matches whatever either side matches.
-/

namespace Shipstern.Core

/-! ## The server rule -/

/-- An account update as the server sees it, with the outcome of every comparison. -/
structure AccountEvent where
  key : Pubkey
  owner : Pubkey
  nonemptyTxnSignature : Bool
  satisfies : AccountFilter → Bool

/-- A transaction as the server sees it, with the owners of its token balances and those
among them whose balance changed. -/
structure TransactionEvent where
  accountKeys : Finset Pubkey
  owners : Finset Pubkey
  changedOwners : Finset Pubkey
  changedOwners_subset : changedOwners ⊆ owners
  isVote : Bool
  failed : Bool
  signature : String

theorem noChangedOwners : (∅ : Finset Pubkey) ⊆ ∅ := Finset.Subset.refl _

/-- The keys that the account sets of a prefilter are matched against. -/
def TransactionEvent.keySet (txn : TransactionEvent) : Option TokenAccounts → Finset Pubkey
  | none => txn.accountKeys
  | some .balanceChanged => txn.accountKeys ∪ txn.changedOwners
  | some .all => txn.accountKeys ∪ txn.owners

/-- Plain and cuckoo keys are one list to the server. -/
def AccountPrefilter.accountKeys (p : AccountPrefilter) : Finset Pubkey :=
  p.accounts ∪ p.cuckooAccounts.keys

def TransactionPrefilter.includeKeys (p : TransactionPrefilter) : Finset Pubkey :=
  p.accountsInclude ∪ p.cuckooAccountsInclude.keys

structure AccountPrefilter.Matches (p : AccountPrefilter) (update : AccountEvent) : Prop where
  accounts : p.accountKeys = ∅ ∨ update.key ∈ p.accountKeys
  owners : p.owners = ∅ ∨ update.owner ∈ p.owners
  filters : ∀ f ∈ p.filters, update.satisfies f = true
  txnSignature : ∀ b ∈ p.nonemptyTxnSignature, update.nonemptyTxnSignature = b

structure TransactionPrefilter.Matches (p : TransactionPrefilter) (txn : TransactionEvent) :
    Prop where
  included : p.includeKeys = ∅ ∨ ∃ key ∈ p.includeKeys, key ∈ txn.keySet p.tokenAccounts
  required : p.accountsRequired ⊆ txn.keySet p.tokenAccounts
  excluded : Disjoint p.accountsExclude (txn.keySet p.tokenAccounts)
  vote : ∀ v ∈ p.vote, txn.isVote = v
  signature : ∀ s ∈ p.signature, txn.signature = s
  failed : ∀ f ∈ p.failed, txn.failed = f

/-- A prefilter without an account part receives no account updates. -/
def Prefilter.MatchesAccount (p : Prefilter) (update : AccountEvent) : Prop :=
  ∃ part, p.account = some part ∧ part.Matches update

def Prefilter.MatchesTransaction (p : Prefilter) (txn : TransactionEvent) : Prop :=
  ∃ part, p.transaction = some part ∧ part.Matches txn

/-! ## The comparison of filter lists -/

theorem countFilters_eq (filters : List AccountFilter) (f : AccountFilter) :
    countFilters filters f = if f ∈ filters then some (filters.count f : Int) else none := by
  induction filters using List.reverseRecOn generalizing f with
  | nil => rfl
  | append_singleton filters g ih =>
      have hstep : countFilters (filters ++ [g]) =
          Function.update (countFilters filters) g (some ((countFilters filters g).getD 0 + 1)) := by
        simp [countFilters]
      rw [hstep]
      by_cases hf : f = g
      · subst hf
        by_cases hmem : f ∈ filters
        · simp [ih, hmem]
        · simp [ih, hmem, List.count_eq_zero_of_not_mem hmem]
      · simp [ih, hf, Ne.symm hf]

theorem discountFilters_eq {filters : List AccountFilter}
    {counts result : AccountFilter → Option Int} (h : discountFilters counts filters = some result)
    (f : AccountFilter) : result f = (counts f).map (· - (filters.count f : Int)) := by
  induction filters generalizing counts with
  | nil =>
      cases h
      simp
  | cons g filters ih =>
      rw [discountFilters] at h
      split at h
      · contradiction
      · next count hcount =>
          rw [ih h]
          by_cases hf : f = g
          · subst hf
            rw [Function.update_self, hcount, Option.map_some, Option.map_some,
              List.count_cons_self]
            congr 1
            omega
          · rw [Function.update_of_ne hf, List.count_cons_of_ne (Ne.symm hf)]

/-- Lists that compare equal hold the same comparisons. -/
theorem count_eq_of_sameAccountFilters {lhs rhs : List AccountFilter}
    (h : sameAccountFilters lhs rhs = true) : ∀ f ∈ lhs, lhs.count f = rhs.count f := by
  rw [sameAccountFilters] at h
  split at h
  · contradiction
  · split at h
    · contradiction
    · next counts hcounts =>
        intro f hf
        have hzero : counts f = some 0 := by simpa using List.all_eq_true.mp h f hf
        rw [discountFilters_eq hcounts, countFilters_eq, if_pos hf, Option.map_some,
          Option.some.injEq] at hzero
        omega

theorem mem_of_sameAccountFilters {lhs rhs : List AccountFilter}
    (h : sameAccountFilters lhs rhs = true) {f : AccountFilter} (hf : f ∈ lhs) : f ∈ rhs := by
  have hcount := count_eq_of_sameAccountFilters h f hf
  have hpos : 0 < lhs.count f := List.count_pos_iff.mpr hf
  exact List.count_pos_iff.mp (by omega)

/-! ## Agreement or nothing -/

/-- A value that survives a merge is the value of both sides. -/
theorem mem_of_agree {α : Type} [DecidableEq α] {a b : Option α} {v : α}
    (h : v ∈ (if a ≠ b then none else a)) : v ∈ a ∧ v ∈ b := by
  by_cases hab : a = b
  · subst hab
    simpa using h
  · simp [hab] at h

theorem TransactionPrefilter.merge_failed (a b : TransactionPrefilter) :
    (a.merge b).failed = if a.failed ≠ b.failed then none else a.failed := by
  simp only [TransactionPrefilter.merge]
  cases a.failed with
  | none => cases b.failed <;> simp
  | some f =>
      cases b.failed with
      | none => simp
      | some g => by_cases hfg : f = g <;> simp [hfg]

/-! ## The axes on which a merge is wider -/

/-- The key sets grow with the token mode, and the merged mode is the wider one. -/
theorem TransactionEvent.keySet_merge (txn : TransactionEvent) (a b : Option TokenAccounts) :
    txn.keySet a ⊆ txn.keySet (TokenAccounts.merge a b) ∧
      txn.keySet b ⊆ txn.keySet (TokenAccounts.merge a b) := by
  have hkeys : ∀ mode, txn.accountKeys ⊆ txn.keySet mode := by
    intro mode
    cases mode with
    | none => exact Finset.Subset.refl _
    | some mode => cases mode <;> exact Finset.subset_union_left
  have hchanged : txn.keySet (some .balanceChanged) ⊆ txn.keySet (some .all) :=
    Finset.union_subset_union_right txn.changedOwners_subset
  match a, b with
  | none, none => exact ⟨Finset.Subset.refl _, Finset.Subset.refl _⟩
  | none, some .all => exact ⟨hkeys _, Finset.Subset.refl _⟩
  | none, some .balanceChanged => exact ⟨hkeys _, Finset.Subset.refl _⟩
  | some .all, none => exact ⟨Finset.Subset.refl _, hkeys _⟩
  | some .balanceChanged, none => exact ⟨Finset.Subset.refl _, hkeys _⟩
  | some .all, some .all => exact ⟨Finset.Subset.refl _, Finset.Subset.refl _⟩
  | some .all, some .balanceChanged => exact ⟨Finset.Subset.refl _, hchanged⟩
  | some .balanceChanged, some .all => exact ⟨hchanged, Finset.Subset.refl _⟩
  | some .balanceChanged, some .balanceChanged =>
      exact ⟨Finset.Subset.refl _, Finset.Subset.refl _⟩

/-- `wide` is at least as wide as `p` on every axis but the included and the required keys. -/
structure TransactionPrefilter.Widens (wide p : TransactionPrefilter) : Prop where
  keySet : ∀ txn : TransactionEvent, txn.keySet p.tokenAccounts ⊆ txn.keySet wide.tokenAccounts
  excluded : wide.accountsExclude = ∅ ∨
    wide.accountsExclude ⊆ p.accountsExclude ∧ wide.tokenAccounts = p.tokenAccounts
  vote : ∀ v ∈ wide.vote, v ∈ p.vote
  signature : ∀ s ∈ wide.signature, s ∈ p.signature
  failed : ∀ f ∈ wide.failed, f ∈ p.failed

namespace TransactionPrefilter

theorem Widens.refl (p : TransactionPrefilter) : p.Widens p where
  keySet _ := Finset.Subset.refl _
  excluded := .inr ⟨Finset.Subset.refl _, rfl⟩
  vote _ h := h
  signature _ h := h
  failed _ h := h

theorem Widens.trans {wide mid p : TransactionPrefilter} (h : wide.Widens mid)
    (h' : mid.Widens p) : wide.Widens p where
  keySet txn := (h'.keySet txn).trans (h.keySet txn)
  excluded := by
    obtain hnone | ⟨hsub, hmode⟩ := h.excluded
    · exact .inl hnone
    · obtain hnone | ⟨hsub', hmode'⟩ := h'.excluded
      · exact .inl (Finset.subset_empty.mp (hnone ▸ hsub))
      · exact .inr ⟨hsub.trans hsub', hmode.trans hmode'⟩
  vote v hv := h'.vote v (h.vote v hv)
  signature s hs := h'.signature s (h.signature s hs)
  failed f hf := h'.failed f (h.failed f hf)

/-- A merge is wider than both sides. -/
theorem widens_merge (a b : TransactionPrefilter) :
    (a.merge b).Widens a ∧ (a.merge b).Widens b := by
  have hfailed : ∀ f ∈ (a.merge b).failed, f ∈ a.failed ∧ f ∈ b.failed := by
    intro f hf
    rw [merge_failed] at hf
    exact mem_of_agree hf
  have hexcluded : (a.merge b).accountsExclude = ∅ ∨
      ((a.merge b).accountsExclude ⊆ a.accountsExclude ∧
        (a.merge b).accountsExclude ⊆ b.accountsExclude) ∧
      (a.merge b).tokenAccounts = a.tokenAccounts ∧
      (a.merge b).tokenAccounts = b.tokenAccounts := by
    by_cases hmode : a.tokenAccounts = b.tokenAccounts
    · refine .inr ⟨⟨?_, ?_⟩, ?_, ?_⟩
      · simp [merge, hmode]
      · intro key hkey
        have hkey : key ∈ a.accountsExclude ∧ key ∈ b.accountsExclude := by
          simpa [merge, hmode] using hkey
        exact hkey.2
      · simp [merge, TokenAccounts.merge, hmode]
      · simp [merge, TokenAccounts.merge, hmode]
    · exact .inl (by simp [merge, hmode])
  constructor
  · exact
      { keySet := fun txn => (txn.keySet_merge _ _).1
        excluded := hexcluded.imp_right fun h => ⟨h.1.1, h.2.1⟩
        vote := fun _ hv => (mem_of_agree hv).1
        signature := fun _ hs => (mem_of_agree hs).1
        failed := fun f hf => (hfailed f hf).1 }
  · exact
      { keySet := fun txn => (txn.keySet_merge _ _).2
        excluded := hexcluded.imp_right fun h => ⟨h.1.2, h.2.2⟩
        vote := fun _ hv => (mem_of_agree hv).2
        signature := fun _ hs => (mem_of_agree hs).2
        failed := fun f hf => (hfailed f hf).2 }

/-- A wider prefilter matches what the narrower one matches, once its included and required
keys are there. -/
theorem Widens.matches {wide p : TransactionPrefilter} (h : wide.Widens p)
    {txn : TransactionEvent} (hp : p.Matches txn)
    (hincluded : wide.includeKeys = ∅ ∨
      ∃ key ∈ wide.includeKeys, key ∈ txn.keySet wide.tokenAccounts)
    (hrequired : wide.accountsRequired ⊆ txn.keySet wide.tokenAccounts) : wide.Matches txn where
  included := hincluded
  required := hrequired
  excluded := by
    obtain hnone | ⟨hsub, hmode⟩ := h.excluded
    · simp [hnone]
    · rw [hmode]
      exact hp.excluded.mono_left hsub
  vote v hv := hp.vote v (h.vote v hv)
  signature s hs := hp.signature s (h.signature s hs)
  failed f hf := hp.failed f (h.failed f hf)

theorem includeKeys_merge (a b : TransactionPrefilter) :
    (a.merge b).includeKeys = a.includeKeys ∪ b.includeKeys := by
  simp only [includeKeys, merge, CuckooAccounts.merge]
  exact Finset.union_union_union_comm _ _ _ _

end TransactionPrefilter

/-! ## Merging compatible prefilters -/

/-- On each list of alternatives both sides are empty or both are not. -/
structure AccountPrefilter.Compatible (a b : AccountPrefilter) : Prop where
  accounts : a.accountKeys = ∅ ↔ b.accountKeys = ∅
  owners : a.owners = ∅ ↔ b.owners = ∅

/-- The included keys of both sides are empty or those of neither are, and the required keys
are the same. -/
structure TransactionPrefilter.Compatible (a b : TransactionPrefilter) : Prop where
  included : a.includeKeys = ∅ ↔ b.includeKeys = ∅
  required : a.accountsRequired = b.accountsRequired

/-- The parts that both prefilters have are compatible. -/
structure Prefilter.Compatible (p q : Prefilter) : Prop where
  account : ∀ a ∈ p.account, ∀ b ∈ q.account, a.Compatible b
  transaction : ∀ a ∈ p.transaction, ∀ b ∈ q.transaction, a.Compatible b

/-- A list of alternatives that is empty on both sides or on neither still admits, once
united, what it admitted on one side. -/
theorem union_admits {a b s : Finset Pubkey} (hempty : a = ∅ ↔ b = ∅)
    (h : (a = ∅ ∨ ∃ key ∈ a, key ∈ s) ∨ (b = ∅ ∨ ∃ key ∈ b, key ∈ s)) :
    a ∪ b = ∅ ∨ ∃ key ∈ a ∪ b, key ∈ s := by
  obtain (ha | ⟨key, hkey, hs⟩) | (hb | ⟨key, hkey, hs⟩) := h
  · left
    rw [ha, hempty.mp ha, Finset.empty_union]
  · exact .inr ⟨key, Finset.mem_union_left b hkey, hs⟩
  · left
    rw [hb, hempty.mpr hb, Finset.empty_union]
  · exact .inr ⟨key, Finset.mem_union_right a hkey, hs⟩

namespace AccountPrefilter

theorem accountKeys_merge (a b : AccountPrefilter) :
    (a.merge b).accountKeys = a.accountKeys ∪ b.accountKeys := by
  simp only [accountKeys, merge, CuckooAccounts.merge]
  exact Finset.union_union_union_comm _ _ _ _

/-- A comparison that survives a merge is one of both sides. -/
theorem mem_merge_filters {a b : AccountPrefilter} {f : AccountFilter}
    (hf : f ∈ (a.merge b).filters) : f ∈ a.filters ∧ f ∈ b.filters := by
  cases hsame : sameAccountFilters a.filters b.filters with
  | false => simp [merge, hsame] at hf
  | true =>
      have hf : f ∈ a.filters := by simpa [merge, hsame] using hf
      exact ⟨hf, mem_of_sameAccountFilters hsame hf⟩

theorem matches_merge {a b : AccountPrefilter} (hab : a.Compatible b) {update : AccountEvent}
    (h : a.Matches update ∨ b.Matches update) : (a.merge b).Matches update where
  accounts := by
    rw [accountKeys_merge]
    have hadmits := union_admits (s := {update.key}) hab.accounts
      (h.imp (fun h => by simpa using h.accounts) (fun h => by simpa using h.accounts))
    simpa using hadmits
  owners := by
    have hadmits := union_admits (s := {update.owner}) hab.owners
      (h.imp (fun h => by simpa using h.owners) (fun h => by simpa using h.owners))
    simpa [merge] using hadmits
  filters f hf := by
    obtain ⟨ha, hb⟩ := mem_merge_filters hf
    exact h.elim (fun h => h.filters f ha) (fun h => h.filters f hb)
  txnSignature v hv := by
    obtain ⟨ha, hb⟩ := mem_of_agree hv
    exact h.elim (fun h => h.txnSignature v ha) (fun h => h.txnSignature v hb)

theorem Compatible.merge {a b c : AccountPrefilter} (hac : a.Compatible c)
    (hbc : b.Compatible c) : (a.merge b).Compatible c where
  accounts := by
    rw [accountKeys_merge, Finset.union_eq_empty, hac.accounts, hbc.accounts, and_self]
  owners := by
    rw [← hac.owners, AccountPrefilter.merge, Finset.union_eq_empty, hbc.owners, hac.owners,
      and_self]

end AccountPrefilter

namespace TransactionPrefilter

theorem matches_merge {a b : TransactionPrefilter} (hab : a.Compatible b)
    {txn : TransactionEvent} (h : a.Matches txn ∨ b.Matches txn) : (a.merge b).Matches txn := by
  obtain ⟨hwide, hwide'⟩ := widens_merge a b
  have hkeys := hwide.keySet txn
  have hkeys' := hwide'.keySet txn
  have hadmits := union_admits (s := txn.keySet (a.merge b).tokenAccounts) hab.included
    (h.imp
      (fun h => h.included.imp_right fun ⟨key, hkey, hs⟩ => ⟨key, hkey, hkeys hs⟩)
      (fun h => h.included.imp_right fun ⟨key, hkey, hs⟩ => ⟨key, hkey, hkeys' hs⟩))
  rw [← includeKeys_merge] at hadmits
  have hsame : (a.merge b).accountsRequired = a.accountsRequired := by
    rw [merge, ← hab.required, Finset.union_self]
  obtain h | h := h
  · exact hwide.matches h hadmits (by rw [hsame]; exact h.required.trans hkeys)
  · exact hwide'.matches h hadmits (by rw [hsame, hab.required]; exact h.required.trans hkeys')

theorem Compatible.merge {a b c : TransactionPrefilter} (hac : a.Compatible c)
    (hbc : b.Compatible c) : (a.merge b).Compatible c where
  included := by
    rw [includeKeys_merge, Finset.union_eq_empty, hac.included, hbc.included, and_self]
  required := by
    rw [TransactionPrefilter.merge, hac.required, hbc.required, Finset.union_self]

end TransactionPrefilter

/-- Whatever holds of both parts and of their merge holds of the merged part. -/
theorem mergeOpt_elim {α : Type} {merge : α → α → α} {P : α → Prop} {p q : Option α} {c : α}
    (hc : c ∈ mergeOpt merge p q) (hp : ∀ a ∈ p, P a) (hq : ∀ b ∈ q, P b)
    (hmerge : ∀ a b, P a → P b → P (merge a b)) : P c := by
  cases p with
  | none => exact hq c hc
  | some a =>
      cases q with
      | none => exact hp c hc
      | some b =>
          cases hc
          exact hmerge a b (hp a rfl) (hq b rfl)

/-- A part that one side has is covered by the merged part. -/
theorem mergeOpt_intro {α : Type} {merge : α → α → α} {P : α → Prop} {p q : Option α}
    (h : (∃ a, p = some a ∧ P a) ∨ ∃ b, q = some b ∧ P b)
    (hmerge : ∀ a ∈ p, ∀ b ∈ q, P a ∨ P b → P (merge a b)) :
    ∃ c, mergeOpt merge p q = some c ∧ P c := by
  cases p with
  | none =>
      obtain ⟨a, ha, -⟩ | hq := h
      · contradiction
      · exact hq
  | some a =>
      cases q with
      | none =>
          obtain hp | ⟨b, hb, -⟩ := h
          · exact hp
          · contradiction
      | some b =>
          refine ⟨merge a b, rfl, hmerge a rfl b rfl ?_⟩
          refine h.imp ?_ ?_
          · rintro ⟨a', heq, ha⟩
            cases heq
            exact ha
          · rintro ⟨b', heq, hb⟩
            cases heq
            exact hb

namespace Prefilter

theorem Compatible.merge {p q r : Prefilter} (hpr : p.Compatible r) (hqr : q.Compatible r) :
    (p.merge q).Compatible r where
  account _ ha c hc := mergeOpt_elim (P := (AccountPrefilter.Compatible · c)) ha
    (fun a ha => hpr.account a ha c hc) (fun b hb => hqr.account b hb c hc)
    fun _ _ => AccountPrefilter.Compatible.merge
  transaction _ ha c hc := mergeOpt_elim (P := (TransactionPrefilter.Compatible · c)) ha
    (fun a ha => hpr.transaction a ha c hc) (fun b hb => hqr.transaction b hb c hc)
    fun _ _ => TransactionPrefilter.Compatible.merge

theorem matchesAccount_merge {p q : Prefilter} (hpq : p.Compatible q) {update : AccountEvent}
    (h : p.MatchesAccount update ∨ q.MatchesAccount update) :
    (p.merge q).MatchesAccount update :=
  mergeOpt_intro h fun a ha b hb hmatch =>
    AccountPrefilter.matches_merge (hpq.account a ha b hb) hmatch

theorem matchesTransaction_merge {p q : Prefilter} (hpq : p.Compatible q)
    {txn : TransactionEvent} (h : p.MatchesTransaction txn ∨ q.MatchesTransaction txn) :
    (p.merge q).MatchesTransaction txn :=
  mergeOpt_intro h fun a ha b hb hmatch =>
    TransactionPrefilter.matches_merge (hpq.transaction a ha b hb) hmatch

/-- A property of updates that every merge of compatible prefilters keeps from either side
passes to the fold of a list of pairwise compatible ones. -/
theorem foldl_merge_covers {P : Prefilter → Prop}
    (hmerge : ∀ p q : Prefilter, p.Compatible q → P p ∨ P q → P (p.merge q))
    {rest : List Prefilter} {first : Prefilter} (hpairwise : (first :: rest).Pairwise Compatible)
    (h : ∃ p ∈ first :: rest, P p) : P (rest.foldl Prefilter.merge first) := by
  induction rest generalizing first with
  | nil => simpa using h
  | cons next rest ih =>
      simp only [List.pairwise_cons, List.forall_mem_cons] at hpairwise
      obtain ⟨⟨hnext, hfirst⟩, hlater, hrest⟩ := hpairwise
      rw [List.foldl_cons]
      refine ih ?_ ?_
      · rw [List.pairwise_cons]
        exact ⟨fun r hr => (hfirst r hr).merge (hlater r hr), hrest⟩
      · rw [List.exists_mem_cons_iff, List.exists_mem_cons_iff] at h
        rw [List.exists_mem_cons_iff]
        obtain h | h | h := h
        · exact .inl (hmerge first next hnext (.inl h))
        · exact .inl (hmerge first next hnext (.inr h))
        · exact .inr h

theorem fromIter_covers {P : Prefilter → Prop}
    (hmerge : ∀ p q : Prefilter, p.Compatible q → P p ∨ P q → P (p.merge q))
    {prefilters : List Prefilter} (hpairwise : prefilters.Pairwise Compatible)
    (h : ∃ p ∈ prefilters, P p) : P (fromIter prefilters) := by
  cases prefilters with
  | nil => simp at h
  | cons first rest => exact foldl_merge_covers hmerge hpairwise h

end Prefilter

/-- Merging never drops an update that either side would receive, for compatible prefilters
and for the fold of any list of pairwise compatible ones. -/
theorem merge_drops_nothing :
    (∀ a b : AccountPrefilter, a.Compatible b → ∀ update : AccountEvent,
      a.Matches update ∨ b.Matches update → (a.merge b).Matches update) ∧
    (∀ a b : TransactionPrefilter, a.Compatible b → ∀ txn : TransactionEvent,
      a.Matches txn ∨ b.Matches txn → (a.merge b).Matches txn) ∧
    ∀ prefilters : List Prefilter, prefilters.Pairwise Prefilter.Compatible →
      (∀ update : AccountEvent, (∃ p ∈ prefilters, p.MatchesAccount update) →
        (Prefilter.fromIter prefilters).MatchesAccount update) ∧
      ∀ txn : TransactionEvent, (∃ p ∈ prefilters, p.MatchesTransaction txn) →
        (Prefilter.fromIter prefilters).MatchesTransaction txn := by
  refine ⟨?_, ?_, ?_⟩
  · intro a b hab update
    exact AccountPrefilter.matches_merge hab
  · intro a b hab txn
    exact TransactionPrefilter.matches_merge hab
  · intro prefilters hpairwise
    constructor
    · intro update
      exact Prefilter.fromIter_covers (fun p q hpq => Prefilter.matchesAccount_merge hpq) hpairwise
    · intro txn
      exact Prefilter.fromIter_covers (fun p q hpq => Prefilter.matchesTransaction_merge hpq)
        hpairwise

/-- Two parsers with different token modes, the narrower of which excludes a key that owns a
token balance of the transaction. -/
def tokenModes : List Prefilter :=
  [{ transaction := some
        { accountsInclude := {Vector.replicate 32 1}
          accountsExclude := {Vector.replicate 32 2} } },
    { transaction := some
        { accountsInclude := {Vector.replicate 32 2}
          tokenAccounts := some .all } }]

def ownedBalance : TransactionEvent where
  accountKeys := {Vector.replicate 32 1}
  owners := {Vector.replicate 32 2}
  changedOwners := ∅
  changedOwners_subset := Finset.empty_subset _
  isVote := false
  failed := false
  signature := ""

theorem merge_drops_nothing_of_tokenModes :
    (Prefilter.fromIter tokenModes).MatchesTransaction ownedBalance := by
  have hcompatible : tokenModes.Pairwise Prefilter.Compatible := by
    rw [tokenModes, List.pairwise_pair]
    constructor
    · intro a ha
      contradiction
    · intro a ha b hb
      cases ha
      cases hb
      exact ⟨by decide +kernel, rfl⟩
  refine (merge_drops_nothing.2.2 tokenModes hcompatible).2 ownedBalance ?_
  refine ⟨_, List.mem_cons_self, _, rfl, ?_⟩
  exact
    { included := .inr ⟨Vector.replicate 32 1, by decide +kernel, by decide +kernel⟩
      required := Finset.empty_subset _
      excluded := by decide +kernel
      vote := fun v hv => by contradiction
      signature := fun s hs => by contradiction
      failed := fun f hf => by
        cases hf
        rfl }

end Shipstern.Core
