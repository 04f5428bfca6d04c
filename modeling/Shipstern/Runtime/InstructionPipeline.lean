import Shipstern.Core.Subscription

/-!
# The bundle of instruction pipelines

`InstructionPipeline` of the runtime collapses all instruction parsers into one pipeline
and publishes the fold of their prefilters. The fold unites the required keys, and a list of
included keys constrains as soon as one member has one. So the bundle may demand more of a
transaction than a member does, and the member is starved.

The main result says for which members this does not happen: whatever the bundle demands,
every transaction that the member matches has anyway.
-/

open Shipstern.Core

namespace Shipstern.Runtime

/-- A pipeline as the runtime sees it when it subscribes: the id and the prefilter of its
parser. -/
structure Pipeline where
  id : String
  prefilter : Prefilter
deriving DecidableEq

/-- A non-empty list of instruction pipelines. -/
structure InstructionPipeline where
  pipelines : List Pipeline
  nonempty : pipelines ≠ []

namespace InstructionPipeline

/-- The parser id every bundled instruction parser shares. -/
def id : String := "InstructionPipeline"

def new (pipelines : List Pipeline) : Option InstructionPipeline :=
  if h : pipelines = [] then none else some ⟨pipelines, h⟩

def prefilter (bundle : InstructionPipeline) : Prefilter :=
  Prefilter.fromIter (bundle.pipelines.map (·.prefilter))

/-- The transaction prefilters of the members that have one. -/
def members (bundle : InstructionPipeline) : List TransactionPrefilter :=
  bundle.pipelines.filterMap (·.prefilter.transaction)

end InstructionPipeline

/-! ## The fold of transaction prefilters -/

theorem mem_foldl_merge {keys : TransactionPrefilter → Finset Pubkey}
    (hmerge : ∀ p q : TransactionPrefilter, keys (p.merge q) = keys p ∪ keys q)
    {first : TransactionPrefilter} {rest : List TransactionPrefilter} {key : Pubkey} :
    key ∈ keys (rest.foldl TransactionPrefilter.merge first) ↔
      ∃ p ∈ first :: rest, key ∈ keys p := by
  induction rest generalizing first with
  | nil => simp
  | cons next rest ih =>
      rw [List.foldl_cons, ih, List.exists_mem_cons_iff, hmerge, Finset.mem_union,
        List.exists_mem_cons_iff, List.exists_mem_cons_iff, or_assoc]

theorem foldl_merge_widens {first : TransactionPrefilter} {rest : List TransactionPrefilter} :
    ∀ p ∈ first :: rest, (rest.foldl TransactionPrefilter.merge first).Widens p := by
  induction rest generalizing first with
  | nil => simpa using TransactionPrefilter.Widens.refl first
  | cons next rest ih =>
      obtain ⟨hfirst, hnext⟩ := TransactionPrefilter.widens_merge first next
      rw [List.foldl_cons]
      have hmerged := ih (first.merge next) List.mem_cons_self
      intro p hp
      simp only [List.mem_cons] at hp
      obtain rfl | rfl | hp := hp
      · exact hmerged.trans hfirst
      · exact hmerged.trans hnext
      · exact ih p (List.mem_cons_of_mem _ hp)

theorem foldl_merge_transaction (rest : List Prefilter) (first : Prefilter) :
    (rest.foldl Prefilter.merge first).transaction =
      match (first :: rest).filterMap (·.transaction) with
      | [] => none
      | p :: ps => some (ps.foldl TransactionPrefilter.merge p) := by
  induction rest generalizing first with
  | nil => cases h : first.transaction <;> simp [h]
  | cons next rest ih =>
      have hpart : (first.merge next).transaction =
          mergeOpt TransactionPrefilter.merge first.transaction next.transaction := rfl
      rw [List.foldl_cons, ih]
      simp only [List.filterMap_cons, hpart]
      cases first.transaction with
      | none => cases next.transaction <;> rfl
      | some p => cases next.transaction <;> rfl

/-- The transaction part of the bundle: the fold of the members' transaction parts. -/
theorem InstructionPipeline.prefilter_transaction (bundle : InstructionPipeline) :
    bundle.prefilter.transaction =
      match bundle.members with
      | [] => none
      | p :: ps => some (ps.foldl TransactionPrefilter.merge p) := by
  obtain ⟨pipelines, hne⟩ := bundle
  cases pipelines with
  | nil => contradiction
  | cons first rest =>
      have hmembers : (first.prefilter :: rest.map (·.prefilter)).filterMap (·.transaction) =
          InstructionPipeline.members ⟨first :: rest, hne⟩ := by
        simp only [InstructionPipeline.members, List.filterMap_cons, List.filterMap_map]
        rfl
      rw [← hmembers]
      exact foldl_merge_transaction _ _

/-! ## What a member demands of every transaction it matches -/

/-- Some transaction is matched: no required key is excluded, and some included key is not. -/
def Satisfiable (p : TransactionPrefilter) : Prop :=
  Disjoint p.accountsRequired p.accountsExclude ∧
    (p.includeKeys = ∅ ∨ ∃ key ∈ p.includeKeys, key ∉ p.accountsExclude)

/-- Every transaction that `p` matches has the key: it is required, or it is the only
included key that is not excluded and no required key is an included one. -/
def Demands (p : TransactionPrefilter) (key : Pubkey) : Prop :=
  key ∈ p.accountsRequired ∨
    p.includeKeys ≠ ∅ ∧ Disjoint p.accountsRequired p.includeKeys ∧
      ∀ other ∈ p.includeKeys, other ∉ p.accountsExclude → other = key

/-- A transaction with the given account keys and no token balances that has whatever else
`p` asks for. -/
def minimalTxn (p : TransactionPrefilter) (keys : Finset Pubkey) : TransactionEvent where
  accountKeys := keys
  owners := ∅
  changedOwners := ∅
  changedOwners_subset := noChangedOwners
  isVote := p.vote.getD false
  failed := p.failed.getD false
  signature := p.signature.getD ""

@[simp] theorem keySet_minimalTxn (p : TransactionPrefilter) (keys : Finset Pubkey)
    (mode : Option TokenAccounts) : (minimalTxn p keys).keySet mode = keys := by
  match mode with
  | none => rfl
  | some .all => exact Finset.union_empty keys
  | some .balanceChanged => exact Finset.union_empty keys

theorem matches_minimalTxn {p : TransactionPrefilter} {keys : Finset Pubkey}
    (hincluded : p.includeKeys = ∅ ∨ ∃ key ∈ p.includeKeys, key ∈ keys)
    (hrequired : p.accountsRequired ⊆ keys) (hexcluded : Disjoint p.accountsExclude keys) :
    p.Matches (minimalTxn p keys) where
  included := by simpa using hincluded
  required := by simpa using hrequired
  excluded := by simpa using hexcluded
  vote v hv := by
    change p.vote.getD false = v
    rw [Option.mem_def.mp hv, Option.getD_some]
  signature s hs := by
    change p.signature.getD "" = s
    rw [Option.mem_def.mp hs, Option.getD_some]
  failed f hf := by
    change p.failed.getD false = f
    rw [Option.mem_def.mp hf, Option.getD_some]

/-- A matched transaction shows that the prefilter is satisfiable. -/
theorem satisfiable_of_matches {p : TransactionPrefilter} {txn : TransactionEvent}
    (h : p.Matches txn) : Satisfiable p := by
  refine ⟨(h.excluded.mono_right h.required).symm, h.included.imp_right ?_⟩
  rintro ⟨key, hkey, htxn⟩
  exact ⟨key, hkey, fun hex => Finset.disjoint_left.mp h.excluded hex htxn⟩

/-- What a prefilter demands is there in every transaction that it matches. -/
theorem mem_of_demands {p : TransactionPrefilter} {key : Pubkey} (hkey : Demands p key)
    {txn : TransactionEvent} (h : p.Matches txn) : key ∈ txn.keySet p.tokenAccounts := by
  obtain hreq | ⟨hne, -, honly⟩ := hkey
  · exact h.required hreq
  · obtain hempty | ⟨other, hother, htxn⟩ := h.included
    · contradiction
    · have hallowed : other ∉ p.accountsExclude :=
        fun hex => Finset.disjoint_left.mp h.excluded hex htxn
      rwa [honly other hother hallowed] at htxn

/-- A key that is not demanded can be left out of a matched transaction without token
balances. -/
theorem exists_matches_without {p : TransactionPrefilter} (hsat : Satisfiable p) {key : Pubkey}
    (hkey : ¬ Demands p key) : ∃ keys, p.Matches (minimalTxn p keys) ∧ key ∉ keys := by
  rw [Demands, not_or] at hkey
  obtain ⟨hreq, hincl⟩ := hkey
  obtain ⟨hdisjoint, hinclude⟩ := hsat
  by_cases hempty : p.includeKeys = ∅
  · exact ⟨p.accountsRequired, matches_minimalTxn (.inl hempty) (Finset.Subset.refl _)
      hdisjoint.symm, hreq⟩
  by_cases hhit : Disjoint p.accountsRequired p.includeKeys
  · -- No required key is included, so an included key other than `key` has to be added.
    have hother : ∃ other ∈ p.includeKeys, other ∉ p.accountsExclude ∧ other ≠ key := by
      by_contra hnone
      refine hincl ⟨hempty, hhit, fun other hmem hallowed => ?_⟩
      by_contra hne
      exact hnone ⟨other, hmem, hallowed, hne⟩
    obtain ⟨other, hmem, hallowed, hne⟩ := hother
    refine ⟨insert other p.accountsRequired, matches_minimalTxn
      (.inr ⟨other, hmem, Finset.mem_insert_self _ _⟩) (Finset.subset_insert _ _) ?_, ?_⟩
    · rw [Finset.disjoint_insert_right]
      exact ⟨hallowed, hdisjoint.symm⟩
    · rw [Finset.mem_insert, not_or]
      exact ⟨hne.symm, hreq⟩
  · obtain ⟨shared, hshared, hmem⟩ := Finset.not_disjoint_iff.mp hhit
    exact ⟨p.accountsRequired, matches_minimalTxn (.inr ⟨shared, hmem, hshared⟩)
      (Finset.Subset.refl _) hdisjoint.symm, hreq⟩

/-! ## Which members the bundle starves -/

/-- The bundle of `ps` asks nothing of a transaction that `p` matches beyond what `p` itself
demands: `p` demands every key that a member requires, and if some member includes keys,
then `p` includes keys as well or requires one of those. -/
def Spared (ps : List TransactionPrefilter) (p : TransactionPrefilter) : Prop :=
  Satisfiable p →
    (∀ q ∈ ps, ∀ key ∈ q.accountsRequired, Demands p key) ∧
      ((∀ q ∈ ps, q.includeKeys = ∅) ∨ p.includeKeys ≠ ∅ ∨
        ∃ key ∈ p.accountsRequired, ∃ q ∈ ps, key ∈ q.includeKeys)

section Fold

variable {first p : TransactionPrefilter} {rest : List TransactionPrefilter}

theorem spared_of_covers (h : ∀ txn, p.Matches txn →
      (rest.foldl TransactionPrefilter.merge first).Matches txn) : Spared (first :: rest) p := by
  intro hsat
  constructor
  · intro q hq key hkey
    by_contra hnot
    obtain ⟨keys, hmatches, hout⟩ := exists_matches_without hsat hnot
    have hrequired := (h _ hmatches).required ((mem_foldl_merge fun _ _ => rfl).mpr ⟨q, hq, hkey⟩)
    rw [keySet_minimalTxn] at hrequired
    exact hout hrequired
  · by_contra hnone
    rw [not_or, not_or] at hnone
    obtain ⟨hsome, hempty, hapart⟩ := hnone
    -- The member includes nothing, so its required keys alone make a transaction it matches.
    have hmatches : p.Matches (minimalTxn p p.accountsRequired) :=
      matches_minimalTxn (.inl (not_not.mp hempty)) (Finset.Subset.refl _) hsat.1.symm
    obtain hnothing | ⟨key, hkey, htxn⟩ := (h _ hmatches).included
    · refine hsome fun q hq => Finset.eq_empty_of_forall_notMem fun key hkey => ?_
      have hmem := (mem_foldl_merge TransactionPrefilter.includeKeys_merge).mpr ⟨q, hq, hkey⟩
      rw [hnothing] at hmem
      exact Finset.notMem_empty key hmem
    · rw [keySet_minimalTxn] at htxn
      exact hapart ⟨key, htxn, (mem_foldl_merge TransactionPrefilter.includeKeys_merge).mp hkey⟩

theorem covers_of_spared (hp : p ∈ first :: rest) (h : Spared (first :: rest) p)
    {txn : TransactionEvent} (hmatches : p.Matches txn) :
    (rest.foldl TransactionPrefilter.merge first).Matches txn := by
  have hwide := foldl_merge_widens p hp
  have hkeys := hwide.keySet txn
  obtain ⟨hdemands, hincluded⟩ := h (satisfiable_of_matches hmatches)
  have hmem : ∀ {key}, (∃ q ∈ first :: rest, key ∈ q.includeKeys) →
      key ∈ (rest.foldl TransactionPrefilter.merge first).includeKeys :=
    (mem_foldl_merge TransactionPrefilter.includeKeys_merge).mpr
  refine hwide.matches hmatches ?_ ?_
  · obtain hnothing | hsome | ⟨key, hkey, hincl⟩ := hincluded
    · left
      refine Finset.eq_empty_of_forall_notMem fun key hkey => ?_
      obtain ⟨q, hq, hkey⟩ := (mem_foldl_merge TransactionPrefilter.includeKeys_merge).mp hkey
      rw [hnothing q hq] at hkey
      exact Finset.notMem_empty key hkey
    · obtain hempty | ⟨key, hkey, htxn⟩ := hmatches.included
      · contradiction
      · exact .inr ⟨key, hmem ⟨p, hp, hkey⟩, hkeys htxn⟩
    · exact .inr ⟨key, hmem hincl, hkeys (hmatches.required hkey)⟩
  · intro key hkey
    obtain ⟨q, hq, hkey⟩ := (mem_foldl_merge fun _ _ => rfl).mp hkey
    exact hkeys (mem_of_demands (hdemands q hq key hkey) hmatches)

end Fold

/-- Bundling starves no member exactly if every member is spared. -/
theorem bundle_starves_none_iff (bundle : InstructionPipeline) :
    (∀ txn : TransactionEvent,
      (∃ pipe ∈ bundle.pipelines, pipe.prefilter.MatchesTransaction txn) →
        bundle.prefilter.MatchesTransaction txn) ↔
      ∀ p ∈ bundle.members, Spared bundle.members p := by
  have hmember : ∀ {p}, p ∈ bundle.members ↔
      ∃ pipe ∈ bundle.pipelines, pipe.prefilter.transaction = some p := List.mem_filterMap
  have hpart := bundle.prefilter_transaction
  cases hmembers : bundle.members with
  | nil =>
      simp only [List.not_mem_nil, false_implies, implies_true, iff_true]
      rintro txn ⟨pipe, hpipe, p, hp, -⟩
      have hmem := hmember.mpr ⟨pipe, hpipe, hp⟩
      rw [hmembers] at hmem
      contradiction
  | cons first rest =>
      rw [hmembers] at hpart
      constructor
      · intro h p hp
        refine spared_of_covers fun txn hmatches => ?_
        obtain ⟨pipe, hpipe, hpipe'⟩ := hmember.mp (hmembers ▸ hp)
        obtain ⟨part, hpart', hcovers⟩ := h txn ⟨pipe, hpipe, p, hpipe', hmatches⟩
        rw [hpart] at hpart'
        cases hpart'
        exact hcovers
      · rintro h txn ⟨pipe, hpipe, p, hp, hmatches⟩
        have hmem : p ∈ first :: rest := hmembers ▸ hmember.mpr ⟨pipe, hpipe, hp⟩
        exact ⟨_, hpart, covers_of_spared hmem (h p hmem) hmatches⟩

/-- The prefilter every generated instruction parser declares. -/
def generatedPrefilter (program : Pubkey) : Prefilter :=
  { transaction := some { accountsRequired := {program} } }

/-- Two generated parsers in one bundle. -/
def twoPrograms : InstructionPipeline where
  pipelines :=
    [⟨"A::InstructionParser", generatedPrefilter (Vector.replicate 32 1)⟩,
      ⟨"B::InstructionParser", generatedPrefilter (Vector.replicate 32 2)⟩]
  nonempty := List.cons_ne_nil _ _

/-- A transaction of the first program alone is matched by its parser and not by the bundle. -/
theorem bundle_starves_twoPrograms :
    ¬ ∀ txn : TransactionEvent,
      (∃ pipe ∈ twoPrograms.pipelines, pipe.prefilter.MatchesTransaction txn) →
        twoPrograms.prefilter.MatchesTransaction txn := by
  intro h
  have hfirst : ({ accountsRequired := {Vector.replicate 32 1} } : TransactionPrefilter).Matches
      (minimalTxn {} {Vector.replicate 32 1}) :=
    { included := .inl (by decide +kernel)
      required := by simp
      excluded := by simp
      vote := fun v hv => by contradiction
      signature := fun s hs => by contradiction
      failed := fun f hf => by
        cases hf
        rfl }
  obtain ⟨part, hpart, hmatches⟩ := h _ ⟨_, List.mem_cons_self, _, rfl, hfirst⟩
  cases hpart
  have hrequired := hmatches.required
  rw [keySet_minimalTxn] at hrequired
  exact absurd hrequired (by decide +kernel)

end Shipstern.Runtime
