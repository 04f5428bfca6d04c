import Shipstern.Core.Subscription
import Shipstern.Lib.Join

/-!
# Merging prefilters is a join

Every field of a prefilter is merged by a join of its own: the key sets by union, the values
that both sides have to agree on by `Join.agree`, the flags by conjunction or disjunction. The
excluded keys are merged together with the token mode. The filter lists are joined up to order,
and so are the prefilters.
-/

namespace Shipstern.Core

open Join

/-! ## The joins of the fields -/

theorem laws_union : Laws Eq fun s t : Finset Pubkey => s ∪ t :=
  .of_eq Finset.union_idempotent Finset.union_comm Finset.union_assoc

theorem laws_cuckoo : Laws Eq CuckooAccounts.merge := by
  refine .of_eq ?_ ?_ ?_
  · rintro ⟨keys⟩
    exact congrArg CuckooAccounts.mk (Finset.union_idempotent keys)
  · rintro ⟨keys⟩ ⟨keys'⟩
    exact congrArg CuckooAccounts.mk (Finset.union_comm keys keys')
  · rintro ⟨keys⟩ ⟨keys'⟩ ⟨keys''⟩
    exact congrArg CuckooAccounts.mk (Finset.union_assoc keys keys' keys'')

/-- The value of both sides, or none when they differ. -/
def agreed {α : Type} [DecidableEq α] (a b : Option α) : Option α := if a ≠ b then none else a

theorem laws_agreed (α : Type) [DecidableEq α] :
    Laws Eq fun a b : Option α => agreed a b := by
  have hagree : (fun a b : Option α => agreed a b) = agree (fun a b => decide (a = b)) none := by
    funext a b
    by_cases hab : a = b
    · simp [agreed, agree, hab]
    · simp [agreed, agree, hab]
  rw [hagree]
  exact .agree ⟨fun _ => rfl, Eq.symm, Eq.trans⟩ (fun a b => decide_eq_true_iff) none

theorem laws_or : Laws Eq or := .of_eq Bool.or_self Bool.or_comm Bool.or_assoc

theorem laws_and : Laws Eq and := .of_eq Bool.and_self Bool.and_comm Bool.and_assoc

/-! ## Filter lists as multisets -/

/-- Discounting never meets an unknown filter when every filter of the list was counted. -/
theorem discountFilters_isSome {filters : List AccountFilter}
    {counts : AccountFilter → Option Int} (h : ∀ f ∈ filters, (counts f).isSome = true) :
    (discountFilters counts filters).isSome = true := by
  induction filters generalizing counts with
  | nil => rfl
  | cons f filters ih =>
      rw [List.forall_mem_cons] at h
      obtain ⟨count, hcount⟩ := Option.isSome_iff_exists.mp h.1
      rw [discountFilters, hcount]
      refine ih fun g hg => ?_
      by_cases hfg : g = f
      · simp [hfg]
      · rw [Function.update_of_ne hfg]
        exact h.2 g hg

theorem sameAccountFilters_iff_perm {lhs rhs : List AccountFilter} :
    sameAccountFilters lhs rhs = true ↔ lhs.Perm rhs := by
  constructor
  · intro h
    have hlength : lhs.length = rhs.length := by
      by_contra hne
      simp [sameAccountFilters, hne] at h
    refine List.Subperm.perm_of_length_le ?_ hlength.ge
    rw [List.subperm_ext_iff]
    exact fun f hf => (count_eq_of_sameAccountFilters h f hf).le
  · intro hperm
    have hcounted : (discountFilters (countFilters lhs) rhs).isSome = true := by
      refine discountFilters_isSome fun f hf => ?_
      rw [countFilters_eq, if_pos (hperm.mem_iff.mpr hf)]
      rfl
    obtain ⟨counts, hcounts⟩ := Option.isSome_iff_exists.mp hcounted
    rw [sameAccountFilters, if_neg (by simp [hperm.length_eq]), hcounts]
    simp only [List.all_eq_true, decide_eq_true_eq]
    intro f hf
    rw [discountFilters_eq hcounts, countFilters_eq, if_pos hf, Option.map_some,
      hperm.count_eq f, Int.sub_self]

theorem laws_filters : Laws List.Perm (agree sameAccountFilters []) :=
  .agree ⟨List.Perm.refl, List.Perm.symm, List.Perm.trans⟩
    (fun _ _ => sameAccountFilters_iff_perm) []

/-! ## Accounts -/

/-- The same prefilter up to the order of the comparisons, which the server ANDs. -/
structure AccountPrefilter.Equiv (a b : AccountPrefilter) : Prop where
  accounts : a.accounts = b.accounts
  owners : a.owners = b.owners
  filters : a.filters.Perm b.filters
  nonemptyTxnSignature : a.nonemptyTxnSignature = b.nonemptyTxnSignature
  cuckooAccounts : a.cuckooAccounts = b.cuckooAccounts

theorem laws_account : Laws AccountPrefilter.Equiv AccountPrefilter.merge := by
  have hfields := laws_union.prod (laws_union.prod (laws_filters.prod
    ((laws_agreed Bool).prod laws_cuckoo)))
  refine (hfields.comap (fun a : AccountPrefilter =>
    (a.accounts, a.owners, a.filters, a.nonemptyTxnSignature, a.cuckooAccounts)) ?_).congr_rel ?_
  · intro a b
    have hfilters : (a.merge b).filters = agree sameAccountFilters [] a.filters b.filters := by
      cases hsame : sameAccountFilters a.filters b.filters with
      | false => simp [AccountPrefilter.merge, agree, hsame]
      | true => simp [AccountPrefilter.merge, agree, hsame]
    rw [hfilters]
    rfl
  · intro a b
    constructor
    · rintro ⟨h1, h2, h3, h4, h5⟩
      exact ⟨h1, h2, h3, h4, h5⟩
    · rintro ⟨h1, h2, h3, h4, h5⟩
      exact ⟨h1, h2, h3, h4, h5⟩

/-! ## Transactions -/

theorem tokenAccounts_merge_eq_left {a b : Option TokenAccounts} (h : a = b) :
    TokenAccounts.merge a b = a := by
  simp [TokenAccounts.merge, h]

/-- The token mode with the excluded keys, which a disagreement on the mode clears. -/
def mergeExclude (x y : Option TokenAccounts × Finset Pubkey) :
    Option TokenAccounts × Finset Pubkey :=
  (TokenAccounts.merge x.1 y.1,
    if x.1 ≠ y.1 then ∅ else x.2.filter (· ∈ y.2))

theorem laws_tokenAccounts : Laws Eq TokenAccounts.merge := by
  refine .of_eq ?_ ?_ ?_
  · intro a
    exact tokenAccounts_merge_eq_left rfl
  · rintro (_ | _ | _) (_ | _ | _) <;> rfl
  · rintro (_ | _ | _) (_ | _ | _) (_ | _ | _) <;> rfl

theorem laws_exclude : Laws Eq mergeExclude := by
  refine .of_eq ?_ ?_ ?_
  · rintro ⟨mode, keys⟩
    simp [mergeExclude, tokenAccounts_merge_eq_left]
  · rintro ⟨mode, keys⟩ ⟨mode', keys'⟩
    refine Prod.ext (laws_tokenAccounts.comm mode mode') ?_
    by_cases hmode : mode = mode'
    · subst hmode
      ext key
      simp [mergeExclude, and_comm]
    · simp [mergeExclude, hmode, Ne.symm hmode]
  · rintro ⟨mode, keys⟩ ⟨mode', keys'⟩ ⟨mode'', keys''⟩
    refine Prod.ext (laws_tokenAccounts.assoc mode mode' mode'') ?_
    -- The keys survive only where the three modes are the same.
    by_cases hfirst : mode = mode'
    · subst hfirst
      by_cases hlast : mode = mode''
      · subst hlast
        ext key
        simp [mergeExclude, tokenAccounts_merge_eq_left, and_assoc]
      · simp [mergeExclude, tokenAccounts_merge_eq_left, hlast]
    · by_cases hlast : mode' = mode''
      · subst hlast
        simp [mergeExclude, tokenAccounts_merge_eq_left, hfirst]
      · simp [mergeExclude, hfirst, hlast]

theorem laws_transaction : Laws Eq TransactionPrefilter.merge := by
  have hfields := laws_union.prod (laws_union.prod (laws_exclude.prod ((laws_agreed Bool).prod
    ((laws_agreed String).prod ((laws_agreed Bool).prod laws_cuckoo)))))
  refine (hfields.comap (fun a : TransactionPrefilter =>
    (a.accountsInclude, a.accountsRequired, (a.tokenAccounts, a.accountsExclude), a.vote,
      a.signature, a.failed, a.cuckooAccountsInclude)) ?_).congr_rel ?_
  · intro a b
    rw [TransactionPrefilter.merge_failed]
    rfl
  · rintro ⟨i, r, e, v, s, t, f, c⟩ ⟨i', r', e', v', s', t', f', c'⟩
    simp only [Prod.mk.injEq, TransactionPrefilter.mk.injEq]
    tauto

/-! ## Blocks and slots -/

theorem rel_eq_iff {α : Type} {a b : Option α} : Option.Rel Eq a b ↔ a = b := by
  constructor
  · rintro (⟨rfl⟩ | _)
    · rfl
    · rfl
  · rintro rfl
    cases a with
    | none => exact .none
    | some a => exact .some rfl

theorem laws_blockMeta : Laws Eq BlockMetaPrefilter.merge :=
  .of_eq (fun _ => rfl) (fun _ _ => rfl) fun _ _ _ => rfl

theorem laws_block : Laws Eq BlockPrefilter.merge := by
  have hfields := laws_union.prod (laws_cuckoo.prod (laws_or.prod (laws_or.prod laws_or)))
  refine (hfields.comap (fun a : BlockPrefilter =>
    (a.accountsInclude, a.cuckooAccountsInclude, a.includeAccounts, a.includeTransactions,
      a.includeEntries)) fun _ _ => rfl).congr_rel ?_
  rintro ⟨k, t, a, e, c⟩ ⟨k', t', a', e', c'⟩
  simp only [BlockPrefilter.mk.injEq]
  tauto

theorem laws_slot : Laws Eq SlotPrefilter.merge := by
  have hinterslot : Laws Eq (Option.merge or) := laws_or.option.congr_rel fun _ _ => rel_eq_iff
  refine ((laws_and.prod hinterslot).comap
    (fun a : SlotPrefilter => (a.filterByCommitment, a.interslotUpdates)) ?_).congr_rel ?_
  · rintro ⟨commitment, _ | a⟩ ⟨commitment', _ | b⟩ <;> rfl
  · rintro ⟨commitment, interslot⟩ ⟨commitment', interslot'⟩
    simp only [SlotPrefilter.mk.injEq]

/-! ## Prefilters -/

theorem mergeOpt_eq {α : Type} (merge : α → α → α) : mergeOpt merge = Option.merge merge := by
  funext a b
  cases a <;> cases b <;> rfl

/-- The same prefilter up to the order of its account comparisons. -/
structure Prefilter.Equiv (p q : Prefilter) : Prop where
  account : Option.Rel AccountPrefilter.Equiv p.account q.account
  transaction : p.transaction = q.transaction
  blockMeta : p.blockMeta = q.blockMeta
  block : p.block = q.block
  slot : p.slot = q.slot

theorem laws_part {α : Type} {merge : α → α → α} (h : Laws Eq merge) : Laws Eq (mergeOpt merge) := by
  rw [mergeOpt_eq]
  exact h.option.congr_rel fun _ _ => rel_eq_iff

theorem laws_prefilter : Laws Prefilter.Equiv Prefilter.merge := by
  have haccount : Laws (Option.Rel AccountPrefilter.Equiv) (mergeOpt AccountPrefilter.merge) := by
    rw [mergeOpt_eq]
    exact laws_account.option
  have hfields := haccount.prod ((laws_part laws_transaction).prod ((laws_part laws_blockMeta).prod
    ((laws_part laws_block).prod (laws_part laws_slot))))
  refine (hfields.comap (fun p : Prefilter =>
    (p.account, p.transaction, p.blockMeta, p.block, p.slot)) fun _ _ => rfl).congr_rel ?_
  intro p q
  exact ⟨fun ⟨h1, h2, h3, h4, h5⟩ => ⟨h1, h2, h3, h4, h5⟩,
    fun ⟨h1, h2, h3, h4, h5⟩ => ⟨h1, h2, h3, h4, h5⟩⟩

namespace Prefilter

theorem empty_merge (p : Prefilter) : ({} : Prefilter).merge p = p := rfl

theorem merge_empty (p : Prefilter) : p.merge {} = p := by
  have hpart : ∀ {α : Type} (merge : α → α → α) (a : Option α), mergeOpt merge a none = a := by
    intro α merge a
    cases a <;> rfl
  simp only [merge, hpart]

theorem fromIter_eq_foldl (prefilters : List Prefilter) :
    fromIter prefilters = prefilters.foldl merge {} := by
  cases prefilters with
  | nil => rfl
  | cons first rest => rw [List.foldl_cons, empty_merge, fromIter]

/-- Merging is idempotent, commutative and associative up to the order of the account
comparisons, with the empty prefilter as identity. So neither the order nor the grouping of
some parsers changes their combined prefilter, and two lists of comparisons count as the same
exactly if they are the same multiset. -/
theorem merge_semilattice :
    (∀ a : Prefilter, (a.merge a).Equiv a) ∧
    (∀ a b : Prefilter, (a.merge b).Equiv (b.merge a)) ∧
    (∀ a b c : Prefilter, ((a.merge b).merge c).Equiv (a.merge (b.merge c))) ∧
    (∀ a : Prefilter, ({} : Prefilter).merge a = a ∧ a.merge {} = a) ∧
    (∀ ps qs : List Prefilter, ps.Perm qs → (fromIter ps).Equiv (fromIter qs)) ∧
    (∀ (t : Grouping Prefilter) (ps : List Prefilter), t.leaves.Perm ps →
      (t.eval merge).Equiv (fromIter ps)) ∧
    ∀ lhs rhs : List AccountFilter, sameAccountFilters lhs rhs = true ↔ lhs.Perm rhs := by
  refine ⟨laws_prefilter.idem, laws_prefilter.comm, laws_prefilter.assoc,
    fun a => ⟨empty_merge a, merge_empty a⟩, ?_, ?_, fun _ _ => sameAccountFilters_iff_perm⟩
  · intro ps qs hperm
    rw [fromIter_eq_foldl, fromIter_eq_foldl]
    exact laws_prefilter.foldl_perm hperm {}
  · intro t ps hperm
    rw [fromIter_eq_foldl]
    exact laws_prefilter.equivalence.trans
      (t.eval_foldl laws_prefilter empty_merge merge_empty)
      (laws_prefilter.foldl_perm hperm {})

theorem merge_semilattice_of_tokenModes :
    (fromIter tokenModes.reverse).Equiv (fromIter tokenModes) ∧
      ∀ p q r : Prefilter, (p.merge (q.merge r)).Equiv (fromIter [q, r, p]) := by
  obtain ⟨-, -, -, -, horder, hgrouping, -⟩ := merge_semilattice
  refine ⟨horder _ _ (List.reverse_perm _), fun p q r => ?_⟩
  have hleaves : ([p] ++ ([q] ++ [r])).Perm [q, r, p] := List.perm_append_comm
  exact hgrouping (.both (.single p) (.both (.single q) (.single r))) _ hleaves

end Prefilter

end Shipstern.Core
