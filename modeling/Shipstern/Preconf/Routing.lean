import Mathlib
import Shipstern.Core.Base58
import Shipstern.Core.Subscription
import Shipstern.Lib.Fallible
import Shipstern.Preconf.Indexes
import Shipstern.Runtime.Builder

/-!
# From prefilters to the feed's filters

`filter.rs` turns the transaction prefilter of every parser into a filter of the feed, named by
the parser. The feed has no vote field, so the framer applies the votes to the names that the feed
echoes. Both together route a transaction to exactly the parsers whose prefilters match it.

A `HashMap` is given by its entries in the order in which it is traversed.
-/

open Std
open Shipstern.Core

namespace Shipstern.Preconf

open OrderedMap
open Shipstern.Runtime (Filters)

/-! ## The request -/

def maxFilters : Nat := 64

def maxAccounts : Nat := 10000

def maxFilterNameBytes : Nat := 64

/-- A prefilter the feed cannot express, named by its parser. -/
inductive FilterError
  | noTransactionFilters
  | tokenAccounts (parser : String)
  | noPositiveSelector (parser : String)
  | nameTooLong (parser : String) (len : Nat)
  | tooManyFilters (count : Nat)
  | tooManyAccounts (parser : String) (count : Nat)
deriving DecidableEq

/-- A filter of the feed. Keys are texts, and an empty list is no constraint. -/
structure TransactionFilter where
  accountInclude : List (List Char)
  accountExclude : List (List Char)
  accountRequired : List (List Char)
  signature : List String
  executionResults : List ExecutionResult
deriving DecidableEq

/-- The texts of the keys, sorted and each once. -/
def keyTexts (bs58 : Bs58) (keys : Finset Pubkey) : List (List Char) :=
  (keys.image (Pubkey.display bs58)).sort (· ≤ ·)

def list (bs58 : Bs58) (parser : String) (keys : Finset Pubkey) :
    Except FilterError (List (List Char)) :=
  let list := keyTexts bs58 keys
  if maxAccounts < list.length then .error (.tooManyAccounts parser list.length) else .ok list

/-- Unset means unknown on the feed, so only a list that is not empty excludes it. -/
def executionResults : Option Bool → List ExecutionResult
  | none => []
  | some false => [.success]
  | some true => [.executionFailure, .feesOnly]

def transactionFilter (bs58 : Bs58) (parser : String) (prefilter : TransactionPrefilter) :
    Except FilterError TransactionFilter :=
  if maxFilterNameBytes < parser.utf8ByteSize then
    .error (.nameTooLong parser parser.utf8ByteSize)
  else if prefilter.tokenAccounts.isSome then .error (.tokenAccounts parser)
  else do
    let accountInclude ← list bs58 parser
      (prefilter.accountsInclude ∪ prefilter.cuckooAccountsInclude.keys)
    let accountRequired ← list bs58 parser prefilter.accountsRequired
    let accountExclude ← list bs58 parser prefilter.accountsExclude
    let signature := prefilter.signature.toList
    if accountInclude.isEmpty && accountRequired.isEmpty && signature.isEmpty then
      .error (.noPositiveSelector parser)
    else
      .ok { accountInclude := accountInclude
            accountExclude := accountExclude
            accountRequired := accountRequired
            signature := signature
            executionResults := executionResults prefilter.failed }

/-- The parsers with a transaction prefilter. -/
def served (entries : List (String × Prefilter)) : List (String × TransactionPrefilter) :=
  entries.filterMap fun (parser, prefilter) => prefilter.transaction.map fun part => (parser, part)

/-- The feed filters by parser. -/
def transactions (bs58 : Bs58) (entries : List (String × Prefilter)) :
    Except FilterError (List (String × TransactionFilter)) := do
  let transactions ← (served entries).mapM fun (parser, prefilter) =>
    (transactionFilter bs58 parser prefilter).map fun filter => (parser, filter)
  if transactions.isEmpty then .error .noTransactionFilters
  else if maxFilters < transactions.length then .error (.tooManyFilters transactions.length)
  else .ok transactions

/-- The parsers with an explicit `vote` wish. -/
def voteRules (entries : List (String × Prefilter)) : ExtTreeMap String Bool compare :=
  filled (entries.filterMap fun (parser, prefilter) =>
    (prefilter.transaction.bind (·.vote)).map fun vote => (parser, vote))

/-! ## The feed -/

/-- A transaction as the feed matches it. -/
structure FeedView where
  accountKeys : Finset Pubkey
  /-- The first signature. -/
  signature : String
  result : Option ExecutionResult

/-- All lists have to match. -/
structure TransactionFilter.Matches (bs58 : Bs58) (filter : TransactionFilter) (view : FeedView) :
    Prop where
  included : filter.accountInclude = [] ∨
    ∃ key ∈ view.accountKeys, key.display bs58 ∈ filter.accountInclude
  required : ∀ text ∈ filter.accountRequired, ∃ key ∈ view.accountKeys, key.display bs58 = text
  excluded : ∀ key ∈ view.accountKeys, key.display bs58 ∉ filter.accountExclude
  signature : filter.signature = [] ∨ view.signature ∈ filter.signature
  result : filter.executionResults = [] ∨
    ∃ result ∈ view.result, result ∈ filter.executionResults

/-- The names of the filters that match, once each. -/
structure Echo (bs58 : Bs58) (feed : List (String × TransactionFilter)) (view : FeedView)
    (names : List String) : Prop where
  nodup : names.Nodup
  mem_iff : ∀ name, name ∈ names ↔ ∃ filter, (name, filter) ∈ feed ∧ filter.Matches bs58 view

/-- The names and the transaction of an update of either feed. -/
def FeedUpdate.transaction? : FeedUpdate → Option (List String × FeedTransaction)
  | .harmonic names (some (.transaction tx)) => some (names, tx)
  | .bam names (some (.transaction tx)) => some (names, tx)
  | _ => none

/-! ## What a request says -/

section Request

variable {bs58 : Bs58}

theorem mem_keyTexts {keys : Finset Pubkey} {text : List Char} :
    text ∈ keyTexts bs58 keys ↔ ∃ key ∈ keys, key.display bs58 = text := by
  rw [keyTexts, Finset.mem_sort, Finset.mem_image]

theorem display_mem_keyTexts (h58 : bs58.Lawful) {keys : Finset Pubkey} {key : Pubkey} :
    key.display bs58 ∈ keyTexts bs58 keys ↔ key ∈ keys := by
  rw [mem_keyTexts]
  constructor
  · rintro ⟨key', hkey', heq⟩
    exact Pubkey.display_injective h58 heq ▸ hkey'
  · intro hkey
    exact ⟨key, hkey, rfl⟩

theorem length_keyTexts (h58 : bs58.Lawful) (keys : Finset Pubkey) :
    (keyTexts bs58 keys).length = keys.card := by
  rw [keyTexts, Finset.length_sort]
  exact Finset.card_image_of_injective keys (Pubkey.display_injective h58)

theorem keyTexts_eq_nil {keys : Finset Pubkey} : keyTexts bs58 keys = [] ↔ keys = ∅ := by
  rw [List.eq_nil_iff_forall_not_mem, Finset.eq_empty_iff_forall_notMem]
  constructor
  · intro h key hkey
    exact h _ (mem_keyTexts.mpr ⟨key, hkey, rfl⟩)
  · intro h text htext
    obtain ⟨key, hkey, -⟩ := mem_keyTexts.mp htext
    exact h key hkey

/-- The feed filter of a prefilter. -/
def compiled (bs58 : Bs58) (prefilter : TransactionPrefilter) : TransactionFilter where
  accountInclude := keyTexts bs58 prefilter.includeKeys
  accountExclude := keyTexts bs58 prefilter.accountsExclude
  accountRequired := keyTexts bs58 prefilter.accountsRequired
  signature := prefilter.signature.toList
  executionResults := executionResults prefilter.failed

/-- The feed can express the prefilter of the parser. -/
structure Expressible (parser : String) (prefilter : TransactionPrefilter) : Prop where
  name : parser.utf8ByteSize ≤ maxFilterNameBytes
  owners : prefilter.tokenAccounts = none
  included : prefilter.includeKeys.card ≤ maxAccounts
  required : prefilter.accountsRequired.card ≤ maxAccounts
  excluded : prefilter.accountsExclude.card ≤ maxAccounts
  selector : prefilter.includeKeys ≠ ∅ ∨ prefilter.accountsRequired ≠ ∅ ∨ prefilter.signature ≠ none

theorem list_eq_ok (h58 : bs58.Lawful) {parser : String} {keys : Finset Pubkey}
    {texts : List (List Char)} :
    list bs58 parser keys = .ok texts ↔ keys.card ≤ maxAccounts ∧ texts = keyTexts bs58 keys := by
  rw [list, length_keyTexts h58]
  split
  next h => exact ⟨fun heq => (by cases heq), fun hand => absurd hand.1 (Nat.not_le_of_lt h)⟩
  next h =>
    rw [Except.ok.injEq, eq_comm]
    exact ⟨fun heq => ⟨Nat.le_of_not_lt h, heq⟩, And.right⟩

theorem selects_nothing_iff {prefilter : TransactionPrefilter} :
    ((keyTexts bs58 prefilter.includeKeys).isEmpty &&
      (keyTexts bs58 prefilter.accountsRequired).isEmpty &&
        prefilter.signature.toList.isEmpty) = true ↔
      ¬ (prefilter.includeKeys ≠ ∅ ∨ prefilter.accountsRequired ≠ ∅ ∨
        prefilter.signature ≠ none) := by
  have hsignature : prefilter.signature.toList = [] ↔ prefilter.signature = none := by
    cases prefilter.signature <;> simp
  simp only [Bool.and_eq_true, List.isEmpty_iff, keyTexts_eq_nil, hsignature, not_or, not_not,
    ne_eq, and_assoc]

theorem transactionFilter_eq_ok (h58 : bs58.Lawful) {parser : String}
    {prefilter : TransactionPrefilter} {filter : TransactionFilter} :
    transactionFilter bs58 parser prefilter = .ok filter ↔
      Expressible parser prefilter ∧ filter = compiled bs58 prefilter := by
  rw [transactionFilter]
  split
  next hname =>
    exact ⟨fun h => (by cases h), fun h => absurd h.1.name (Nat.not_le_of_lt hname)⟩
  next hname =>
    split
    next howners =>
      refine ⟨fun h => (by cases h), fun h => ?_⟩
      rw [h.1.owners] at howners
      cases howners
    next howners =>
      have hnone : prefilter.tokenAccounts = none := by
        simpa using howners
      constructor
      · intro h
        obtain ⟨accountInclude, hinclude, h⟩ := Fallible.bind_eq_ok.mp h
        obtain ⟨accountRequired, hrequired, h⟩ := Fallible.bind_eq_ok.mp h
        obtain ⟨accountExclude, hexclude, h⟩ := Fallible.bind_eq_ok.mp h
        obtain ⟨hincludeCard, rfl⟩ := (list_eq_ok h58).mp hinclude
        obtain ⟨hrequiredCard, rfl⟩ := (list_eq_ok h58).mp hrequired
        obtain ⟨hexcludeCard, rfl⟩ := (list_eq_ok h58).mp hexclude
        dsimp only at h
        split at h
        next => cases h
        next hselector =>
          cases h
          exact ⟨⟨Nat.le_of_not_lt hname, hnone, hincludeCard, hrequiredCard, hexcludeCard,
            not_not.mp fun hnot => hselector (selects_nothing_iff.mpr hnot)⟩, rfl⟩
      · rintro ⟨h, rfl⟩
        have hinclude : list bs58 parser
            (prefilter.accountsInclude ∪ prefilter.cuckooAccountsInclude.keys) =
              .ok (keyTexts bs58 prefilter.includeKeys) := (list_eq_ok h58).mpr ⟨h.included, rfl⟩
        rw [hinclude, (list_eq_ok h58).mpr ⟨h.required, rfl⟩,
          (list_eq_ok h58).mpr ⟨h.excluded, rfl⟩]
        exact if_neg fun hnothing => selects_nothing_iff.mp hnothing h.selector

/-- The filter of one parser under its name. -/
theorem namedFilter_eq_ok (h58 : bs58.Lawful) {entry : String × TransactionPrefilter}
    {filter : String × TransactionFilter} :
    (transactionFilter bs58 entry.1 entry.2).map (fun filter => (entry.1, filter)) = .ok filter ↔
      Expressible entry.1 entry.2 ∧ filter = (entry.1, compiled bs58 entry.2) := by
  rw [Fallible.map_eq_ok]
  constructor
  · rintro ⟨built, hbuilt, rfl⟩
    obtain ⟨hexpressible, rfl⟩ := (transactionFilter_eq_ok h58).mp hbuilt
    exact ⟨hexpressible, rfl⟩
  · rintro ⟨hexpressible, rfl⟩
    exact ⟨_, (transactionFilter_eq_ok h58).mpr ⟨hexpressible, rfl⟩, rfl⟩

theorem namedFilters_eq_ok (h58 : bs58.Lawful) {parsers : List (String × TransactionPrefilter)}
    {filters : List (String × TransactionFilter)} :
    parsers.mapM (fun (parser, prefilter) =>
      (transactionFilter bs58 parser prefilter).map fun filter => (parser, filter)) =
        .ok filters ↔
      (∀ parser part, (parser, part) ∈ parsers → Expressible parser part) ∧
        filters = parsers.map fun (parser, part) => (parser, compiled bs58 part) := by
  rw [Fallible.mapM_eq_ok]
  induction parsers generalizing filters with
  | nil => simp
  | cons entry rest ih =>
      rw [List.forall₂_cons_left_iff]
      constructor
      · rintro ⟨filter, filters, hfilter, hfilters, rfl⟩
        obtain ⟨hexpressible, rfl⟩ := (namedFilter_eq_ok h58).mp hfilter
        obtain ⟨hrest, rfl⟩ := ih.mp hfilters
        refine ⟨fun parser part hmem => ?_, rfl⟩
        rcases List.mem_cons.mp hmem with rfl | hmem
        · exact hexpressible
        · exact hrest parser part hmem
      · rintro ⟨hall, rfl⟩
        exact ⟨_, _,
          (namedFilter_eq_ok h58).mpr ⟨hall entry.1 entry.2 List.mem_cons_self, rfl⟩,
          ih.mpr ⟨fun parser part hmem => hall parser part (List.mem_cons_of_mem _ hmem), rfl⟩,
          rfl⟩

/-- A request is made if some parser is served, not too many are, and the feed can express the
prefilter of each; it then holds the filter of each. -/
theorem transactions_eq_ok (h58 : bs58.Lawful) {entries : List (String × Prefilter)}
    {feed : List (String × TransactionFilter)} :
    transactions bs58 entries = .ok feed ↔
      (served entries ≠ [] ∧ (served entries).length ≤ maxFilters ∧
        ∀ parser part, (parser, part) ∈ served entries → Expressible parser part) ∧
      feed = (served entries).map fun (parser, part) => (parser, compiled bs58 part) := by
  rw [transactions, Fallible.bind_eq_ok]
  constructor
  · rintro ⟨result, hresult, h⟩
    obtain ⟨hall, rfl⟩ := (namedFilters_eq_ok h58).mp hresult
    split at h
    next => cases h
    next hempty =>
      split at h
      next => cases h
      next hmany =>
        cases h
        rw [List.length_map] at hmany
        refine ⟨⟨fun hnil => hempty ?_, Nat.le_of_not_lt hmany, hall⟩, rfl⟩
        rw [hnil]
        rfl
  · rintro ⟨⟨hne, hle, hall⟩, rfl⟩
    refine ⟨_, (namedFilters_eq_ok h58).mpr ⟨hall, rfl⟩, ?_⟩
    have hempty : ¬ ((served entries).map fun (parser, part) =>
        (parser, compiled bs58 part)).isEmpty = true := by
      rw [List.isEmpty_iff, List.map_eq_nil_iff]
      exact hne
    have hmany : ¬ maxFilters < ((served entries).map fun (parser, part) =>
        (parser, compiled bs58 part)).length := by
      rw [List.length_map]
      exact Nat.not_lt.mpr hle
    rw [if_neg hempty, if_neg hmany]

end Request

/-! ## What the feed matches -/

section Matching

variable {bs58 : Bs58} {txn : TransactionEvent} {result : ExecutionResult}

/-- The feed's view of a transaction. -/
def viewOf (txn : TransactionEvent) (result : ExecutionResult) : FeedView where
  accountKeys := txn.accountKeys
  signature := txn.signature
  result := some result

/-- Success means not failed. -/
theorem executionResults_iff {failed : Option Bool}
    (hfailed : txn.failed = decide (result ≠ .success)) :
    (executionResults failed = [] ∨ ∃ r ∈ some result, r ∈ executionResults failed) ↔
      ∀ f ∈ failed, txn.failed = f := by
  rw [hfailed]
  cases failed with
  | none => simp [executionResults]
  | some wanted => cases wanted <;> cases result <;> simp [executionResults]

/-- The feed filter of a prefilter matches what the prefilter matches, up to the votes. -/
theorem compiled_matches_iff (h58 : bs58.Lawful) {prefilter : TransactionPrefilter}
    (howners : prefilter.tokenAccounts = none)
    (hfailed : txn.failed = decide (result ≠ .success)) :
    (compiled bs58 prefilter).Matches bs58 (viewOf txn result) ∧
        (∀ v ∈ prefilter.vote, txn.isVote = v) ↔ prefilter.Matches txn := by
  have hkeys : txn.keySet prefilter.tokenAccounts = txn.accountKeys := by
    rw [howners]
    rfl
  have hincluded : ((compiled bs58 prefilter).accountInclude = [] ∨
      ∃ key ∈ txn.accountKeys, key.display bs58 ∈ (compiled bs58 prefilter).accountInclude) ↔
      prefilter.includeKeys = ∅ ∨ ∃ key ∈ prefilter.includeKeys, key ∈ txn.accountKeys := by
    refine or_congr keyTexts_eq_nil (exists_congr fun key => ?_)
    rw [and_comm]
    exact and_congr_left fun _ => display_mem_keyTexts h58
  have hrequired : (∀ text ∈ (compiled bs58 prefilter).accountRequired,
      ∃ key ∈ txn.accountKeys, key.display bs58 = text) ↔
      prefilter.accountsRequired ⊆ txn.accountKeys := by
    constructor
    · intro h key hkey
      obtain ⟨key', hkey', heq⟩ := h _ ((display_mem_keyTexts h58).mpr hkey)
      exact Pubkey.display_injective h58 heq ▸ hkey'
    · intro h text htext
      obtain ⟨key, hkey, rfl⟩ := mem_keyTexts.mp htext
      exact ⟨key, h hkey, rfl⟩
  have hexcluded : (∀ key ∈ txn.accountKeys,
      key.display bs58 ∉ (compiled bs58 prefilter).accountExclude) ↔
      Disjoint prefilter.accountsExclude txn.accountKeys := by
    rw [Finset.disjoint_right]
    exact forall_congr' fun key => imp_congr_right fun _ =>
      not_congr (display_mem_keyTexts h58)
  have hsignature : ((compiled bs58 prefilter).signature = [] ∨
      txn.signature ∈ (compiled bs58 prefilter).signature) ↔
      ∀ s ∈ prefilter.signature, txn.signature = s := by
    show (prefilter.signature.toList = [] ∨ _ ∈ prefilter.signature.toList) ↔ _
    cases prefilter.signature <;> simp
  constructor
  · rintro ⟨h, hvote⟩
    exact ⟨hkeys ▸ hincluded.mp h.included, hkeys ▸ hrequired.mp h.required,
      hkeys ▸ hexcluded.mp h.excluded, hvote, hsignature.mp h.signature,
      (executionResults_iff hfailed).mp h.result⟩
  · intro h
    refine ⟨⟨hincluded.mpr (hkeys ▸ h.included), hrequired.mpr (hkeys ▸ h.required),
      hexcluded.mpr (hkeys ▸ h.excluded), hsignature.mpr h.signature,
      (executionResults_iff hfailed).mpr h.failed⟩, h.vote⟩

end Matching

/-! ## What the framer routes -/

section Framing

variable {codec : Codec} {framer : Framer}

/-- The echoed names that the vote rules leave. -/
def Framer.routed (framer : Framer) (names : List String) (isVote : Bool) : List String :=
  names.filter fun name => framer.voteRules[name]?.all fun wanted => wanted == isVote

/-- An update names the parsers that are left, and there is none if no parser is. -/
theorem transaction_filters {names : List String} {slot : Nat} {result : ExecutionResult}
    {bytes : List UInt8} {decoded : VersionedTransaction} {signature : List UInt8}
    (hdecode : codec.decode bytes = some decoded)
    (hsignature : decoded.signatures.head? = some signature) :
    ((framer.transaction codec names slot (some result) bytes).1.map (·.filters)) =
      if framer.routed names (codec.isVote decoded) = [] then none
      else some (framer.routed names (codec.isVote decoded)) := by
  simp only [Framer.transaction, hdecode, hsignature]
  have hrouted : (names.filter fun name => framer.voteRules[name]?.all fun wanted =>
      wanted == codec.isVote decoded) = framer.routed names (codec.isVote decoded) := rfl
  rw [hrouted]
  cases names with
  | nil => rfl
  | cons name names =>
      rw [if_neg (by simp)]
      cases framer.routed (name :: names) (codec.isVote decoded) with
      | nil => rfl
      | cons first rest => rfl

/-- What delivers nothing consumes no index. -/
theorem next_of_apply_none {update : FeedUpdate}
    (h : (framer.apply codec .source update).1 = none) {slot : Nat}
    (hslot : slot ∈ (framer.apply codec .source update).2.frames) :
    ((framer.apply codec .source update).2.frameAt slot).next = (framer.frameAt slot).next := by
  obtain ⟨-, counts, hquiet⟩ | ⟨named, -, e, advances, heffect⟩ :=
    apply_cases codec framer.voteRules update
  · rw [hquiet] at hslot ⊢
    have hkept : (framer.settle .source false 0).frameAt slot = framer.frameAt slot :=
      Framer.frameAt_of_mem_settle hslot
    exact congrArg Frame.next hkept
  · rw [heffect _ _ rfl] at h hslot ⊢
    rw [Framer.frameAt_of_mem_settle hslot, e.frameAt_run]
    split
    next heq =>
      rw [heq]
      exact e.dropped _ h
    next => rfl

/-- Both feeds hand the transaction on under the same vote rules. -/
theorem apply_filters {update : FeedUpdate} {names : List String} {tx : FeedTransaction}
    (htx : update.transaction? = some (names, tx)) {result : ExecutionResult}
    (hresult : tx.executionResult = some result) {decoded : VersionedTransaction}
    (hdecode : codec.decode tx.transaction = some decoded) {signature : List UInt8}
    (hsignature : decoded.signatures.head? = some signature) :
    ((framer.apply codec .source update).1.map (·.filters)) =
      if framer.routed names (codec.isVote decoded) = [] then none
      else some (framer.routed names (codec.isVote decoded)) := by
  cases update with
  | harmonic names' payload =>
      obtain - | ⟨tx' | _ | _ | _ | _⟩ := payload <;> cases htx
      simp only [Framer.apply, Framer.harmonic, hresult]
      exact transaction_filters hdecode hsignature
  | bam names' payload =>
      obtain - | ⟨tx' | _ | _⟩ := payload <;> cases htx
      simp only [Framer.apply, Framer.bam, hresult]
      exact @transaction_filters codec (framer.setFrame tx.slot _) _ _ _ _ _ _ hdecode hsignature

end Framing

/-! ## Routing -/

section Routing

variable {bs58 : Bs58} {entries : List (String × Prefilter)}

/-- The parser has a transaction prefilter that accepts the transaction. -/
def Accepts (filters : Filters) (txn : TransactionEvent) (parser : String) : Prop :=
  ∃ prefilter, filters.get parser = some prefilter ∧ prefilter.MatchesTransaction txn

theorem mem_served {parser : String} {part : TransactionPrefilter} :
    (parser, part) ∈ served entries ↔
      ∃ prefilter, (parser, prefilter) ∈ entries ∧ prefilter.transaction = some part := by
  rw [served, List.mem_filterMap]
  constructor
  · rintro ⟨⟨name, prefilter⟩, hmem, hpart⟩
    obtain ⟨part', hpart', heq⟩ := Option.map_eq_some_iff.mp hpart
    cases heq
    exact ⟨prefilter, hmem, hpart'⟩
  · rintro ⟨prefilter, hmem, hpart⟩
    exact ⟨(parser, prefilter), hmem, by simp only [hpart, Option.map_some]⟩

/-- The vote rule of a served parser is its wish. -/
theorem voteRules_get (hdistinct : (entries.map Prod.fst).Nodup) {parser : String}
    {part : TransactionPrefilter} (h : (parser, part) ∈ served entries) :
    (voteRules entries)[parser]? = part.vote := by
  obtain ⟨prefilter, hmem, hpart⟩ := mem_served.mp h
  have hsub : ((entries.filterMap fun (parser, prefilter) =>
      (prefilter.transaction.bind (·.vote)).map fun vote => (parser, vote)).map Prod.fst).Sublist
        (entries.map Prod.fst) := by
    clear hdistinct h hmem
    induction entries with
    | nil => exact List.Sublist.refl _
    | cons entry entries ih =>
        obtain ⟨parser, prefilter⟩ := entry
        cases hvote : prefilter.transaction.bind (·.vote) with
        | none =>
            simp only [List.filterMap_cons, hvote, Option.map_none]
            exact ih.cons _
        | some vote =>
            simp only [List.filterMap_cons, hvote, Option.map_some]
            exact ih.cons_cons _
  refine Option.ext fun vote => ?_
  rw [voteRules, getElem?_filled (hdistinct.sublist hsub), List.mem_filterMap]
  constructor
  · rintro ⟨⟨name, other⟩, hother, hvote⟩
    obtain ⟨vote', hvote', heq⟩ := Option.map_eq_some_iff.mp hvote
    cases heq
    have hsame : other = prefilter := by
      have hpair := List.inj_on_of_nodup_map hdistinct hother hmem rfl
      exact congrArg Prod.snd hpair
    simpa only [hsame, hpart, Option.bind_some] using hvote'
  · intro hvote
    exact ⟨(parser, prefilter), hmem, by
      simp only [hpart, Option.bind_some, hvote, Option.map_some]⟩

/-- The names left of an echo are the parsers that accept the transaction. -/
theorem mem_routed (h58 : bs58.Lawful) (filters : Filters)
    (hentries : entries.Perm filters.parsersFilters.toList) {feed : List (String × TransactionFilter)}
    (hfeed : transactions bs58 entries = .ok feed) {txn : TransactionEvent}
    {result : ExecutionResult} (hfailed : txn.failed = decide (result ≠ .success))
    {names : List String} (hecho : Echo bs58 feed (viewOf txn result) names) {framer : Framer}
    (hrules : framer.voteRules = voteRules entries) (parser : String) :
    parser ∈ framer.routed names txn.isVote ↔ Accepts filters txn parser := by
  have hdistinct : (entries.map Prod.fst).Nodup := by
    rw [(hentries.map Prod.fst).nodup_iff, ExtTreeMap.map_fst_toList_eq_keys]
    exact nodup_keys _
  obtain ⟨⟨-, -, hexpressible⟩, rfl⟩ := (transactions_eq_ok h58).mp hfeed
  have hvote : ∀ part, (parser, part) ∈ served entries →
      (((voteRules entries)[parser]?.all fun wanted => wanted == txn.isVote) = true ↔
        ∀ v ∈ part.vote, txn.isVote = v) := by
    intro part hpart
    rw [voteRules_get hdistinct hpart]
    cases part.vote with
    | none => exact ⟨fun _ v hv => (by cases hv), fun _ => rfl⟩
    | some wanted =>
        constructor
        · intro h v hv
          cases hv
          exact (beq_iff_eq.mp h).symm
        · intro h
          exact beq_iff_eq.mpr (h wanted rfl).symm
  rw [Framer.routed, hrules, List.mem_filter, hecho.mem_iff, Accepts]
  constructor
  · rintro ⟨⟨filter, hfilter, hmatches⟩, hwanted⟩
    obtain ⟨⟨name, part⟩, hpart, heq⟩ := List.mem_map.mp hfilter
    cases heq
    obtain ⟨prefilter, hmem, htransaction⟩ := mem_served.mp hpart
    have howners := (hexpressible parser part hpart).owners
    refine ⟨prefilter, ?_, part, htransaction, (compiled_matches_iff h58 howners hfailed).mp
      ⟨hmatches, (hvote part hpart).mp hwanted⟩⟩
    exact ExtTreeMap.mem_toList_iff_getElem?_eq_some.mp (hentries.mem_iff.mp hmem)
  · rintro ⟨prefilter, hget, part, htransaction, hmatches⟩
    have hmem : (parser, prefilter) ∈ entries :=
      hentries.mem_iff.mpr (ExtTreeMap.mem_toList_iff_getElem?_eq_some.mpr hget)
    have hpart : (parser, part) ∈ served entries := mem_served.mpr ⟨prefilter, hmem, htransaction⟩
    have howners := (hexpressible parser part hpart).owners
    obtain ⟨hfeedMatches, hwanted⟩ := (compiled_matches_iff h58 howners hfailed).mpr hmatches
    exact ⟨⟨_, List.mem_map.mpr ⟨(parser, part), hpart, rfl⟩, hfeedMatches⟩,
      (hvote part hpart).mpr hwanted⟩

/-- A request that can be made routes every transaction to exactly the parsers that accept it, in
every state of a stream; a transaction that none accepts is dropped without using up an index. A
request is refused if no parser is served, too many are, or the feed cannot express the prefilter
of one of them. -/
theorem routing_equals_prefilters (h58 : bs58.Lawful) (codec : Codec) (filters : Filters)
    (hentries : entries.Perm filters.parsersFilters.toList) :
    (∀ feed, transactions bs58 entries = .ok feed →
      ∀ (calls : List Call) (update : FeedUpdate) (names : List String) (tx : FeedTransaction)
        (decoded : VersionedTransaction) (signature : List UInt8) (result : ExecutionResult)
        (txn : TransactionEvent),
        update.transaction? = some (names, tx) → tx.executionResult = some result →
        codec.decode tx.transaction = some decoded →
        decoded.signatures.head? = some signature →
        txn.signature = String.ofList (bs58.encode signature) →
        txn.isVote = codec.isVote decoded → txn.failed = decide (result ≠ .success) →
        Echo bs58 feed (viewOf txn result) names →
          let framer := Framer.run codec .source (voteRules entries) calls
          let (delivered, after) := framer.apply codec .source update
          ((∃ parser, Accepts filters txn parser) → ∃ routed, delivered = some routed ∧
            routed.filters.Nodup ∧ ∀ parser, parser ∈ routed.filters ↔ Accepts filters txn parser) ∧
          ((¬ ∃ parser, Accepts filters txn parser) → delivered = none ∧
            ∀ slot ∈ after.frames, (after.frameAt slot).next = (framer.frameAt slot).next)) ∧
    ((∃ feed, transactions bs58 entries = .ok feed) ↔
      (∃ parser prefilter part, filters.get parser = some prefilter ∧
        prefilter.transaction = some part) ∧
      (served entries).length ≤ maxFilters ∧
      ∀ parser prefilter part, filters.get parser = some prefilter →
        prefilter.transaction = some part → Expressible parser part) := by
  refine ⟨?_, ?_⟩
  · intro feed hfeed calls update names tx decoded signature result txn htx hresult hdecode
      hsignature _ hvote hfailed hecho framer
    have hrules : framer.voteRules = voteRules entries := Framer.voteRules_run _ calls
    have hmem := mem_routed h58 filters hentries hfeed hfailed hecho hrules
    have hdelivered := @apply_filters codec framer _ _ _ htx _ hresult _ hdecode _ hsignature
    rw [← hvote] at hdelivered
    refine ⟨fun ⟨parser, haccepts⟩ => ?_, fun hnone => ?_⟩
    · have hne : framer.routed names txn.isVote ≠ [] :=
        List.ne_nil_of_mem ((hmem parser).mpr haccepts)
      rw [if_neg hne] at hdelivered
      obtain ⟨routed, hrouted, hnames⟩ := Option.map_eq_some_iff.mp hdelivered
      refine ⟨routed, hrouted, ?_, ?_⟩
      · rw [hnames]
        exact hecho.nodup.filter _
      · rw [hnames]
        exact hmem
    · have hnil : framer.routed names txn.isVote = [] :=
        List.eq_nil_iff_forall_not_mem.mpr fun parser h => hnone ⟨parser, (hmem parser).mp h⟩
      rw [if_pos hnil, Option.map_eq_none_iff] at hdelivered
      exact ⟨hdelivered, fun slot hslot => next_of_apply_none hdelivered hslot⟩
  · have hget : ∀ parser part, (parser, part) ∈ served entries ↔ ∃ prefilter,
        filters.get parser = some prefilter ∧ prefilter.transaction = some part := by
      intro parser part
      rw [mem_served]
      refine exists_congr fun prefilter => and_congr_left fun _ => ?_
      rw [hentries.mem_iff, ExtTreeMap.mem_toList_iff_getElem?_eq_some]
      rfl
    constructor
    · rintro ⟨feed, hfeed⟩
      obtain ⟨⟨hne, hle, hall⟩, -⟩ := (transactions_eq_ok h58).mp hfeed
      obtain ⟨⟨parser, part⟩, hmem⟩ := List.exists_mem_of_ne_nil _ hne
      obtain ⟨prefilter, hprefilter, hpart⟩ := (hget parser part).mp hmem
      exact ⟨⟨parser, prefilter, part, hprefilter, hpart⟩, hle, fun parser prefilter part h h' =>
        hall parser part ((hget parser part).mpr ⟨prefilter, h, h'⟩)⟩
    · rintro ⟨⟨parser, prefilter, part, hprefilter, hpart⟩, hle, hall⟩
      refine ⟨_, (transactions_eq_ok h58).mpr ⟨⟨List.ne_nil_of_mem ((hget parser part).mpr
        ⟨prefilter, hprefilter, hpart⟩), hle, fun parser part hmem => ?_⟩, rfl⟩⟩
      obtain ⟨prefilter, h, h'⟩ := (hget parser part).mp hmem
      exact hall parser prefilter part h h'

end Routing

/-! ## Two parsers of one key that differ in their votes -/

namespace Trader

def key : Pubkey := .replicate 32 7

def part : TransactionPrefilter := { accountsInclude := {key}, vote := some false }

def votePart : TransactionPrefilter := { accountsInclude := {key}, vote := some true }

def entries : List (String × Prefilter) :=
  [("trader", { transaction := some part }), ("voter", { transaction := some votePart })]

def filters : Filters := ⟨filled entries⟩

def decoded : VersionedTransaction where
  signatures := [List.replicate 64 1]
  message := .legacy ⟨⟨1, 0, 0⟩, [key], []⟩

/-- One transaction, which is no vote. -/
def codec : Codec where
  deserializeExact bytes := if bytes = [1] then some decoded else none
  isSimpleVoteTransactionImpl _ _ _ := false

def tx : FeedTransaction := ⟨5, some .success, [1]⟩

/-- What the framer has seen before: a delivery, a drop of the stream and the start of the slot. -/
def earlier : List Call :=
  [.apply (.bam ["trader", "voter"] (some (.transaction ⟨4, some .success, [1]⟩))), .reconnected,
    .apply (.harmonic [] (some (.slotStart 5)))]

def txn : TransactionEvent where
  accountKeys := {key}
  owners := ∅
  changedOwners := ∅
  changedOwners_subset := noChangedOwners
  isVote := false
  failed := false
  signature := String.ofList (Bs58.bitcoin.encode (List.replicate 64 1))

theorem matches_txn : part.Matches txn where
  included := .inr ⟨key, by decide, by decide⟩
  required := Finset.empty_subset _
  excluded := Finset.disjoint_empty_left _
  vote v hv := by
    cases hv
    rfl
  signature _ hs := by cases hs
  failed f hf := by
    cases hf
    rfl

theorem get_entries (parser : String) (prefilter : Prefilter) :
    filters.get parser = some prefilter ↔ (parser, prefilter) ∈ entries :=
  getElem?_filled (by decide) parser prefilter

theorem accepts : Accepts filters txn "trader" :=
  ⟨_, (get_entries _ _).mpr List.mem_cons_self, part, rfl, matches_txn⟩

theorem not_accepts : ¬ Accepts filters txn "voter" := by
  rintro ⟨prefilter, hget, voted, hpart, hmatches⟩
  have hmem := (get_entries _ _).mp hget
  obtain rfl : prefilter = { transaction := some votePart } := by
    simpa [entries] using hmem
  cases hpart
  cases hmatches.vote true rfl

theorem expressible {parser : String} {prefilter : Prefilter} {served : TransactionPrefilter}
    (hmem : (parser, prefilter) ∈ entries) (hpart : prefilter.transaction = some served) :
    Expressible parser served := by
  obtain hentry | hentry : (parser, prefilter) = ("trader", { transaction := some part }) ∨
      (parser, prefilter) = ("voter", { transaction := some votePart }) := by
    simpa [entries] using hmem
  · cases hentry
    cases hpart
    exact ⟨by decide, rfl, by decide, by decide, by decide, .inl (by decide)⟩
  · cases hentry
    cases hpart
    exact ⟨by decide, rfl, by decide, by decide, by decide, .inl (by decide)⟩

/-- The feed has no votes: both parsers have the same filter. -/
def feed : List (String × TransactionFilter) :=
  [("trader", compiled Bs58.bitcoin part), ("voter", compiled Bs58.bitcoin part)]

theorem transactions_entries : transactions Bs58.bitcoin entries = .ok feed := by
  refine (transactions_eq_ok Bs58.bitcoin_lawful).mpr ⟨⟨List.cons_ne_nil _ _, by decide, ?_⟩, rfl⟩
  intro parser served hmem
  obtain ⟨prefilter, hentry, hpart⟩ := mem_served.mp hmem
  exact expressible hentry hpart

theorem echo : Echo Bs58.bitcoin feed (viewOf txn .success) ["trader", "voter"] where
  nodup := by decide
  mem_iff name := by
    have hmatches : (compiled Bs58.bitcoin part).Matches Bs58.bitcoin (viewOf txn .success) :=
      ((compiled_matches_iff Bs58.bitcoin_lawful rfl rfl).mpr matches_txn).1
    constructor
    · intro hname
      obtain rfl | rfl : name = "trader" ∨ name = "voter" := by simpa using hname
      · exact ⟨_, List.mem_cons_self, hmatches⟩
      · exact ⟨_, List.mem_cons_of_mem _ List.mem_cons_self, hmatches⟩
    · rintro ⟨filter, hmem, -⟩
      exact List.mem_map_of_mem (f := Prod.fst) hmem

end Trader

theorem routing_equals_prefilters_trader :
    (∃ routed, ((Framer.run Trader.codec .source (voteRules Trader.entries) Trader.earlier).apply
      Trader.codec .source (.bam ["trader", "voter"] (some (.transaction Trader.tx)))).1 =
        some routed ∧ "trader" ∈ routed.filters ∧ "voter" ∉ routed.filters) ∧
    ∃ feed, transactions Bs58.bitcoin Trader.entries = .ok feed := by
  have hentries : Trader.entries.Perm Trader.filters.parsersFilters.toList :=
    (toList_filled_perm (by decide)).symm
  have h := routing_equals_prefilters Bs58.bitcoin_lawful Trader.codec Trader.filters hentries
  constructor
  · obtain ⟨routed, hrouted, -, hmem⟩ := (h.1 _ Trader.transactions_entries Trader.earlier
      (.bam ["trader", "voter"] (some (.transaction Trader.tx))) ["trader", "voter"] Trader.tx
      Trader.decoded (List.replicate 64 1) .success Trader.txn rfl rfl rfl rfl rfl rfl rfl
      Trader.echo).1 ⟨"trader", Trader.accepts⟩
    exact ⟨routed, hrouted, (hmem "trader").mpr Trader.accepts,
      fun hvoter => Trader.not_accepts ((hmem "voter").mp hvoter)⟩
  · exact h.2.mpr ⟨⟨"trader", _, Trader.part, (Trader.get_entries _ _).mpr List.mem_cons_self,
      rfl⟩, by decide, fun parser prefilter part hget hpart =>
        Trader.expressible ((Trader.get_entries parser prefilter).mp hget) hpart⟩

end Shipstern.Preconf
