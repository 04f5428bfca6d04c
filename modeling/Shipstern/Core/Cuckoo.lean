import Shipstern.Core.Base58
import Shipstern.Core.Prefilter
import Shipstern.Lib.SortedKeys

/-!
# Keys sent as a cuckoo filter

`CuckooAccounts` of `lib.rs` as the vector it is, and `wire_keys`, which splits the requested
keys into a list and a filter for the server. The filter comes from another crate: an insert
can fail, and a failed one evicts a key that may be any of the earlier ones. So the keys are
looked up again once an insert has failed, and the filter is built a second time at twice the
capacity before the missed keys are listed.
-/

open Std

namespace Shipstern.Core

/-- The cuckoo filters of the `yellowstone_grpc_proto` crate, and their form on the wire. -/
structure CuckooCrate where
  Filter : Type
  Wire : Type
  withCapacity : Nat → Option Filter
  /-- The filter afterwards, and whether the insert succeeded. -/
  insert : Filter → Pubkey → Filter × Bool
  contains : Filter → Pubkey → Bool
  toWire : Filter → Wire
  /-- What the receiver of a filter finds in it. -/
  holds : Wire → Pubkey → Bool

namespace CuckooCrate

/-- Insert keys one after the other, and remember whether an insert has failed. -/
def insertAll (crate : CuckooCrate) (filter : crate.Filter) (keys : List Pubkey) :
    crate.Filter × Bool :=
  keys.foldl
    (fun (filter, evicted) key =>
      let (filter, inserted) := crate.insert filter key
      (filter, evicted || !inserted))
    (filter, false)

/-- As long as no insert has failed every inserted key is contained, and the wire form holds
what the filter contains. -/
structure Lawful (crate : CuckooCrate) : Prop where
  contains_inserted : ∀ capacity empty, crate.withCapacity capacity = some empty →
    ∀ keys, (crate.insertAll empty keys).2 = false →
      ∀ key ∈ keys, crate.contains (crate.insertAll empty keys).1 key = true
  holds_toWire : ∀ filter key, crate.holds (crate.toWire filter) key = crate.contains filter key

end CuckooCrate

/-- The sorted vector in `CuckooAccounts`. -/
structure CuckooVec where
  keys : List Pubkey
  ascending : SortedKeys.Ascending keys

namespace CuckooVec

/-- Every extension of the vector is normalized. -/
def normalized (keys : List Pubkey) : CuckooVec :=
  ⟨SortedKeys.normalize keys, SortedKeys.ascending_normalize keys⟩

def empty : CuckooVec := ⟨[], .nil⟩

def fromIter (items : List Pubkey) : CuckooVec := normalized items

def merge (accounts other : CuckooVec) : CuckooVec := normalized (accounts.keys ++ other.keys)

def contains (accounts : CuckooVec) (key : Pubkey) : Bool :=
  (SortedKeys.search accounts.keys key).isSome

variable (crate : CuckooCrate)

/-- The filter at `capacity`, and the keys it does not hold. -/
def build (accounts : CuckooVec) (capacity : Nat) : Option (crate.Wire × List Pubkey) := do
  let filter ← crate.withCapacity capacity
  let (filter, evicted) := crate.insertAll filter accounts.keys
  let missed :=
    if evicted then accounts.keys.filter fun key => !crate.contains filter key else []
  some (crate.toWire filter, missed)

/-- `usize::saturating_mul` by two. -/
def doubled (n : Nat) : Nat := min (2 * n) (2 ^ 64 - 1)

def toFilter (accounts : CuckooVec) : Option crate.Wire × List Pubkey :=
  if accounts.keys.isEmpty then (none, [])
  else
    match (accounts.build crate accounts.keys.length).filter fun (_, missed) => missed.isEmpty with
    | some (filter, missed) => (some filter, missed)
    | none =>
        match accounts.build crate (doubled accounts.keys.length) with
        | some (filter, missed) => (some filter, missed)
        | none => (none, accounts.keys)

end CuckooVec

/-- A `HashSet` of keys, in the order in which it is iterated. -/
structure KeySet where
  order : List Pubkey
  nodup : order.Nodup

/-- The list for the server, and the filter. -/
def wireKeys (crate : CuckooCrate) (bs58 : Bs58) (keys : KeySet) (cuckoo : CuckooVec) :
    List (List Char) × Option crate.Wire :=
  let (filter, missed) := cuckoo.toFilter crate
  let list := keys.order ++ missed.filter fun key => key ∉ keys.order
  (list.map (·.display bs58), filter)

/-! ## The vector is the set of the supplied keys -/

namespace CuckooVec

/-- How a value comes about, and the keys that it was given. -/
inductive Supplied : CuckooVec → Finset Pubkey → Prop
  | default : Supplied empty ∅
  | fromIter (items : List Pubkey) : Supplied (fromIter items) items.toFinset
  | merge {accounts other : CuckooVec} {keys keys' : Finset Pubkey}
      (h : Supplied accounts keys) (h' : Supplied other keys') :
      Supplied (accounts.merge other) (keys ∪ keys')

theorem Supplied.mem_keys {accounts : CuckooVec} {keys : Finset Pubkey}
    (h : Supplied accounts keys) (key : Pubkey) : key ∈ accounts.keys ↔ key ∈ keys := by
  induction h with
  | default => simp [empty]
  | fromIter items => simp [CuckooVec.fromIter, normalized]
  | merge _ _ ih ih' => simp [CuckooVec.merge, normalized, ih, ih']

theorem contains_iff (accounts : CuckooVec) (key : Pubkey) :
    accounts.contains key = true ↔ key ∈ accounts.keys :=
  SortedKeys.search_isSome accounts.ascending key

/-- The set that the prefilters are merged with. -/
def toAccounts (accounts : CuckooVec) : CuckooAccounts := ⟨accounts.keys.toFinset⟩

theorem toAccounts_merge (accounts other : CuckooVec) :
    (accounts.merge other).toAccounts = accounts.toAccounts.merge other.toAccounts := by
  rw [toAccounts, toAccounts, toAccounts, CuckooAccounts.merge, CuckooAccounts.mk.injEq]
  ext key
  simp [merge, normalized]

/-- A set always has the same vector, so comparing vectors compares sets. -/
theorem toAccounts_injective : Function.Injective toAccounts := by
  rintro ⟨keys, hkeys⟩ ⟨keys', hkeys'⟩ h
  rw [toAccounts, toAccounts, CuckooAccounts.mk.injEq] at h
  have hmem : ∀ key, key ∈ keys ↔ key ∈ keys' := by
    intro key
    rw [← List.mem_toFinset, h, List.mem_toFinset]
  obtain rfl := hkeys.ext hkeys' hmem
  rfl

/-! ## No key is lost -/

section Filter

variable {crate : CuckooCrate} (hcrate : crate.Lawful) (accounts : CuckooVec)
include hcrate

/-- What a build holds and what it reports as missed make up all keys. -/
theorem build_covers {capacity : Nat} {filter : crate.Wire} {missed : List Pubkey}
    (h : accounts.build crate capacity = some (filter, missed)) :
    missed.Sublist accounts.keys ∧
      ∀ key ∈ accounts.keys, key ∈ missed ∨ crate.holds filter key = true := by
  rw [build] at h
  cases hempty : crate.withCapacity capacity with
  | none => simp [hempty] at h
  | some empty =>
      simp only [hempty, Option.bind_eq_bind, Option.bind_some, Option.some.injEq,
        Prod.mk.injEq] at h
      obtain ⟨rfl, rfl⟩ := h
      simp only [hcrate.holds_toWire]
      cases hevicted : (crate.insertAll empty accounts.keys).2 with
      | false =>
          exact ⟨List.nil_sublist _, fun key hkey =>
            .inr (hcrate.contains_inserted capacity empty hempty _ hevicted key hkey)⟩
      | true =>
          refine ⟨List.filter_sublist, fun key hkey => ?_⟩
          -- After an eviction every key that is not found again is reported.
          cases hfound : crate.contains (crate.insertAll empty accounts.keys).1 key with
          | true => exact .inr rfl
          | false =>
              left
              simp [hkey, hfound]

theorem toFilter_covers {filter : Option crate.Wire} {missed : List Pubkey}
    (h : accounts.toFilter crate = (filter, missed)) :
    missed.Sublist accounts.keys ∧ ∀ key ∈ accounts.keys, key ∈ missed ∨
      ∃ wire, filter = some wire ∧ crate.holds wire key = true := by
  have hbuilt : ∀ {capacity wire}, accounts.build crate capacity = some (wire, missed) →
      filter = some wire → missed.Sublist accounts.keys ∧ ∀ key ∈ accounts.keys, key ∈ missed ∨
        ∃ wire, filter = some wire ∧ crate.holds wire key = true := by
    rintro capacity wire hbuild rfl
    obtain ⟨hsub, hcovers⟩ := build_covers hcrate accounts hbuild
    exact ⟨hsub, fun key hkey => (hcovers key hkey).imp_right fun hheld => ⟨wire, rfl, hheld⟩⟩
  rw [toFilter] at h
  split at h
  · next hnone =>
      cases h
      rw [List.isEmpty_iff] at hnone
      simp [hnone]
  · split at h
    · next wire all hfirst =>
        cases h
        exact hbuilt (Option.filter_eq_some_iff.mp hfirst).1 rfl
    · split at h
      · next wire all hsecond =>
          cases h
          exact hbuilt hsecond rfl
      · cases h
        exact ⟨List.Sublist.refl _, fun key hkey => .inl hkey⟩

end Filter

end CuckooVec

/-- Every plain key is listed, every cuckoo key is listed or held by the returned filter, and
no key is listed twice. Looking a key up finds exactly the supplied ones. -/
theorem wireKeys_complete (crate : CuckooCrate) (hcrate : crate.Lawful) (bs58 : Bs58)
    (h58 : bs58.Lawful) (keys : KeySet) (cuckoo : CuckooVec) (supplied : Finset Pubkey)
    (hsupplied : cuckoo.Supplied supplied) :
    (∀ key ∈ keys.order, key.display bs58 ∈ (wireKeys crate bs58 keys cuckoo).1) ∧
    (∀ key ∈ supplied, key.display bs58 ∈ (wireKeys crate bs58 keys cuckoo).1 ∨
      ∃ wire, (wireKeys crate bs58 keys cuckoo).2 = some wire ∧ crate.holds wire key = true) ∧
    (wireKeys crate bs58 keys cuckoo).1.Nodup ∧
    ∀ key, cuckoo.contains key = true ↔ key ∈ supplied := by
  cases hfilter : cuckoo.toFilter crate with
  | mk filter missed =>
      obtain ⟨hsub, hcovers⟩ := cuckoo.toFilter_covers hcrate hfilter
      have hwire : wireKeys crate bs58 keys cuckoo =
          ((keys.order ++ missed.filter fun key => key ∉ keys.order).map (·.display bs58),
            filter) := by
        rw [wireKeys, hfilter]
      have hlist : ∀ key, key ∈ keys.order ∨ key ∈ missed →
          key ∈ keys.order ++ missed.filter fun key => key ∉ keys.order := by
        intro key hkey
        simp only [List.mem_append, List.mem_filter, decide_eq_true_eq]
        tauto
      rw [hwire]
      refine ⟨fun key hkey => List.mem_map_of_mem (hlist key (.inl hkey)), ?_, ?_, ?_⟩
      · intro key hkey
        obtain hmissed | hheld := hcovers key ((hsupplied.mem_keys key).mpr hkey)
        · exact .inl (List.mem_map_of_mem (hlist key (.inr hmissed)))
        · exact .inr hheld
      · refine List.Nodup.map (Pubkey.display_injective h58) ?_
        refine List.Nodup.append keys.nodup ?_ ?_
        · exact (cuckoo.ascending.nodup.sublist hsub).filter _
        · intro key hkey hother
          simp [hkey] at hother
      · intro key
        rw [CuckooVec.contains_iff, hsupplied.mem_keys]

/-- Filters that hold up to a number of keys. One key more evicts the oldest. -/
def boundedCrate : CuckooCrate where
  Filter := Nat × List Pubkey
  Wire := Nat × List Pubkey
  withCapacity capacity := some (capacity, [])
  insert filter key :=
    if filter.2.length < filter.1 then ((filter.1, key :: filter.2), true)
    else ((filter.1, key :: filter.2.dropLast), false)
  contains filter key := key ∈ filter.2
  toWire filter := filter
  holds wire key := key ∈ wire.2

theorem boundedCrate_lawful : boundedCrate.Lawful where
  holds_toWire _ _ := rfl
  contains_inserted capacity empty hempty keys hnone key hkey := by
    have hkept : ∀ (keys : List Pubkey) (filter : Nat × List Pubkey),
        (boundedCrate.insertAll filter keys).2 = false → ∀ key, key ∈ keys ∨ key ∈ filter.2 →
          boundedCrate.contains (boundedCrate.insertAll filter keys).1 key = true := by
      intro keys
      induction keys using List.reverseRecOn with
      | nil =>
          rintro filter - key (hkey | hkey)
          · contradiction
          · exact decide_eq_true hkey
      | append_singleton keys last ih =>
          intro filter hnone key hkey
          have hstep : boundedCrate.insertAll filter (keys ++ [last]) =
              ((boundedCrate.insert (boundedCrate.insertAll filter keys).1 last).1,
                (boundedCrate.insertAll filter keys).2 ||
                  !(boundedCrate.insert (boundedCrate.insertAll filter keys).1 last).2) := by
            simp [CuckooCrate.insertAll]
          rw [hstep] at hnone ⊢
          obtain ⟨hearlier, hinserted⟩ := Bool.or_eq_false_iff.mp hnone
          have hheld := ih filter hearlier key
          generalize (boundedCrate.insertAll filter keys).1 = current at hheld hinserted ⊢
          by_cases hroom : current.2.length < current.1
          · simp only [boundedCrate, if_pos hroom, decide_eq_true_eq] at hheld ⊢
            rw [List.mem_append, List.mem_singleton] at hkey
            rw [List.mem_cons]
            tauto
          · simp [boundedCrate, hroom] at hinserted
    exact hkept keys empty hnone key (.inl hkey)

/-- Two plain keys. -/
def plainKeys : KeySet := ⟨[Vector.replicate 32 1, Vector.replicate 32 2], by decide +kernel⟩

/-- A key that is plain as well, and one that is given twice. -/
def sharedKeys : CuckooVec :=
  (CuckooVec.fromIter [Vector.replicate 32 3, Vector.replicate 32 2]).merge
    (CuckooVec.fromIter [Vector.replicate 32 3])

theorem wireKeys_complete_of_sharedKeys :
    (Pubkey.display .bitcoin (Vector.replicate 32 3) ∈
        (wireKeys boundedCrate .bitcoin plainKeys sharedKeys).1 ∨
      ∃ wire, (wireKeys boundedCrate .bitcoin plainKeys sharedKeys).2 = some wire ∧
        boundedCrate.holds wire (Vector.replicate 32 3) = true) ∧
      (wireKeys boundedCrate .bitcoin plainKeys sharedKeys).1.Nodup ∧
      sharedKeys.contains (Vector.replicate 32 3) = true := by
  obtain ⟨-, hcovers, hnodup, hcontains⟩ := wireKeys_complete boundedCrate boundedCrate_lawful
    .bitcoin Bs58.bitcoin_lawful plainKeys sharedKeys _ (.merge (.fromIter _) (.fromIter _))
  exact ⟨hcovers _ (by simp), hnodup, (hcontains _).mpr (by simp)⟩

end Shipstern.Core
