import Shipstern.Core.Base58
import Shipstern.Codegen.Discriminator
import Shipstern.Codegen.Ir
import Shipstern.Lib.Dropped
import Shipstern.Lib.Fallible

/-!
# Account fields of generated instruction parsers

`single_instruction_helper_fn` writes a `parse_<ix>` that reads the account fields by position.
An instruction may leave off accounts with a fixed address; their fields are then filled with that
address, unless a guard finds that later accounts have moved to the front.
-/

open Shipstern.Core

namespace Shipstern.Codegen

open Codama

/-! ## The generated function -/

/-- One field of the accounts value. -/
inductive AccountField
  | required (key : Pubkey)
  | optional (key : Option Pubkey)
deriving DecidableEq

/-- The accounts value: its fields in the order of the IDL, and what follows them unless an
account has the name of that field. -/
structure AccountsValue where
  fields : List (Name × AccountField)
  remainingAccounts : Option (List Pubkey)
deriving DecidableEq

/-- `accounts` and `args` of an instruction variant; without arguments there is no `args`. -/
structure InstructionValue (A : Type) where
  accounts : AccountsValue
  args : Option A
deriving DecidableEq

def isOptional (account : InstructionAccountNode) : Bool :=
  account.isOptional.getD false

/-- The key of an address literal. Without one the literal is a `compile_error!`. -/
def programPubkey (codecs : BytesCodecs) (pubkey : Name) : Option Pubkey :=
  (codecs.base58 pubkey).bind Pubkey.tryFrom

/-- The fixed key of an account, where it has one. `none` is a `compile_error!`. -/
def fixedKey (codecs : BytesCodecs) (account : InstructionAccountNode) : Option (Option Pubkey) :=
  if isOptional account then some none
  else
    match account.defaultValue with
    | some (.publicKeyValue publicKey _) => (programPubkey codecs publicKey).map some
    | _ => some none

def fixedKeys (codecs : BytesCodecs) (accounts : List InstructionAccountNode) :
    Option (List (Option Pubkey)) :=
  accounts.mapM (fixedKey codecs)

/-- `Iterator::rposition`. -/
def rposition {α : Type} (p : α → Bool) : List α → Option Nat
  | [] => none
  | a :: rest =>
      match rposition p rest with
      | some i => some (i + 1)
      | none => if p a then some 0 else none

def missingError (idx : Nat) : ParseError :=
  .other ("Account does not exist at index ".toList ++ (toString idx).toList)

/-- The fixed slots with their keys. -/
def fixedAccounts (keys : List (Option Pubkey)) : List (Nat × Pubkey) :=
  keys.zipIdx.filterMap fun (key, idx) => key.map fun key => (idx, key)

/-- The optional slots before the last fixed one. -/
def optionalBefore (lastFixed : Nat) (accounts : List InstructionAccountNode) : List Nat :=
  (accounts.take lastFixed).zipIdx.filterMap fun (account, idx) =>
    if isOptional account then some idx else none

def shifted (fixed : List (Nat × Pubkey)) (optional : List Nat) (accounts : List Pubkey) : Bool :=
  optional.any (fun slot => accounts.length ≤ slot) ||
    fixed.any fun (slot, key) =>
      match accounts[slot]? with
      | some carried => carried != key
      | none => accounts.zipIdx.any fun (carried, idx) =>
          carried == key && !fixed.any fun (fixedSlot, _) => fixedSlot == idx

/-- `while optional.contains(&missing)`. Every round passes another entry of `optional`, so its
length is enough fuel. -/
def firstMissing (optional : List Nat) : Nat → Nat → Nat
  | 0, missing => missing
  | fuel + 1, missing =>
      if optional.contains missing then firstMissing optional fuel (missing + 1) else missing

/-- The guard in front of the fields; there is none without a fixed slot. -/
def shiftedGuard (nodes : List InstructionAccountNode) (keys : List (Option Pubkey))
    (accounts : List Pubkey) : Except ParseError Unit :=
  match rposition Option.isSome keys with
  | none => .ok ()
  | some lastFixed =>
      let optional := optionalBefore lastFixed nodes
      if accounts.length ≤ lastFixed ∧ shifted (fixedAccounts keys) optional accounts then
        .error (missingError (firstMissing optional optional.length accounts.length))
      else .ok ()

/-- What the field of the account at `idx` is set to. -/
def accountsField (programId : Pubkey) (account : InstructionAccountNode) (fixed : Option Pubkey)
    (idx : Nat) (accounts : List Pubkey) : Except ParseError AccountField :=
  if isOptional account then
    .ok (.optional (accounts[idx]?.bind fun a => if a = programId then none else some a))
  else
    match fixed with
    | some key => .ok (.required (accounts[idx]?.getD key))
    | none =>
        match accounts[idx]? with
        | some key => .ok (.required key)
        | none => .error (missingError idx)

/-- The fields from `idx` on. -/
def accountsFields (programId : Pubkey) (accounts : List Pubkey) :
    List (InstructionAccountNode × Option Pubkey) → Nat →
      Except ParseError (List (Name × AccountField))
  | [], _ => .ok []
  | (account, fixed) :: rest, idx => do
      let value ← accountsField programId account fixed idx accounts
      let fields ← accountsFields programId accounts rest (idx + 1)
      .ok ((toSnakeCase account.name, value) :: fields)

def accountsValue (programId : Pubkey) (nodes : List InstructionAccountNode)
    (keys : List (Option Pubkey)) (accounts : List Pubkey) : Except ParseError AccountsValue := do
  let fields ← accountsFields programId accounts (nodes.zip keys) 0
  let hasExplicitRemaining := nodes.any fun a => toSnakeCase a.name = "remaining_accounts".toList
  .ok ⟨fields, if hasExplicitRemaining then none else some (accounts.drop nodes.length)⟩

section Helper

variable {A : Type} (codecs : BytesCodecs) (programId : Pubkey)
  (deserialize : InstructionNode → List UInt8 → Except ParseError A)

def argsField (ix : InstructionNode) (info : DiscriminatorInfo) (data : List UInt8) :
    Except ParseError (Option A) :=
  if ix.arguments.isEmpty then .ok none
  else if info.argsStart ≤ data.length then
    (deserialize ix (data.drop info.argsStart)).map some
  else .error (.other "Missing args bytes".toList)

/-- The body of `parse_<ix>`. -/
def parseInstruction (ix : InstructionNode) (info : DiscriminatorInfo)
    (keys : List (Option Pubkey)) (accounts : List Pubkey) (data : List UInt8) :
    Except ParseError (InstructionValue A) := do
  shiftedGuard ix.accounts keys accounts
  let accounts ← accountsValue programId ix.accounts keys accounts
  let args ← argsField deserialize ix info data
  .ok ⟨accounts, args⟩

/-- What the generator writes for an instruction with a discriminator. -/
inductive HelperFn (A : Type)
  | parse (fn : List Pubkey → List UInt8 → Except ParseError (InstructionValue A))
  | compileError

def singleInstructionHelperFn (ix : InstructionNode) : Gen (Option (HelperFn A)) := do
  match ← extractIxDiscriminatorInfo codecs ix with
  | none => .ok none
  | some info =>
      match fixedKeys codecs ix.accounts with
      | none => .ok (some .compileError)
      | some keys => .ok (some (.parse (parseInstruction programId deserialize ix info keys)))

end Helper

/-! ## What the parts of the guard say -/

theorem rposition_none {α : Type} {p : α → Bool} {l : List α} (h : rposition p l = none) :
    ∀ a ∈ l, p a = false := by
  induction l with
  | nil => exact fun a ha => absurd ha List.not_mem_nil
  | cons b l ih =>
      rw [rposition] at h
      cases hrest : rposition p l with
      | some k => simp only [hrest, reduceCtorEq] at h
      | none =>
          cases hb : p b with
          | true => simp only [hrest, hb, if_true, reduceCtorEq] at h
          | false =>
              intro a ha
              rcases List.mem_cons.mp ha with rfl | ha
              · exact hb
              · exact ih hrest a ha

/-- The last entry that has the property: no entry behind it does. -/
theorem rposition_some {α : Type} {p : α → Bool} {l : List α} {i : Nat}
    (h : rposition p l = some i) :
    (∃ a, l[i]? = some a ∧ p a = true) ∧ ∀ j a, i < j → l[j]? = some a → p a = false := by
  induction l generalizing i with
  | nil => cases h
  | cons b l ih =>
      rw [rposition] at h
      cases hrest : rposition p l with
      | some k =>
          simp only [hrest, Option.some.injEq] at h
          subst h
          refine ⟨(ih hrest).1, fun j a hj ha => ?_⟩
          obtain ⟨j, rfl⟩ : ∃ j', j = j' + 1 := ⟨j - 1, by omega⟩
          exact (ih hrest).2 j a (by omega) ha
      | none =>
          cases hb : p b with
          | false => simp only [hrest, hb, Bool.false_eq_true, if_false, reduceCtorEq] at h
          | true =>
              simp only [hrest, hb, if_true, Option.some.injEq] at h
              subst h
              refine ⟨⟨b, rfl, hb⟩, fun j a hj ha => ?_⟩
              obtain ⟨j, rfl⟩ : ∃ j', j = j' + 1 := ⟨j - 1, by omega⟩
              exact rposition_none hrest a (List.mem_of_getElem? ha)

theorem mem_fixedAccounts {keys : List (Option Pubkey)} {idx : Nat} {key : Pubkey} :
    (idx, key) ∈ fixedAccounts keys ↔ keys[idx]? = some (some key) := by
  rw [fixedAccounts, List.mem_filterMap]
  constructor
  · rintro ⟨⟨k, i⟩, hmem, hk⟩
    obtain ⟨k', rfl, heq⟩ := Option.map_eq_some_iff.mp hk
    cases heq
    exact List.mk_mem_zipIdx_iff_getElem?.mp hmem
  · intro h
    exact ⟨(some key, idx), List.mk_mem_zipIdx_iff_getElem?.mpr h, rfl⟩

theorem mem_optionalBefore {lastFixed idx : Nat} {nodes : List InstructionAccountNode}
    {account : InstructionAccountNode} (hidx : idx < lastFixed)
    (hnode : nodes[idx]? = some account) (hoptional : isOptional account = true) :
    idx ∈ optionalBefore lastFixed nodes := by
  rw [optionalBefore, List.mem_filterMap]
  refine ⟨(account, idx), List.mk_mem_zipIdx_iff_getElem?.mpr ?_, ?_⟩
  · rw [List.getElem?_take_of_lt hidx]
    exact hnode
  · exact if_pos hoptional

/-- A list that the guard lets pass. -/
structure InPlace (keys : List (Option Pubkey)) (optional : List Nat) (accounts : List Pubkey) :
    Prop where
  optional : ∀ slot ∈ optional, slot < accounts.length
  carried : ∀ (slot : Nat) (key a : Pubkey),
    keys[slot]? = some (some key) → accounts[slot]? = some a → a = key
  missing : ∀ (slot : Nat) (key : Pubkey) (idx : Nat),
    keys[slot]? = some (some key) → accounts[slot]? = none →
      accounts[idx]? = some key → ∃ key', keys[idx]? = some (some key')

theorem inPlace_of_not_shifted {keys : List (Option Pubkey)} {optional : List Nat}
    {accounts : List Pubkey} (h : shifted (fixedAccounts keys) optional accounts = false) :
    InPlace keys optional accounts := by
  rw [shifted, Bool.or_eq_false_iff, List.any_eq_false, List.any_eq_false] at h
  obtain ⟨hoptional, hfixed⟩ := h
  refine ⟨?_, ?_, ?_⟩
  · intro slot hslot
    simpa using hoptional slot hslot
  · intro slot key a hkey ha
    have hslot := hfixed (slot, key) (mem_fixedAccounts.mpr hkey)
    simp only [ha] at hslot
    simpa using hslot
  · intro slot key idx hkey hnone ha
    have hslot := hfixed (slot, key) (mem_fixedAccounts.mpr hkey)
    simp only [hnone] at hslot
    rw [Bool.not_eq_true, List.any_eq_false] at hslot
    have hplace := hslot (key, idx) (List.mk_mem_zipIdx_iff_getElem?.mpr ha)
    have hany : (fixedAccounts keys).any (fun (fixedSlot, _) => fixedSlot == idx) = true := by
      simpa using hplace
    obtain ⟨⟨i, key'⟩, hmem, hi⟩ := List.any_eq_true.mp hany
    have hidx : i = idx := by simpa using hi
    exact ⟨key', hidx ▸ mem_fixedAccounts.mp hmem⟩

/-! ## What the fields say -/

theorem accountsField_required {programId : Pubkey} {account : InstructionAccountNode} {idx : Nat}
    {accounts : List Pubkey} {value : AccountField} (hnode : isOptional account = false)
    (h : accountsField programId account none idx accounts = .ok value) :
    idx < accounts.length := by
  simp only [accountsField, hnode, Bool.false_eq_true, if_false] at h
  cases hget : accounts[idx]? with
  | some key => exact (List.getElem?_eq_some_iff.mp hget).1
  | none => simp only [hget, reduceCtorEq] at h

/-- A required account without a fixed address is there when the fields are. -/
theorem accountsFields_required {programId : Pubkey} {accounts : List Pubkey}
    {slots : List (InstructionAccountNode × Option Pubkey)} {idx : Nat}
    {fields : List (Name × AccountField)}
    (h : accountsFields programId accounts slots idx = .ok fields) {i : Nat}
    {account : InstructionAccountNode} (hslot : slots[i]? = some (account, none))
    (hnode : isOptional account = false) : idx + i < accounts.length := by
  induction slots generalizing idx i fields with
  | nil => cases hslot
  | cons slot slots ih =>
      obtain ⟨value, hvalue, h⟩ := Fallible.bind_eq_ok.mp h
      obtain ⟨fields', hfields, -⟩ := Fallible.bind_eq_ok.mp h
      cases i with
      | zero =>
          cases hslot
          exact accountsField_required hnode hvalue
      | succ i =>
          have hi := ih hfields hslot
          omega

/-- The fields depend on the entries of the slots only. -/
theorem accountsFields_congr {programId : Pubkey} {accounts accounts' : List Pubkey}
    {slots : List (InstructionAccountNode × Option Pubkey)} {idx : Nat}
    (h : ∀ i slot, slots[i]? = some slot →
      accountsField programId slot.1 slot.2 (idx + i) accounts =
        accountsField programId slot.1 slot.2 (idx + i) accounts') :
    accountsFields programId accounts slots idx = accountsFields programId accounts' slots idx := by
  induction slots generalizing idx with
  | nil => rfl
  | cons slot slots ih =>
      have hhead := h 0 slot rfl
      rw [Nat.add_zero] at hhead
      have htail := @ih (idx + 1) fun i slot' hslot => by
        have hi := h (i + 1) slot' hslot
        rwa [Nat.add_comm i 1, ← Nat.add_assoc] at hi
      simp only [accountsFields, hhead, htail]

theorem accountsField_of_get {programId : Pubkey} {account : InstructionAccountNode}
    {fixed : Option Pubkey} {idx : Nat} {accounts accounts' : List Pubkey}
    (h : accounts[idx]? = accounts'[idx]?) :
    accountsField programId account fixed idx accounts =
      accountsField programId account fixed idx accounts' := by
  simp only [accountsField, h]

/-- A fixed slot that is missing reads as one that holds its key. -/
theorem accountsField_fill {programId key : Pubkey} {account : InstructionAccountNode} {idx : Nat}
    {accounts accounts' : List Pubkey} (hnode : isOptional account = false)
    (hnone : accounts[idx]? = none) (hkey : accounts'[idx]? = some key) :
    accountsField programId account (some key) idx accounts =
      accountsField programId account (some key) idx accounts' := by
  simp only [accountsField, hnode, Bool.false_eq_true, if_false, hnone, hkey, Option.getD_none,
    Option.getD_some]

theorem fixedKey_some {codecs : BytesCodecs} {account : InstructionAccountNode} {key : Pubkey}
    (h : fixedKey codecs account = some (some key)) : isOptional account = false := by
  cases hnode : isOptional account with
  | false => rfl
  | true => simp only [fixedKey, hnode, if_true, Option.some.injEq, reduceCtorEq] at h

theorem fixedKeys_get {codecs : BytesCodecs} {nodes : List InstructionAccountNode}
    {keys : List (Option Pubkey)} (h : fixedKeys codecs nodes = some keys) :
    List.Forall₂ (fun account key => fixedKey codecs account = some key) nodes keys := by
  induction nodes generalizing keys with
  | nil =>
      cases h
      exact .nil
  | cons account nodes ih =>
      rw [fixedKeys, List.mapM_cons] at h
      obtain ⟨key, hkey, h⟩ := Option.bind_eq_some_iff.mp h
      obtain ⟨rest, hrest, h⟩ := Option.bind_eq_some_iff.mp h
      cases h
      exact .cons hkey (ih hrest)

/-! ## Dropped accounts -/

/-- Each fixed slot holds its key, and every other entry differs from all fixed keys. -/
structure FullAccounts (keys : List (Option Pubkey)) (accounts : List Pubkey) : Prop where
  fixed : ∀ (slot : Nat) (key : Pubkey), keys[slot]? = some (some key) →
    accounts[slot]? = some key
  other : ∀ (slot : Nat) (a : Pubkey), accounts[slot]? = some a →
    (∀ key, keys[slot]? ≠ some (some key)) → ∀ key, some key ∈ keys → a ≠ key

theorem FullAccounts.fixed_of_mem {keys : List (Option Pubkey)} {accounts : List Pubkey}
    (h : FullAccounts keys accounts) {slot : Nat} {a : Pubkey} (ha : accounts[slot]? = some a)
    (hmem : some a ∈ keys) : keys[slot]? = some (some a) := by
  by_contra hslot
  refine h.other slot a ha (fun key hkey => hslot ?_) a hmem rfl
  have heq : a = key := Option.some.inj (ha.symm.trans (h.fixed slot key hkey))
  rw [hkey, heq]

section Dropped

variable {codecs : BytesCodecs} {programId : Pubkey} {nodes : List InstructionAccountNode}
  {keys : List (Option Pubkey)} {lastFixed : Nat} {full accounts : List Pubkey}

/-- A slot that a short list lacks is fixed, if the list passes the guard and its fields are
there. -/
theorem fixed_of_missing (hkeys : fixedKeys codecs nodes = some keys)
    (hlast : rposition Option.isSome keys = some lastFixed)
    (hoptional : ∀ i account, lastFixed < i → nodes[i]? = some account → isOptional account = false)
    (hplace : InPlace keys (optionalBefore lastFixed nodes) accounts)
    {fields : List (Name × AccountField)}
    (hfields : accountsFields programId accounts (nodes.zip keys) 0 = .ok fields) {slot : Nat}
    (hslot : accounts.length ≤ slot) (hlength : slot < nodes.length) :
    ∃ key, keys[slot]? = some (some key) ∧ isOptional nodes[slot] = false := by
  have hforall := fixedKeys_get hkeys
  have hlengths : slot < keys.length := hforall.length_eq ▸ hlength
  have hkey : fixedKey codecs nodes[slot] = some keys[slot] :=
    (List.forall₂_iff_get.mp hforall).2 slot hlength hlengths
  have hnode : nodes[slot]? = some nodes[slot] := List.getElem?_eq_getElem hlength
  cases hfixed : keys[slot] with
  | some key =>
      rw [hfixed] at hkey
      exact ⟨key, by rw [List.getElem?_eq_getElem hlengths, hfixed], fixedKey_some hkey⟩
  | none =>
      exfalso
      cases hopt : isOptional nodes[slot] with
      | true =>
          -- an optional slot is before the last fixed one, where the guard wants it filled
          rcases Nat.lt_trichotomy slot lastFixed with hlt | heq | hgt
          · have hin := hplace.optional slot (mem_optionalBefore hlt hnode hopt)
            omega
          · obtain ⟨⟨a, ha, hsome⟩, -⟩ := rposition_some hlast
            rw [← heq, List.getElem?_eq_getElem hlengths, hfixed] at ha
            cases ha
            cases hsome
          · rw [hoptional slot _ hgt hnode] at hopt
            cases hopt
      | false =>
          have hzip : (nodes.zip keys)[slot]? = some (nodes[slot], none) := by
            rw [List.getElem?_zip_eq_some]
            exact ⟨hnode, by rw [List.getElem?_eq_getElem hlengths, hfixed]⟩
          have hin := accountsFields_required hfields hzip hopt
          omega

/-- A list taken from the entries of the slots, and nothing else, is a prefix of them. -/
theorem take_of_sublist (hkeys : fixedKeys codecs nodes = some keys)
    (hlast : rposition Option.isSome keys = some lastFixed)
    (hoptional : ∀ i account, lastFixed < i → nodes[i]? = some account → isOptional account = false)
    (hfull : FullAccounts keys full) (hlength : nodes.length ≤ full.length)
    (hsub : accounts.Sublist (full.take nodes.length)) (hshort : accounts.length ≤ nodes.length)
    (hplace : InPlace keys (optionalBefore lastFixed nodes) accounts)
    {fields : List (Name × AccountField)}
    (hfields : accountsFields programId accounts (nodes.zip keys) 0 = .ok fields) :
    full.take accounts.length = accounts := by
  have hkeysLength : nodes.length = keys.length := (fixedKeys_get hkeys).length_eq
  have hparts : full.take nodes.length =
      full.take accounts.length ++ (full.drop accounts.length).take
        (nodes.length - accounts.length) := by
    rw [← List.take_add, Nat.add_sub_cancel' hshort]
  have htailGet : ∀ a ∈ (full.drop accounts.length).take (nodes.length - accounts.length),
      ∃ slot, accounts.length ≤ slot ∧ keys[slot]? = some (some a) := by
    intro a ha
    obtain ⟨i, hi⟩ := List.mem_iff_getElem?.mp ha
    rw [List.getElem?_take] at hi
    split at hi
    next hlt =>
      rw [List.getElem?_drop] at hi
      have hslot : accounts.length + i < nodes.length := by omega
      obtain ⟨key, hkey, -⟩ := fixed_of_missing hkeys hlast hoptional hplace hfields
        (Nat.le_add_right _ i) hslot
      have heq : a = key := Option.some.inj (hi.symm.trans (hfull.fixed _ key hkey))
      exact ⟨accounts.length + i, Nat.le_add_right _ i, heq ▸ hkey⟩
    next => cases hi
  have hlengths : (full.take accounts.length).length = accounts.length := by
    rw [List.length_take]
    omega
  have hget : ∀ i, i < accounts.length → ∀ a, (full.take accounts.length)[i]? = some a →
      full[i]? = some a := by
    intro i hi a ha
    rwa [List.getElem?_take_of_lt hi] at ha
  refine @Dropped.eq_of_sublist _ _ (fun a => decide (some a ∈ keys)) _ _ _ (hparts ▸ hsub) ?_ ?_ ?_
  · intro a ha
    obtain ⟨slot, -, hkey⟩ := htailGet a ha
    exact decide_eq_true (List.mem_of_getElem? hkey)
  · refine List.forall₂_iff_get.mpr ⟨hlengths, fun i hi hi' hmarked => ?_⟩
    have hfullGet := hget i hi' _ (List.getElem?_eq_getElem hi)
    have hkey := hfull.fixed_of_mem hfullGet (of_decide_eq_true hmarked)
    exact hplace.carried i _ _ hkey (List.getElem?_eq_getElem hi')
  · refine List.forall₂_iff_get.mpr ⟨hlengths, fun i hi hi' => ?_⟩
    by_cases hin : accounts.get ⟨i, hi'⟩ ∈
        (full.drop accounts.length).take (nodes.length - accounts.length)
    · left
      obtain ⟨slot, hslot, hkey⟩ := htailGet _ hin
      obtain ⟨key, hplaced⟩ := hplace.missing slot _ i hkey
        (List.getElem?_eq_none hslot) (List.getElem?_eq_getElem hi')
      have hfullGet := hget i hi' _ (List.getElem?_eq_getElem hi)
      have heq : (full.take accounts.length).get ⟨i, hi⟩ = key :=
        Option.some.inj (hfullGet.symm.trans (hfull.fixed i key hplaced))
      exact decide_eq_true (heq ▸ List.mem_of_getElem? hplaced)
    · right
      exact hin

/-- A prefix of a full list has the fields of the full list. -/
theorem accountsFields_take (hkeys : fixedKeys codecs nodes = some keys)
    (hlast : rposition Option.isSome keys = some lastFixed)
    (hoptional : ∀ i account, lastFixed < i → nodes[i]? = some account → isOptional account = false)
    (hfull : FullAccounts keys full)
    (hplace : InPlace keys (optionalBefore lastFixed nodes) accounts)
    {fields : List (Name × AccountField)}
    (hfields : accountsFields programId accounts (nodes.zip keys) 0 = .ok fields)
    (hbegins : accounts <+: full) :
    accountsFields programId full (nodes.zip keys) 0 = .ok fields := by
  rw [← hfields]
  refine (accountsFields_congr fun i slot hslot => ?_).symm
  rw [Nat.zero_add]
  rcases Nat.lt_or_ge i accounts.length with hi | hi
  · obtain ⟨tail, rfl⟩ := hbegins
    exact accountsField_of_get (List.getElem?_append_left hi).symm
  · obtain ⟨hnode, hkey⟩ := List.getElem?_zip_eq_some.mp hslot
    obtain ⟨hlt, hnodeEq⟩ := List.getElem?_eq_some_iff.mp hnode
    obtain ⟨key, hfixed, hrequired⟩ := fixed_of_missing hkeys hlast hoptional hplace hfields hi hlt
    have hslotKey : slot.2 = some key := Option.some.inj (hkey.symm.trans hfixed)
    rw [hnodeEq] at hrequired
    rw [hslotKey]
    exact accountsField_fill hrequired (List.getElem?_eq_none hi) (hfull.fixed i key hfixed)

end Dropped

section Parse

variable {A : Type} {codecs : BytesCodecs} {programId : Pubkey}
  {deserialize : InstructionNode → List UInt8 → Except ParseError A} {ix : InstructionNode}
  {fn : List Pubkey → List UInt8 → Except ParseError (InstructionValue A)}
  {keys : List (Option Pubkey)}

theorem helperFn_parse
    (hfn : singleInstructionHelperFn codecs programId deserialize ix = .ok (some (.parse fn)))
    (hkeys : fixedKeys codecs ix.accounts = some keys) :
    ∃ info, fn = parseInstruction programId deserialize ix info keys := by
  obtain ⟨info, -, hfn⟩ := Fallible.bind_eq_ok.mp hfn
  cases info with
  | none => cases hfn
  | some info =>
      simp only [hkeys] at hfn
      cases hfn
      exact ⟨info, rfl⟩

/-- What a short list must be like to be parsed. -/
theorem shiftedGuard_ok {nodes : List InstructionAccountNode} {lastFixed : Nat}
    {accounts : List Pubkey} (hlast : rposition Option.isSome keys = some lastFixed)
    (hshort : accounts.length ≤ lastFixed) (h : shiftedGuard nodes keys accounts = .ok ()) :
    InPlace keys (optionalBefore lastFixed nodes) accounts := by
  refine inPlace_of_not_shifted ?_
  cases hshifted : shifted (fixedAccounts keys) (optionalBefore lastFixed nodes) accounts with
  | false => rfl
  | true => simp only [shiftedGuard, hlast, hshort, hshifted, and_self, if_true, reduceCtorEq] at h

/-- A full list without some of its accounts, too short for the last fixed slot, that is parsed:
nothing has moved exactly when it holds accounts of the slots only, and then every account field
is the one of the full list. -/
theorem parse_dropped_iff_slots
    (hfn : singleInstructionHelperFn codecs programId deserialize ix = .ok (some (.parse fn)))
    (hkeys : fixedKeys codecs ix.accounts = some keys) {lastFixed : Nat}
    (hlast : rposition Option.isSome keys = some lastFixed)
    (hoptional : ∀ i account, lastFixed < i → ix.accounts[i]? = some account →
      isOptional account = false)
    {full accounts : List Pubkey} (hfull : FullAccounts keys full)
    (hshort : accounts.length ≤ lastFixed) {data : List UInt8}
    {value : InstructionValue A} (hok : fn accounts data = .ok value) :
    (accounts <+: full ↔ accounts.Sublist (full.take ix.accounts.length)) ∧
      (accounts <+: full → ∃ value', fn full data = .ok value' ∧
        value'.accounts.fields = value.accounts.fields ∧ value'.args = value.args) := by
  obtain ⟨info, rfl⟩ := helperFn_parse hfn hkeys
  obtain ⟨⟨⟩, hguard, hok⟩ := Fallible.bind_eq_ok.mp hok
  obtain ⟨built, hbuilt, hok⟩ := Fallible.bind_eq_ok.mp hok
  obtain ⟨args, hargs, hok⟩ := Fallible.bind_eq_ok.mp hok
  obtain ⟨fields, hfields, hbuilt⟩ := Fallible.bind_eq_ok.mp hbuilt
  cases hok
  cases hbuilt
  have hplace := shiftedGuard_ok hlast hshort hguard
  obtain ⟨⟨lastKey, hlastKey, hsome⟩, -⟩ := rposition_some hlast
  obtain ⟨key, rfl⟩ := Option.isSome_iff_exists.mp hsome
  have hfullLength : lastFixed < full.length :=
    (List.getElem?_eq_some_iff.mp (hfull.fixed lastFixed key hlastKey)).1
  have hkeysLength : ix.accounts.length = keys.length := (fixedKeys_get hkeys).length_eq
  have hslots : lastFixed < ix.accounts.length := by
    rw [hkeysLength]
    exact (List.getElem?_eq_some_iff.mp hlastKey).1
  -- the last fixed slot is the last slot of all: what follows it would be required and missing
  have hend : ix.accounts.length = lastFixed + 1 := by
    by_contra hne
    have hlate : lastFixed + 1 < ix.accounts.length := by omega
    obtain ⟨lateKey, hlateKey, -⟩ := fixed_of_missing hkeys hlast hoptional hplace hfields
      (Nat.le_succ_of_le hshort) hlate
    have hnone := (rposition_some hlast).2 _ _ (Nat.lt_succ_self lastFixed) hlateKey
    cases hnone
  refine ⟨⟨?_, ?_⟩, ?_⟩
  · intro hbegins
    rw [List.prefix_iff_eq_take] at hbegins
    rw [hbegins]
    exact (List.take_prefix_take_left (by omega)).sublist
  · intro hslotsOnly
    have htake := take_of_sublist hkeys hlast hoptional hfull (by omega) hslotsOnly (by omega)
      hplace hfields
    exact htake ▸ List.take_prefix accounts.length full
  · intro hbegins
    have hfullFields := accountsFields_take hkeys hlast hoptional hfull hplace hfields hbegins
    have hfullGuard : shiftedGuard ix.accounts keys full = .ok () := by
      simp only [shiftedGuard, hlast]
      exact if_neg fun hlow => Nat.not_le_of_lt hfullLength hlow.1
    obtain ⟨built, hbuilt, hsame⟩ : ∃ built,
        accountsValue programId ix.accounts keys full = .ok built ∧ built.fields = fields := by
      rw [accountsValue, hfullFields]
      exact ⟨_, rfl, rfl⟩
    refine ⟨⟨built, args⟩, ?_, hsame, rfl⟩
    rw [parseInstruction, hfullGuard, hbuilt, hargs]
    rfl

end Parse

/-! ## A transfer that leaves off the system program -/

namespace Transfer

/-- The address of the system program: 32 zero bytes. -/
def systemProgram : Pubkey := .replicate 32 0

def node : InstructionNode where
  name := "transfer".toList
  accounts :=
    [⟨"user".toList, none, none⟩,
      ⟨"systemProgram".toList, none, some (.publicKeyValue (List.replicate 32 '1') none)⟩]
  arguments := []
  discriminators := [.size 0]

def codecs : BytesCodecs := ⟨Bs58.bitcoin.decode, fun _ => none⟩

def keys : List (Option Pubkey) := [none, some systemProgram]

def parse : List Pubkey → List UInt8 → Except ParseError (InstructionValue Unit) :=
  parseInstruction systemProgram (fun _ _ => .ok ()) node ⟨fun data => data.length = 0, 0⟩ keys

theorem fixedKeys_node : fixedKeys codecs node.accounts = some keys := by decide +kernel

theorem helperFn_node : singleInstructionHelperFn codecs systemProgram (fun _ _ => .ok ()) node =
    .ok (some (.parse parse)) := by
  have hinfo : extractIxDiscriminatorInfo codecs node =
      .ok (some ⟨fun data => data.length = 0, 0⟩) := rfl
  simp only [singleInstructionHelperFn, hinfo, fixedKeys_node]
  rfl

def user : Pubkey := .replicate 32 1

def other : Pubkey := .replicate 32 2

theorem noLateOptional (i : Nat) (account : InstructionAccountNode) (hi : 1 < i)
    (haccount : node.accounts[i]? = some account) : isOptional account = false := by
  match i with
  | i + 2 => cases haccount

theorem fullAccounts (remaining : List Pubkey) (h : systemProgram ∉ remaining) :
    FullAccounts keys (user :: systemProgram :: remaining) := by
  constructor
  · intro slot key hkey
    match slot with
    | 0 => cases hkey
    | 1 => exact congrArg some (Option.some.inj (Option.some.inj hkey))
  · intro slot a ha hslot key hkey
    have hkeyEq : key = systemProgram := by
      rcases List.mem_cons.mp hkey with hnone | hkey
      · cases hnone
      · exact Option.some.inj (List.mem_singleton.mp hkey)
    subst hkeyEq
    match slot with
    | 0 =>
        cases ha
        decide
    | 1 => exact absurd rfl (hslot systemProgram)
    | slot + 2 => exact fun heq => h (heq ▸ List.mem_of_getElem? ha)

end Transfer

/-! ## A payout with an optional referrer that names the system program twice -/

namespace Payout

open Transfer (systemProgram codecs user other)

def node : InstructionNode where
  name := "payout".toList
  accounts :=
    [⟨"user".toList, none, none⟩, ⟨"referrer".toList, some true, none⟩,
      ⟨"systemProgram".toList, none, some (.publicKeyValue (List.replicate 32 '1') none)⟩,
      ⟨"ownerProgram".toList, none, some (.publicKeyValue (List.replicate 32 '1') none)⟩]
  arguments := []
  discriminators := [.size 0]

def keys : List (Option Pubkey) := [none, none, some systemProgram, some systemProgram]

def parse : List Pubkey → List UInt8 → Except ParseError (InstructionValue Unit) :=
  parseInstruction systemProgram (fun _ _ => .ok ()) node ⟨fun data => data.length = 0, 0⟩ keys

theorem fixedKeys_node : fixedKeys codecs node.accounts = some keys := by decide +kernel

theorem helperFn_node : singleInstructionHelperFn codecs systemProgram (fun _ _ => .ok ()) node =
    .ok (some (.parse parse)) := by
  have hinfo : extractIxDiscriminatorInfo codecs node =
      .ok (some ⟨fun data => data.length = 0, 0⟩) := rfl
  simp only [singleInstructionHelperFn, hinfo, fixedKeys_node]
  rfl

theorem noLateOptional (i : Nat) (account : InstructionAccountNode) (hi : 3 < i)
    (haccount : node.accounts[i]? = some account) : isOptional account = false := by
  match i with
  | i + 4 => cases haccount

def full : List Pubkey := [user, other, systemProgram, systemProgram]

theorem fullAccounts : FullAccounts keys full := by
  constructor
  · intro slot key hkey
    match slot with
    | 0 | 1 => cases hkey
    | 2 | 3 => exact congrArg some (Option.some.inj (Option.some.inj hkey))
  · intro slot a ha hslot key hkey
    obtain rfl : key = systemProgram := by simpa [keys] using hkey
    match slot with
    | 0 | 1 =>
        cases ha
        decide
    | 2 | 3 => exact absurd rfl (hslot systemProgram)

end Payout

/-- The second fixed slot is left off; the first one carries its key. -/
theorem parse_dropped_iff_slots_payout :
    Payout.full.take 3 <+: Payout.full ∧
      ∃ value value', Payout.parse (Payout.full.take 3) [] = .ok value ∧
        Payout.parse Payout.full [] = .ok value' ∧
        value'.accounts.fields = value.accounts.fields ∧
        value.accounts.fields.map Prod.snd =
          [.required Transfer.user, .optional (some Transfer.other),
            .required Transfer.systemProgram, .required Transfer.systemProgram] := by
  obtain ⟨value, hvalue, hfields⟩ : ∃ value, Payout.parse (Payout.full.take 3) [] = .ok value ∧
      value.accounts.fields.map Prod.snd =
        [.required Transfer.user, .optional (some Transfer.other),
          .required Transfer.systemProgram, .required Transfer.systemProgram] := ⟨_, rfl, rfl⟩
  obtain ⟨hbegins, hfull⟩ := parse_dropped_iff_slots Payout.helperFn_node Payout.fixedKeys_node
    (by decide : rposition Option.isSome Payout.keys = some 3) Payout.noLateOptional
    Payout.fullAccounts (by decide) hvalue
  have hfirst : Payout.full.take 3 <+: Payout.full := hbegins.mpr (by decide)
  obtain ⟨value', hvalue', hsame, -⟩ := hfull hfirst
  exact ⟨hfirst, value, value', hvalue, hvalue', hsame, hfields⟩

/-- Without the user and the system program the first remaining account becomes the user. -/
theorem remaining_account_moves_up :
    ∃ fn lastFixed full accounts value,
      singleInstructionHelperFn Transfer.codecs Transfer.systemProgram (fun _ _ => .ok ())
        Transfer.node = .ok (some (.parse fn)) ∧
      fixedKeys Transfer.codecs Transfer.node.accounts = some Transfer.keys ∧
      rposition Option.isSome Transfer.keys = some lastFixed ∧
      (∀ i account, lastFixed < i → Transfer.node.accounts[i]? = some account →
        isOptional account = false) ∧
      FullAccounts Transfer.keys full ∧ accounts.Sublist full ∧ accounts.length ≤ lastFixed ∧
      fn accounts [] = .ok value ∧ ¬ accounts <+: full := by
  refine ⟨Transfer.parse, 1, [Transfer.user, Transfer.systemProgram, Transfer.other],
    [Transfer.other], _, Transfer.helperFn_node, Transfer.fixedKeys_node, by decide,
    Transfer.noLateOptional, Transfer.fullAccounts [Transfer.other] (by decide), by decide,
    by decide, rfl, by decide⟩

end Shipstern.Codegen
