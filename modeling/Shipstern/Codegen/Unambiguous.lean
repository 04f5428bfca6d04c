import Shipstern.Codegen.Dispatch

/-!
# Dispatch of accepted Anchor programs is unambiguous

Of the groups of an accepted IDL at most one matches any data: two discriminators that are
prefixes of the same data are prefixes of each other. The chain of arms therefore returns
what the group of the matching instructions returns, and that depends on the order of the
instructions only through the text of an error.
-/

open Shipstern.Core

namespace Shipstern.Codegen

open Codama Anchor

/-! ## Discriminators of converted nodes -/

section Converted

variable (codecs : BytesCodecs)

theorem decode_base16Bytes (bytes : List UInt8) :
    decodeDiscriminatorFieldBytes codecs (base16Bytes bytes) = .ok bytes := by
  have hpad : padHex (Hex.encode bytes) = Hex.encode bytes := by
    rw [padHex, if_pos (by rw [Hex.length_encode]; omega)]
  simp only [decodeDiscriminatorFieldBytes, base16Bytes, hpad, Hex.decode_encode]

/-- The test of a discriminator in front of the data. -/
def prefixInfo (discriminator : List UInt8) : DiscriminatorInfo where
  check data := getRange data 0 (0 + discriminator.length) == some discriminator
  argsStart := 0 + discriminator.length

theorem prefixInfo_check (discriminator data : List UInt8) :
    (prefixInfo discriminator).check data = decide (discriminator <+: data) := by
  rw [Bool.eq_iff_iff, decide_eq_true_eq, prefixInfo, beq_iff_eq, getRange_zero_iff]

/-- The key and the test that a node with the discriminator gets. -/
structure HasDiscriminator (key : Gen (Option DiscriminatorKey))
    (info : Gen (Option DiscriminatorInfo)) (discriminator : List UInt8) : Prop where
  key : key = .ok (some (.field 0 discriminator))
  info : info = .ok (some (prefixInfo discriminator))

theorem instructionNode_hasDiscriminator {ix : Item} {accounts : List InstructionAccountNode}
    {args : List InstructionArgumentNode} {node : InstructionNode}
    (h : instructionNode ix accounts args = .ok node) :
    HasDiscriminator (extractIxDiscriminatorKey codecs node)
      (extractIxDiscriminatorInfo codecs node) ix.discriminator := by
  rw [instructionNode] at h
  split at h
  · cases h
  · cases hname : ident ix.name with
    | error e =>
        rw [hname] at h
        cases h
    | ok name =>
        rw [hname] at h
        cases h
        have hfield : ∀ rest, resolveIxField codecs ⟨name, accounts,
            discriminatorArgument ix.discriminator :: args, rest⟩ discriminatorName =
            .ok (some ⟨fixedBytes ix.discriminator.length, some ix.discriminator⟩) := by
          intro rest
          simp only [resolveIxField, discriminatorArgument, List.find?_cons, decide_true,
            decode_base16Bytes, bind, Except.bind]
        refine ⟨?_, ?_⟩
        · simp only [extractIxDiscriminatorKey, extractDiscriminatorKey, fieldDiscriminator,
            prefixDiscriminator, hfield, bind, Except.bind, fillsWidth, fixedBytes, decide_true,
            if_true, Option.map_some]
        · simp only [extractIxDiscriminatorInfo, extractDiscriminatorInfo, fieldDiscriminator,
            prefixDiscriminator, hfield, bind, Except.bind, fillsWidth, fixedBytes, decide_true,
            if_true, Option.map_some, prefixInfo]

theorem eventNode_hasDiscriminator {event : Item} {fields : List StructFieldTypeNode}
    {node : EventNode} (h : eventNode event fields = .ok node) :
    HasDiscriminator (extractEventDiscriminatorKey codecs node)
      (extractEventDiscriminatorInfo codecs node) event.discriminator := by
  rw [eventNode] at h
  split at h
  · cases h
  · cases hname : ident event.name with
    | error e =>
        rw [hname] at h
        cases h
    | ok name =>
        rw [hname] at h
        cases h
        refine ⟨?_, ?_⟩
        · simp only [extractEventDiscriminatorKey, extractDiscriminatorKey, prefixDiscriminator,
            decode_base16Bytes, bind, Except.bind, Option.map_some]
        · simp only [extractEventDiscriminatorInfo, extractDiscriminatorInfo, prefixDiscriminator,
            decode_base16Bytes, bind, Except.bind, Option.map_some, prefixInfo]

theorem accountNode_test {account : Item} {fields : List StructFieldTypeNode} {node : AccountNode}
    (h : accountNode account fields = .ok node) :
    ∃ check, accountTest codecs node = .ok (some (check, account.discriminator.length)) ∧
      ∀ data, check data = decide (account.discriminator <+: data) := by
  rw [accountNode] at h
  split at h
  · cases h
  · next hempty =>
      cases hname : ident account.name with
      | error e =>
          rw [hname] at h
          cases h
      | ok name =>
          rw [hname] at h
          cases h
          refine ⟨(prefixInfo account.discriminator).check, ?_,
            prefixInfo_check account.discriminator⟩
          simp only [accountTest, fieldDiscriminator, discriminatorField, fixedBytes,
            List.find?_cons, decide_true, decode_base16Bytes, bind, Except.bind]
          congr 3
          · funext data
            have hisEmpty : account.discriminator.isEmpty = false := by simpa using hempty
            simp only [prefixInfo]
            cases getRange data 0 (0 + account.discriminator.length) with
            | none => rfl
            | some slice => simp [hisEmpty]
          · exact Nat.zero_add _

end Converted

/-! ## One group matches -/

theorem groupsFrom_grouped {K A : Type} [DecidableEq K] {key : A → Gen (Option K)} {k : A → K}
    {done items : List A} {groups : List (K × List A)} (hgroups : Grouping.GroupedBy k done groups)
    (hkey : ∀ a ∈ items, key a = .ok (some (k a))) :
    ∃ groups', groupsFrom key groups items = .ok groups' ∧
      Grouping.GroupedBy k (done ++ items) groups' := by
  induction items generalizing done groups with
  | nil => exact ⟨groups, rfl, by simpa using hgroups⟩
  | cons a items ih =>
      rw [List.forall_mem_cons] at hkey
      obtain ⟨groups', hfrom, hgrouped⟩ := ih (hgroups.add a) hkey.2
      refine ⟨groups', ?_, by simpa using hgrouped⟩
      simp only [groupsFrom, hkey.1, bind, Except.bind, hfrom]

theorem mapM_arms {E X : Type} {f : E → Gen (Option X)} {Q : E → X → Prop} {entries : List E}
    (h : ∀ e ∈ entries, ∃ x, f e = .ok (some x) ∧ Q e x) :
    ∃ arms, entries.mapM f = .ok (arms.map some) ∧ List.Forall₂ Q entries arms := by
  induction entries with
  | nil => exact ⟨[], rfl, .nil⟩
  | cons e entries ih =>
      rw [List.forall_mem_cons] at h
      obtain ⟨x, hx, hQ⟩ := h.1
      obtain ⟨arms, hmap, harms⟩ := ih h.2
      refine ⟨x :: arms, ?_, .cons hQ harms⟩
      rw [List.mapM_cons, hx, hmap]
      rfl

theorem findSome?_arms {E X B : Type} {g : E → Option B} {f : X → Option B} {entries : List E}
    {arms : List X} (h : List.Forall₂ (fun e x => f x = g e) entries arms) :
    arms.findSome? f = entries.findSome? g := by
  induction h with
  | nil => rfl
  | cons hx _ ih => rw [List.findSome?_cons, List.findSome?_cons, hx, ih]

/-- Prefixes of the same data that are not proper prefixes of each other are equal. -/
theorem eq_of_prefix {a b data : List UInt8} (ha : a <+: data) (hb : b <+: data)
    (hab : a <+: b → a = b) (hba : b <+: a → b = a) : a = b := by
  obtain h | h := List.prefix_or_prefix_of_prefix ha hb
  · exact hab h
  · exact (hba h).symm

section Matching

variable {A B : Type}

/-- What a group does, given what it does once its discriminator matches. -/
def keyResult (data : List UInt8) (result : List A → Option B) :
    DiscriminatorKey → List A → Option B
  | .field _ b, group => if b <+: data then result group else none
  | .size _, _ => none

/-- The members of a group, which has at least one, share the discriminator of the key. -/
theorem group_discriminator {nodes : List A} {d : A → List UInt8}
    {groups : List (DiscriminatorKey × List A)}
    (hgroups : Grouping.GroupedBy (fun a => DiscriminatorKey.field 0 (d a)) nodes groups)
    {key : DiscriminatorKey} {group : List A} (hmem : (key, group) ∈ groups) :
    group ≠ [] ∧ ∃ a ∈ nodes, key = .field 0 (d a) ∧ ∀ b ∈ group, b ∈ nodes ∧ d b = d a := by
  obtain ⟨hgroup, hne⟩ := (hgroups.mem_iff key group).mp hmem
  obtain ⟨a, ha⟩ := List.exists_mem_of_ne_nil group hne
  have hmember : ∀ b ∈ group, b ∈ nodes ∧ DiscriminatorKey.field 0 (d b) = key := by
    intro b hb
    rw [hgroup, List.mem_filter, decide_eq_true_eq] at hb
    exact hb
  refine ⟨hne, a, (hmember a ha).1, (hmember a ha).2.symm, fun b hb => ⟨(hmember b hb).1, ?_⟩⟩
  have hkeys := (hmember b hb).2.trans (hmember a ha).2.symm
  simpa using hkeys

/-- Only the group of the matching nodes can do anything. -/
theorem findSome?_keyResult {nodes : List A} {d : A → List UInt8}
    {groups : List (DiscriminatorKey × List A)}
    (hgroups : Grouping.GroupedBy (fun a => DiscriminatorKey.field 0 (d a)) nodes groups)
    (hinitial : ∀ a ∈ nodes, ∀ b ∈ nodes, d a <+: d b → d a = d b) (data : List UInt8)
    (result : List A → Option B) :
    groups.findSome? (fun entry => keyResult data result entry.1 entry.2) =
      if nodes.filter (fun a => d a <+: data) = [] then none
      else result (nodes.filter fun a => d a <+: data) := by
  by_cases hnone : nodes.filter (fun a => d a <+: data) = []
  · rw [if_pos hnone, List.findSome?_eq_none_iff]
    rintro ⟨key, group⟩ hmem
    obtain ⟨-, a, ha, rfl, -⟩ := group_discriminator hgroups hmem
    have hnot := List.filter_eq_nil_iff.mp hnone a ha
    rw [decide_eq_true_eq] at hnot
    exact if_neg hnot
  · rw [if_neg hnone]
    obtain ⟨first, hfirst⟩ := List.exists_mem_of_ne_nil _ hnone
    rw [List.mem_filter, decide_eq_true_eq] at hfirst
    have hsame : ∀ a ∈ nodes, d a <+: data → d a = d first := fun a ha hmatch =>
      eq_of_prefix hmatch hfirst.2 (hinitial a ha first hfirst.1) (hinitial first hfirst.1 a ha)
    have hfilter : nodes.filter (fun a => DiscriminatorKey.field 0 (d a) =
        DiscriminatorKey.field 0 (d first)) = nodes.filter fun a => d a <+: data := by
      refine List.filter_congr fun a ha => ?_
      rw [decide_eq_decide]
      constructor
      · intro hkey
        have heq : d a = d first := by simpa using hkey
        exact heq ▸ hfirst.2
      · intro hmatch
        rw [hsame a ha hmatch]
    rw [hgroups.findSome?_eq (.field 0 (d first)) (keyResult data result), hfilter, if_neg hnone]
    · exact if_pos hfirst.2
    · intro key group hmem hne
      obtain ⟨-, a, ha, rfl, -⟩ := group_discriminator hgroups hmem
      refine if_neg fun hmatch => hne ?_
      rw [hsame a ha hmatch]

end Matching

section Instructions

variable {R : Type} (codecs : BytesCodecs)
  (parse : InstructionNode → List Pubkey → List UInt8 → Except ParseError R)

/-- What the arms of a group return once its discriminator matches. -/
def groupResult : List InstructionNode → Arm R
  | [ix] => fun accounts data => some (parse ix accounts data)
  | ixs => resolveCollision parse (byCount ixs).toList.reverse

theorem groupMatchArm_eq {group : List InstructionNode} {discriminator : List UInt8}
    (hne : group ≠ []) (hgroup : ∀ ix ∈ group,
      extractIxDiscriminatorInfo codecs ix = .ok (some (prefixInfo discriminator))) :
    ∃ arm, groupMatchArm codecs parse group = .ok (some arm) ∧ ∀ accounts data,
      arm accounts data =
        if discriminator <+: data then groupResult parse group accounts data else none := by
  match group, hne with
  | [ix], _ =>
      have hix := hgroup ix List.mem_cons_self
      refine ⟨_, by simp only [groupMatchArm, singleInstructionMatchArm, hix, bind, Except.bind,
        Option.map_some]; rfl, fun accounts data => ?_⟩
      simp only [prefixInfo_check, decide_eq_true_eq, groupResult]
  | first :: second :: rest, _ =>
      have hfirst := hgroup first List.mem_cons_self
      refine ⟨_, by simp only [groupMatchArm, collisionGroupMatchArm, hfirst, bind, Except.bind]; rfl,
        fun accounts data => ?_⟩
      simp only [prefixInfo_check, decide_eq_true_eq, groupResult]

/-- The chain of arms returns what the group of the matching instructions returns. -/
theorem instructionMatchArms_eq {nodes : List InstructionNode} (d : InstructionNode → List UInt8)
    (hd : ∀ ix ∈ nodes, HasDiscriminator (extractIxDiscriminatorKey codecs ix)
      (extractIxDiscriminatorInfo codecs ix) (d ix))
    (hinitial : ∀ a ∈ nodes, ∀ b ∈ nodes, d a <+: d b → d a = d b) :
    ∃ arms, instructionMatchArms codecs parse nodes = .ok arms ∧ ∀ accounts data,
      arms.findSome? (fun arm => arm accounts data) =
        if nodes.filter (fun ix => d ix <+: data) = [] then none
        else groupResult parse (nodes.filter fun ix => d ix <+: data) accounts data := by
  obtain ⟨groups, hfrom, hgroups⟩ := groupsFrom_grouped
    (Grouping.GroupedBy.nil fun ix => DiscriminatorKey.field 0 (d ix)) fun ix hix => (hd ix hix).key
  rw [List.nil_append] at hgroups
  have harm : ∀ entry ∈ groups, ∃ arm, groupMatchArm codecs parse entry.2 = .ok (some arm) ∧
      ∀ accounts data, arm accounts data =
        keyResult data (fun group => groupResult parse group accounts data) entry.1 entry.2 := by
    rintro ⟨key, group⟩ hmem
    obtain ⟨hne, a, ha, rfl, hmember⟩ := group_discriminator hgroups hmem
    refine groupMatchArm_eq codecs parse hne fun b hb => ?_
    rw [(hd b (hmember b hb).1).info, (hmember b hb).2]
  obtain ⟨arms, hmap, harms⟩ := mapM_arms harm
  refine ⟨arms, ?_, fun accounts data => ?_⟩
  · simp only [instructionMatchArms, hfrom, bind, Except.bind, hmap, List.filterMap_map,
      Function.id_comp, List.filterMap_some]
  · rw [findSome?_arms (harms.imp fun _ _ h => h accounts data)]
    exact findSome?_keyResult hgroups hinitial data _

/-! ## Collision groups -/

/-- The largest account count of the instructions that `n` accounts are enough for. -/
structure LargestCount (ixs : List InstructionNode) (n m : Nat) : Prop where
  attained : ∃ ix ∈ ixs, ix.accounts.length = m
  le : m ≤ n
  largest : ∀ ix ∈ ixs, ix.accounts.length ≤ n → ix.accounts.length ≤ m

/-- The instructions with an account count. -/
def withCount (ixs : List InstructionNode) (m : Nat) : List InstructionNode :=
  ixs.filter fun ix => ix.accounts.length = m

theorem getElem?_byCount (ixs : List InstructionNode) (m : Nat) :
    (byCount ixs)[m]? = if withCount ixs m = [] then none else some (withCount ixs m) := by
  induction ixs using List.reverseRecOn with
  | nil => rfl
  | append_singleton ixs ix ih =>
      have hstep : byCount (ixs ++ [ix]) =
          OrderedMap.upsert (byCount ixs) ix.accounts.length (· ++ [ix]) := by
        simp [byCount]
      by_cases hm : m = ix.accounts.length
      · subst hm
        have hwith : withCount (ixs ++ [ix]) ix.accounts.length =
            withCount ixs ix.accounts.length ++ [ix] := by simp [withCount]
        have hgetD : (byCount ixs).getD ix.accounts.length default =
            withCount ixs ix.accounts.length := by
          rw [Std.ExtTreeMap.getD_eq_getD_getElem?, ih]
          split
          · next hnone =>
              rw [hnone]
              rfl
          · rfl
        rw [hstep, OrderedMap.getElem?_upsert, if_pos rfl, hgetD, hwith, if_neg (by simp)]
      · have hwith : withCount (ixs ++ [ix]) m = withCount ixs m := by
          have hm' : ¬ix.accounts.length = m := fun h => hm h.symm
          simp [withCount, hm']
        rw [hstep, OrderedMap.getElem?_upsert, if_neg hm, ih, hwith]

theorem withCount_ne_nil {ixs : List InstructionNode} {m : Nat} :
    withCount ixs m ≠ [] ↔ ∃ ix ∈ ixs, ix.accounts.length = m := by
  rw [withCount, ne_eq, List.filter_eq_nil_iff]
  push Not
  simp only [decide_eq_true_eq]

/-- The entries of the map are the groups by account count. -/
theorem mem_toList_byCount {ixs : List InstructionNode} {m : Nat} {group : List InstructionNode} :
    (m, group) ∈ (byCount ixs).toList ↔ group = withCount ixs m ∧ withCount ixs m ≠ [] := by
  rw [Std.ExtTreeMap.mem_toList_iff_getElem?_eq_some, getElem?_byCount]
  split
  · next hnone => simp [hnone]
  · next hne =>
      rw [Option.some.injEq]
      exact ⟨fun h => ⟨h.symm, hne⟩, fun h => h.1.symm⟩

theorem find?_counts_some {ixs : List InstructionNode} {n m : Nat} {group : List InstructionNode}
    (h : (byCount ixs).toList.reverse.find? (fun e => decide (e.1 ≤ n)) = some (m, group)) :
    LargestCount ixs n m ∧ group = withCount ixs m := by
  obtain ⟨hget, hle, habove⟩ := OrderedMap.find?_reverse_toList (p := fun c => decide (c ≤ n)) h
  obtain ⟨hgroup, hne⟩ := mem_toList_byCount.mp
    (Std.ExtTreeMap.mem_toList_iff_getElem?_eq_some.mpr hget)
  refine ⟨⟨withCount_ne_nil.mp hne, by simpa using hle, fun ix hix hn => ?_⟩, hgroup⟩
  by_contra hlt
  have hmem := mem_toList_byCount.mpr ⟨rfl, withCount_ne_nil.mpr ⟨ix, hix, rfl⟩⟩
  have hfalse := habove _ _ (Std.ExtTreeMap.mem_toList_iff_getElem?_eq_some.mp hmem)
    (Nat.compare_eq_lt.mpr (by omega))
  simp only [decide_eq_false_iff_not] at hfalse
  exact hfalse hn

theorem find?_counts_none {ixs : List InstructionNode} {n : Nat}
    (h : (byCount ixs).toList.reverse.find? (fun e => decide (e.1 ≤ n)) = none) :
    ∀ ix ∈ ixs, n < ix.accounts.length := by
  intro ix hix
  have hmem := mem_toList_byCount.mpr ⟨rfl, withCount_ne_nil.mpr ⟨ix, hix, rfl⟩⟩
  have hnot := List.find?_eq_none.mp h _ (List.mem_reverse.mpr hmem)
  simpa using hnot

theorem LargestCount.unique {ixs : List InstructionNode} {n m m' : Nat}
    (h : LargestCount ixs n m) (h' : LargestCount ixs n m') : m = m' := by
  obtain ⟨ix, hix, rfl⟩ := h.attained
  obtain ⟨ix', hix', rfl⟩ := h'.attained
  exact Nat.le_antisymm (h'.largest ix hix h.le) (h.largest ix' hix' h'.le)

/-- Two instructions of the list share an account count. -/
def SharesCount (ixs : List InstructionNode) : Prop := ∃ m, 2 ≤ (withCount ixs m).length

/-- What a collision group does, by the account counts of its members. -/
structure CollisionResult (ixs : List InstructionNode) (accounts : List Pubkey)
    (data : List UInt8) (result : Option (Except ParseError R)) : Prop where
  largest : ∀ m v, LargestCount ixs accounts.length m → withCount ixs m = [v] →
    result = some (parse v accounts data)
  shared : ∀ m, LargestCount ixs accounts.length m → 2 ≤ (withCount ixs m).length →
    ∃ names, result = some (.error (ambiguousError names))
  tooFew : (∀ ix ∈ ixs, accounts.length < ix.accounts.length) → SharesCount ixs →
    ∃ names, result = some (.error (ambiguousError names))
  fallThrough : (∀ ix ∈ ixs, accounts.length < ix.accounts.length) → ¬SharesCount ixs →
    result = none

theorem length_ne_one_iff {group : List InstructionNode} (hne : group ≠ []) :
    group.length ≠ 1 ↔ 2 ≤ group.length := by
  have hpos := List.length_pos_of_ne_nil hne
  omega

/-- Names of ambiguous instructions are collected if and only if two share a count. -/
theorem ambiguous_isEmpty_iff (ixs : List InstructionNode) :
    ((byCount ixs).toList.reverse.flatMap fun e =>
        if e.2.length = 1 then [] else e.2.map InstructionNode.name).isEmpty = true ↔
      ¬SharesCount ixs := by
  rw [List.isEmpty_iff, List.flatMap_eq_nil_iff]
  constructor
  · rintro hnil ⟨m, hm⟩
    have hne : withCount ixs m ≠ [] := by
      rintro hnone
      simp [hnone] at hm
    have hentry := hnil (m, withCount ixs m)
      (List.mem_reverse.mpr (mem_toList_byCount.mpr ⟨rfl, hne⟩))
    rw [if_neg (by simp only; omega)] at hentry
    exact hne (List.map_eq_nil_iff.mp hentry)
  · rintro hnot ⟨m, group⟩ hmem
    obtain ⟨rfl, hne⟩ := mem_toList_byCount.mp (List.mem_reverse.mp hmem)
    refine if_pos ?_
    by_contra hlength
    exact hnot ⟨m, (length_ne_one_iff hne).mp hlength⟩

theorem resolveCollision_result (ixs : List InstructionNode) (accounts : List Pubkey)
    (data : List UInt8) :
    CollisionResult parse ixs accounts data
      (resolveCollision parse (byCount ixs).toList.reverse accounts data) := by
  rw [resolveCollision]
  cases hfind : (byCount ixs).toList.reverse.find? (fun e => decide (e.1 ≤ accounts.length)) with
  | some entry =>
      obtain ⟨m, group⟩ := entry
      obtain ⟨hlargest, rfl⟩ := find?_counts_some hfind
      have hfew : ¬∀ ix ∈ ixs, accounts.length < ix.accounts.length := by
        intro hall
        obtain ⟨ix, hix, hm⟩ := hlargest.attained
        have hlt := hall ix hix
        have hle := hlargest.le
        omega
      refine ⟨fun m' v hm' hv => ?_, fun m' hm' htwo => ?_, fun hall => absurd hall hfew,
        fun hall => absurd hall hfew⟩
      · obtain rfl := hm'.unique hlargest
        simp only [hv]
      · obtain rfl := hm'.unique hlargest
        match hgroup : withCount ixs m', htwo with
        | first :: second :: rest, _ => exact ⟨_, rfl⟩
  | none =>
      have hall := find?_counts_none hfind
      have hno : ∀ m, ¬LargestCount ixs accounts.length m := by
        intro m hm
        obtain ⟨ix, hix, rfl⟩ := hm.attained
        have hlt := hall ix hix
        have hle := hm.le
        omega
      refine ⟨fun m _ hm => absurd hm (hno m), fun m hm => absurd hm (hno m), fun _ hshares => ?_,
        fun _ hnot => ?_⟩
      · have hempty := mt (ambiguous_isEmpty_iff ixs).mp (not_not.mpr hshares)
        exact ⟨_, if_neg hempty⟩
      · exact if_pos ((ambiguous_isEmpty_iff ixs).mpr hnot)

theorem exists_largestCount {ixs : List InstructionNode} {n : Nat}
    (h : ¬∀ ix ∈ ixs, n < ix.accounts.length) : ∃ m, LargestCount ixs n m := by
  cases hfind : (byCount ixs).toList.reverse.find? (fun e => decide (e.1 ≤ n)) with
  | none => exact absurd (find?_counts_none hfind) h
  | some entry => exact ⟨entry.1, (find?_counts_some hfind).1⟩

/-! ## Instructions of an accepted IDL -/

/-- The kind of an error, without its text. -/
inductive ParseErrorKind
  | filtered
  | discriminatorNotFound
  | other
deriving DecidableEq

def ParseError.kind : ParseError → ParseErrorKind
  | .filtered => .filtered
  | .discriminatorNotFound _ => .discriminatorNotFound
  | .other _ => .other

/-- Equal results, or errors of one kind. -/
def SameUpToText (r r' : Except ParseError R) : Prop :=
  r = r' ∨ ∃ e e', r = .error e ∧ r' = .error e' ∧ e.kind = e'.kind

/-- What dispatch returns, given the instructions whose discriminator the data starts with. -/
structure DispatchResult (debug : Path → List Char) (matched : List InstructionNode)
    (accounts : List Pubkey) (data : List UInt8) (path : Path)
    (result : Except ParseError R) : Prop where
  notFound : matched = [] → result = .error (.discriminatorNotFound (notFoundMessage debug path))
  single : ∀ v, matched = [v] → result = parse v accounts data
  largest : ∀ m v, 2 ≤ matched.length → LargestCount matched accounts.length m →
    withCount matched m = [v] → result = parse v accounts data
  ambiguous : ∀ m, 2 ≤ matched.length → LargestCount matched accounts.length m →
    2 ≤ (withCount matched m).length → ∃ names, result = .error (ambiguousError names)
  tooFewShared : 2 ≤ matched.length → (∀ v ∈ matched, accounts.length < v.accounts.length) →
    SharesCount matched → ∃ names, result = .error (ambiguousError names)
  tooFewDistinct : 2 ≤ matched.length → (∀ v ∈ matched, accounts.length < v.accounts.length) →
    ¬SharesCount matched →
    result = .error (.discriminatorNotFound (notFoundMessage debug path))

theorem groupResult_dispatches (debug : Path → List Char) (matched : List InstructionNode)
    (accounts : List Pubkey) (data : List UInt8) (path : Path) :
    DispatchResult parse debug matched accounts data path
      ((if matched = [] then none else groupResult parse matched accounts data).getD
        (.error (.discriminatorNotFound (notFoundMessage debug path)))) := by
  match matched with
  | [] => exact ⟨fun _ => rfl, by simp, by simp, by simp, by simp, by simp⟩
  | [ix] =>
      refine ⟨by simp, ?_, by simp, by simp, by simp, by simp⟩
      rintro v hv
      cases hv
      rfl
  | first :: second :: rest =>
      have hresult := resolveCollision_result parse (first :: second :: rest) accounts data
      rw [if_neg (by simp)]
      simp only [groupResult]
      refine ⟨by simp, by simp, fun m v _ hm hv => ?_, fun m _ hm htwo => ?_,
        fun _ hall hshares => ?_, fun _ hall hnot => ?_⟩
      · rw [hresult.largest m v hm hv]
        rfl
      · obtain ⟨names, heq⟩ := hresult.shared m hm htwo
        exact ⟨names, by rw [heq]; rfl⟩
      · obtain ⟨names, heq⟩ := hresult.tooFew hall hshares
        exact ⟨names, by rw [heq]; rfl⟩
      · rw [hresult.fallThrough hall hnot]
        rfl

section Perm

variable {ixs ixs' : List InstructionNode} (hperm : ixs.Perm ixs')
include hperm

theorem LargestCount.perm {n m : Nat} (h : LargestCount ixs n m) : LargestCount ixs' n m where
  attained := by
    obtain ⟨ix, hix, hm⟩ := h.attained
    exact ⟨ix, hperm.mem_iff.mp hix, hm⟩
  le := h.le
  largest := fun ix hix => h.largest ix (hperm.mem_iff.mpr hix)

theorem withCount_perm (m : Nat) : (withCount ixs m).Perm (withCount ixs' m) := hperm.filter _

theorem SharesCount.perm (h : SharesCount ixs) : SharesCount ixs' := by
  obtain ⟨m, hm⟩ := h
  exact ⟨m, (withCount_perm hperm m).length_eq ▸ hm⟩

end Perm

/-- The result depends on the order of the matching instructions only in its error text. -/
theorem DispatchResult.sameUpToText {debug : Path → List Char} {ixs ixs' : List InstructionNode}
    {accounts : List Pubkey} {data : List UInt8} {path : Path} {r r' : Except ParseError R}
    (h : DispatchResult parse debug ixs accounts data path r)
    (h' : DispatchResult parse debug ixs' accounts data path r') (hperm : ixs.Perm ixs') :
    SameUpToText r r' := by
  have hlength := hperm.length_eq
  match ixs with
  | [] =>
      have hnil := List.nil_perm.mp hperm
      exact Or.inl ((h.notFound rfl).trans (h'.notFound hnil).symm)
  | [v] =>
      have hsingle := List.singleton_perm.mp hperm
      exact Or.inl ((h.single v rfl).trans (h'.single v hsingle.symm).symm)
  | first :: second :: rest =>
      have htwo : 2 ≤ (first :: second :: rest).length := by simp
      have htwo' : 2 ≤ ixs'.length := hlength ▸ htwo
      have hambiguous : (∃ names, r = .error (ambiguousError names)) →
          (∃ names, r' = .error (ambiguousError names)) → SameUpToText r r' := by
        rintro ⟨names, hr⟩ ⟨names', hr'⟩
        exact Or.inr ⟨_, _, hr, hr', rfl⟩
      by_cases hfew : ∀ v ∈ first :: second :: rest, accounts.length < v.accounts.length
      · have hfew' : ∀ v ∈ ixs', accounts.length < v.accounts.length :=
          fun v hv => hfew v (hperm.mem_iff.mpr hv)
        by_cases hshares : SharesCount (first :: second :: rest)
        · exact hambiguous (h.tooFewShared htwo hfew hshares)
            (h'.tooFewShared htwo' hfew' (hshares.perm hperm))
        · have hshares' : ¬SharesCount ixs' := fun hs => hshares (hs.perm hperm.symm)
          exact Or.inl ((h.tooFewDistinct htwo hfew hshares).trans
            (h'.tooFewDistinct htwo' hfew' hshares').symm)
      · obtain ⟨m, hm⟩ := exists_largestCount hfew
        have hm' := hm.perm hperm
        have hcount := withCount_perm hperm m
        have hne := withCount_ne_nil.mpr hm.attained
        match hwith : withCount (first :: second :: rest) m with
        | [] => exact absurd hwith hne
        | [v] =>
            rw [hwith, List.singleton_perm] at hcount
            exact Or.inl ((h.largest m v htwo hm hwith).trans
              (h'.largest m v htwo' hm' hcount.symm).symm)
        | a :: b :: more =>
            have hshared : 2 ≤ (withCount (first :: second :: rest) m).length := by simp [hwith]
            exact hambiguous (h.ambiguous m htwo hm hshared)
              (h'.ambiguous m htwo' hm' (hcount.length_eq ▸ hshared))

end Instructions

/-- The bytes of the key that the generator finds. -/
def keyBytes : Gen (Option DiscriminatorKey) → List UInt8
  | .ok (some (.field _ bytes)) => bytes
  | _ => []

/-- An instruction of an IDL with the node it was converted to. -/
structure AnchorInstruction where
  item : Item
  accounts : List InstructionAccountNode
  args : List InstructionArgumentNode
  node : InstructionNode
  converted : instructionNode item accounts args = .ok node

namespace AnchorInstruction

variable (codecs : BytesCodecs) {program : List AnchorInstruction}

/-- The nodes of the instructions whose discriminator the data starts with. -/
def matched (program : List AnchorInstruction) (data : List UInt8) : List InstructionNode :=
  (program.filter fun ix => ix.item.discriminator <+: data).map node

theorem keyBytes_node (ix : AnchorInstruction) :
    keyBytes (extractIxDiscriminatorKey codecs ix.node) = ix.item.discriminator := by
  rw [(instructionNode_hasDiscriminator codecs ix.converted).key, keyBytes]

theorem matched_eq (program : List AnchorInstruction) (data : List UInt8) :
    (program.map node).filter (fun ix => keyBytes (extractIxDiscriminatorKey codecs ix) <+: data) =
      matched program data := by
  rw [List.filter_map, matched]
  congr 2
  funext ix
  simp only [Function.comp_apply, keyBytes_node]

/-- Dispatch over an accepted program, in the order of its instructions. -/
theorem resolve_dispatches {R : Type}
    (parse : InstructionNode → List Pubkey → List UInt8 → Except ParseError R)
    (debug : Path → List Char)
    (hinitial : ∀ v ∈ program, ∀ w ∈ program, v.item.discriminator <+: w.item.discriminator →
      v.item.discriminator = w.item.discriminator) :
    ∃ resolve, resolveInstructionDefault codecs parse debug (program.map node) = .ok resolve ∧
      ∀ accounts data path, DispatchResult parse debug (matched program data) accounts data path
        (resolve accounts data path) := by
  have hd : ∀ ix ∈ program.map node, HasDiscriminator (extractIxDiscriminatorKey codecs ix)
      (extractIxDiscriminatorInfo codecs ix) (keyBytes (extractIxDiscriminatorKey codecs ix)) := by
    intro ix hix
    obtain ⟨v, -, rfl⟩ := List.mem_map.mp hix
    rw [keyBytes_node]
    exact instructionNode_hasDiscriminator codecs v.converted
  have hnodes : ∀ a ∈ program.map node, ∀ b ∈ program.map node,
      keyBytes (extractIxDiscriminatorKey codecs a) <+: keyBytes (extractIxDiscriminatorKey codecs b) →
        keyBytes (extractIxDiscriminatorKey codecs a) =
          keyBytes (extractIxDiscriminatorKey codecs b) := by
    intro a ha b hb hab
    obtain ⟨v, hv, rfl⟩ := List.mem_map.mp ha
    obtain ⟨w, hw, rfl⟩ := List.mem_map.mp hb
    rw [keyBytes_node, keyBytes_node] at hab ⊢
    exact hinitial v hv w hw hab
  obtain ⟨arms, harms, hfind⟩ := instructionMatchArms_eq codecs parse _ hd hnodes
  refine ⟨_, by rw [resolveInstructionDefault, harms]; rfl, fun accounts data path => ?_⟩
  simp only [hfind, matched_eq]
  exact groupResult_dispatches parse debug (matched program data) accounts data path

/-- The result for an accepted program, and that any other order of its instructions gives
the same one up to error text. -/
theorem resolve_perm {R : Type}
    (parse : InstructionNode → List Pubkey → List UInt8 → Except ParseError R)
    (debug : Path → List Char) {program' : List AnchorInstruction} (hperm : program.Perm program')
    (hcheck : checkItems .instruction (program.map item) = .ok ()) :
    ∃ resolve resolve', resolveInstructionDefault codecs parse debug (program.map node) = .ok resolve ∧
      resolveInstructionDefault codecs parse debug (program'.map node) = .ok resolve' ∧
      ∀ accounts data path,
        DispatchResult parse debug (matched program data) accounts data path
          (resolve accounts data path) ∧
        SameUpToText (resolve accounts data path) (resolve' accounts data path) := by
  have hinitial : ∀ v ∈ program, ∀ w ∈ program, v.item.discriminator <+: w.item.discriminator →
      v.item.discriminator = w.item.discriminator := fun v hv w hw =>
    checkItems_prefix hcheck (List.mem_map_of_mem hv) (List.mem_map_of_mem hw)
  obtain ⟨resolve, heq, hresult⟩ := resolve_dispatches codecs parse debug hinitial
  obtain ⟨resolve', heq', hresult'⟩ := resolve_dispatches codecs parse debug
    fun v hv w hw => hinitial v (hperm.mem_iff.mpr hv) w (hperm.mem_iff.mpr hw)
  refine ⟨resolve, resolve', heq, heq', fun accounts data path => ⟨hresult .., ?_⟩⟩
  exact (hresult accounts data path).sameUpToText parse (hresult' accounts data path)
    ((hperm.filter _).map node)

end AnchorInstruction

/-! ## Accounts and events of an accepted IDL -/

theorem nodup_map_iff {A : Type} {items : List A} {d : A → List UInt8} :
    (items.map d).Nodup ↔ ∀ b, (items.filter fun a => d a = b).length ≤ 1 := by
  rw [List.nodup_iff_count_le_one]
  refine forall_congr' fun b => ?_
  rw [List.count, List.countP_map, List.countP_eq_length_filter]
  simp only [Function.comp_def, beq_eq_decide]

/-- Distinct discriminators, none a proper prefix of another: at most one item matches. -/
theorem length_matching_le_one {A : Type} {items : List A} {d : A → List UInt8}
    (hnodup : (items.map d).Nodup)
    (hinitial : ∀ a ∈ items, ∀ b ∈ items, d a <+: d b → d a = d b) (data : List UInt8) :
    (items.filter fun a => d a <+: data).length ≤ 1 := by
  have hfilter : ((items.filter fun a => d a <+: data).map d).Nodup :=
    hnodup.sublist (List.filter_sublist.map d)
  match hmatched : items.filter fun a => d a <+: data with
  | [] => simp
  | [a] => simp
  | a :: b :: rest =>
      have hmem : ∀ c ∈ a :: b :: rest, c ∈ items ∧ d c <+: data := by
        intro c hc
        rw [← hmatched, List.mem_filter, decide_eq_true_eq] at hc
        exact hc
      have ha := hmem a (by simp)
      have hb := hmem b (by simp)
      have hsame := eq_of_prefix ha.2 hb.2 (hinitial a ha.1 b hb.1) (hinitial b hb.1 a ha.1)
      rw [hmatched] at hfilter
      simp [hsame] at hfilter

/-- A chain of arms of which at most one matches returns what that one returns. -/
theorem findSome?_matching {A B : Type} {items : List A} {p : A → Bool} (f : A → B)
    (h : (items.filter p).length ≤ 1) :
    items.findSome? (fun a => if p a then some (f a) else none) =
      match items.filter p with
      | [] => none
      | a :: _ => some (f a) := by
  induction items with
  | nil => rfl
  | cons a items ih =>
      cases hp : p a with
      | true => simp [hp]
      | false =>
          rw [List.filter_cons_of_neg (by simp [hp])] at h ⊢
          rw [List.findSome?_cons]
          simp only [hp, Bool.false_eq_true, if_false]
          exact ih h

/-- An account of an IDL with the node it was converted to. -/
structure AnchorAccount where
  item : Item
  fields : List StructFieldTypeNode
  node : AccountNode
  converted : accountNode item fields = .ok node

namespace AnchorAccount

/-- The accounts whose discriminator the data starts with. -/
def matched (accounts : List AnchorAccount) (data : List UInt8) : List AnchorAccount :=
  accounts.filter fun account => account.item.discriminator <+: data

/-- At most one account type matches, and the data after its discriminator is decoded as it. -/
theorem tryUnpack_matched (codecs : BytesCodecs) {R : Type}
    (deserialize : AccountNode → List UInt8 → Except ParseError R) (unknown : List Char)
    {accounts accounts' : List AnchorAccount} (hperm : accounts.Perm accounts')
    (hcheck : checkItems .account (accounts.map item) = .ok ()) :
    ∃ unpack, tryUnpack codecs deserialize unknown (accounts'.map node) = .ok unpack ∧
      ∀ data, (matched accounts data).length ≤ 1 ∧ unpack data =
        match matched accounts data with
        | [] => .error (.other unknown)
        | account :: _ => deserialize account.node (data.drop account.item.discriminator.length) := by
  have hlength : ∀ data, (matched accounts data).length ≤ 1 := by
    refine length_matching_le_one ?_ fun v hv w hw =>
      checkItems_prefix hcheck (List.mem_map_of_mem hv) (List.mem_map_of_mem hw)
    have hnodup := checkItems_account_nodup hcheck
    rwa [List.map_map] at hnodup
  have hmatched : ∀ data, matched accounts' data = matched accounts data := by
    intro data
    have hfilter : (matched accounts data).Perm (matched accounts' data) := hperm.filter _
    match hlist : matched accounts data, hlength data with
    | [], _ => exact List.nil_perm.mp (hlist ▸ hfilter)
    | [account], _ => exact (List.singleton_perm.mp (hlist ▸ hfilter)).symm
  have harm : ∀ account ∈ accounts', ∃ arm,
      accountMatchArm codecs deserialize account.node = .ok (some arm) ∧ ∀ data, arm data =
        if decide (account.item.discriminator <+: data) then
          some (deserialize account.node (data.drop account.item.discriminator.length))
        else none := by
    intro account _
    obtain ⟨check, htest, hcheck⟩ := accountNode_test codecs account.converted
    refine ⟨_, by rw [accountMatchArm, htest]; rfl, fun data => ?_⟩
    simp only [hcheck]
  obtain ⟨arms, hmap, harms⟩ := mapM_arms harm
  have hunpack : tryUnpack codecs deserialize unknown (accounts'.map node) = .ok fun data =>
      (arms.findSome? fun arm => arm data).getD (.error (.other unknown)) := by
    rw [tryUnpack, List.mapM_map, Function.comp_def, hmap]
    simp only [bind, Except.bind, List.filterMap_map, Function.id_comp, List.filterMap_some]
  refine ⟨_, hunpack, fun data => ⟨hlength data, ?_⟩⟩
  have hfilter : accounts'.filter (fun account => account.item.discriminator <+: data) =
      matched accounts data := hmatched data
  rw [findSome?_arms (harms.imp fun _ _ h => h data), findSome?_matching
    (fun account : AnchorAccount =>
      deserialize account.node (data.drop account.item.discriminator.length))
    (hfilter ▸ hlength data), hfilter]
  cases matched accounts data <;> rfl

end AnchorAccount

/-- An event of an IDL with the node it was converted to. -/
structure AnchorEvent where
  item : Item
  fields : List StructFieldTypeNode
  node : EventNode
  converted : eventNode item fields = .ok node

namespace AnchorEvent

/-- The events whose discriminator the data starts with. -/
def matched (events : List AnchorEvent) (data : List UInt8) : List AnchorEvent :=
  events.filter fun event => event.item.discriminator <+: data

variable (codecs : BytesCodecs) {R : Type}
  (parse : EventNode → List Pubkey → List UInt8 → Except ParseError R)

/-- Groups of one event each give an arm each. -/
theorem eventGroupArms_single {groups : List (DiscriminatorKey × List EventNode)}
    (h : ∀ entry ∈ groups, ∃ event b, entry.2 = [event] ∧ entry.1 = .field 0 b ∧
      extractEventDiscriminatorInfo codecs event = .ok (some (prefixInfo b))) :
    ∃ arms, eventGroupArms codecs parse groups = .ok (.arms arms) ∧ ∀ accounts data,
      arms.findSome? (fun arm => arm accounts data) = groups.findSome? fun entry =>
        keyResult data (fun group => group.head?.map fun event => parse event accounts data)
          entry.1 entry.2 := by
  induction groups with
  | nil => exact ⟨[], rfl, fun accounts data => rfl⟩
  | cons entry groups ih =>
      rw [List.forall_mem_cons] at h
      obtain ⟨key, group⟩ := entry
      obtain ⟨event, b, rfl, rfl, hinfo⟩ := h.1
      obtain ⟨arms, harms, hfind⟩ := ih h.2
      refine ⟨_, by
        simp only [eventGroupArms, singleEventMatchArm, hinfo, bind, Except.bind, harms]
        rfl, fun accounts data => ?_⟩
      simp only [Option.map_some, Option.toList_some, List.singleton_append, List.findSome?_cons,
        hfind, prefixInfo_check, decide_eq_true_eq, keyResult, List.head?_cons]

/-- A group of several events is a `compile_error!`. -/
theorem eventGroupArms_several {groups : List (DiscriminatorKey × List EventNode)}
    (hinfo : ∀ entry ∈ groups, ∀ event ∈ entry.2,
      ∃ i, extractEventDiscriminatorInfo codecs event = .ok (some i))
    (h : ∃ entry ∈ groups, entry.2.length ≠ 1) :
    eventGroupArms codecs parse groups = .ok .compileError := by
  induction groups with
  | nil =>
      obtain ⟨entry, hentry, -⟩ := h
      cases hentry
  | cons entry groups ih =>
      rw [List.forall_mem_cons] at hinfo
      obtain ⟨key, group⟩ := entry
      match group with
      | [] => rfl
      | first :: second :: rest => rfl
      | [event] =>
          obtain ⟨i, hi⟩ := hinfo.1 event (List.mem_singleton_self event)
          have hrest : ∃ entry ∈ groups, entry.2.length ≠ 1 := by
            obtain ⟨entry, hentry, hlength⟩ := h
            obtain rfl | hentry := List.mem_cons.mp hentry
            · exact absurd rfl hlength
            · exact ⟨entry, hentry, hlength⟩
          simp only [eventGroupArms, singleEventMatchArm, hi, bind, Except.bind,
            ih hinfo.2 hrest]

theorem keyBytes_node (event : AnchorEvent) :
    keyBytes (extractEventDiscriminatorKey codecs event.node) = event.item.discriminator := by
  rw [(eventNode_hasDiscriminator codecs event.converted).key, keyBytes]

/-- The event parser compiles if and only if no two events share a discriminator. Then at
most one event matches any data, and the data is decoded as it. -/
theorem eventMatchArms_matched {events events' : List AnchorEvent} (hperm : events.Perm events')
    (hcheck : checkItems .event (events.map item) = .ok ()) :
    (¬((events.map fun event => event.item.discriminator).Nodup) ∧
        eventMatchArms codecs parse (events'.map node) = .ok .compileError) ∨
      (∃ arms, eventMatchArms codecs parse (events'.map node) = .ok (.arms arms) ∧
        ∀ accounts data, (matched events data).length ≤ 1 ∧
          arms.findSome? (fun arm => arm accounts data) =
            (matched events data).head?.map fun event => parse event.node accounts data) := by
  have hinitial : ∀ v ∈ events, ∀ w ∈ events, v.item.discriminator <+: w.item.discriminator →
      v.item.discriminator = w.item.discriminator := fun v hv w hw =>
    checkItems_prefix hcheck (List.mem_map_of_mem hv) (List.mem_map_of_mem hw)
  let d := fun event => keyBytes (extractEventDiscriminatorKey codecs event)
  have hd : ∀ event ∈ events'.map node, HasDiscriminator (extractEventDiscriminatorKey codecs event)
      (extractEventDiscriminatorInfo codecs event) (d event) := by
    intro event hevent
    obtain ⟨v, -, rfl⟩ := List.mem_map.mp hevent
    simp only [d, keyBytes_node]
    exact eventNode_hasDiscriminator codecs v.converted
  obtain ⟨groups, hfrom, hgroups⟩ := groupsFrom_grouped
    (Grouping.GroupedBy.nil fun event => DiscriminatorKey.field 0 (d event))
    fun event hevent => (hd event hevent).key
  rw [List.nil_append] at hgroups
  have hgroup : ∀ entry ∈ groups, ∃ b, entry.1 = .field 0 b ∧
      entry.2 = (events'.map node).filter (fun event => d event = b) ∧ entry.2 ≠ [] := by
    rintro ⟨key, group⟩ hmem
    obtain ⟨hne, event, -, rfl, -⟩ := group_discriminator hgroups hmem
    refine ⟨d event, rfl, ?_, hne⟩
    rw [((hgroups.mem_iff _ _).mp hmem).1]
    simp only [DiscriminatorKey.field.injEq, true_and]
  have harms : eventMatchArms codecs parse (events'.map node) =
      eventGroupArms codecs parse groups := by
    simp only [eventMatchArms, hfrom, bind, Except.bind]
  have hdiscriminators : (events'.map node).map d =
      events'.map fun event => event.item.discriminator := by
    simp only [List.map_map, d, Function.comp_def, keyBytes_node]
  have hnodup : ((events'.map node).map d).Nodup ↔
      (events.map fun event => event.item.discriminator).Nodup := by
    rw [hdiscriminators]
    exact ((hperm.map _).nodup_iff).symm
  rw [harms]
  by_cases hdistinct : (events.map fun event => event.item.discriminator).Nodup
  · right
    have hsmall := nodup_map_iff.mp (hnodup.mpr hdistinct)
    have hsingle : ∀ entry ∈ groups, ∃ event b, entry.2 = [event] ∧ entry.1 = .field 0 b ∧
        extractEventDiscriminatorInfo codecs event = .ok (some (prefixInfo b)) := by
      intro entry hentry
      obtain ⟨b, hkey, hfilter, hne⟩ := hgroup entry hentry
      obtain ⟨event, hevent⟩ : ∃ event, entry.2 = [event] := by
        rw [← List.length_eq_one_iff]
        have hpos := List.length_pos_of_ne_nil hne
        have hle := hsmall b
        rw [← hfilter] at hle
        omega
      refine ⟨event, b, hevent, hkey, ?_⟩
      have hmem : event ∈ (events'.map node).filter fun event => d event = b := by
        rw [← hfilter, hevent]
        exact List.mem_singleton_self event
      rw [List.mem_filter, decide_eq_true_eq] at hmem
      rw [(hd event hmem.1).info, hmem.2]
    obtain ⟨arms, heq, hfind⟩ := eventGroupArms_single codecs parse hsingle
    refine ⟨arms, heq, fun accounts data => ?_⟩
    have hlength : (matched events data).length ≤ 1 := length_matching_le_one hdistinct hinitial data
    refine ⟨hlength, ?_⟩
    have hmatched : matched events' data = matched events data := by
      have hfilter : (matched events data).Perm (matched events' data) := hperm.filter _
      match hlist : matched events data, hlength with
      | [], _ => exact List.nil_perm.mp (hlist ▸ hfilter)
      | [event], _ => exact (List.singleton_perm.mp (hlist ▸ hfilter)).symm
    have hnodes : (events'.map node).filter (fun event => d event <+: data) =
        (matched events data).map node := by
      rw [← hmatched, List.filter_map, matched]
      congr 2
      funext event
      simp only [Function.comp_apply, d, keyBytes_node]
    have hinitial' : ∀ a ∈ events'.map node, ∀ b ∈ events'.map node, d a <+: d b → d a = d b := by
      intro a ha b hb hab
      obtain ⟨v, hv, rfl⟩ := List.mem_map.mp ha
      obtain ⟨w, hw, rfl⟩ := List.mem_map.mp hb
      simp only [d, keyBytes_node] at hab ⊢
      exact hinitial v (hperm.mem_iff.mpr hv) w (hperm.mem_iff.mpr hw) hab
    rw [hfind, findSome?_keyResult hgroups hinitial', hnodes]
    cases matched events data <;> simp
  · left
    refine ⟨hdistinct, eventGroupArms_several codecs parse ?_ ?_⟩
    · intro entry hentry event hevent
      obtain ⟨b, -, hfilter, -⟩ := hgroup entry hentry
      rw [hfilter] at hevent
      exact ⟨_, (hd event (List.mem_filter.mp hevent).1).info⟩
    · have hmany := mt (nodup_map_iff.mpr) (fun h => hdistinct (hnodup.mp h))
      push Not at hmany
      obtain ⟨b, hb⟩ := hmany
      refine ⟨(.field 0 b, (events'.map node).filter fun event => d event = b), ?_, ?_⟩
      · refine (hgroups.mem_iff _ _).mpr ⟨?_, ?_⟩
        · simp only [DiscriminatorKey.field.injEq, true_and]
        · rintro hnil
          rw [hnil] at hb
          simp at hb
      · simp only
        omega

end AnchorEvent

/-- For the items of an accepted IDL: dispatch of instructions is as `DispatchResult` says, in
any order of the instructions; at most one account type matches any data; and at most one
event does, unless two events share a discriminator and the parser does not compile. -/
theorem anchor_dispatch_unambiguous (codecs : BytesCodecs) {R A E : Type}
    (parse : InstructionNode → List Pubkey → List UInt8 → Except ParseError R)
    (debug : Path → List Char) (program program' : List AnchorInstruction)
    (hprogram : program.Perm program')
    (hinstructions : checkItems .instruction (program.map AnchorInstruction.item) = .ok ())
    (deserialize : AccountNode → List UInt8 → Except ParseError A) (unknown : List Char)
    (accounts accounts' : List AnchorAccount) (haccountOrder : accounts.Perm accounts')
    (haccounts : checkItems .account (accounts.map AnchorAccount.item) = .ok ())
    (parseEvent : EventNode → List Pubkey → List UInt8 → Except ParseError E)
    (events events' : List AnchorEvent) (heventOrder : events.Perm events')
    (hevents : checkItems .event (events.map AnchorEvent.item) = .ok ()) :
    (∃ resolve resolve',
      resolveInstructionDefault codecs parse debug (program.map AnchorInstruction.node) = .ok resolve ∧
      resolveInstructionDefault codecs parse debug (program'.map AnchorInstruction.node) =
        .ok resolve' ∧
      ∀ keys data path,
        DispatchResult parse debug (AnchorInstruction.matched program data) keys data path
          (resolve keys data path) ∧
        SameUpToText (resolve keys data path) (resolve' keys data path)) ∧
    (∃ unpack, tryUnpack codecs deserialize unknown (accounts'.map AnchorAccount.node) = .ok unpack ∧
      ∀ data, (AnchorAccount.matched accounts data).length ≤ 1 ∧ unpack data =
        match AnchorAccount.matched accounts data with
        | [] => .error (.other unknown)
        | account :: _ => deserialize account.node (data.drop account.item.discriminator.length)) ∧
    ((¬((events.map fun event => event.item.discriminator).Nodup) ∧
        eventMatchArms codecs parseEvent (events'.map AnchorEvent.node) = .ok .compileError) ∨
      (∃ arms, eventMatchArms codecs parseEvent (events'.map AnchorEvent.node) = .ok (.arms arms) ∧
        ∀ keys data, (AnchorEvent.matched events data).length ≤ 1 ∧
          arms.findSome? (fun arm => arm keys data) =
            (AnchorEvent.matched events data).head?.map fun event =>
              parseEvent event.node keys data)) :=
  ⟨AnchorInstruction.resolve_perm codecs parse debug hprogram hinstructions,
    AnchorAccount.tryUnpack_matched codecs deserialize unknown haccountOrder haccounts,
    AnchorEvent.eventMatchArms_matched codecs parseEvent heventOrder hevents⟩

/-- Two versions of an instruction with one discriminator, the second with an account more. -/
def swapVersions : List AnchorInstruction :=
  [{ item := ⟨"swap".toList, [1, 2]⟩
     accounts := []
     args := []
     node := ⟨"swap".toList, [], [discriminatorArgument [1, 2]], [fieldDiscriminator]⟩
     converted := by rfl },
   { item := ⟨"swap_v2".toList, [1, 2]⟩
     accounts := [⟨"pool".toList, none, none⟩]
     args := []
     node := ⟨"swapV2".toList, [⟨"pool".toList, none, none⟩], [discriminatorArgument [1, 2]],
       [fieldDiscriminator]⟩
     converted := by rfl }]

/-- Two accounts of a pool program. -/
def poolAccounts : List AnchorAccount :=
  [{ item := ⟨"Pool".toList, [7]⟩
     fields := []
     node := ⟨"pool".toList, .value [discriminatorField [7]], [fieldDiscriminator]⟩
     converted := by rfl },
   { item := ⟨"Position".toList, [8]⟩
     fields := []
     node := ⟨"position".toList, .value [discriminatorField [8]], [fieldDiscriminator]⟩
     converted := by rfl }]

/-- Two events that share a discriminator. -/
def sharedEvents : List AnchorEvent :=
  [{ item := ⟨"Deposit".toList, [9]⟩
     fields := []
     node := ⟨"deposit".toList, .hiddenPrefix (.struct []) [⟨fixedBytes 1, .bytes (base16Bytes [9])⟩],
       [.constant 0 ⟨fixedBytes 1, .bytes (base16Bytes [9])⟩]⟩
     converted := by rfl },
   { item := ⟨"Withdraw".toList, [9]⟩
     fields := []
     node := ⟨"withdraw".toList, .hiddenPrefix (.struct []) [⟨fixedBytes 1, .bytes (base16Bytes [9])⟩],
       [.constant 0 ⟨fixedBytes 1, .bytes (base16Bytes [9])⟩]⟩
     converted := by rfl }]

/-- With one account the second version is parsed, in both orders of the versions. -/
theorem swapVersions_dispatch :
    ∃ resolve resolve',
      resolveInstructionDefault noCodecs (fun ix _ _ => .ok ix.name) (fun _ => [])
        (swapVersions.map AnchorInstruction.node) = .ok resolve ∧
      resolveInstructionDefault noCodecs (fun ix _ _ => .ok ix.name) (fun _ => [])
        (swapVersions.reverse.map AnchorInstruction.node) = .ok resolve' ∧
      resolve [Vector.replicate 32 0] [1, 2, 3] [] = .ok "swapV2".toList ∧
      SameUpToText (resolve [Vector.replicate 32 0] [1, 2, 3] [])
        (resolve' [Vector.replicate 32 0] [1, 2, 3] []) := by
  obtain ⟨⟨resolve, resolve', hresolve, hresolve', hresult⟩, -, -⟩ :=
    anchor_dispatch_unambiguous noCodecs (fun ix _ _ => .ok ix.name) (fun _ => []) swapVersions
      swapVersions.reverse (List.reverse_perm swapVersions).symm (by decide +kernel)
      (fun account _ => .ok account.name) [] poolAccounts poolAccounts.reverse
      (List.reverse_perm poolAccounts).symm (by decide +kernel) (fun event _ _ => .ok event.name)
      sharedEvents sharedEvents.reverse (List.reverse_perm sharedEvents).symm (by decide +kernel)
  refine ⟨resolve, resolve', hresolve, hresolve', ?_, (hresult _ _ _).2⟩
  have hdispatch := (hresult [Vector.replicate 32 0] [1, 2, 3] []).1
  have hmatched : AnchorInstruction.matched swapVersions [1, 2, 3] =
      swapVersions.map AnchorInstruction.node := rfl
  rw [hmatched] at hdispatch
  have hlargest : LargestCount (swapVersions.map AnchorInstruction.node) 1 1 :=
    ⟨⟨_, List.mem_cons_of_mem _ List.mem_cons_self, rfl⟩, le_rfl, fun _ _ hle => hle⟩
  exact hdispatch.largest 1 _ (by decide) hlargest rfl

/-- Two events with the same discriminator pass the check of the items, and data that starts
with it matches both; the generated event parser does not compile. -/
theorem sharedEvents_match_twice :
    checkItems .event (sharedEvents.map AnchorEvent.item) = .ok () ∧
      (AnchorEvent.matched sharedEvents [9, 1]).length = 2 ∧
      eventMatchArms noCodecs (fun event _ _ => (.ok event.name : Except ParseError Name))
        (sharedEvents.map AnchorEvent.node) = .ok .compileError :=
  ⟨by decide +kernel, by decide, by rfl⟩

end Shipstern.Codegen
