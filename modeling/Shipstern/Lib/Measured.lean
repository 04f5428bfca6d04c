import Mathlib
import Shipstern.Lib.Chains
import Shipstern.Lib.Fallible

/-!
# Sizes of recursive definitions

A node has bytes of its own and a multiple of the sizes of its parts. Its size is defined when
no part of a part, at any depth, is without a form and no node is a part of itself. A walk
finds the size with a limit on the depth: it gives up on a node that it is inside of already,
stops at the first part without a size, and says when the limit cut it off. What it finds of a
node with a key is remembered, also that it was cut off, and no later walk enters the node.
-/

namespace Measured

universe u v

open Chains

variable {α : Type u} {κ : Type v}

structure Form (α : Type u) where
  own : Nat
  times : Nat
  parts : List α

/-! ## The size -/

section Size

variable (form : α → Option (Form α))

/-- The size where the parts nest less deep than the fuel. -/
def sizeWithin : Nat → α → Option Nat
  | 0, _ => none
  | fuel + 1, a =>
      (form a).bind fun f =>
        (f.parts.mapM (sizeWithin fuel)).map fun sizes => f.own + f.times * sizes.sum

def HasSize (a : α) (n : Nat) : Prop := ∃ fuel, sizeWithin form fuel a = some n

/-- The size of the first asks for that of the second. -/
def Part (a part : α) : Prop := ∃ f, form a = some f ∧ part ∈ f.parts

/-- What is known of the size: its value, or that there is none. -/
def Exact (a : α) (size : Option Nat) : Prop := ∀ n, size = some n ↔ HasSize form a n

end Size

variable {form : α → Option (Form α)} {a b : α} {m n fuel : Nat}

theorem sizeWithin_succ :
    sizeWithin form (fuel + 1) a = some n ↔
      ∃ f sizes, form a = some f ∧
        List.Forall₂ (fun part m => sizeWithin form fuel part = some m) f.parts sizes ∧
        n = f.own + f.times * sizes.sum := by
  simp only [sizeWithin, Option.bind_eq_some_iff, Option.map_eq_some_iff,
    Fallible.mapM_eq_some]
  constructor
  · rintro ⟨f, hf, sizes, hsizes, rfl⟩
    exact ⟨f, sizes, hf, hsizes, rfl⟩
  · rintro ⟨f, sizes, hf, hsizes, rfl⟩
    exact ⟨f, hf, sizes, hsizes, rfl⟩

theorem sizeWithin_mono {fuel' : Nat} (h : sizeWithin form fuel a = some n)
    (hle : fuel ≤ fuel') : sizeWithin form fuel' a = some n := by
  induction fuel generalizing fuel' a n with
  | zero => cases h
  | succ fuel ih =>
      obtain ⟨fuel', rfl⟩ := Nat.exists_eq_add_of_le' (Nat.one_le_of_lt hle)
      obtain ⟨f, sizes, hf, hsizes, rfl⟩ := sizeWithin_succ.mp h
      refine sizeWithin_succ.mpr ⟨f, sizes, hf, hsizes.imp fun part m hm => ?_, rfl⟩
      exact ih hm (Nat.le_of_succ_le_succ hle)

theorem HasSize.unique (h : HasSize form a m) (h' : HasSize form a n) : m = n := by
  obtain ⟨fuel, hm⟩ := h
  obtain ⟨fuel', hn⟩ := h'
  have hm' := sizeWithin_mono hm (Nat.le_max_left fuel fuel')
  have hn' := sizeWithin_mono hn (Nat.le_max_right fuel fuel')
  rw [hm'] at hn'
  exact Option.some.inj hn'

theorem Exact.unique {size size' : Option Nat} (h : Exact form a size)
    (h' : Exact form a size') : size = size' :=
  Option.ext fun n => (h n).trans (h' n).symm

/-- Parts that have sizes have them within one fuel. -/
theorem exists_fuel {parts : List α} {sizes : List Nat}
    (h : List.Forall₂ (HasSize form) parts sizes) :
    ∃ fuel, List.Forall₂ (fun part m => sizeWithin form fuel part = some m) parts sizes := by
  induction h with
  | nil => exact ⟨0, .nil⟩
  | cons hfirst _ ih =>
      obtain ⟨fuel, hfuel⟩ := hfirst
      obtain ⟨fuel', hrest⟩ := ih
      refine ⟨max fuel fuel', .cons (sizeWithin_mono hfuel (Nat.le_max_left ..)) ?_⟩
      exact hrest.imp fun part m hm => sizeWithin_mono hm (Nat.le_max_right ..)

theorem hasSize_iff :
    HasSize form a n ↔ ∃ f sizes, form a = some f ∧ List.Forall₂ (HasSize form) f.parts sizes ∧
      n = f.own + f.times * sizes.sum := by
  constructor
  · rintro ⟨fuel, hn⟩
    cases fuel with
    | zero => cases hn
    | succ fuel =>
        obtain ⟨f, sizes, hf, hsizes, rfl⟩ := sizeWithin_succ.mp hn
        exact ⟨f, sizes, hf, hsizes.imp fun part m hm => ⟨fuel, hm⟩, rfl⟩
  · rintro ⟨f, sizes, hf, hsizes, rfl⟩
    obtain ⟨fuel, hfuel⟩ := exists_fuel hsizes
    exact ⟨fuel + 1, sizeWithin_succ.mpr ⟨f, sizes, hf, hfuel, rfl⟩⟩

/-- A part needs less fuel. -/
theorem sizeWithin_part (h : sizeWithin form fuel a = some n) (hpart : Part form a b) :
    ∃ fuel' < fuel, ∃ m, sizeWithin form fuel' b = some m := by
  cases fuel with
  | zero => cases h
  | succ fuel =>
      obtain ⟨f, sizes, hf, hsizes, rfl⟩ := sizeWithin_succ.mp h
      obtain ⟨f', hf', hb⟩ := hpart
      cases hf.symm.trans hf'
      obtain ⟨m, hm⟩ := Fallible.forall₂_exists hsizes hb
      exact ⟨fuel, Nat.lt_succ_self fuel, m, hm⟩

theorem sizeWithin_leads (h : sizeWithin form fuel a = some n) (hleads : Leads (Part form) a b) :
    ∃ fuel' < fuel, ∃ m, sizeWithin form fuel' b = some m := by
  induction hleads with
  | single hpart => exact sizeWithin_part h hpart
  | tail _ hpart ih =>
      obtain ⟨fuel', hlt, m, hm⟩ := ih
      obtain ⟨fuel'', hlt', m', hm'⟩ := sizeWithin_part hm hpart
      exact ⟨fuel'', hlt'.trans hlt, m', hm'⟩

theorem HasSize.part (h : HasSize form a n) (hpart : Part form a b) : ∃ m, HasSize form b m := by
  obtain ⟨fuel, hn⟩ := h
  obtain ⟨fuel', -, m, hm⟩ := sizeWithin_part hn hpart
  exact ⟨m, fuel', hm⟩

/-- What is a part of itself has no size: every fuel would need a smaller one. -/
theorem not_hasSize_of_cycle (hcycle : Leads (Part form) a a) : ¬ HasSize form a n := by
  rintro ⟨fuel, hn⟩
  induction fuel using Nat.strong_induction_on generalizing n with
  | _ fuel ih =>
      obtain ⟨fuel', hlt, m, hm⟩ := sizeWithin_leads hn hcycle
      exact ih fuel' hlt hm

/-! ## The walk -/

/-- What a walk finds: nothing when it is cut off, else the size or that there is none. -/
abbrev Finding := Option (Option Nat)

/-- What was found of the nodes that have a key. -/
abbrev Memory (κ : Type v) := List (κ × Finding)

/-- The whole, from the sum over its parts. -/
def Form.whole (f : Form α) (total : Finding) : Finding :=
  total.map (·.map fun n => f.own + f.times * n)

section Walk

/-- The sum of sizes, as far as they are found. -/
def sumWalk (find : α → Memory κ → Finding × Memory κ) :
    List α → Memory κ → Finding × Memory κ
  | [], known => (some (some 0), known)
  | a :: parts, known =>
      match find a known with
      | (some (some n), known) =>
          let (rest, known) := sumWalk find parts known
          (rest.map (·.map (n + ·)), known)
      | (found, known) => (found, known)

variable [BEq κ] [LawfulBEq κ] (form : α → Option (Form α)) (key : α → Option κ)

/-- The size as it is found with the given room, inside of the nodes of the given keys. -/
def walk : Nat → List κ → α → Memory κ → Finding × Memory κ
  | 0, _, _, known => (none, known)
  | room + 1, visiting, a, known =>
      match form a with
      | none => (some none, known)
      | some f =>
          match key a with
          | none =>
              let (total, known) := sumWalk (walk room visiting) f.parts known
              (f.whole total, known)
          | some k =>
              match known.lookup k with
              | some found => (found, known)
              | none =>
                  if k ∈ visiting then (some none, known)
                  else
                    let (total, known) := sumWalk (walk room (k :: visiting)) f.parts known
                    (f.whole total, (k, f.whole total) :: known)

/-- What walks find that start one after the other, and remember what those before them found. -/
def survey (room : Nat) : List α → Memory κ → List (α × Finding)
  | [], _ => []
  | a :: rest, known =>
      let (found, known) := walk form key room [] a known
      (a, found) :: survey room rest known

/-- What they leave behind. -/
def memory (room : Nat) (nodes : List α) (known : Memory κ) : Memory κ :=
  nodes.foldl (fun known a => (walk form key room [] a known).2) known

/-- The walk is inside of the nodes of the given keys. -/
def Inside (visiting : List κ) (a : α) : Prop :=
  ∀ k ∈ visiting, ∃ b, key b = some k ∧ Leads (Part form) b a

/-- What is remembered is right, unless the walk for it was cut off. -/
def Remembers (known : Memory κ) : Prop :=
  ∀ k size, (k, some size) ∈ known → ∀ a, key a = some k → Exact form a size

/-- What a walk finds is right, unless it is cut off. -/
def Sound (a : α) (find : Memory κ → Finding × Memory κ) : Prop :=
  ∀ known, Remembers form key known → Remembers form key (find known).2 ∧
    ∀ size, (find known).1 = some size → Exact form a size

end Walk

@[simp] theorem sumWalk_singleton (find : α → Memory κ → Finding × Memory κ) (a : α)
    (known : Memory κ) : sumWalk find [a] known = find a known := by
  rw [sumWalk]
  split
  · next h => simp [sumWalk, h]
  · next h => exact h.symm

section Survey

variable [BEq κ] [LawfulBEq κ] {key : α → Option κ} {room : Nat} {nodes rest : List α}
  {known : Memory κ}

theorem survey_append : survey form key room (nodes ++ rest) known =
    survey form key room nodes known ++
      survey form key room rest (memory form key room nodes known) := by
  induction nodes generalizing known with
  | nil => rfl
  | cons a nodes ih =>
      exact congrArg (_ :: ·) ih

theorem memory_append : memory form key room (nodes ++ rest) known =
    memory form key room rest (memory form key room nodes known) := List.foldl_append

theorem mem_of_mem_survey {entry : α × Finding} (h : entry ∈ survey form key room nodes known) :
    entry.1 ∈ nodes := by
  induction nodes generalizing known with
  | nil => cases h
  | cons a nodes ih =>
      obtain rfl | h := List.mem_cons.mp h
      · exact List.mem_cons_self
      · exact List.mem_cons_of_mem _ (ih h)

theorem exists_mem_survey (h : a ∈ nodes) :
    ∃ found, (a, found) ∈ survey form key room nodes known := by
  induction nodes generalizing known with
  | nil => cases h
  | cons b nodes ih =>
      obtain rfl | h := List.mem_cons.mp h
      · exact ⟨_, List.mem_cons_self⟩
      · obtain ⟨found, hfound⟩ := ih h
        exact ⟨found, List.mem_cons_of_mem _ hfound⟩

end Survey

section WalkExact

variable {key : α → Option κ} {visiting : List κ} {known : Memory κ}

theorem Inside.nil (form : α → Option (Form α)) (key : α → Option κ) (a : α) :
    Inside form key [] a := by simp [Inside]

/-- What the walk enters is inside of all that the node is inside of. -/
theorem Inside.part (h : Inside form key visiting a) (hpart : Part form a b) :
    Inside form key visiting b := by
  intro k hk
  obtain ⟨outer, houter, hleads⟩ := h k hk
  exact ⟨outer, houter, hleads.tail hpart⟩

/-- What the walk enters by a key is inside of the node too. -/
theorem Inside.enter {k : κ} (h : Inside form key visiting a) (hkey : key a = some k)
    (hpart : Part form a b) : Inside form key (k :: visiting) b := by
  intro other hother
  obtain rfl | hother := List.mem_cons.mp hother
  · exact ⟨a, hkey, .single hpart⟩
  · exact h.part hpart other hother

/-- The walk gives up only on a node that is a part of itself. -/
theorem Inside.not_hasSize {k : κ} (h : Inside form key visiting a)
    (hkeys : ∀ a b k, key a = some k → key b = some k → a = b) (hkey : key a = some k)
    (hagain : k ∈ visiting) : ¬ HasSize form a n := by
  obtain ⟨outer, houter, hleads⟩ := h k hagain
  obtain rfl := hkeys outer a k houter hkey
  exact not_hasSize_of_cycle hleads

theorem Remembers.nil (form : α → Option (Form α)) (key : α → Option κ) :
    Remembers form key [] := by simp [Remembers]

theorem Remembers.cons {k : κ} {found : Finding} (h : Remembers form key known)
    (hfound : ∀ size, found = some size → ∀ a, key a = some k → Exact form a size) :
    Remembers form key ((k, found) :: known) := by
  rintro other size (_ | ⟨_, hmem⟩)
  · exact hfound size rfl
  · exact h other size hmem

theorem Remembers.exact [BEq κ] [LawfulBEq κ] {k : κ} {size : Option Nat}
    (h : Remembers form key known) (hfound : known.lookup k = some (some size))
    (hkey : key a = some k) : Exact form a size := by
  obtain ⟨before, after, rfl, -⟩ := List.lookup_eq_some_iff.mp hfound
  exact h k size (by simp) a hkey

/-- A sum is that of all sizes, or a part is without one. -/
theorem sumWalk_sound {find : α → Memory κ → Finding × Memory κ} {parts : List α}
    (hfind : ∀ part ∈ parts, Sound form key part (find part)) (hknown : Remembers form key known) :
    Remembers form key (sumWalk find parts known).2 ∧
    ∀ total, (sumWalk find parts known).1 = some total →
      (∃ sizes, List.Forall₂ (HasSize form) parts sizes ∧ total = some sizes.sum) ∨
        total = none ∧ ∃ part ∈ parts, ∀ n, ¬ HasSize form part n := by
  induction parts generalizing known with
  | nil =>
      refine ⟨hknown, fun total htotal => ?_⟩
      cases htotal
      exact .inl ⟨[], .nil, rfl⟩
  | cons part parts ih =>
      obtain ⟨hmemory, hexact⟩ := hfind part List.mem_cons_self known hknown
      rw [sumWalk]
      split
      · next n known' hrun =>
          rw [hrun] at hmemory hexact
          obtain ⟨hmemory', hrest⟩ :=
            ih (fun other hother => hfind other (List.mem_cons_of_mem _ hother)) hmemory
          refine ⟨hmemory', fun total htotal => ?_⟩
          obtain ⟨found, hfound, rfl⟩ := Option.map_eq_some_iff.mp htotal
          obtain ⟨sizes, hsizes, rfl⟩ | ⟨rfl, other, hmem, hno⟩ := hrest found hfound
          · exact .inl ⟨n :: sizes, .cons ((hexact _ rfl n).mp rfl) hsizes, rfl⟩
          · exact .inr ⟨rfl, other, List.mem_cons_of_mem _ hmem, hno⟩
      · next found known' hnot hrun =>
          rw [hrun] at hmemory hexact
          refine ⟨hmemory, fun total htotal => ?_⟩
          obtain rfl : found = some total := htotal
          cases total with
          | none =>
              exact .inr
                ⟨rfl, part, List.mem_cons_self, fun n hn => nomatch (hexact _ rfl n).mpr hn⟩
          | some n => exact absurd rfl (hnot n)

/-- The sum of the parts gives the size of the whole. -/
theorem whole_exact {f : Form α} {total : Finding} {size : Option Nat} (hform : form a = some f)
    (htotal : ∀ sum, total = some sum →
      (∃ sizes, List.Forall₂ (HasSize form) f.parts sizes ∧ sum = some sizes.sum) ∨
        sum = none ∧ ∃ part ∈ f.parts, ∀ n, ¬ HasSize form part n)
    (h : f.whole total = some size) : Exact form a size := by
  obtain ⟨sum, hsum, rfl⟩ := Option.map_eq_some_iff.mp h
  intro n
  obtain ⟨sizes, hsizes, rfl⟩ | ⟨rfl, part, hpart, hno⟩ := htotal sum hsum
  · have hwhole : HasSize form a (f.own + f.times * sizes.sum) :=
      hasSize_iff.mpr ⟨f, sizes, hform, hsizes, rfl⟩
    refine ⟨fun heq => ?_, fun hn => ?_⟩
    · cases heq
      exact hwhole
    · exact congrArg some (hwhole.unique hn)
  · refine ⟨nofun, fun hn => ?_⟩
    obtain ⟨m, hm⟩ := hn.part ⟨f, hform, hpart⟩
    exact absurd hm (hno m)

variable [BEq κ] [LawfulBEq κ]

/-- A walk that is not cut off finds the size, or that there is none. -/
theorem walk_sound (hkeys : ∀ a b k, key a = some k → key b = some k → a = b) {room : Nat}
    (hinside : Inside form key visiting a) :
    Sound form key a (walk form key room visiting a) := by
  induction room generalizing visiting a with
  | zero => exact fun known hknown => ⟨hknown, nofun⟩
  | succ room ih =>
      intro known hknown
      rw [walk]
      split
      · next hform =>
          refine ⟨hknown, fun size hsize n => ?_⟩
          cases hsize
          refine ⟨nofun, fun hn => ?_⟩
          obtain ⟨f, -, hf, -⟩ := hasSize_iff.mp hn
          cases hform.symm.trans hf
      · next f hform =>
          split
          · have hparts : ∀ part ∈ f.parts,
                Sound form key part (walk form key room visiting part) :=
              fun part hpart => ih (hinside.part ⟨f, hform, hpart⟩)
            obtain ⟨hmemory, htotal⟩ := sumWalk_sound hparts hknown
            exact ⟨hmemory, fun size hsize => whole_exact hform htotal hsize⟩
          · next k hkey =>
              split
              · next found hlookup =>
                  refine ⟨hknown, fun size hsize => ?_⟩
                  cases hsize
                  exact hknown.exact hlookup hkey
              · split
                · next hagain =>
                    refine ⟨hknown, fun size hsize n => ?_⟩
                    cases hsize
                    exact ⟨nofun, fun hn => absurd hn (hinside.not_hasSize hkeys hkey hagain)⟩
                · have hparts : ∀ part ∈ f.parts,
                      Sound form key part (walk form key room (k :: visiting) part) :=
                    fun part hpart => ih (hinside.enter hkey ⟨f, hform, hpart⟩)
                  obtain ⟨hmemory, htotal⟩ := sumWalk_sound hparts hknown
                  refine ⟨hmemory.cons fun size hsize b hb => ?_,
                    fun size hsize => whole_exact hform htotal hsize⟩
                  obtain rfl := hkeys a b k hkey hb
                  exact whole_exact hform htotal hsize

/-- What a survey finds is right, unless the walk for it was cut off. -/
theorem survey_exact (hkeys : ∀ a b k, key a = some k → key b = some k → a = b) {room : Nat}
    {nodes : List α} (hknown : Remembers form key known) {size : Option Nat}
    (h : (a, some size) ∈ survey form key room nodes known) : Exact form a size := by
  induction nodes generalizing known with
  | nil => cases h
  | cons b nodes ih =>
      have hsound : Sound form key b (walk form key room [] b) :=
        walk_sound hkeys (.nil form key b)
      obtain ⟨hmemory, hexact⟩ := hsound known hknown
      obtain heq | h := List.mem_cons.mp h
      · obtain ⟨rfl, hsize⟩ := Prod.mk.inj heq
        exact hexact size hsize.symm
      · exact ih hmemory h

end WalkExact

end Measured
