import Mathlib
import Shipstern.Lib.PrefixCode

/-!
# Tagged choices

A choice between finitely many payloads is written as a tag and the payload. The reader compares
the tag with one literal after another and reads the payload of the first that is equal. It
recovers every choice exactly when no two literals are equal.
-/

namespace TaggedCode

open PrefixCode (Reader Recovers)

/-- A payload. Writing a value may fail. -/
structure Payload (σ : Type) where
  Value : Type
  write : Value → Option (List σ)
  read : Reader σ Value

/-- What is written is recovered, and something can be written. -/
structure Payload.Lawful {σ : Type} (payload : Payload σ) : Prop where
  recovers : ∀ value symbols, payload.write value = some symbols →
    ∀ rest, payload.read (symbols ++ rest) = some (value, rest)
  inhabited : ∃ value symbols, payload.write value = some symbols

/-- A tag, with the literal of the choice at an index. -/
structure Tag (σ T : Type) where
  literal : Nat → T
  write : T → List σ
  read : Reader σ T

/-- A choice and its payload. -/
structure Choice {σ : Type} (payloads : List (Payload σ)) where
  index : Fin payloads.length
  value : (payloads.get index).Value

variable {σ T : Type} (tag : Tag σ T) {payloads : List (Payload σ)}

def serialize (choice : Choice payloads) : Option (List σ) :=
  ((payloads.get choice.index).write choice.value).map
    (tag.write (tag.literal choice.index) ++ ·)

variable [DecidableEq T]

/-- The first index with the literal. -/
def firstIndex (n : Nat) (t : T) : Option (Fin n) :=
  (List.finRange n).find? fun i => tag.literal i = t

def deserialize : Reader σ (Choice payloads) := fun input =>
  match tag.read input with
  | none => none
  | some (t, input) =>
      match firstIndex tag payloads.length t with
      | none => none
      | some i => ((payloads.get i).read input).map fun (value, rest) => (⟨i, value⟩, rest)

/-- Whatever follows, the choice is read back from what was written for it. -/
def RoundTrips (choice : Choice payloads) : Prop :=
  ∀ symbols, serialize tag choice = some symbols →
    ∀ rest, deserialize tag (symbols ++ rest) = some (choice, rest)

variable {tag}

theorem firstIndex_literal {n : Nat} (h : ∀ i j : Fin n, tag.literal i = tag.literal j → i = j)
    (i : Fin n) : firstIndex tag n (tag.literal i) = some i := by
  rw [firstIndex, List.find?_eq_some_iff_append]
  refine ⟨decide_eq_true rfl, ?_⟩
  obtain ⟨front, back, hsplit⟩ := List.append_of_mem (List.mem_finRange i)
  refine ⟨front, back, hsplit, fun j hj => ?_⟩
  have hne : j ≠ i := by
    rintro rfl
    have hnodup := List.nodup_finRange n
    rw [hsplit] at hnodup
    exact (List.nodup_append.mp hnodup).2.2 j hj j List.mem_cons_self rfl
  have hliteral : tag.literal j ≠ tag.literal i := fun heq => hne (h j i heq)
  simp only [hliteral, decide_false, Bool.not_false]

omit [DecidableEq T] in
theorem serialize_eq_some {choice : Choice payloads} {symbols : List σ}
    (h : serialize tag choice = some symbols) :
    ∃ body, (payloads.get choice.index).write choice.value = some body ∧
      symbols = tag.write (tag.literal choice.index) ++ body := by
  obtain ⟨body, hbody, rfl⟩ := Option.map_eq_some_iff.mp h
  exact ⟨body, hbody, rfl⟩

theorem deserialize_append {t : T} (htag : Recovers tag.read tag.write t) (input : List σ) :
    deserialize tag (tag.write t ++ input) =
      match firstIndex tag payloads.length t with
      | none => none
      | some i => ((payloads.get i).read input).map fun (value, rest) =>
          ((⟨i, value⟩ : Choice payloads), rest) := by
  rw [deserialize, htag]

/-- Whichever choice is written, the reader takes the first index with its literal. So no two
choices that are read back have one literal. -/
theorem eq_of_literal_eq (htag : ∀ t, Recovers tag.read tag.write t)
    (hpayloads : ∀ i, (payloads.get i).Lawful)
    (h : ∀ (choice : Choice payloads) (symbols : List σ), serialize tag choice = some symbols →
      deserialize tag symbols = some (choice, []))
    (i j : Fin payloads.length) (hij : tag.literal i = tag.literal j) : i = j := by
  have hfirst : ∀ k : Fin payloads.length,
      firstIndex tag payloads.length (tag.literal k) = some k := by
    intro k
    obtain ⟨value, body, hbody⟩ := (hpayloads k).inhabited
    have hserialize : serialize tag (⟨k, value⟩ : Choice payloads) =
        some (tag.write (tag.literal k) ++ body) := congrArg (Option.map _) hbody
    have hread := h ⟨k, value⟩ _ hserialize
    rw [deserialize_append (htag _)] at hread
    cases hindex : firstIndex tag payloads.length (tag.literal k) with
    | none => simp only [hindex, reduceCtorEq] at hread
    | some m =>
        simp only [hindex] at hread
        obtain ⟨⟨value', rest⟩, -, heq⟩ := Option.map_eq_some_iff.mp hread
        exact congrArg some (congrArg (fun p => p.1.index) heq)
  have hi := hfirst i
  rw [hij, hfirst j] at hi
  exact (Option.some.inj hi).symm

/-- The choices are read back if and only if the literals tell them apart. -/
theorem roundTrips_iff (htag : ∀ t, Recovers tag.read tag.write t)
    (hpayloads : ∀ i, (payloads.get i).Lawful) :
    (∀ choice : Choice payloads, RoundTrips tag choice) ↔
      ∀ i j : Fin payloads.length, tag.literal i = tag.literal j → i = j := by
  constructor
  · intro h
    refine eq_of_literal_eq htag hpayloads fun choice symbols hserialize => ?_
    have hread := h choice symbols hserialize []
    rwa [List.append_nil] at hread
  · intro h choice symbols hserialize rest
    obtain ⟨body, hbody, rfl⟩ := serialize_eq_some hserialize
    rw [List.append_assoc, deserialize_append (htag _), firstIndex_literal h]
    show ((payloads.get choice.index).read (body ++ rest)).map _ = _
    rw [(hpayloads choice.index).recovers _ _ hbody]
    rfl

omit [DecidableEq T] in
/-- Literals that wrap at `size` tell apart at most `size` choices. -/
theorem literals_injective_iff {size n : Nat} (hsize : 0 < size)
    (hliteral : ∀ i j, tag.literal i = tag.literal j ↔ i % size = j % size) :
    (∀ i j : Fin n, tag.literal i = tag.literal j → i = j) ↔ n ≤ size := by
  constructor
  · intro h
    by_contra hn
    have heq := h ⟨0, by omega⟩ ⟨size, by omega⟩ ((hliteral 0 size).mpr (by simp))
    exact Nat.ne_of_lt hsize (congrArg Fin.val heq)
  · intro h i j hij
    have hmod := (hliteral i j).mp hij
    rw [Nat.mod_eq_of_lt (Nat.lt_of_lt_of_le i.isLt h),
      Nat.mod_eq_of_lt (Nat.lt_of_lt_of_le j.isLt h)] at hmod
    exact Fin.ext hmod

end TaggedCode
