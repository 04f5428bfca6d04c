import Shipstern.Lib.CanonicalCode

/-!
# Streams of tagged fields

A message is a sequence of fields, each a key and a body. A merge takes the body of one field into
a value; which fields come, how often and in what order is up to the sender. `Absorbs` follows a
value through a sequence of fields, and `mergeLoop` is the loop that reads a key, merges the field
behind it and goes on until the input is down to what follows the message.
-/

namespace TaggedFields

open CanonicalCode Stateful

variable {ε σ τ α β ι : Type}

/-- Take the body of a field with the given key into a value. -/
abbrev Merge (ε σ τ α : Type) := τ → α → Reader ε σ α

/-- A field: its key and its body. -/
abbrev Field (σ τ : Type) := τ × List σ

/-- The fields take the first value to the second. -/
inductive Absorbs (merge : Merge ε σ τ α) : α → List (Field σ τ) → α → Prop
  | nil (a : α) : Absorbs merge a [] a
  | cons {a b c : α} {key : τ} {body : List σ} {fields : List (Field σ τ)}
      (head : Reads (merge key a) body b) (tail : Absorbs merge b fields c) :
      Absorbs merge a ((key, body) :: fields) c

namespace Absorbs

variable {merge : Merge ε σ τ α} {a b c : α} {fields : List (Field σ τ)}

theorem one {key : τ} {body : List σ} (h : Reads (merge key a) body b) :
    Absorbs merge a [(key, body)] b :=
  .cons h (.nil b)

theorem append {more : List (Field σ τ)} (h : Absorbs merge a fields b)
    (hmore : Absorbs merge b more c) : Absorbs merge a (fields ++ more) c := by
  induction h with
  | nil => exact hmore
  | cons head tail ih => exact .cons head (ih hmore)

/-- A value inside of another one, when the fields reach it under other keys. -/
theorem embed {κ : Type} {outer : Merge ε σ κ β} (inside : α → β) (toKey : τ → κ)
    (h : Absorbs merge a fields b)
    (hstep : ∀ field ∈ fields, ∀ a b, Reads (merge field.1 a) field.2 b →
      Reads (outer (toKey field.1) (inside a)) field.2 (inside b)) :
    Absorbs outer (inside a) (fields.map fun field => (toKey field.1, field.2)) (inside b) := by
  induction h with
  | nil a => exact .nil _
  | cons head tail ih =>
      exact .cons (hstep _ List.mem_cons_self _ _ head)
        (ih fun field hfield => hstep field (List.mem_cons_of_mem _ hfield))

/-- Fields that leave the value alone. -/
theorem ignored (h : ∀ field ∈ fields, Reads (merge field.1 a) field.2 a) :
    Absorbs merge a fields a := by
  induction fields with
  | nil => exact .nil a
  | cons field fields ih =>
      rw [List.forall_mem_cons] at h
      exact .cons h.1 (ih h.2)

/-- A list that grows by one item with each field. -/
theorem items {merge : Merge ε σ τ (List α)} {key : τ} {body : β → List σ} {item : β → α}
    (as : List α) {bs : List β}
    (h : ∀ b ∈ bs, ∀ as, Reads (merge key as) (body b) (as ++ [item b])) :
    Absorbs merge as (bs.map fun b => (key, body b)) (as ++ bs.map item) := by
  induction bs generalizing as with
  | nil =>
      rw [List.map_nil, List.map_nil, List.append_nil]
      exact .nil as
  | cons b bs ih =>
      rw [List.forall_mem_cons] at h
      refine .cons (h.1 as) ?_
      have hrest := ih (as ++ [item b]) h.2
      rwa [List.append_assoc, List.singleton_append] at hrest

end Absorbs

/-! ## Failures -/

/-- The reader fails with allowed errors only. -/
def FailsOnly (allowed : ε → Prop) (x : Reader ε σ α) : Prop :=
  ∀ input e, x input = .error e → allowed e

theorem bind_of_ok {x : Reader ε σ α} {f : α → Reader ε σ β} {input rest : List σ} {a : α}
    (h : x input = .ok (a, rest)) : (x >>= f) input = f a rest := by
  show (x input >>= fun p => f p.1 p.2) = _
  rw [h]
  rfl

theorem bind_of_error {x : Reader ε σ α} {f : α → Reader ε σ β} {input : List σ} {e : ε}
    (h : x input = .error e) : (x >>= f) input = .error e := by
  show (x input >>= fun p => f p.1 p.2) = _
  rw [h]
  rfl

namespace FailsOnly

variable {allowed : ε → Prop}

theorem pure (a : α) : FailsOnly allowed (pure a : Reader ε σ α) := by
  intro input e h
  cases h

theorem get : FailsOnly allowed (get : Reader ε σ (List σ)) := by
  intro input e h
  cases h

theorem throw {e : ε} (h : allowed e) : FailsOnly allowed (throw e : Reader ε σ α) := by
  intro input e h
  cases h
  assumption

theorem bind {x : Reader ε σ α} {f : α → Reader ε σ β} (hx : FailsOnly allowed x)
    (hf : ∀ a input rest, x input = .ok (a, rest) → FailsOnly allowed (f a)) :
    FailsOnly allowed (x >>= f) := by
  intro input e h
  cases hrun : x input with
  | error e' =>
      rw [bind_of_error hrun] at h
      cases h
      exact hx input _ hrun
  | ok p =>
      rw [bind_of_ok hrun] at h
      exact hf p.1 input p.2 hrun p.2 e h

theorem map {x : Reader ε σ α} (f : α → β) (hx : FailsOnly allowed x) :
    FailsOnly allowed (f <$> x) := by
  rw [← bind_pure_comp]
  exact hx.bind fun a _ _ _ => .pure (f a)

end FailsOnly

/-! ## The symbols of a message -/

section Symbols

variable (key : τ → List σ)

/-- The symbols of the fields, one after another. -/
def symbols (fields : List (Field σ τ)) : List σ :=
  fields.flatMap fun field => key field.1 ++ field.2

@[simp] theorem symbols_nil : symbols key ([] : List (Field σ τ)) = [] := rfl

@[simp] theorem symbols_cons (field : Field σ τ) (fields : List (Field σ τ)) :
    symbols key (field :: fields) = key field.1 ++ (field.2 ++ symbols key fields) := by
  rw [symbols, List.flatMap_cons, List.append_assoc]
  rfl

@[simp] theorem symbols_append (fields more : List (Field σ τ)) :
    symbols key (fields ++ more) = symbols key fields ++ symbols key more :=
  List.flatMap_append

theorem length_le_symbols (hkey : ∀ k, key k ≠ []) (fields : List (Field σ τ)) :
    fields.length ≤ (symbols key fields).length := by
  induction fields with
  | nil => exact Nat.le_refl 0
  | cons field fields ih =>
      have hpos := List.length_pos_iff.mpr (hkey field.1)
      rw [symbols_cons, List.length_append, List.length_append, List.length_cons]
      omega

end Symbols

/-! ## The loop -/

section Loop

variable (readKey : Reader ε σ τ) (merge : Merge ε σ τ α) (overrun : ε)

/-- Merge fields until the given number of symbols is left, in the given number of rounds. -/
def mergeLoop (left : Nat) : Nat → α → Reader ε σ α
  | 0, _ => throw overrun
  | rounds + 1, a => do
      let input ← get
      if input.length = left then pure a
      else if input.length < left then throw overrun
      else do
        let key ← readKey
        let a ← merge key a
        mergeLoop left rounds a

variable {readKey merge overrun} {key : τ → List σ}

/-- A merge of values that stand for others goes through the loop as the other merge does. -/
theorem mergeLoop_map {merge' : Merge ε σ τ β} {φ : α → β}
    (h : ∀ key a, merge' key (φ a) = φ <$> merge key a) (left rounds : Nat) (a : α) :
    mergeLoop readKey merge' overrun left rounds (φ a) =
      φ <$> mergeLoop readKey merge overrun left rounds a := by
  induction rounds generalizing a with
  | zero => rfl
  | succ rounds ih =>
      rw [mergeLoop, mergeLoop, map_bind]
      refine bind_congr fun input => ?_
      split
      · rfl
      · split
        · rfl
        · rw [map_bind]
          refine bind_congr fun key => ?_
          rw [h, map_bind, bind_map_left]
          exact bind_congr ih

/-- The loop takes in the fields in front of what is left. -/
theorem mergeLoop_reads (hkey : ∀ k, key k ≠ []) {a b : α} {fields : List (Field σ τ)}
    (h : Absorbs merge a fields b) (hread : ∀ field ∈ fields, Reads readKey (key field.1) field.1)
    {rest : List σ} {rounds : Nat} (hrounds : fields.length < rounds) :
    mergeLoop readKey merge overrun rest.length rounds a (symbols key fields ++ rest) =
      .ok (b, rest) := by
  induction h generalizing rounds with
  | nil a =>
      obtain ⟨rounds, rfl⟩ : ∃ n, rounds = n + 1 := ⟨rounds - 1, by simp at hrounds; omega⟩
      rw [mergeLoop, bind_ok]
      refine ⟨_, _, get_ok.mpr ⟨rfl, rfl⟩, ?_⟩
      rw [symbols_nil, List.nil_append, if_pos rfl]
      rfl
  | @cons a b c k body fields head tail ih =>
      obtain ⟨rounds, rfl⟩ : ∃ n, rounds = n + 1 := ⟨rounds - 1, by simp at hrounds; omega⟩
      rw [List.forall_mem_cons] at hread
      have hpos := List.length_pos_iff.mpr (hkey k)
      have hlonger : rest.length < (symbols key ((k, body) :: fields) ++ rest).length := by
        simp only [symbols_cons, List.length_append]
        omega
      rw [mergeLoop, bind_ok]
      refine ⟨_, _, get_ok.mpr ⟨rfl, rfl⟩, ?_⟩
      rw [if_neg (Nat.ne_of_gt hlonger), if_neg (Nat.not_lt.mpr (Nat.le_of_lt hlonger)), bind_ok,
        symbols_cons, List.append_assoc, List.append_assoc]
      refine ⟨k, _, hread.1 _, ?_⟩
      rw [bind_ok]
      exact ⟨b, _, head _, ih hread.2 (Nat.lt_of_succ_lt_succ hrounds)⟩

/-- The loop fails in no other way than its parts do. -/
theorem mergeLoop_failsOnly {allowed : ε → Prop} {valid : τ → Prop} (hover : allowed overrun)
    (hread : FailsOnly allowed readKey)
    (hvalid : ∀ input k rest, readKey input = .ok (k, rest) → valid k)
    (hmerge : ∀ k, valid k → ∀ a, FailsOnly allowed (merge k a)) (left rounds : Nat) (a : α) :
    FailsOnly allowed (mergeLoop readKey merge overrun left rounds a) := by
  induction rounds generalizing a with
  | zero => exact .throw hover
  | succ rounds ih =>
      rw [mergeLoop]
      refine .bind .get fun input _ _ _ => ?_
      split
      · exact .pure a
      · split
        · exact .throw hover
        · exact .bind hread fun k _ _ hk =>
            .bind (hmerge k (hvalid _ _ _ hk) a) fun a _ _ _ => ih a

/-- A field that cannot be merged stops the loop with its error. -/
theorem mergeLoop_error {k : τ} {body : List σ} {a : α} {e : ε} {rest : List σ} {left rounds : Nat}
    (hread : Reads readKey (key k) k) (h : merge k a (body ++ rest) = .error e)
    (hleft : left < (key k ++ (body ++ rest)).length) :
    mergeLoop readKey merge overrun left (rounds + 1) a (key k ++ (body ++ rest)) = .error e := by
  have hround : mergeLoop readKey merge overrun left (rounds + 1) a (key k ++ (body ++ rest)) =
      (readKey >>= fun k => merge k a >>= mergeLoop readKey merge overrun left rounds)
        (key k ++ (body ++ rest)) := by
    show (if (key k ++ (body ++ rest)).length = left then _ else _ : Reader ε σ α) _ = _
    rw [if_neg (Nat.ne_of_gt hleft), if_neg (Nat.not_lt.mpr (Nat.le_of_lt hleft))]
  rw [hround, bind_of_ok (hread _), bind_of_error h]

end Loop

end TaggedFields
