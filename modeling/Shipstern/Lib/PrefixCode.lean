import Mathlib

/-!
# Codes that are read from the front

A writer turns a value into symbols, a reader takes a value off the front of some symbols and
gives the rest. A reader recovers a value when it finds it in front of any symbols whatever, so
codes can follow each other without separators: a list is recovered when its items are.
-/

namespace PrefixCode

variable {σ α β : Type*}

abbrev Writer (σ α : Type*) := α → List σ

abbrev Reader (σ α : Type*) := List σ → Option (α × List σ)

/-- Behind the symbols of `a` the reader gives `a` and leaves what follows. -/
def Recovers (read : Reader σ α) (write : Writer σ α) (a : α) : Prop :=
  ∀ rest, read (write a ++ rest) = some (a, rest)

/-- One reader cannot recover two values where the symbols of one begin those of the other. -/
theorem Recovers.eq_of_begins {read : Reader σ α} {write : Writer σ α} {a b : α}
    (ha : Recovers read write a) (hb : Recovers read write b) (h : write a <+: write b) :
    a = b := by
  obtain ⟨tail, htail⟩ := h
  have hread := hb []
  rw [List.append_nil, ← htail, ha tail] at hread
  exact congrArg Prod.fst (Option.some.inj hread)

/-- The given number of values, one after another. -/
def many (read : Reader σ α) : Nat → Reader σ (List α)
  | 0, input => some ([], input)
  | n + 1, input =>
      match read input with
      | none => none
      | some (a, rest) => (many read n rest).map fun (as, rest) => (a :: as, rest)

theorem Recovers.many {read : Reader σ α} {write : Writer σ α} {as : List α}
    (h : ∀ a ∈ as, Recovers read write a) :
    Recovers (many read as.length) (fun as => as.flatMap write) as := by
  induction as with
  | nil => intro rest; rfl
  | cons a as ih =>
      intro rest
      have hhead := h a List.mem_cons_self
      have htail := ih fun b hb => h b (List.mem_cons_of_mem a hb)
      show PrefixCode.many read (as.length + 1) ((write a ++ as.flatMap write) ++ rest) = _
      rw [List.append_assoc, PrefixCode.many, hhead]
      show (PrefixCode.many read as.length (as.flatMap write ++ rest)).map _ = _
      rw [htail]
      rfl

/-- Read a value as another type, which may refuse it. -/
def convert (read : Reader σ α) (f : α → Option β) : Reader σ β := fun input =>
  match read input with
  | none => none
  | some (a, rest) => (f a).map fun b => (b, rest)

theorem Recovers.convert {read : Reader σ α} {write : Writer σ α} {f : α → Option β} {g : β → α}
    {b : β} (h : Recovers read write (g b)) (hf : f (g b) = some b) :
    Recovers (convert read f) (fun b => write (g b)) b := by
  intro rest
  rw [PrefixCode.convert, h]
  show (f (g b)).map _ = _
  rw [hf]
  rfl

end PrefixCode
