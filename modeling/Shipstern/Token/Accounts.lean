import Shipstern.Core.Instruction
import Shipstern.Lib.Fallible

/-!
# Account lists of token instructions

What the parsers of both token programs do with the accounts of an instruction: they check that
there are enough of them and then index the list. An index beyond the list panics, so that is an
outcome of its own; after the check no index is.
-/

open Shipstern.Core (Pubkey InstructionUpdate)

namespace Shipstern.Token

/-- How a parser ends that returns no message: with an error, or with the panic of an index. The
error of a third-party decoder is kept by the message that it is reported under. -/
inductive Failure
  | tooFewAccounts (expected actual : Nat)
  | unpack (message : List Char)
  | invalidData (message : List Char)
  | outOfBounds
deriving DecidableEq

abbrev Parse := Except Failure

def checkMinAccountsReq (actual expected : Nat) : Parse Unit :=
  if actual < expected then .error (.tooFewAccounts expected actual) else .ok ()

/-- `xs[i]`. -/
def index {α : Type} (xs : List α) (i : Nat) : Parse α :=
  match xs[i]? with
  | some x => .ok x
  | none => .error .outOfBounds

/-- `xs[start..]`. -/
def sliceFrom {α : Type} (xs : List α) (start : Nat) : Parse (List α) :=
  if start ≤ xs.length then .ok (xs.drop start) else .error .outOfBounds

/-- `xs[start..stop]`. -/
def slice {α : Type} (xs : List α) (start stop : Nat) : Parse (List α) :=
  if start ≤ stop ∧ stop ≤ xs.length then .ok ((xs.take stop).drop start)
  else .error .outOfBounds

/-- No index is out of bounds. -/
def InBounds {α : Type} (result : Parse α) : Prop := result ≠ .error .outOfBounds

section

variable {α β : Type} {xs : List α} {i start stop : Nat}

theorem checkMinAccountsReq_ok {actual expected : Nat} (h : expected ≤ actual) :
    checkMinAccountsReq actual expected = .ok () := if_neg (Nat.not_lt.mpr h)

theorem checkMinAccountsReq_error {actual expected : Nat} (h : actual < expected) :
    checkMinAccountsReq actual expected = .error (.tooFewAccounts expected actual) := if_pos h

theorem index_ok (h : i < xs.length) : index xs i = .ok xs[i] := by
  rw [index, List.getElem?_eq_getElem h]

theorem sliceFrom_ok (h : start ≤ xs.length) : sliceFrom xs start = .ok (xs.drop start) := if_pos h

theorem slice_ok (h : start ≤ stop) (hstop : stop ≤ xs.length) :
    slice xs start stop = .ok ((xs.take stop).drop start) := if_pos ⟨h, hstop⟩

namespace InBounds

theorem ok (a : α) : InBounds (.ok a : Parse α) := nofun

theorem error {failure : Failure} (h : failure ≠ .outOfBounds) :
    InBounds (.error failure : Parse α) := fun heq => h (Except.error.inj heq)

theorem bind {result : Parse α} {next : α → Parse β} (h : InBounds result)
    (hnext : ∀ a, result = .ok a → InBounds (next a)) : InBounds (result >>= next) := by
  cases result with
  | ok a => exact hnext a rfl
  | error failure => exact error fun heq => h (congrArg Except.error heq)

theorem map {f : α → β} {result : Parse α} (h : InBounds result) : InBounds (f <$> result) := by
  cases result with
  | ok a => exact ok (f a)
  | error failure => exact error fun heq => h (congrArg Except.error heq)

/-- What comes after the check may count on the accounts. -/
theorem check {actual expected : Nat} {next : Unit → Parse β}
    (h : expected ≤ actual → InBounds (next ())) :
    InBounds (checkMinAccountsReq actual expected >>= next) := by
  rcases Nat.lt_or_ge actual expected with hlt | hle
  · rw [checkMinAccountsReq_error hlt]
    exact error nofun
  · rw [checkMinAccountsReq_ok hle]
    exact h hle

theorem index (h : i < xs.length) : InBounds (Token.index xs i) := by
  rw [index_ok h]
  exact ok _

theorem sliceFrom (h : start ≤ xs.length) : InBounds (Token.sliceFrom xs start) := by
  rw [sliceFrom_ok h]
  exact ok _

theorem slice (h : start ≤ stop) (hstop : stop ≤ xs.length) :
    InBounds (Token.slice xs start stop) := by
  rw [slice_ok h hstop]
  exact ok _

end InBounds

end

/-- An instruction of some program with the given data. -/
def withData (data : List UInt8) : InstructionUpdate :=
  { program := .replicate 32 0
    accounts := []
    data
    shared := ⟨0, [], false, 0, none, [], ⟨[], [], []⟩, ⟨0, 0, 0⟩⟩
    inner := []
    path := [0]
    logRange := ⟨0, 0⟩ }

end Shipstern.Token
