import Mathlib

/-!
# Base16 text

Two lower case digits a byte. Decoding accepts digits of both cases and refuses a text of
odd length.
-/

namespace Hex

def digits : List Char := "0123456789abcdef".toList

def encode (bytes : List UInt8) : List Char :=
  bytes.flatMap fun b => [digits.getD (b.toNat / 16) '0', digits.getD (b.toNat % 16) '0']

def digitValue (c : Char) : Option Nat := digits.idxOf? c.toLower

def decode : List Char → Option (List UInt8)
  | [] => some []
  | [_] => none
  | high :: low :: rest => do
      let h ← digitValue high
      let l ← digitValue low
      let bytes ← decode rest
      some (UInt8.ofNat (16 * h + l) :: bytes)

theorem digitValue_digit {d : Nat} (hd : d < 16) : digitValue (digits.getD d '0') = some d := by
  have htable : ∀ d < 16, digitValue (digits.getD d '0') = some d := by decide
  exact htable d hd

theorem length_encode (bytes : List UInt8) : (encode bytes).length = 2 * bytes.length := by
  induction bytes with
  | nil => rfl
  | cons b bytes ih =>
      simp only [encode, List.flatMap_cons, List.length_append, List.length_cons,
        List.length_nil] at ih ⊢
      omega

theorem decode_encode (bytes : List UInt8) : decode (encode bytes) = some bytes := by
  induction bytes with
  | nil => rfl
  | cons b bytes ih =>
      have hlt : b.toNat < 256 := b.toNat_lt
      have hbyte : 16 * (b.toNat / 16) + b.toNat % 16 = b.toNat := Nat.div_add_mod b.toNat 16
      have hrest : decode (List.flatMap _ bytes) = some bytes := ih
      simp only [encode, List.flatMap_cons, List.cons_append, List.nil_append, decode,
        digitValue_digit (show b.toNat / 16 < 16 by omega),
        digitValue_digit (show b.toNat % 16 < 16 by omega), Option.bind_eq_bind, Option.bind_some,
        hrest, hbyte, UInt8.ofNat_toNat]

end Hex
