import Mathlib
import Shipstern.Lib.PrefixCode

/-!
# Unsigned LEB128

Seven bits a byte, the lowest first; every byte but the last has its high bit set.
-/

namespace Leb128

def encode (n : Nat) : List UInt8 :=
  if n < 128 then [.ofNat n] else .ofNat (n % 128 + 128) :: encode (n / 128)
termination_by n
decreasing_by omega

/-- The number in front; none when the bytes end inside it. -/
def decode : List UInt8 → Option (Nat × List UInt8)
  | [] => none
  | b :: bs =>
      if b.toNat < 128 then some (b.toNat, bs)
      else (decode bs).map fun (n, rest) => (b.toNat - 128 + 128 * n, rest)

theorem encode_of_lt {n : Nat} (h : n < 128) : encode n = [.ofNat n] := by
  rw [encode, if_pos h]

theorem encode_of_le {n : Nat} (h : 128 ≤ n) :
    encode n = .ofNat (n % 128 + 128) :: encode (n / 128) := by
  rw [encode, if_neg (Nat.not_lt.mpr h)]

theorem recovers (n : Nat) : PrefixCode.Recovers decode encode n := by
  induction n using Nat.strongRecOn with
  | ind n ih =>
      intro rest
      rcases Nat.lt_or_ge n 128 with h | h
      · have hbyte : (UInt8.ofNat n).toNat = n :=
          UInt8.toNat_ofNat_of_lt' (Nat.lt_trans h (by decide))
        rw [encode_of_lt h, List.singleton_append, decode, hbyte, if_pos h]
      · have hbyte : (UInt8.ofNat (n % 128 + 128)).toNat = n % 128 + 128 :=
          UInt8.toNat_ofNat_of_lt' (show n % 128 + 128 < 256 by omega)
        rw [encode_of_le h, List.cons_append, decode, hbyte, if_neg (by omega),
          ih (n / 128) (by omega) rest]
        show some (n % 128 + 128 - 128 + 128 * (n / 128), rest) = _
        rw [Nat.add_sub_cancel, Nat.mod_add_div]

/-- The first byte tells whether there are more, and gives the lowest seven bits. -/
theorem encode_append_eq_cons {n : Nat} {b : UInt8} {bs rest : List UInt8} :
    b :: bs = encode n ++ rest ↔
      (b.toNat < 128 ∧ n = b.toNat ∧ bs = rest) ∨
        (128 ≤ b.toNat ∧ 128 ≤ n ∧ n % 128 + 128 = b.toNat ∧ bs = encode (n / 128) ++ rest) := by
  rcases Nat.lt_or_ge n 128 with h | h
  · have hbyte : b = .ofNat n ↔ b.toNat = n := by
      rw [← UInt8.toNat_inj, UInt8.toNat_ofNat_of_lt' (Nat.lt_trans h (by decide))]
    rw [encode_of_lt h, List.singleton_append, List.cons.injEq, hbyte]
    constructor
    · rintro ⟨rfl, rfl⟩
      exact .inl ⟨h, rfl, rfl⟩
    · rintro (⟨-, rfl, rfl⟩ | ⟨-, hle, -⟩)
      · exact ⟨rfl, rfl⟩
      · omega
  · have hbyte : b = .ofNat (n % 128 + 128) ↔ b.toNat = n % 128 + 128 := by
      rw [← UInt8.toNat_inj, UInt8.toNat_ofNat_of_lt' (show n % 128 + 128 < 256 by omega)]
    rw [encode_of_le h, List.cons_append, List.cons.injEq, hbyte]
    constructor
    · rintro ⟨hb, rfl⟩
      exact .inr ⟨by omega, h, hb.symm, rfl⟩
    · rintro (⟨hlt, rfl, -⟩ | ⟨-, -, hb, rfl⟩)
      · omega
      · exact ⟨hb.symm, rfl⟩

theorem encode_ne_nil (n : Nat) : encode n ≠ [] := by
  rw [encode]
  split <;> exact List.cons_ne_nil _ _

/-- A number below `128 ^ k` takes at most `k` bytes. -/
theorem length_encode_le {k n : Nat} (hk : 0 < k) (h : n < 128 ^ k) : (encode n).length ≤ k := by
  induction k generalizing n with
  | zero => omega
  | succ k ih =>
      rcases Nat.lt_or_ge n 128 with hn | hn
      · rw [encode_of_lt hn]
        exact Nat.succ_le_succ (Nat.zero_le k)
      · have hpos : 0 < k := by
          rcases Nat.eq_zero_or_pos k with rfl | hpos
          · omega
          · exact hpos
        have hdiv : n / 128 < 128 ^ k := by
          rw [Nat.div_lt_iff_lt_mul (by decide), ← Nat.pow_succ]
          exact h
        rw [encode_of_le hn]
        exact Nat.succ_le_succ (ih hpos hdiv)

/-- The lowest bits do not matter for the length. -/
theorem length_encode_congr {n m : Nat} (h : n / 8 = m / 8) :
    (encode n).length = (encode m).length := by
  rcases Nat.lt_or_ge n 128 with hn | hn
  · rw [encode_of_lt hn, encode_of_lt (show m < 128 by omega)]
    rfl
  · rw [encode_of_le hn, encode_of_le (show 128 ≤ m by omega), show n / 128 = m / 128 by omega]
    rfl

end Leb128
