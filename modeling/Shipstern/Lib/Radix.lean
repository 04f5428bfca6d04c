import Mathlib

/-!
# Change of radix that keeps leading zeros

A list of digits, most significant first, is read as a number and written in another
radix, with one leading zero of the result for every leading zero of the input. Encodings
of byte strings such as base58 are this map followed by a table of symbols.
-/

namespace Radix

/-- The leading zeros of a list of digits. -/
def leadingZeros (digits : List Nat) : List Nat := digits.takeWhile (· = 0)

/-- Write the digits of radix `a` in radix `b`. -/
def convert (a b : Nat) (digits : List Nat) : List Nat :=
  List.replicate (leadingZeros digits).length 0 ++
    (Nat.digits b (Nat.ofDigits a digits.reverse)).reverse

/-- A list of digits without a leading zero. -/
def Normal (digits : List Nat) : Prop := digits.head? ≠ some 0

theorem exists_normal (digits : List Nat) :
    ∃ n front, digits = List.replicate n 0 ++ front ∧ Normal front ∧ ∀ d ∈ front, d ∈ digits := by
  induction digits with
  | nil => exact ⟨0, [], rfl, by simp [Normal], by simp⟩
  | cons d digits ih =>
      by_cases hd : d = 0
      · obtain ⟨n, front, hsplit, hnormal, hmem⟩ := ih
        refine ⟨n + 1, front, ?_, hnormal, fun e he => List.mem_cons_of_mem d (hmem e he)⟩
        rw [hd, hsplit, List.replicate_succ, List.cons_append]
      · exact ⟨0, d :: digits, rfl, by simpa [Normal] using hd, by simp⟩

theorem leadingZeros_append {n : Nat} {front : List Nat} (h : Normal front) :
    leadingZeros (List.replicate n 0 ++ front) = List.replicate n 0 := by
  have hfront : front.takeWhile (· = 0) = [] := by
    cases front with
    | nil => rfl
    | cons d front =>
        have hd : d ≠ 0 := by simpa [Normal] using h
        simp [hd]
  rw [leadingZeros, List.takeWhile_append_of_pos (by simp), hfront, List.append_nil]

theorem ofDigits_reverse_append (a n : Nat) (front : List Nat) :
    Nat.ofDigits a (List.replicate n 0 ++ front).reverse = Nat.ofDigits a front.reverse := by
  rw [List.reverse_append, List.reverse_replicate, Nat.ofDigits_append_replicate_zero]

theorem normal_digits (b m : Nat) : Normal (Nat.digits b m).reverse := by
  rw [Normal, List.head?_reverse]
  intro h
  have hm : m ≠ 0 := by
    rintro rfl
    simp at h
  refine Nat.getLast_digit_ne_zero b hm ?_
  rw [List.getLast?_eq_some_getLast (Nat.digits_ne_nil_iff_ne_zero.mpr hm)] at h
  exact Option.some.inj h

theorem convert_append {a b n : Nat} {front : List Nat} (h : Normal front) :
    convert a b (List.replicate n 0 ++ front) =
      List.replicate n 0 ++ (Nat.digits b (Nat.ofDigits a front.reverse)).reverse := by
  rw [convert, leadingZeros_append h, List.length_replicate, ofDigits_reverse_append]

/-- Changing the radix back gives the digits that were written. -/
theorem convert_convert {a b : Nat} (ha : 1 < a) {digits : List Nat}
    (hdigits : ∀ d ∈ digits, d < a) : convert b a (convert a b digits) = digits := by
  obtain ⟨n, front, rfl, hnormal, hmem⟩ := exists_normal digits
  rw [convert_append hnormal, convert_append (normal_digits b _), List.reverse_reverse,
    Nat.ofDigits_digits, Nat.digits_ofDigits a ha, List.reverse_reverse]
  · intro d hd
    exact hdigits d (hmem d (List.mem_reverse.mp hd))
  · intro hne
    rw [List.getLast_reverse]
    intro hzero
    refine hnormal ?_
    rw [List.head?_eq_some_head (by simpa using hne), hzero]

theorem convert_lt {a b : Nat} (hb : 1 < b) {digits : List Nat} :
    ∀ d ∈ convert a b digits, d < b := by
  intro d hd
  obtain hd | hd := List.mem_append.mp hd
  · rw [List.eq_of_mem_replicate hd]
    omega
  · exact Nat.digits_lt_base hb (List.mem_reverse.mp hd)

end Radix
