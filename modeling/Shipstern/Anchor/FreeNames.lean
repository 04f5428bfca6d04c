import Shipstern.Anchor.Layout

/-!
# Names of inserted fields

A numbered name is the camel case of its base followed by the number, so numbered names of one
base differ from each other. One more of them than there are taken names cannot all be taken.
-/

namespace Shipstern.Anchor

open Codama

/-- A space in front of every upper-case letter. -/
def spaced (input : Name) : Name := input.flatMap fun c => if c.isUpper then [' ', c] else [c]

/-- The words of a name that is not all upper case. -/
def words (input : Name) : List Name :=
  ((spaced input).splitOnP fun c => !c.isAlphanum).filter fun word => !word.isEmpty

theorem not_isScreamingSnake {first : Char} (hfirst : first.isUpper = false) (hsep : first ≠ '_')
    (rest : Name) : isScreamingSnake (first :: rest) = false := by
  rw [isScreamingSnake, List.splitOnP_cons_eq_if_modifyHead, if_neg (by simpa using hsep)]
  cases hsplit : rest.splitOnP (· == '_') with
  | nil => rfl
  | cons head tail => simp [hfirst]

theorem pascalCase_eq {first : Char} (hfirst : first.isUpper = false) (hsep : first ≠ '_')
    (rest : Name) : pascalCase (first :: rest) = ((words (first :: rest)).map capitalize).flatten := by
  rw [pascalCase, titleWords, not_isScreamingSnake hfirst hsep]
  rfl

theorem isUpper_of_isDigit {c : Char} (h : c.isDigit = true) : c.isUpper = false := by
  simp only [Char.isDigit, Bool.and_eq_true, decide_eq_true_eq, ge_iff_le,
    UInt32.le_iff_toNat_le] at h
  simp only [Char.isUpper, ge_iff_le, UInt32.le_iff_toNat_le]
  simp at h ⊢
  omega

theorem isLower_of_isDigit {c : Char} (h : c.isDigit = true) : c.isLower = false := by
  simp only [Char.isDigit, Bool.and_eq_true, decide_eq_true_eq, ge_iff_le,
    UInt32.le_iff_toNat_le] at h
  simp only [Char.isLower, ge_iff_le, UInt32.le_iff_toNat_le]
  simp at h ⊢
  omega

theorem isUpper_of_isLower {c : Char} (h : c.isLower = true) : c.isUpper = false := by
  simp only [Char.isLower, Bool.and_eq_true, decide_eq_true_eq, ge_iff_le,
    UInt32.le_iff_toNat_le] at h
  simp only [Char.isUpper, ge_iff_le, UInt32.le_iff_toNat_le]
  simp at h ⊢
  omega

theorem toLower_of_isDigit {c : Char} (h : c.isDigit = true) : c.toLower = c :=
  toLower_of_not_isUpper (isUpper_of_isDigit h)

theorem toUpper_of_isDigit {c : Char} (h : c.isDigit = true) : c.toUpper = c :=
  toUpper_of_not_isLower (isLower_of_isDigit h)

theorem capitalize_digits {digits : Name} (h : ∀ c ∈ digits, c.isDigit) :
    capitalize digits = digits := by
  cases digits with
  | nil => rfl
  | cons first rest =>
      have hrest : rest.map Char.toLower = rest := by
        rw [List.map_congr_left fun c hc => toLower_of_isDigit (h c (List.mem_cons_of_mem first hc)),
          List.map_id']
      rw [capitalize, toUpper_of_isDigit (h first List.mem_cons_self), hrest]

theorem spaced_digits {digits : Name} (h : ∀ c ∈ digits, c.isDigit) : spaced digits = digits := by
  induction digits with
  | nil => rfl
  | cons first rest ih =>
      have hrest : spaced rest = rest := ih fun c hc => h c (List.mem_cons_of_mem first hc)
      have hfirst := isUpper_of_isDigit (h first List.mem_cons_self)
      show (if first.isUpper then [' ', first] else [first]) ++ spaced rest = _
      rw [hfirst, hrest]
      rfl

theorem words_append_digits (base : Name) {digits : Name} (hdigits : ∀ c ∈ digits, c.isDigit)
    (hne : digits ≠ []) : words (base ++ '_' :: digits) = words base ++ [digits] := by
  have hsplit : digits.splitOnP (fun c => !c.isAlphanum) = [digits] := by
    refine List.splitOnP_eq_singleton fun c hc => ?_
    simp [Char.isAlphanum, hdigits c hc]
  have happend : spaced (base ++ '_' :: digits) = spaced base ++ '_' :: digits := by
    rw [spaced, List.flatMap_append, List.flatMap_cons]
    show spaced base ++ (['_'] ++ spaced digits) = _
    rw [spaced_digits hdigits]
    rfl
  rw [words, happend, List.splitOnP_append_cons _ _ (by decide), List.filter_append, hsplit, words]
  simp [hne]

/-- A name that starts with a lower-case letter keeps it. -/
theorem exists_pascalCase {first : Char} (hfirst : first.isLower = true) (rest : Name) :
    ∃ tail, pascalCase (first :: rest) = first.toUpper :: tail := by
  have halpha : first.isAlphanum = true := by simp [Char.isAlphanum, Char.isAlpha, hfirst]
  have hupper := isUpper_of_isLower hfirst
  have hsep : first ≠ '_' := by
    rintro rfl
    cases hfirst
  have hspaced : spaced (first :: rest) = first :: spaced rest := by
    show (if first.isUpper then [' ', first] else [first]) ++ spaced rest = _
    rw [hupper]
    rfl
  rw [pascalCase_eq hupper hsep, words, hspaced, List.splitOnP_cons_eq_if_modifyHead,
    if_neg (by simp [halpha])]
  cases hsplit : (spaced rest).splitOnP fun c => !c.isAlphanum with
  | nil => exact absurd hsplit (List.splitOnP_ne_nil _ _)
  | cons head tail => exact ⟨_, rfl⟩

/-- The camel case of a numbered name. -/
theorem camelCase_candidate {first : Char} (hfirst : first.isLower = true) (rest : Name) (n : Nat) :
    camelCase (candidate (first :: rest) (n + 1)) =
      camelCase (first :: rest) ++ Nat.toDigits 10 (n + 2) := by
  have hdigits : ∀ c ∈ Nat.toDigits 10 (n + 2), c.isDigit := fun c hc =>
    Nat.isDigit_of_mem_toDigits (by decide) (by decide) hc
  have hupper := isUpper_of_isLower hfirst
  have hsep : first ≠ '_' := by
    rintro rfl
    cases hfirst
  obtain ⟨tail, htail⟩ := exists_pascalCase hfirst rest
  have hpascal : pascalCase (candidate (first :: rest) (n + 1)) =
      pascalCase (first :: rest) ++ Nat.toDigits 10 (n + 2) := by
    rw [candidate, List.cons_append, pascalCase_eq hupper hsep, pascalCase_eq hupper hsep,
      ← List.cons_append, words_append_digits _ hdigits Nat.toDigits_ne_nil, List.map_append,
      List.flatten_append, List.map_singleton, capitalize_digits hdigits, List.flatten_singleton]
  rw [camelCase, hpascal, camelCase, htail]
  rfl

theorem camelCase_candidate_injective {first : Char} (hfirst : first.isLower = true) (rest : Name) :
    Function.Injective fun n => camelCase (candidate (first :: rest) n) := by
  intro m n h
  simp only at h
  cases m with
  | zero =>
      cases n with
      | zero => rfl
      | succ n =>
          rw [camelCase_candidate hfirst, candidate] at h
          exact absurd (List.self_eq_append_right.mp h) Nat.toDigits_ne_nil
  | succ m =>
      cases n with
      | zero =>
          rw [camelCase_candidate hfirst, candidate] at h
          exact absurd (List.append_right_eq_self.mp h) Nat.toDigits_ne_nil
      | succ n =>
          rw [camelCase_candidate hfirst, camelCase_candidate hfirst] at h
          have hdigits := List.append_cancel_left h
          have hvalue := congrArg (fun digits => Nat.ofDigitChars 10 digits 0) hdigits
          simp only [Nat.ofDigitChars_ten_toDigits] at hvalue
          omega

/-- The chosen name is not taken. -/
theorem freeName_fresh {first : Char} (hfirst : first.isLower = true) (rest : Name)
    (taken : List Name) : camelCase (freeName taken (first :: rest)) ∉ taken := by
  cases hfind : ((List.range (taken.length + 1)).map (candidate (first :: rest))).find? fun name =>
      camelCase name ∉ taken with
  | some name =>
      rw [freeName, hfind]
      simpa using List.find?_some hfind
  | none =>
      -- all candidates are taken, although there are more of them
      have hsubset : (List.range (taken.length + 1)).map
          (fun n => camelCase (candidate (first :: rest) n)) ⊆ taken := by
        intro name hname
        obtain ⟨n, hn, rfl⟩ := List.mem_map.mp hname
        have hnot := List.find?_eq_none.mp hfind _ (List.mem_map_of_mem hn)
        simpa using hnot
      have hnodup := (List.nodup_range (n := taken.length + 1)).map
        (camelCase_candidate_injective hfirst rest)
      have hlength := (hnodup.subperm hsubset).length_le
      simp at hlength

end Shipstern.Anchor
