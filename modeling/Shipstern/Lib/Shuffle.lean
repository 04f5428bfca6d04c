import Mathlib

/-!
# Interleavings of message sequences

Any number of senders share one channel. `Shuffle ls l` says that `l` is what arrives when
each sender sends one of the lists `ls` in order: the heads are taken one at a time until
all lists are empty. Nothing is lost and nothing is added, so `l` is a permutation of all
messages. What one sender promises about the order of its own messages also holds of the
channel if it says that something follows: `Followed p q` promises that after every `p` a
`q` is still to come.
-/

universe u

variable {α : Type u}

inductive Shuffle : List (List α) → List α → Prop
  | done {ls : List (List α)} (empty : ∀ l ∈ ls, l = []) : Shuffle ls []
  | next {front back : List (List α)} {a : α} {l rest : List α}
      (tail : Shuffle (front ++ l :: back) rest) : Shuffle (front ++ (a :: l) :: back) (a :: rest)

/-- Every element with `p` is followed by one with `q`. -/
def Followed (p q : α → Bool) (l : List α) : Prop :=
  ∀ front a back, l = front ++ a :: back → p a = true → ∃ b ∈ back, q b = true

namespace Followed

variable {p q : α → Bool} {l : List α}

theorem tail {a : α} (h : Followed p q (a :: l)) : Followed p q l :=
  fun front b back heq => h (a :: front) b back (by rw [heq, List.cons_append])

/-- Elements that matter for neither may be left out. -/
theorem of_filter {r : α → Bool} (h : Followed p q (l.filter r))
    (hp : ∀ a, p a = true → r a = true) : Followed p q l := by
  rintro front a back rfl ha
  rw [List.filter_append, List.filter_cons_of_pos (hp a ha)] at h
  obtain ⟨b, hb, hq⟩ := h _ a _ rfl ha
  exact ⟨b, (List.mem_filter.mp hb).1, hq⟩

/-- A list that ends with a `q` which is no `p`. -/
theorem concat {a : α} (hp : p a = false) (hq : q a = true) : Followed p q (l ++ [a]) := by
  intro front b back heq hb
  obtain rfl | ⟨back, last, rfl⟩ := List.eq_nil_or_concat' back
  · have hlast := congrArg List.getLast? heq
    rw [List.getLast?_concat, List.getLast?_concat] at hlast
    cases hlast
    rw [hp] at hb
    contradiction
  · have hlast := congrArg List.getLast? heq
    rw [← List.cons_append, ← List.append_assoc, List.getLast?_concat,
      List.getLast?_concat] at hlast
    cases hlast
    exact ⟨a, by simp, hq⟩

end Followed

namespace Shuffle

variable {ls : List (List α)} {l : List α}

theorem perm (h : Shuffle ls l) : l.Perm ls.flatten := by
  induction h with
  | done empty => rw [List.flatten_eq_nil_iff.mpr empty]
  | @next front back a l rest _ ih =>
      have hmiddle : (front ++ (a :: l) :: back).flatten.Perm
          (a :: (front ++ l :: back).flatten) := by
        simp only [List.flatten_append, List.flatten_cons, List.cons_append]
        exact List.perm_middle
      exact (ih.cons a).trans hmiddle.symm

/-- A promise of every sender is a promise of the channel. -/
theorem followed {p q : α → Bool} (h : Shuffle ls l) (hls : ∀ l ∈ ls, Followed p q l) :
    Followed p q l := by
  induction h with
  | done _ =>
      intro front a back heq
      simp at heq
  | @next front back a l rest tail ih =>
      have hrest : Followed p q rest := by
        apply ih
        intro l' hl'
        obtain hin | rfl | hin := by simpa using hl'
        · exact hls l' (by simp [hin])
        · exact (hls (a :: l') (by simp)).tail
        · exact hls l' (by simp [hin])
      intro before b after heq hb
      cases before with
      | nil =>
          obtain ⟨rfl, rfl⟩ := List.cons.inj heq
          obtain ⟨c, hc, hq⟩ := hls (a :: l) (by simp) [] a l rfl hb
          exact ⟨c, tail.perm.mem_iff.mpr (by simp [hc]), hq⟩
      | cons _ before =>
          obtain ⟨rfl, rfl⟩ := List.cons.inj heq
          exact hrest before b after rfl hb

/-! An interleaving can be decided: try each list that starts with the next element. -/

theorem nil_iff : Shuffle ls ([] : List α) ↔ ∀ l ∈ ls, l = [] := by
  constructor
  · intro h
    cases h with
    | done empty => exact empty
  · exact done

theorem cons_iff {a : α} : Shuffle ls (a :: l) ↔
    ∃ i : Fin ls.length, ls[i].head? = some a ∧ Shuffle (ls.set i ls[i].tail) l := by
  constructor
  · intro h
    cases h with
    | @next front back _ l' _ tail =>
        refine ⟨⟨front.length, by simp⟩, by simp, ?_⟩
        simpa using tail
  · rintro ⟨i, hhead, htail⟩
    have hcons : a :: ls[i].tail = ls[i] := List.cons_head?_tail hhead
    have hls : ls.take i ++ (a :: ls[i].tail) :: ls.drop (i + 1) = ls := by
      rw [hcons, Fin.getElem_fin, List.getElem_cons_drop, List.take_append_drop]
    rw [List.set_eq_take_append_cons_drop, if_pos i.isLt] at htail
    rw [← hls]
    exact next htail

instance decidable [DecidableEq α] :
    (ls : List (List α)) → (l : List α) → Decidable (Shuffle ls l)
  | ls, [] => decidable_of_iff (∀ l ∈ ls, l = []) nil_iff.symm
  | _, _ :: l =>
      have : ∀ ls', Decidable (Shuffle ls' l) := fun ls' => decidable ls' l
      decidable_of_iff _ cons_iff.symm

end Shuffle
