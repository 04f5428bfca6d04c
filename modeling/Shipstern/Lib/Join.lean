import Mathlib

/-!
# Joins up to a relation

A join is idempotent, commutative and associative up to an equivalence that it respects.
Joins pass to products, to options (where a missing value is the identity) and along maps,
and a choice that falls back to one value on disagreement is a join. With an identity, the
join of some values depends neither on their order nor on their grouping.
-/

namespace Join

universe u v

variable {α : Type u} {β : Type v}

/-- The laws of a join up to `r`. -/
structure Laws (r : α → α → Prop) (join : α → α → α) : Prop where
  equivalence : Equivalence r
  congr {a a' b b' : α} : r a a' → r b b' → r (join a b) (join a' b')
  idem (a : α) : r (join a a) a
  comm (a b : α) : r (join a b) (join b a)
  assoc (a b c : α) : r (join (join a b) c) (join a (join b c))

/-! ## Building joins -/

theorem Laws.of_eq {join : α → α → α} (idem : ∀ a, join a a = a)
    (comm : ∀ a b, join a b = join b a)
    (assoc : ∀ a b c, join (join a b) c = join a (join b c)) : Laws Eq join where
  equivalence := ⟨fun _ => rfl, Eq.symm, Eq.trans⟩
  congr ha hb := by rw [ha, hb]
  idem := idem
  comm := comm
  assoc := assoc

theorem Laws.prod {r : α → α → Prop} {s : β → β → Prop} {join : α → α → α} {join' : β → β → β}
    (h : Laws r join) (h' : Laws s join') :
    Laws (fun x y : α × β => r x.1 y.1 ∧ s x.2 y.2)
      (fun x y => (join x.1 y.1, join' x.2 y.2)) where
  equivalence :=
    { refl := fun _ => ⟨h.equivalence.refl _, h'.equivalence.refl _⟩
      symm := fun hxy => ⟨h.equivalence.symm hxy.1, h'.equivalence.symm hxy.2⟩
      trans := fun hxy hyz =>
        ⟨h.equivalence.trans hxy.1 hyz.1, h'.equivalence.trans hxy.2 hyz.2⟩ }
  congr hx hy := ⟨h.congr hx.1 hy.1, h'.congr hx.2 hy.2⟩
  idem _ := ⟨h.idem _, h'.idem _⟩
  comm _ _ := ⟨h.comm _ _, h'.comm _ _⟩
  assoc _ _ _ := ⟨h.assoc _ _ _, h'.assoc _ _ _⟩

/-- A map that commutes with the joins carries the laws back. -/
theorem Laws.comap {r : α → α → Prop} {join : α → α → α} (h : Laws r join) {join' : β → β → β}
    (f : β → α) (hf : ∀ x y, f (join' x y) = join (f x) (f y)) :
    Laws (fun x y => r (f x) (f y)) join' where
  equivalence :=
    { refl := fun _ => h.equivalence.refl _
      symm := h.equivalence.symm
      trans := h.equivalence.trans }
  congr hx hy := by
    rw [hf, hf]
    exact h.congr hx hy
  idem x := by
    rw [hf]
    exact h.idem _
  comm x y := by
    rw [hf, hf]
    exact h.comm _ _
  assoc x y z := by
    rw [hf, hf, hf, hf]
    exact h.assoc _ _ _

theorem Laws.congr_rel {r s : α → α → Prop} {join : α → α → α} (h : Laws r join)
    (hrs : ∀ x y, r x y ↔ s x y) : Laws s join := by
  obtain rfl : r = s := by
    funext x y
    exact propext (hrs x y)
  exact h

/-- Two options that both have related values, or both have none. -/
theorem Laws.option {r : α → α → Prop} {join : α → α → α} (h : Laws r join) :
    Laws (Option.Rel r) (Option.merge join) where
  equivalence :=
    { refl := by
        rintro (_ | a)
        · exact .none
        · exact .some (h.equivalence.refl a)
      symm := by
        rintro _ _ (⟨hab⟩ | _)
        · exact .some (h.equivalence.symm hab)
        · exact .none
      trans := by
        rintro _ _ _ (⟨hab⟩ | _) hbc
        · obtain ⟨hbc⟩ := hbc
          exact .some (h.equivalence.trans hab hbc)
        · exact hbc }
  congr := by
    rintro _ _ _ _ (⟨ha⟩ | _) (⟨hb⟩ | _)
    · exact .some (h.congr ha hb)
    · exact .some ha
    · exact .some hb
    · exact .none
  idem := by
    rintro (_ | a)
    · exact .none
    · exact .some (h.idem a)
  comm := by
    rintro (_ | a) (_ | b)
    · exact .none
    · exact .some (h.equivalence.refl b)
    · exact .some (h.equivalence.refl a)
    · exact .some (h.comm a b)
  assoc := by
    rintro (_ | a) (_ | b) (_ | c)
    · exact .none
    · exact .some (h.equivalence.refl c)
    · exact .some (h.equivalence.refl b)
    · exact .some (h.equivalence.refl _)
    · exact .some (h.equivalence.refl a)
    · exact .some (h.equivalence.refl _)
    · exact .some (h.equivalence.refl _)
    · exact .some (h.assoc a b c)

/-- The first value, if the two are the same, and the value for disagreement otherwise. -/
def agree (same : α → α → Bool) (top a b : α) : α := if same a b then a else top

theorem Laws.agree {r : α → α → Prop} {same : α → α → Bool} (hr : Equivalence r)
    (hsame : ∀ a b, same a b = true ↔ r a b) (top : α) : Laws r (agree same top) := by
  have hif : ∀ a b, (r a b ∧ Join.agree same top a b = a) ∨
      (¬ r a b ∧ Join.agree same top a b = top) := by
    intro a b
    by_cases hab : r a b
    · exact .inl ⟨hab, if_pos ((hsame a b).mpr hab)⟩
    · exact .inr ⟨hab, if_neg fun h => hab ((hsame a b).mp h)⟩
  have htop : ∀ a, r (Join.agree same top a top) top ∧ r (Join.agree same top top a) top := by
    intro a
    constructor
    · obtain ⟨hab, heq⟩ | ⟨-, heq⟩ := hif a top
      · rwa [heq]
      · rw [heq]
        exact hr.refl top
    · obtain ⟨-, heq⟩ | ⟨-, heq⟩ := hif top a
      · rw [heq]
        exact hr.refl top
      · rw [heq]
        exact hr.refl top
  refine ⟨hr, ?_, ?_, ?_, ?_⟩
  · intro a a' b b' ha hb
    have hiff : r a b ↔ r a' b' :=
      ⟨fun hab => hr.trans (hr.symm ha) (hr.trans hab hb),
        fun hab => hr.trans ha (hr.trans hab (hr.symm hb))⟩
    obtain ⟨hab, heq⟩ | ⟨hab, heq⟩ := hif a b
    · obtain ⟨-, heq'⟩ | ⟨hnot, -⟩ := hif a' b'
      · rwa [heq, heq']
      · exact absurd (hiff.mp hab) hnot
    · obtain ⟨hab', -⟩ | ⟨-, heq'⟩ := hif a' b'
      · exact absurd (hiff.mpr hab') hab
      · rw [heq, heq']
        exact hr.refl top
  · intro a
    obtain ⟨-, heq⟩ | ⟨hnot, -⟩ := hif a a
    · rw [heq]
      exact hr.refl a
    · exact absurd (hr.refl a) hnot
  · intro a b
    obtain ⟨hab, heq⟩ | ⟨hab, heq⟩ := hif a b
    · obtain ⟨-, heq'⟩ | ⟨hnot, -⟩ := hif b a
      · rwa [heq, heq']
      · exact absurd (hr.symm hab) hnot
    · obtain ⟨hba, -⟩ | ⟨-, heq'⟩ := hif b a
      · exact absurd (hr.symm hba) hab
      · rw [heq, heq']
        exact hr.refl top
  · intro a b c
    -- Either the three agree, or one side of the equation disagrees at once.
    obtain ⟨hab, heq⟩ | ⟨hab, heq⟩ := hif a b
    · rw [heq]
      obtain ⟨hbc, heq'⟩ | ⟨hbc, heq'⟩ := hif b c
      · rw [heq', heq]
        obtain ⟨-, hac⟩ | ⟨hnot, -⟩ := hif a c
        · rw [hac]
          exact hr.refl a
        · exact absurd (hr.trans hab hbc) hnot
      · rw [heq']
        obtain ⟨hac, -⟩ | ⟨-, hac⟩ := hif a c
        · exact absurd (hr.trans (hr.symm hab) hac) hbc
        · rw [hac]
          exact hr.symm (htop a).1
    · rw [heq]
      obtain ⟨-, heq'⟩ | ⟨-, heq'⟩ := hif b c
      · rw [heq', heq]
        exact (htop c).2
      · rw [heq']
        exact hr.trans (htop c).2 (hr.symm (htop a).1)

/-! ## Order and grouping -/

section Fold

variable {r : α → α → Prop} {join : α → α → α} (h : Laws r join)
include h

theorem Laws.foldl_congr {a a' : α} (ha : r a a') (l : List α) :
    r (l.foldl join a) (l.foldl join a') := by
  induction l generalizing a a' with
  | nil => exact ha
  | cons b l ih => exact ih (h.congr ha (h.equivalence.refl b))

theorem Laws.foldl_perm {l m : List α} (hperm : l.Perm m) (a : α) :
    r (l.foldl join a) (m.foldl join a) := by
  induction hperm generalizing a with
  | nil => exact h.equivalence.refl a
  | cons b _ ih => exact ih (join a b)
  | swap b c l =>
      refine h.foldl_congr ?_ l
      have hswap : r (join a (join c b)) (join a (join b c)) :=
        h.congr (h.equivalence.refl a) (h.comm c b)
      exact h.equivalence.trans (h.assoc a c b)
        (h.equivalence.trans hswap (h.equivalence.symm (h.assoc a b c)))
  | trans _ _ ih ih' => exact h.equivalence.trans (ih a) (ih' a)

/-- A join in front of a fold can be made after it. -/
theorem Laws.foldl_join (a b : α) (l : List α) :
    r (l.foldl join (join a b)) (join a (l.foldl join b)) := by
  induction l generalizing b with
  | nil => exact h.equivalence.refl _
  | cons c l ih => exact h.equivalence.trans (h.foldl_congr (h.assoc a b c) l) (ih (join b c))

end Fold

/-- A way to join some values pairwise. -/
inductive Grouping (α : Type u)
  | single (a : α)
  | both (left right : Grouping α)

namespace Grouping

def leaves : Grouping α → List α
  | single a => [a]
  | both left right => left.leaves ++ right.leaves

def eval (join : α → α → α) : Grouping α → α
  | single a => a
  | both left right => join (left.eval join) (right.eval join)

/-- Every grouping joins its values as the fold from the identity does. -/
theorem eval_foldl {r : α → α → Prop} {join : α → α → α} (h : Laws r join) {bottom : α}
    (hbottom : ∀ a, join bottom a = a) (hbottom' : ∀ a, join a bottom = a) (t : Grouping α) :
    r (t.eval join) (t.leaves.foldl join bottom) := by
  induction t with
  | single a =>
      rw [eval, leaves, List.foldl_cons, List.foldl_nil, hbottom]
      exact h.equivalence.refl a
  | both left right ih ih' =>
      have hfold := h.foldl_join (left.leaves.foldl join bottom) bottom right.leaves
      rw [hbottom'] at hfold
      rw [eval, leaves, List.foldl_append]
      exact h.equivalence.trans (h.congr ih ih') (h.equivalence.symm hfold)

end Grouping

end Join
