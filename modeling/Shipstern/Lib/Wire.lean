import Mathlib

/-!
# Wire formats

A format says how bytes are read: atoms one after the other, repetitions, options, tagged
unions, and links to named formats, which may be recursive. `Reads` relates bytes to the value
at their front and to the bytes behind it. A record of one field is its field, so wrapping a
format in such a record changes no value.

Two formats over different names and primitives are similar when they agree up to links that
are unfolded on either side. Similar formats read alike.
-/

namespace Wire

abbrev Bytes := List UInt8

inductive Value (A : Type)
  | atom (a : A)
  | seq (items : List (Value A))
  | tuple (items : List (Value A))
  | none
  | some (item : Value A)
  | variant (index : Nat) (payload : Value A)

/-- A record of one field is its field. -/
def Value.pack {A : Type} : List (Value A) → Value A
  | [item] => item
  | items => .tuple items

/-- The values of a record of so many fields. -/
def Value.unpack {A : Type} : Nat → Value A → List (Value A)
  | 1, item => [item]
  | _, .tuple items => items
  | _, _ => []

theorem Value.unpack_pack {A : Type} (items : List (Value A)) :
    (Value.pack items).unpack items.length = items := by
  cases items with
  | nil => rfl
  | cons first items =>
      cases items with
      | nil => rfl
      | cons second items => rfl

/-- How primitives are read: atoms of type `P`, and counts of type `C`. -/
structure Codec (A P C : Type) where
  atom : P → Bytes → Option (A × Bytes)
  count : C → Bytes → Option (Nat × Bytes)
  /-- The number of bytes of an atom, when it is always the same. -/
  atomSize : P → Option Nat
  countSize : C → Option Nat
  /-- A count that takes no bytes. -/
  static : C → Option Nat
  /-- A count that is refused for items that hold nothing. -/
  solid : C → Bool

/-- The bytes that are skipped for an absent item. -/
inductive Padding
  | bytes (n : Nat)
  /-- As many as a present item takes. -/
  | size

inductive Format (P C N : Type)
  | atom (p : P)
  | tuple (items : List (Format P C N))
  | counted (c : C) (item : Format P C N)
  /-- Items up to the end of the input. -/
  | remainder (item : Format P C N)
  /-- One item in a frame of the given number of bytes, which it fills. -/
  | framed (c : C) (item : Format P C N)
  | option (c : C) (pad : Padding) (item : Format P C N)
  | tagged (c : C) (variants : List (Format P C N))
  | link (name : N)

section Reads

variable {A P C N : Type} (codec : Codec A P C) (env : N → Option (Format P C N))

/-- A format whose values hold nothing: records without content, and unions of one of them. -/
inductive Hollow : Format P C N → Prop
  | tuple {items : List (Format P C N)} (h : ∀ item ∈ items, Hollow item) : Hollow (.tuple items)
  | tagged {c : C} {variants : List (Format P C N)} (hone : variants.length ≤ 1)
      (h : ∀ payload ∈ variants, Hollow payload) : Hollow (.tagged c variants)
  | link {name : N} {format : Format P C N} (henv : env name = some format)
      (h : Hollow format) : Hollow (.link name)

/-- A format whose readings take a fixed number of bytes. -/
inductive HasSize : Format P C N → Nat → Prop
  | atom {p : P} {n : Nat} (h : codec.atomSize p = some n) : HasSize (.atom p) n
  | tuple {items : List (Format P C N × Nat)} (h : ∀ item ∈ items, HasSize item.1 item.2) :
      HasSize (.tuple (items.map Prod.fst)) (items.map Prod.snd).sum
  | counted {c : C} {item : Format P C N} {count n : Nat} (hcount : codec.static c = some count)
      (h : HasSize item n) : HasSize (.counted c item) (n * count)
  | framed {c : C} {item : Format P C N} {n : Nat} (h : codec.static c = some n) :
      HasSize (.framed c item) n
  | option {c : C} {pad : Padding} {item : Format P C N} {tag n : Nat}
      (htag : codec.countSize c = some tag) (hpad : pad = .size ∨ pad = .bytes n)
      (h : HasSize item n) : HasSize (.option c pad item) (tag + n)
  | link {name : N} {format : Format P C N} {n : Nat} (henv : env name = some format)
      (h : HasSize format n) : HasSize (.link name) n

/-- The number of bytes that are skipped for an absent item. -/
def PadSize (item : Format P C N) : Padding → Nat → Prop
  | .bytes n, m => m = n
  | .size, m => HasSize codec env item m

/-- What is read: one format, a list of formats, a format a number of times, or a format up to
the end. -/
inductive Task (P C N : Type)
  | one (format : Format P C N)
  | all (formats : List (Format P C N))
  | times (n : Nat) (format : Format P C N)
  | rest (format : Format P C N)

/-- Bytes, the values at their front, and the bytes behind them. -/
inductive Reads : Task P C N → Bytes → List (Value A) → Bytes → Prop
  | atom {p : P} {bs rest : Bytes} {a : A} (h : codec.atom p bs = some (a, rest)) :
      Reads (.one (.atom p)) bs [.atom a] rest
  | tuple {items : List (Format P C N)} {bs rest : Bytes} {vs : List (Value A)}
      (h : Reads (.all items) bs vs rest) : Reads (.one (.tuple items)) bs [.pack vs] rest
  | counted {c : C} {item : Format P C N} {n : Nat} {bs mid rest : Bytes} {vs : List (Value A)}
      (hsolid : codec.solid c = true → ¬ Hollow env item)
      (hcount : codec.count c bs = some (n, mid)) (h : Reads (.times n item) mid vs rest) :
      Reads (.one (.counted c item)) bs [.seq vs] rest
  | remainder {item : Format P C N} {bs : Bytes} {vs : List (Value A)}
      (h : Reads (.rest item) bs vs []) : Reads (.one (.remainder item)) bs [.seq vs] []
  | framed {c : C} {item : Format P C N} {n : Nat} {bs mid : Bytes} {v : Value A}
      (hcount : codec.count c bs = some (n, mid)) (hlength : n ≤ mid.length)
      (h : Reads (.one item) (mid.take n) [v] []) :
      Reads (.one (.framed c item)) bs [v] (mid.drop n)
  | none {c : C} {pad : Padding} {item : Format P C N} {n : Nat} {bs mid : Bytes}
      (htag : codec.count c bs = some (0, mid)) (hpad : PadSize codec env item pad n)
      (hlength : n ≤ mid.length) : Reads (.one (.option c pad item)) bs [.none] (mid.drop n)
  | some {c : C} {pad : Padding} {item : Format P C N} {bs mid rest : Bytes} {v : Value A}
      (htag : codec.count c bs = some (1, mid)) (h : Reads (.one item) mid [v] rest) :
      Reads (.one (.option c pad item)) bs [.some v] rest
  | tagged {c : C} {variants : List (Format P C N)} {i : Nat} {payload : Format P C N}
      {bs mid rest : Bytes} {v : Value A} (htag : codec.count c bs = some (i, mid))
      (hpayload : variants[i]? = some payload) (h : Reads (.one payload) mid [v] rest) :
      Reads (.one (.tagged c variants)) bs [.variant i v] rest
  | link {name : N} {format : Format P C N} {bs rest : Bytes} {v : Value A}
      (henv : env name = some format) (h : Reads (.one format) bs [v] rest) :
      Reads (.one (.link name)) bs [v] rest
  | nil {bs : Bytes} : Reads (.all []) bs [] bs
  | cons {format : Format P C N} {formats : List (Format P C N)} {bs mid rest : Bytes}
      {v : Value A} {vs : List (Value A)} (h : Reads (.one format) bs [v] mid)
      (hrest : Reads (.all formats) mid vs rest) :
      Reads (.all (format :: formats)) bs (v :: vs) rest
  | zero {format : Format P C N} {bs : Bytes} : Reads (.times 0 format) bs [] bs
  | succ {n : Nat} {format : Format P C N} {bs mid rest : Bytes} {v : Value A}
      {vs : List (Value A)} (h : Reads (.one format) bs [v] mid)
      (hrest : Reads (.times n format) mid vs rest) :
      Reads (.times (n + 1) format) bs (v :: vs) rest
  | stop {format : Format P C N} : Reads (.rest format) [] [] []
  | more {format : Format P C N} {bs mid : Bytes} {v : Value A} {vs : List (Value A)}
      (hne : bs ≠ []) (h : Reads (.one format) bs [v] mid)
      (hrest : Reads (.rest format) mid vs []) :
      Reads (.rest format) bs (v :: vs) []

variable {codec env}

theorem hasSize_tuple {formats : List (Format P C N)} {sizes : List Nat}
    (h : List.Forall₂ (HasSize codec env) formats sizes) :
    HasSize codec env (.tuple formats) sizes.sum := by
  obtain ⟨items, rfl, rfl, hitems⟩ : ∃ items : List (Format P C N × Nat),
      items.map Prod.fst = formats ∧ items.map Prod.snd = sizes ∧
        ∀ item ∈ items, HasSize codec env item.1 item.2 := by
    induction h with
    | nil => exact ⟨[], rfl, rfl, by simp⟩
    | @cons format n formats sizes hfirst _ ih =>
        obtain ⟨items, hformats, hsizes, hitems⟩ := ih
        refine ⟨(format, n) :: items, by simp [hformats], by simp [hsizes], ?_⟩
        exact List.forall_mem_cons.mpr ⟨hfirst, hitems⟩
  exact .tuple hitems

theorem HasSize.of_tuple {formats : List (Format P C N)} {n : Nat}
    (h : HasSize codec env (.tuple formats) n) :
    ∃ sizes, List.Forall₂ (HasSize codec env) formats sizes ∧ n = sizes.sum := by
  generalize hformats : Format.tuple formats = format at h
  cases h with
  | @tuple items h =>
      cases hformats
      refine ⟨items.map Prod.snd, ?_, rfl⟩
      rw [List.forall₂_map_left_iff, List.forall₂_map_right_iff, List.forall₂_same]
      exact h
  | atom | counted | framed | option | link => cases hformats

/-- A format has one size. -/
theorem HasSize.unique {format : Format P C N} {n m : Nat} (h : HasSize codec env format n)
    (h' : HasSize codec env format m) : n = m := by
  induction h generalizing m with
  | atom h =>
      cases h' with
      | atom h' => exact Option.some.inj (h.symm.trans h')
  | @tuple items h ih =>
      obtain ⟨sizes, hsizes, rfl⟩ := h'.of_tuple
      rw [List.forall₂_map_left_iff] at hsizes
      have heq : items.map Prod.snd = sizes := by
        clear h h'
        induction hsizes with
        | nil => rfl
        | @cons item n items sizes hfirst _ ihs =>
            obtain ⟨ihfirst, ihrest⟩ := List.forall_mem_cons.mp ih
            rw [List.map_cons, ihfirst hfirst, ihs ihrest]
      rw [heq]
  | counted hcount h ih =>
      cases h' with
      | counted hcount' h' =>
          rw [hcount] at hcount'
          cases hcount'
          rw [ih h']
  | framed h =>
      cases h' with
      | framed h' => exact Option.some.inj (h.symm.trans h')
  | option htag hpad h ih =>
      cases h' with
      | option htag' hpad' h' =>
          rw [htag] at htag'
          cases htag'
          rw [ih h']
  | link henv h ih =>
      cases h' with
      | link henv' h' =>
          rw [henv] at henv'
          cases henv'
          exact ih h'

/-- A reading of one format gives one value. -/
theorem Reads.one_value {format : Format P C N} {bs rest : Bytes} {vs : List (Value A)}
    (h : Reads codec env (.one format) bs vs rest) : ∃ v, vs = [v] := by
  cases h <;> exact ⟨_, rfl⟩

theorem reads_link_iff {name : N} {format : Format P C N} (henv : env name = .some format)
    {bs rest : Bytes} {vs : List (Value A)} :
    Reads codec env (.one (.link name)) bs vs rest ↔
      Reads codec env (.one format) bs vs rest := by
  constructor
  · intro h
    cases h with
    | link henv' h =>
        rw [henv] at henv'
        cases henv'
        exact h
  · intro h
    obtain ⟨v, rfl⟩ := h.one_value
    exact .link henv h

theorem reads_single_iff {format : Format P C N} {bs rest : Bytes} {vs : List (Value A)} :
    Reads codec env (.one (.tuple [format])) bs vs rest ↔
      Reads codec env (.one format) bs vs rest := by
  constructor
  · intro h
    cases h with
    | tuple h =>
        cases h with
        | cons h hrest =>
            cases hrest
            exact h
  · intro h
    obtain ⟨v, rfl⟩ := h.one_value
    have hall : Reads codec env (.all [format]) bs [v] rest := .cons h .nil
    exact .tuple hall

theorem reads_tuple_iff {items : List (Format P C N)} {bs rest : Bytes} {v : Value A} :
    Reads codec env (.one (.tuple items)) bs [v] rest ↔
      ∃ vs, Reads codec env (.all items) bs vs rest ∧ v = .pack vs := by
  constructor
  · intro h
    cases h with
    | @tuple _ _ _ vs h => exact ⟨vs, h, rfl⟩
  · rintro ⟨vs, h, rfl⟩
    exact .tuple h

theorem reads_cons_iff {format : Format P C N} {formats : List (Format P C N)} {bs rest : Bytes}
    {vs : List (Value A)} :
    Reads codec env (.all (format :: formats)) bs vs rest ↔
      ∃ v vs' mid, vs = v :: vs' ∧ Reads codec env (.one format) bs [v] mid ∧
        Reads codec env (.all formats) mid vs' rest := by
  constructor
  · intro h
    cases h with
    | cons h hrest => exact ⟨_, _, _, rfl, h, hrest⟩
  · rintro ⟨v, vs', mid, rfl, h, hrest⟩
    exact .cons h hrest

theorem reads_nil_iff {bs rest : Bytes} {vs : List (Value A)} :
    Reads codec env (.all []) bs vs rest ↔ vs = [] ∧ rest = bs := by
  constructor
  · intro h
    cases h
    exact ⟨rfl, rfl⟩
  · rintro ⟨rfl, rfl⟩
    exact .nil

theorem Reads.length_eq {formats : List (Format P C N)} {bs rest : Bytes} {vs : List (Value A)}
    (h : Reads codec env (.all formats) bs vs rest) : vs.length = formats.length := by
  induction formats generalizing bs vs with
  | nil =>
      rw [(reads_nil_iff.mp h).1]
      rfl
  | cons format formats ih =>
      obtain ⟨v, vs', mid, rfl, -, hrest⟩ := reads_cons_iff.mp h
      rw [List.length_cons, List.length_cons, ih hrest]

/-- Formats are read one list after the other. -/
theorem reads_append_iff {lefts rights : List (Format P C N)} {bs rest : Bytes}
    {vs : List (Value A)} :
    Reads codec env (.all (lefts ++ rights)) bs vs rest ↔
      ∃ ls rs mid, vs = ls ++ rs ∧ Reads codec env (.all lefts) bs ls mid ∧
        Reads codec env (.all rights) mid rs rest := by
  induction lefts generalizing bs vs with
  | nil =>
      constructor
      · exact fun h => ⟨[], vs, bs, rfl, .nil, h⟩
      · rintro ⟨ls, rs, mid, rfl, hleft, hright⟩
        obtain ⟨rfl, rfl⟩ := reads_nil_iff.mp hleft
        exact hright
  | cons format lefts ih =>
      rw [List.cons_append, reads_cons_iff]
      constructor
      · rintro ⟨v, vs', mid, rfl, hfirst, hrest⟩
        obtain ⟨ls, rs, next, rfl, hleft, hright⟩ := ih.mp hrest
        exact ⟨v :: ls, rs, next, rfl, .cons hfirst hleft, hright⟩
      · rintro ⟨ls, rs, next, rfl, hleft, hright⟩
        obtain ⟨v, ls', mid, rfl, hfirst, hleft⟩ := reads_cons_iff.mp hleft
        exact ⟨v, ls' ++ rs, mid, rfl, hfirst, ih.mpr ⟨ls', rs, next, rfl, hleft, hright⟩⟩

end Reads

/-! ## Similar formats -/

section Similar

variable {A P C N P' C' M : Type} (codec : Codec A P C) (env : N → Option (Format P C N))
  (codec' : Codec A P' C') (env' : M → Option (Format P' C' M)) (R : N → M → Prop)

/-- Atoms that are read alike. -/
structure SameAtom (p : P) (p' : P') : Prop where
  read : ∀ bs, codec.atom p bs = codec'.atom p' bs
  size : codec.atomSize p = codec'.atomSize p'

/-- Counts that are read alike. -/
structure SameCount (c : C) (c' : C') : Prop where
  read : ∀ bs, codec.count c bs = codec'.count c' bs
  size : codec.countSize c = codec'.countSize c'
  static : codec.static c = codec'.static c'
  solid : codec.solid c = codec'.solid c'

/-- Counts that are read alike as the tag of one of `n` cases. -/
structure SameTag (n : Nat) (c : C) (c' : C') : Prop where
  read : ∀ bs i rest, i < n →
    (codec.count c bs = some (i, rest) ↔ codec'.count c' bs = some (i, rest))
  size : codec.countSize c = codec'.countSize c'

/-- Paddings that skip alike, in place of these items. -/
inductive SamePadding (left : Format P C N) (right : Format P' C' M) : Padding → Padding → Prop
  | bytes {n : Nat} : SamePadding left right (.bytes n) (.bytes n)
  | size : SamePadding left right .size .size
  | sizeLeft {n : Nat} (h : HasSize codec env left n) : SamePadding left right .size (.bytes n)
  | sizeRight {n : Nat} (h : HasSize codec' env' right n) : SamePadding left right (.bytes n) .size

/-- The first format is the second one with links and records of one field removed around it. -/
inductive Unfolds (core : Format P C N) : Format P C N → Prop
  | refl : Unfolds core core
  | link {name : N} {format : Format P C N} (henv : env name = some format)
      (h : Unfolds core format) : Unfolds core (.link name)
  | single {format : Format P C N} (h : Unfolds core format) : Unfolds core (.tuple [format])

/-- Two formats and what they unfold to. -/
structure Part (P C N P' C' M : Type) where
  left : Format P C N
  core : Format P C N
  right : Format P' C' M
  core' : Format P' C' M

/-- Formats that agree in their first constructor, and below it up to unfolding. Links agree by
the given relation. -/
inductive Core : Format P C N → Format P' C' M → Prop
  | atom {p : P} {p' : P'} (h : SameAtom codec codec' p p') : Core (.atom p) (.atom p')
  | tuple {parts : List (Part P C N P' C' M)}
      (hleft : ∀ part ∈ parts, Unfolds env part.core part.left)
      (hright : ∀ part ∈ parts, Unfolds env' part.core' part.right)
      (h : ∀ part ∈ parts, Core part.core part.core') :
      Core (.tuple (parts.map Part.left)) (.tuple (parts.map Part.right))
  | counted {c : C} {c' : C'} {left core : Format P C N} {right core' : Format P' C' M}
      (hcount : SameCount codec codec' c c') (hleft : Unfolds env core left)
      (hright : Unfolds env' core' right) (h : Core core core') :
      Core (.counted c left) (.counted c' right)
  | remainder {left core : Format P C N} {right core' : Format P' C' M}
      (hleft : Unfolds env core left) (hright : Unfolds env' core' right) (h : Core core core') :
      Core (.remainder left) (.remainder right)
  | framed {c : C} {c' : C'} {left core : Format P C N} {right core' : Format P' C' M}
      (hcount : SameCount codec codec' c c') (hleft : Unfolds env core left)
      (hright : Unfolds env' core' right) (h : Core core core') :
      Core (.framed c left) (.framed c' right)
  | option {c : C} {c' : C'} {pad pad' : Padding} {left core : Format P C N}
      {right core' : Format P' C' M} (htag : SameTag codec codec' 2 c c')
      (hpad : SamePadding codec env codec' env' left right pad pad')
      (hleft : Unfolds env core left) (hright : Unfolds env' core' right) (h : Core core core') :
      Core (.option c pad left) (.option c' pad' right)
  | tagged {c : C} {c' : C'} {parts : List (Part P C N P' C' M)}
      (htag : SameTag codec codec' parts.length c c')
      (hleft : ∀ part ∈ parts, Unfolds env part.core part.left)
      (hright : ∀ part ∈ parts, Unfolds env' part.core' part.right)
      (h : ∀ part ∈ parts, Core part.core part.core') :
      Core (.tagged c (parts.map Part.left)) (.tagged c' (parts.map Part.right))
  | link {name : N} {name' : M} (h : R name name') : Core (.link name) (.link name')

/-- Formats that agree up to unfolding. -/
def Similar (left : Format P C N) (right : Format P' C' M) : Prop :=
  ∃ core core', Unfolds env core left ∧ Unfolds env' core' right ∧
    Core codec env codec' env' R core core'

/-- Similar tasks. -/
inductive SimilarTask : Task P C N → Task P' C' M → Prop
  | one {left : Format P C N} {right : Format P' C' M}
      (h : Similar codec env codec' env' R left right) : SimilarTask (.one left) (.one right)
  | all {lefts : List (Format P C N)} {rights : List (Format P' C' M)}
      (h : List.Forall₂ (Similar codec env codec' env' R) lefts rights) :
      SimilarTask (.all lefts) (.all rights)
  | times {n : Nat} {left : Format P C N} {right : Format P' C' M}
      (h : Similar codec env codec' env' R left right) :
      SimilarTask (.times n left) (.times n right)
  | rest {left : Format P C N} {right : Format P' C' M}
      (h : Similar codec env codec' env' R left right) : SimilarTask (.rest left) (.rest right)

/-- Related names stand for similar formats, or for none. -/
def Respects : Prop :=
  ∀ name name', R name name' →
    Option.Rel (Similar codec env codec' env' R) (env name) (env' name')

variable {codec env codec' env' R}

theorem Unfolds.reads_iff {core format : Format P C N} (h : Unfolds env core format)
    {bs rest : Bytes} {vs : List (Value A)} :
    Reads codec env (.one format) bs vs rest ↔ Reads codec env (.one core) bs vs rest := by
  induction h with
  | refl => exact Iff.rfl
  | link henv h ih => exact (reads_link_iff henv).trans ih
  | single h ih => exact reads_single_iff.trans ih

def Part.flip (part : Part P C N P' C' M) : Part P' C' M P C N :=
  ⟨part.right, part.core', part.left, part.core⟩

theorem map_left_flip (parts : List (Part P C N P' C' M)) :
    (parts.map Part.flip).map Part.left = parts.map Part.right := by
  rw [List.map_map]
  rfl

theorem map_right_flip (parts : List (Part P C N P' C' M)) :
    (parts.map Part.flip).map Part.right = parts.map Part.left := by
  rw [List.map_map]
  rfl

theorem SameAtom.flip {p : P} {p' : P'} (h : SameAtom codec codec' p p') :
    SameAtom codec' codec p' p :=
  ⟨fun bs => (h.read bs).symm, h.size.symm⟩

theorem SameCount.flip {c : C} {c' : C'} (h : SameCount codec codec' c c') :
    SameCount codec' codec c' c :=
  ⟨fun bs => (h.read bs).symm, h.size.symm, h.static.symm, h.solid.symm⟩

theorem SameAtom.refl (p : P) : SameAtom codec codec p p := ⟨fun _ => rfl, rfl⟩

theorem SameCount.refl (c : C) : SameCount codec codec c c := ⟨fun _ => rfl, rfl, rfl, rfl⟩

theorem SameTag.flip {n : Nat} {c : C} {c' : C'} (h : SameTag codec codec' n c c') :
    SameTag codec' codec n c' c :=
  ⟨fun bs i rest hi => (h.read bs i rest hi).symm, h.size.symm⟩

theorem SameCount.tag {c : C} {c' : C'} (h : SameCount codec codec' c c') (n : Nat) :
    SameTag codec codec' n c c' :=
  ⟨fun bs i rest _ => by rw [h.read bs], h.size⟩

theorem SamePadding.flip {left : Format P C N} {right : Format P' C' M} {pad pad' : Padding}
    (h : SamePadding codec env codec' env' left right pad pad') :
    SamePadding codec' env' codec env right left pad' pad := by
  cases h with
  | bytes => exact .bytes
  | size => exact .size
  | sizeLeft h => exact .sizeRight h
  | sizeRight h => exact .sizeLeft h

theorem Core.flip {left : Format P C N} {right : Format P' C' M}
    (h : Core codec env codec' env' R left right) :
    Core codec' env' codec env (fun name' name => R name name') right left := by
  induction h with
  | atom h => exact .atom h.flip
  | @tuple parts hleft hright h ih =>
      rw [← map_left_flip parts, ← map_right_flip parts]
      refine .tuple ?_ ?_ ?_ <;> rw [List.forall_mem_map]
      · exact hright
      · exact hleft
      · exact ih
  | counted hcount hleft hright h ih => exact .counted hcount.flip hright hleft ih
  | remainder hleft hright h ih => exact .remainder hright hleft ih
  | framed hcount hleft hright h ih => exact .framed hcount.flip hright hleft ih
  | option htag hpad hleft hright h ih => exact .option htag.flip hpad.flip hright hleft ih
  | @tagged c c' parts htag hleft hright h ih =>
      rw [← map_left_flip parts, ← map_right_flip parts]
      have htag' : SameTag codec' codec (parts.map Part.flip).length c' c := by
        rw [List.length_map]
        exact htag.flip
      refine .tagged htag' ?_ ?_ ?_ <;> rw [List.forall_mem_map]
      · exact hright
      · exact hleft
      · exact ih
  | link h => exact .link h

theorem Similar.flip {left : Format P C N} {right : Format P' C' M}
    (h : Similar codec env codec' env' R left right) :
    Similar codec' env' codec env (fun name' name => R name name') right left := by
  obtain ⟨core, core', hleft, hright, hcore⟩ := h
  exact ⟨core', core, hright, hleft, hcore.flip⟩

theorem Respects.flip (h : Respects codec env codec' env' R) :
    Respects codec' env' codec env (fun name' name => R name name') := by
  intro name' name hR
  have hrel := h name name' hR
  generalize env name = found at hrel
  generalize env' name' = found' at hrel
  cases hrel with
  | none => exact .none
  | some hsimilar => exact .some hsimilar.flip

theorem Respects.found (h : Respects codec env codec' env' R) {name : N} {name' : M}
    (hR : R name name') {format : Format P C N} (henv : env name = some format) :
    ∃ format', env' name' = some format' ∧ Similar codec env codec' env' R format format' := by
  have hrel := h name name' hR
  rw [henv] at hrel
  generalize env' name' = found' at hrel
  cases hrel with
  | some hsimilar => exact ⟨_, rfl, hsimilar⟩

theorem similar_parts {parts : List (Part P C N P' C' M)}
    (hleft : ∀ part ∈ parts, Unfolds env part.core part.left)
    (hright : ∀ part ∈ parts, Unfolds env' part.core' part.right)
    (h : ∀ part ∈ parts, Core codec env codec' env' R part.core part.core') :
    List.Forall₂ (Similar codec env codec' env' R) (parts.map Part.left)
      (parts.map Part.right) := by
  rw [List.forall₂_map_left_iff, List.forall₂_map_right_iff, List.forall₂_same]
  exact fun part hpart => ⟨_, _, hleft part hpart, hright part hpart, h part hpart⟩

theorem hollow_single_iff {format : Format P C N} :
    Hollow env (.tuple [format]) ↔ Hollow env format := by
  constructor
  · intro h
    cases h with
    | tuple h => exact h format (List.mem_singleton_self format)
  · intro h
    refine .tuple fun item hitem => ?_
    rw [List.mem_singleton.mp hitem]
    exact h

theorem Unfolds.hollow_iff {core format : Format P C N} (h : Unfolds env core format) :
    Hollow env format ↔ Hollow env core := by
  induction h with
  | refl => exact Iff.rfl
  | @link name format henv h ih =>
      refine Iff.trans ⟨fun hlink => ?_, Hollow.link henv⟩ ih
      cases hlink with
      | link henv' hformat =>
          rw [henv] at henv'
          cases henv'
          exact hformat
  | single h ih => exact hollow_single_iff.trans ih

/-- What the left format lacks, the right one lacks. -/
theorem Hollow.transfer (hR : Respects codec env codec' env' R) {left : Format P C N}
    (h : Hollow env left) {right : Format P' C' M}
    (hsimilar : Similar codec env codec' env' R left right) : Hollow env' right := by
  induction h generalizing right with
  | @tuple items h ih =>
      obtain ⟨core, core', hleft, hright, hcore⟩ := hsimilar
      cases hleft with
      | refl =>
          cases hcore with
          | tuple hlefts hrights hcores =>
              refine hright.hollow_iff.mpr (.tuple ?_)
              rw [List.forall_mem_map]
              exact fun part hpart => ih part.left (List.mem_map_of_mem hpart)
                ⟨_, _, hlefts part hpart, hrights part hpart, hcores part hpart⟩
      | single hleft => exact ih _ (List.mem_singleton_self _) ⟨_, _, hleft, hright, hcore⟩
  | @tagged c variants hone h ih =>
      obtain ⟨core, core', hleft, hright, hcore⟩ := hsimilar
      cases hleft
      cases hcore with
      | tagged htag hlefts hrights hcores =>
          rw [List.length_map] at hone
          refine hright.hollow_iff.mpr (.tagged (by rwa [List.length_map]) ?_)
          rw [List.forall_mem_map]
          exact fun part hpart => ih part.left (List.mem_map_of_mem hpart)
            ⟨_, _, hlefts part hpart, hrights part hpart, hcores part hpart⟩
  | @link name format henv h ih =>
      obtain ⟨core, core', hleft, hright, hcore⟩ := hsimilar
      cases hleft with
      | refl =>
          cases hcore with
          | @link _ name' hname =>
              obtain ⟨format', hformat', hformats⟩ := hR.found hname henv
              exact hright.hollow_iff.mpr (.link hformat' (ih hformats))
      | link henv' hleft =>
          rw [henv] at henv'
          cases henv'
          exact ih ⟨core, core', hleft, hright, hcore⟩

theorem Similar.hollow_iff (hR : Respects codec env codec' env' R) {left : Format P C N}
    {right : Format P' C' M} (h : Similar codec env codec' env' R left right) :
    Hollow env left ↔ Hollow env' right :=
  ⟨fun hleft => hleft.transfer hR h, fun hright => hright.transfer hR.flip h.flip⟩

theorem hasSize_single_iff {format : Format P C N} {n : Nat} :
    HasSize codec env (.tuple [format]) n ↔ HasSize codec env format n := by
  constructor
  · intro h
    obtain ⟨sizes, hsizes, rfl⟩ := h.of_tuple
    cases hsizes with
    | cons hfirst hrest =>
        cases hrest
        simpa using hfirst
  · intro h
    simpa using hasSize_tuple (.cons h .nil)

theorem hasSize_link_iff {name : N} {format : Format P C N} (henv : env name = .some format)
    {n : Nat} : HasSize codec env (.link name) n ↔ HasSize codec env format n := by
  constructor
  · intro h
    cases h with
    | link henv' h =>
        rw [henv] at henv'
        cases henv'
        exact h
  · exact .link henv

theorem Unfolds.hasSize_iff {core format : Format P C N} (h : Unfolds env core format) {n : Nat} :
    HasSize codec env format n ↔ HasSize codec env core n := by
  induction h with
  | refl => exact Iff.rfl
  | link henv h ih => exact (hasSize_link_iff henv).trans ih
  | single h ih => exact hasSize_single_iff.trans ih

/-- Where each item passes its size on, so does the tuple. -/
theorem hasSize_tuple_of_items {items : List (Format P C N × Nat)} {rights : List (Format P' C' M)}
    (hitems : ∀ item ∈ items, ∀ right, Similar codec env codec' env' R item.1 right →
      HasSize codec' env' right item.2)
    (h : List.Forall₂ (Similar codec env codec' env' R) (items.map Prod.fst) rights) :
    HasSize codec' env' (.tuple rights) (items.map Prod.snd).sum := by
  refine hasSize_tuple ?_
  rw [List.forall₂_map_left_iff] at h
  rw [List.forall₂_map_right_iff]
  induction h with
  | nil => exact .nil
  | cons hfirst _ ih =>
      obtain ⟨hfirsts, hrest⟩ := List.forall_mem_cons.mp hitems
      exact .cons (hfirsts _ hfirst) (ih hrest)

theorem HasSize.transfer (hR : Respects codec env codec' env' R) {left : Format P C N} {n : Nat}
    (h : HasSize codec env left n) {right : Format P' C' M}
    (hsimilar : Similar codec env codec' env' R left right) : HasSize codec' env' right n := by
  induction h generalizing right with
  | atom h =>
      obtain ⟨core, core', hleft, hright, hcore⟩ := hsimilar
      cases hleft
      cases hcore with
      | atom heq => exact hright.hasSize_iff.mpr (.atom (heq.size ▸ h))
  | @tuple items h ih =>
      obtain ⟨core, core', hleft, hright, hcore⟩ := hsimilar
      generalize hformat : Format.tuple (items.map Prod.fst) = format at hleft
      cases hleft with
      | refl =>
          cases hcore with
          | tuple hlefts hrights hcores =>
              injection hformat with hformats
              refine hright.hasSize_iff.mpr (hasSize_tuple_of_items (fun _ hitem _ => ih _ hitem) ?_)
              rw [hformats]
              exact similar_parts hlefts hrights hcores
          | atom | counted | remainder | framed | option | tagged | link => cases hformat
      | link => cases hformat
      | single hleft =>
          injection hformat with hformats
          refine hasSize_single_iff.mp (hasSize_tuple_of_items (fun _ hitem _ => ih _ hitem) ?_)
          rw [hformats]
          exact .cons ⟨core, core', hleft, hright, hcore⟩ .nil
  | counted hcount h ih =>
      obtain ⟨core, core', hleft, hright, hcore⟩ := hsimilar
      cases hleft
      cases hcore with
      | counted heq hl hr hc =>
          exact hright.hasSize_iff.mpr (.counted (heq.static ▸ hcount) (ih ⟨_, _, hl, hr, hc⟩))
  | framed h =>
      obtain ⟨core, core', hleft, hright, hcore⟩ := hsimilar
      cases hleft
      cases hcore with
      | framed heq hl hr hc => exact hright.hasSize_iff.mpr (.framed (heq.static ▸ h))
  | @option c pad item tag n htag hpad h ih =>
      obtain ⟨core, core', hleft, hright, hcore⟩ := hsimilar
      cases hleft
      cases hcore with
      | option heq hpads hl hr hc =>
          refine hright.hasSize_iff.mpr (.option (heq.size ▸ htag) ?_ (ih ⟨_, _, hl, hr, hc⟩))
          cases hpads with
          | bytes => exact hpad
          | size => exact .inl rfl
          | sizeLeft hsize => exact .inr (congrArg Padding.bytes (hsize.unique h))
          | sizeRight => exact .inl rfl
  | @link name format n henv h ih =>
      obtain ⟨core, core', hleft, hright, hcore⟩ := hsimilar
      cases hleft with
      | refl =>
          cases hcore with
          | @link _ name' hname =>
              obtain ⟨format', hformat', hformats⟩ := hR.found hname henv
              exact hright.hasSize_iff.mpr (.link hformat' (ih hformats))
      | link henv' hleft =>
          rw [henv] at henv'
          cases henv'
          exact ih ⟨core, core', hleft, hright, hcore⟩

theorem SamePadding.transfer (hR : Respects codec env codec' env' R) {left : Format P C N}
    {right : Format P' C' M} (hsimilar : Similar codec env codec' env' R left right)
    {pad pad' : Padding} (h : SamePadding codec env codec' env' left right pad pad') {n : Nat}
    (hpad : PadSize codec env left pad n) : PadSize codec' env' right pad' n := by
  cases h with
  | bytes => exact hpad
  | size => exact HasSize.transfer hR hpad hsimilar
  | sizeLeft h => exact hpad.unique h
  | sizeRight h =>
      cases hpad
      exact h

/-- What the left format reads, the right one reads. -/
theorem Reads.transfer (hR : Respects codec env codec' env' R) {task : Task P C N}
    {bs rest : Bytes} {vs : List (Value A)} (h : Reads codec env task bs vs rest)
    {task' : Task P' C' M} (hsimilar : SimilarTask codec env codec' env' R task task') :
    Reads codec' env' task' bs vs rest := by
  induction h generalizing task' with
  | @atom p bs rest a h =>
      obtain ⟨core, core', hleft, hright, hcore⟩ | _ := hsimilar
      cases hleft
      cases hcore with
      | atom heq => exact hright.reads_iff.mpr (.atom (heq.read bs ▸ h))
  | @tuple items bs rest vs h ih =>
      obtain ⟨core, core', hleft, hright, hcore⟩ | _ := hsimilar
      cases hleft with
      | refl =>
          cases hcore with
          | tuple hlefts hrights hcores =>
              exact hright.reads_iff.mpr (.tuple (ih (.all (similar_parts hlefts hrights hcores))))
      | single hleft =>
          have hsingle := ih (.all (.cons ⟨core, core', hleft, hright, hcore⟩ .nil))
          cases hsingle with
          | cons hfirst hrest =>
              cases hrest
              exact hfirst
  | @counted c item n bs mid rest vs hsolid hcount h ih =>
      obtain ⟨core, core', hleft, hright, hcore⟩ | _ := hsimilar
      cases hleft
      cases hcore with
      | counted heq hl hr hc =>
          have hitems : Similar codec env codec' env' R _ _ := ⟨_, _, hl, hr, hc⟩
          refine hright.reads_iff.mpr (.counted ?_ (heq.read bs ▸ hcount) (ih (.times hitems)))
          rw [← heq.solid, ← hitems.hollow_iff hR]
          exact hsolid
  | remainder h ih =>
      obtain ⟨core, core', hleft, hright, hcore⟩ | _ := hsimilar
      cases hleft
      cases hcore with
      | remainder hl hr hc =>
          exact hright.reads_iff.mpr (.remainder (ih (.rest ⟨_, _, hl, hr, hc⟩)))
  | @framed c item n bs mid v hcount hlength h ih =>
      obtain ⟨core, core', hleft, hright, hcore⟩ | _ := hsimilar
      cases hleft
      cases hcore with
      | framed heq hl hr hc =>
          exact hright.reads_iff.mpr
            (.framed (heq.read bs ▸ hcount) hlength (ih (.one ⟨_, _, hl, hr, hc⟩)))
  | @none c pad item n bs mid htag hpad hlength =>
      obtain ⟨core, core', hleft, hright, hcore⟩ | _ := hsimilar
      cases hleft
      cases hcore with
      | option heq hpads hl hr hc =>
          exact hright.reads_iff.mpr (.none ((heq.read bs 0 mid (by omega)).mp htag)
            (hpads.transfer hR ⟨_, _, hl, hr, hc⟩ hpad) hlength)
  | @some c pad item bs mid rest v htag h ih =>
      obtain ⟨core, core', hleft, hright, hcore⟩ | _ := hsimilar
      cases hleft
      cases hcore with
      | option heq hpads hl hr hc =>
          exact hright.reads_iff.mpr
            (.some ((heq.read bs 1 mid (by omega)).mp htag) (ih (.one ⟨_, _, hl, hr, hc⟩)))
  | @tagged c variants i payload bs mid rest v htag hpayload h ih =>
      obtain ⟨core, core', hleft, hright, hcore⟩ | _ := hsimilar
      cases hleft
      cases hcore with
      | @tagged _ _ parts heq hlefts hrights hcores =>
          rw [List.getElem?_map] at hpayload
          obtain ⟨part, hpart, rfl⟩ := Option.map_eq_some_iff.mp hpayload
          have hmem := List.mem_of_getElem? hpart
          have hpart' : (parts.map Part.right)[i]? = Option.some part.right := by
            rw [List.getElem?_map, hpart]
            rfl
          have hlt : i < parts.length := (List.getElem?_eq_some_iff.mp hpart).1
          exact hright.reads_iff.mpr (.tagged ((heq.read bs i mid hlt).mp htag) hpart'
            (ih (.one ⟨_, _, hlefts part hmem, hrights part hmem, hcores part hmem⟩)))
  | @link name format bs rest v henv h ih =>
      obtain ⟨core, core', hleft, hright, hcore⟩ | _ := hsimilar
      cases hleft with
      | refl =>
          cases hcore with
          | @link _ name' hname =>
              obtain ⟨format', hformat', hformats⟩ := hR.found hname henv
              exact hright.reads_iff.mpr (.link hformat' (ih (.one hformats)))
      | link henv' hleft =>
          rw [henv] at henv'
          cases henv'
          exact ih (.one ⟨core, core', hleft, hright, hcore⟩)
  | nil =>
      cases hsimilar with
      | all h =>
          cases h
          exact .nil
  | cons h hrest ih ihrest =>
      cases hsimilar with
      | all hs =>
          cases hs with
          | cons hfirst hothers => exact .cons (ih (.one hfirst)) (ihrest (.all hothers))
  | zero =>
      cases hsimilar with
      | times hs => exact .zero
  | succ h hrest ih ihrest =>
      cases hsimilar with
      | times hs => exact .succ (ih (.one hs)) (ihrest (.times hs))
  | stop =>
      cases hsimilar with
      | rest hs => exact .stop
  | more hne h hrest ih ihrest =>
      cases hsimilar with
      | rest hs => exact .more hne (ih (.one hs)) (ihrest (.rest hs))

/-! ## Building similar formats -/

theorem exists_parts {lefts : List (Format P C N)} {rights : List (Format P' C' M)}
    (h : List.Forall₂ (Similar codec env codec' env' R) lefts rights) :
    ∃ parts : List (Part P C N P' C' M), parts.map Part.left = lefts ∧
      parts.map Part.right = rights ∧ (∀ part ∈ parts, Unfolds env part.core part.left) ∧
      (∀ part ∈ parts, Unfolds env' part.core' part.right) ∧
      ∀ part ∈ parts, Core codec env codec' env' R part.core part.core' := by
  induction h with
  | nil => exact ⟨[], rfl, rfl, by simp, by simp, by simp⟩
  | @cons left right lefts rights hfirst _ ih =>
      obtain ⟨core, core', hleft, hright, hcore⟩ := hfirst
      obtain ⟨parts, rfl, rfl, hlefts, hrights, hcores⟩ := ih
      refine ⟨⟨left, core, right, core'⟩ :: parts, rfl, rfl, ?_, ?_, ?_⟩ <;>
        rw [List.forall_mem_cons]
      · exact ⟨hleft, hlefts⟩
      · exact ⟨hright, hrights⟩
      · exact ⟨hcore, hcores⟩

namespace Similar

theorem atom {p : P} {p' : P'} (h : SameAtom codec codec' p p') :
    Similar codec env codec' env' R (.atom p) (.atom p') :=
  ⟨_, _, .refl, .refl, .atom h⟩

theorem tuple {lefts : List (Format P C N)} {rights : List (Format P' C' M)}
    (h : List.Forall₂ (Similar codec env codec' env' R) lefts rights) :
    Similar codec env codec' env' R (.tuple lefts) (.tuple rights) := by
  obtain ⟨parts, rfl, rfl, hlefts, hrights, hcores⟩ := exists_parts h
  exact ⟨_, _, .refl, .refl, .tuple hlefts hrights hcores⟩

theorem tagged {c : C} {c' : C'} {lefts : List (Format P C N)} {rights : List (Format P' C' M)}
    (htag : SameTag codec codec' lefts.length c c')
    (h : List.Forall₂ (Similar codec env codec' env' R) lefts rights) :
    Similar codec env codec' env' R (.tagged c lefts) (.tagged c' rights) := by
  obtain ⟨parts, rfl, rfl, hlefts, hrights, hcores⟩ := exists_parts h
  rw [List.length_map] at htag
  exact ⟨_, _, .refl, .refl, .tagged htag hlefts hrights hcores⟩

theorem link {name : N} {name' : M} (h : R name name') :
    Similar codec env codec' env' R (.link name) (.link name') :=
  ⟨_, _, .refl, .refl, .link h⟩

variable {left : Format P C N} {right : Format P' C' M}
  (h : Similar codec env codec' env' R left right)
include h

theorem counted {c : C} {c' : C'} (hcount : SameCount codec codec' c c') :
    Similar codec env codec' env' R (.counted c left) (.counted c' right) := by
  obtain ⟨core, core', hleft, hright, hcore⟩ := h
  exact ⟨_, _, .refl, .refl, .counted hcount hleft hright hcore⟩

theorem remainder : Similar codec env codec' env' R (.remainder left) (.remainder right) := by
  obtain ⟨core, core', hleft, hright, hcore⟩ := h
  exact ⟨_, _, .refl, .refl, .remainder hleft hright hcore⟩

theorem framed {c : C} {c' : C'} (hcount : SameCount codec codec' c c') :
    Similar codec env codec' env' R (.framed c left) (.framed c' right) := by
  obtain ⟨core, core', hleft, hright, hcore⟩ := h
  exact ⟨_, _, .refl, .refl, .framed hcount hleft hright hcore⟩

theorem option {c : C} {c' : C'} {pad pad' : Padding} (htag : SameTag codec codec' 2 c c')
    (hpad : SamePadding codec env codec' env' left right pad pad') :
    Similar codec env codec' env' R (.option c pad left) (.option c' pad' right) := by
  obtain ⟨core, core', hleft, hright, hcore⟩ := h
  exact ⟨_, _, .refl, .refl, .option htag hpad hleft hright hcore⟩

end Similar

theorem Similar.all_reads_iff (hR : Respects codec env codec' env' R)
    {lefts : List (Format P C N)} {rights : List (Format P' C' M)}
    (h : List.Forall₂ (Similar codec env codec' env' R) lefts rights) {bs rest : Bytes}
    {vs : List (Value A)} :
    Reads codec env (.all lefts) bs vs rest ↔ Reads codec' env' (.all rights) bs vs rest := by
  constructor
  · exact fun hreads => hreads.transfer hR (.all h)
  · refine fun hreads => hreads.transfer hR.flip (.all (h.flip.imp fun _ _ hsimilar => ?_))
    exact Similar.flip hsimilar

end Similar

end Wire
