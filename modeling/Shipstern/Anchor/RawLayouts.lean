import Shipstern.Anchor.LayoutRuns

/-!
# Layouts of definitions as they are read

A type that has a layout is a leaf, an array or a link, and a definition is read as an alias or
as a struct, whatever it is. Its layout is said here without the table of shapes and without the
nesting limit: what the walk finds is such a layout, and it finds each one that does not nest
deeper than the limit.
-/

namespace Shipstern.Anchor

open Codama Checked

/-! ## What has a layout -/

/-- A type where it is used, or its definition. -/
inductive Place
  | type (ty : Value)
  | definition (t : TypeDef)

def definedName (ty : Value) : Option Name :=
  ((ty.get .defined).bind (Value.get .name)).bind Value.asStr

/-- A definition is read as a struct, with the shapes of its fields as stated. -/
def StructRead (P : Value → Shape → Prop) (t : TypeDef) (layout : Layout) : Prop :=
  ∃ fields repr shapes, t.isGeneric = false ∧ structFields t = some fields ∧ t.repr = some repr ∧
    List.Forall₂ (fun field shape => ∃ ty, fieldType repr field = some ty ∧ P ty shape)
      fields shapes ∧ reprLayout shapes repr = some layout

/-- The shape of a place that nests in at most so many named types. -/
inductive HasLayout (types : List TypeDef) : Nat → Place → Shape → Prop
  | leaf {n : Nat} {leaf : Name} {shape : Shape} (h : leafShape leaf = some shape) :
      HasLayout types n (.type (.string leaf)) shape
  | array {n count size : Nat} {ty item len : Value} {shape : Shape}
      (hpair : ty.get .array = some (.array [item, len])) (hlen : len.asU64 = some count)
      (hsize : checkedMul shape.size count = some size)
      (h : HasLayout types n (.type item) shape) :
      HasLayout types n (.type ty) ⟨size, shape.align⟩
  | link {n : Nat} {ty : Value} {name : Name} {t : TypeDef} {shape : Shape}
      (hpair : ∀ item len, ty.get .array ≠ some (.array [item, len]))
      (hname : definedName ty = some name) (hdef : defOf types name = some t)
      (h : HasLayout types n (.definition t) shape) : HasLayout types (n + 1) (.type ty) shape
  | target {n : Nat} {t : TypeDef} {target : Value} {shape : Shape}
      (halias : t.aliasTarget = some target) (h : HasLayout types n (.type target) shape) :
      HasLayout types n (.definition t) shape
  | struct {n : Nat} {t : TypeDef} {fields : List Value} {repr : Repr} {shapes : List Shape}
      {layout : Layout} (halias : t.aliasTarget = none) (hgeneric : t.isGeneric = false)
      (hfields : structFields t = some fields) (hrepr : t.repr = some repr)
      (hlayout : reprLayout shapes repr = some layout) (hlength : fields.length = shapes.length)
      (htyped : ∀ entry ∈ fields.zip shapes, (fieldType repr entry.1).isSome = true)
      (h : ∀ entry ∈ fields.zip shapes, ∀ ty, fieldType repr entry.1 = some ty →
        HasLayout types n (.type ty) entry.2) : HasLayout types n (.definition t) layout.shape

/-- A place has a shape, however deep it nests. -/
def Laid (types : List TypeDef) (place : Place) (shape : Shape) : Prop :=
  ∃ n, HasLayout types n place shape

section HasLayout

variable {types : List TypeDef} {n m : Nat} {place : Place} {shape shape' : Shape} {t : TypeDef}
  {layout : Layout}

theorem StructRead.imp {P Q : Value → Shape → Prop} (h : StructRead P t layout)
    (hPQ : ∀ ty shape, P ty shape → Q ty shape) : StructRead Q t layout := by
  obtain ⟨fields, repr, shapes, hgeneric, hfields, hrepr, hall, hlayout⟩ := h
  refine ⟨fields, repr, shapes, hgeneric, hfields, hrepr, hall.imp ?_, hlayout⟩
  rintro field shape ⟨ty, hty, hP⟩
  exact ⟨ty, hty, hPQ ty shape hP⟩

theorem StructRead.hasLayout
    (h : StructRead (fun ty shape => HasLayout types n (.type ty) shape) t layout)
    (halias : t.aliasTarget = none) : HasLayout types n (.definition t) layout.shape := by
  obtain ⟨fields, repr, shapes, hgeneric, hfields, hrepr, hall, hlayout⟩ := h
  obtain ⟨hlength, hzip⟩ := List.forall₂_iff_zip.mp hall
  refine .struct halias hgeneric hfields hrepr hlayout hlength (fun entry hentry => ?_)
    fun entry hentry ty hty => ?_
  · obtain ⟨ty, hty, -⟩ := hzip hentry
    rw [hty]
    rfl
  · obtain ⟨ty', hty', hshape⟩ := hzip hentry
    cases hty.symm.trans hty'
    exact hshape

theorem HasLayout.structRead (h : HasLayout types n (.definition t) shape)
    (halias : t.aliasTarget = none) :
    ∃ layout, layout.shape = shape ∧
      StructRead (fun ty shape => HasLayout types n (.type ty) shape) t layout := by
  cases h with
  | target htarget =>
      rw [halias] at htarget
      cases htarget
  | struct _ hgeneric hfields hrepr hlayout hlength htyped h =>
      refine ⟨_, rfl, _, _, _, hgeneric, hfields, hrepr, ?_, hlayout⟩
      refine List.forall₂_iff_zip.mpr ⟨hlength, fun {field shape} hentry => ?_⟩
      obtain ⟨ty, hty⟩ := Option.isSome_iff_exists.mp (htyped _ hentry)
      exact ⟨ty, hty, h _ hentry ty hty⟩

theorem HasLayout.mono (h : HasLayout types n place shape) (hle : n ≤ m) :
    HasLayout types m place shape := by
  induction h generalizing m with
  | leaf h => exact .leaf h
  | array hpair hlen hsize _ ih => exact .array hpair hlen hsize (ih hle)
  | link hpair hname hdef _ ih =>
      obtain ⟨m, rfl⟩ := Nat.exists_eq_add_of_le' (Nat.one_le_of_lt hle)
      exact .link hpair hname hdef (ih (Nat.le_of_succ_le_succ hle))
  | target halias _ ih => exact .target halias (ih hle)
  | struct halias hgeneric hfields hrepr hlayout hlength htyped _ ih =>
      exact .struct halias hgeneric hfields hrepr hlayout hlength htyped
        fun entry hentry ty hty => ih entry hentry ty hty hle

/-- Fields that have layouts have them within one number of levels. -/
theorem StructRead.levels (h : StructRead (fun ty shape => Laid types (.type ty) shape) t layout) :
    ∃ n, StructRead (fun ty shape => HasLayout types n (.type ty) shape) t layout := by
  obtain ⟨fields, repr, shapes, hgeneric, hfields, hrepr, hall, hlayout⟩ := h
  have hlevels : ∃ n, List.Forall₂ (fun field shape => ∃ ty, fieldType repr field = some ty ∧
      HasLayout types n (.type ty) shape) fields shapes := by
    clear hfields hlayout
    induction hall with
    | nil => exact ⟨0, .nil⟩
    | cons hfirst _ ih =>
        obtain ⟨ty, hty, n, hshape⟩ := hfirst
        obtain ⟨m, hrest⟩ := ih
        refine ⟨max n m, .cons ⟨ty, hty, hshape.mono (Nat.le_max_left ..)⟩ (hrest.imp ?_)⟩
        rintro field shape ⟨ty, hty, hshape⟩
        exact ⟨ty, hty, hshape.mono (Nat.le_max_right ..)⟩
  obtain ⟨n, hall⟩ := hlevels
  exact ⟨n, fields, repr, shapes, hgeneric, hfields, hrepr, hall, hlayout⟩

theorem forall₂_unique {α β : Type} {R S : α → β → Prop} {as : List α} {bs bs' : List β}
    (h : List.Forall₂ R as bs) (h' : List.Forall₂ S as bs')
    (hunique : ∀ a b b', (a, b) ∈ as.zip bs → S a b' → b = b') : bs = bs' := by
  induction h generalizing bs' with
  | nil =>
      cases h'
      rfl
  | cons _ _ ih =>
      obtain _ | ⟨hfirst, hrest⟩ := h'
      rw [hunique _ _ _ List.mem_cons_self hfirst,
        ih hrest fun a b b' hmem => hunique a b b' (List.mem_cons_of_mem _ hmem)]

/-- A place has one shape. -/
theorem HasLayout.unique (h : HasLayout types n place shape)
    (h' : HasLayout types m place shape') : shape = shape' := by
  induction h generalizing m shape' with
  | leaf hshape =>
      cases h' with
      | leaf hshape' => exact Option.some.inj (hshape.symm.trans hshape')
      | array hpair => cases hpair
      | link _ hname => cases hname
  | array hpair hlen hsize _ ih =>
      cases h' with
      | leaf => cases hpair
      | array hpair' hlen' hsize' hitem' =>
          cases hpair.symm.trans hpair'
          cases hlen.symm.trans hlen'
          cases ih hitem'
          cases hsize.symm.trans hsize'
          rfl
      | link hpair' => exact absurd hpair (hpair' _ _)
  | link hpair hname hdef _ ih =>
      cases h' with
      | leaf => cases hname
      | array hpair' => exact absurd hpair' (hpair _ _)
      | link _ hname' hdef' hshape' =>
          cases hname.symm.trans hname'
          cases hdef.symm.trans hdef'
          exact ih hshape'
  | target halias _ ih =>
      cases h' with
      | target halias' htarget' =>
          cases halias.symm.trans halias'
          exact ih htarget'
      | struct hnone =>
          rw [hnone] at halias
          cases halias
  | @struct n t fields repr shapes layout halias _ hfields hrepr hlayout hlength htyped _ ih =>
      obtain ⟨layout', rfl, fields', repr', shapes', -, hfields', hrepr', hall', hlayout'⟩ :=
        h'.structRead halias
      cases hfields.symm.trans hfields'
      cases hrepr.symm.trans hrepr'
      have hall : List.Forall₂ (fun _ _ => True) fields shapes :=
        List.forall₂_iff_zip.mpr ⟨hlength, fun _ => trivial⟩
      have hsame : shapes = shapes' := by
        refine forall₂_unique hall hall' ?_
        rintro field shape shape' hentry ⟨ty, hty, hshape'⟩
        exact ih _ hentry ty hty hshape'
      subst hsame
      cases hlayout.symm.trans hlayout'
      rfl

end HasLayout

/-! ## What is learnt -/

/-- Every name that is known to have a shape has a layout. -/
def KnownLaid (types : List TypeDef) (known : Known) : Prop :=
  ∀ name shape, (name, some shape) ∈ known →
    ∃ t, defOf types name = some t ∧ Laid types (.definition t) shape

/-- The table stays as it should be, and a result is as stated. -/
def Learns {α : Type} (types : List TypeDef) (P : α → Prop) (x : LayoutM α) : Prop :=
  ∀ known, KnownLaid types known →
    KnownLaid types (x.run known).2 ∧ ∀ a, (x.run known).1 = some a → P a

section Learns

variable {types : List TypeDef} {α β : Type} {P : α → Prop} {Q : β → Prop}

theorem Learns.ofOption {x : Option α} (h : ∀ a, x = some a → P a) :
    Learns types P (ofOption x) := fun _ hknown => ⟨hknown, h⟩

theorem Learns.bind {x : LayoutM α} {f : α → LayoutM β} (hx : Learns types P x)
    (hf : ∀ a, P a → Learns types Q (f a)) : Learns types Q (x >>= f) := by
  intro known hknown
  obtain ⟨hmid, hresult⟩ := hx known hknown
  rw [run_bind]
  cases hrun : x.run known with
  | mk result mid =>
      rw [hrun] at hmid hresult
      cases result with
      | none => exact ⟨hmid, nofun⟩
      | some a => exact hf a (hresult a rfl) mid hmid

theorem Learns.pure {a : α} (h : P a) : Learns types P (pure a : LayoutM α) := by
  intro known hknown
  refine ⟨hknown, fun b hb => ?_⟩
  cases hb
  exact h

theorem Learns.imp {P' : α → Prop} {x : LayoutM α} (h : Learns types P x)
    (hP : ∀ a, P a → P' a) : Learns types P' x :=
  fun known hknown => ⟨(h known hknown).1, fun a ha => hP a ((h known hknown).2 a ha)⟩

theorem Learns.mapM {ι : Type} {f : ι → LayoutM α} {R : ι → α → Prop} {items : List ι}
    (h : ∀ item ∈ items, Learns types (R item) (f item)) :
    Learns types (List.Forall₂ R items) (items.mapM f) := by
  induction items with
  | nil => exact .pure .nil
  | cons item items ih =>
      rw [List.mapM_cons]
      have hrest := ih fun other hother => h other (List.mem_cons_of_mem _ hother)
      exact (h item List.mem_cons_self).bind fun a ha => hrest.bind fun out hout =>
        .pure (.cons ha hout)

end Learns

section Runs

variable {types : List TypeDef}

variable {named : Name → LayoutM Shape}

theorem KnownLaid.cons {known : Known} (h : KnownLaid types known) {name : Name}
    {shape : Option Shape}
    (hlaid : ∀ found, shape = some found →
      ∃ t, defOf types name = some t ∧ Laid types (.definition t) found) :
    KnownLaid types ((name, shape) :: known) := by
  rintro other found (_ | ⟨_, hmem⟩)
  · exact hlaid found rfl
  · exact h other found hmem

end Runs

/-! ## What is found -/

/-- What is known has its layout, except for the names that are under way. -/
def KnownTo (types : List TypeDef) (visiting : List Name) (known : Known) : Prop :=
  ∀ name found, known.lookup name = some found → name ∈ visiting ∨
    ∃ t shape, found = some shape ∧ defOf types name = some t ∧ Laid types (.definition t) shape

/-- The result is found, whatever is known before. -/
def Computes {α : Type} (types : List TypeDef) (visiting : List Name) (x : LayoutM α) (a : α) :
    Prop :=
  ∀ known, KnownTo types visiting known →
    ∃ known', x.run known = (some a, known') ∧ KnownTo types visiting known'

/-- What is under way nests in more levels. -/
def Above (types : List TypeDef) (n : Nat) (visiting : List Name) : Prop :=
  ∀ name ∈ visiting, ∀ t, defOf types name = some t →
    ∀ k < n, ∀ shape, ¬ HasLayout types k (.definition t) shape

section Computes

variable {types : List TypeDef} {visiting : List Name} {α β : Type}

theorem Computes.ofOption {x : Option α} {a : α} (h : x = some a) :
    Computes types visiting (ofOption x) a := by
  subst h
  exact fun known hknown => ⟨known, rfl, hknown⟩

theorem Computes.pure (a : α) : Computes types visiting (pure a : LayoutM α) a :=
  fun known hknown => ⟨known, rfl, hknown⟩

theorem Computes.bind {x : LayoutM α} {f : α → LayoutM β} {a : α} {b : β}
    (hx : Computes types visiting x a) (hf : Computes types visiting (f a) b) :
    Computes types visiting (x >>= f) b := by
  intro known hknown
  obtain ⟨mid, hrun, hmid⟩ := hx known hknown
  obtain ⟨known', hrest, hknown'⟩ := hf mid hmid
  refine ⟨known', ?_, hknown'⟩
  rw [run_bind, hrun]
  exact hrest

theorem Computes.mapM {ι : Type} {f : ι → LayoutM α} {items : List ι} {results : List α}
    (h : List.Forall₂ (fun item a => Computes types visiting (f item) a) items results) :
    Computes types visiting (items.mapM f) results := by
  induction h with
  | nil => exact .pure []
  | cons hfirst _ ih =>
      rw [List.mapM_cons]
      exact hfirst.bind (ih.bind (.pure _))

theorem Above.mono {n m : Nat} (h : Above types n visiting) (hle : m ≤ n) :
    Above types m visiting :=
  fun name hname t hdef k hk => h name hname t hdef k (Nat.lt_of_lt_of_le hk hle)

variable {n : Nat} {t : TypeDef}

theorem KnownTo.enter {known : Known} (h : KnownTo types visiting known) (name : Name) :
    KnownTo types (name :: visiting) ((name, none) :: known) := by
  intro other found hfound
  by_cases hother : other = name
  · exact .inl (hother ▸ List.mem_cons_self)
  · rw [lookup_cons_ne hother] at hfound
    exact (h other found hfound).imp_left (List.mem_cons_of_mem _)

theorem KnownTo.leave {known : Known} {name : Name} {shape : Shape}
    (h : KnownTo types (name :: visiting) known) (hdef : defOf types name = some t)
    (hlaid : Laid types (.definition t) shape) :
    KnownTo types visiting ((name, some shape) :: known) := by
  intro other found hfound
  by_cases hother : other = name
  · subst hother
    rw [lookup_cons_self] at hfound
    cases hfound
    exact .inr ⟨t, shape, rfl, hdef, hlaid⟩
  · rw [lookup_cons_ne hother] at hfound
    refine (h other found hfound).imp_left fun hmem => ?_
    exact (List.mem_cons.mp hmem).resolve_left hother

/-- A definition is entered in the fewest levels it has a layout in, so that nothing in it leads
back to its name. -/
theorem Above.enter {name : Name} {shape : Shape} (habove : Above types (n + 1) visiting)
    (hdef : defOf types name = some t) (h : HasLayout types n (.definition t) shape) :
    ∃ k ≤ n, HasLayout types k (.definition t) shape ∧ Above types k (name :: visiting) := by
  classical
  have hexists : ∃ k, HasLayout types k (.definition t) shape := ⟨n, h⟩
  have hle : Nat.find hexists ≤ n := Nat.find_min' hexists h
  refine ⟨Nat.find hexists, hle, Nat.find_spec hexists, ?_⟩
  rintro other (_ | ⟨_, hother⟩) t' hdef' j hj shape' hlaid
  · cases hdef.symm.trans hdef'
    obtain rfl := h.unique hlaid
    exact Nat.find_min hexists hj hlaid
  · exact habove other hother t' hdef' j (by omega) shape' hlaid

end Computes

end Shipstern.Anchor
