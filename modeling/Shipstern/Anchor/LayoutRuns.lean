import Shipstern.Anchor.Shapes

/-!
# Runs of the layout computation

A run of the layout computation only adds to the table of known shapes, every shape in the
table follows from the table and from the definition of its type, and the result of a run can
be read off the table afterwards. A type whose shape can be read off the table already is not
computed again.
-/

namespace Shipstern.Anchor

open Codama IdlType Checked

/-! ## The JSON of definitions -/

/-- The JSON of the fields of a struct. -/
def fieldValues : IdlFields IdlType → List Value
  | .none => []
  | .named fields => fields.map fieldJson
  | .tuple items => items.map toJson

theorem structFields_struct {t : IdlTypeDef} {fields : IdlFields IdlType}
    (h : t.ty = some (.struct fields)) : structFields t.toTypeDef = some (fieldValues fields) := by
  rw [structFields, IdlTypeDef.toTypeDef, h]
  cases fields with
  | none => rfl
  | named fields => exact congrArg some (namedJson_eq fields)
  | tuple items => exact congrArg some (itemsJson_eq items)

theorem structFields_aliasOf {t : IdlTypeDef} {form : AliasForm} {target : IdlType}
    (h : t.ty = some (.aliasOf form target)) : structFields t.toTypeDef = some [] := by
  rw [structFields, IdlTypeDef.toTypeDef, h]
  cases form <;> rfl

theorem isGeneric_toTypeDef (t : IdlTypeDef) : t.toTypeDef.isGeneric = t.isGeneric := rfl

theorem aliasTarget_aliasOf {t : IdlTypeDef} {form : AliasForm} {target : IdlType}
    (hgeneric : t.isGeneric = false) (h : t.ty = some (.aliasOf form target)) :
    t.toTypeDef.aliasTarget = some (toJson target) := by
  rw [TypeDef.aliasTarget, isGeneric_toTypeDef, hgeneric, IdlTypeDef.toTypeDef, h]
  cases form <;> rfl

theorem aliasTarget_struct {t : IdlTypeDef} {fields : IdlFields IdlType}
    (h : t.ty = some (.struct fields)) : t.toTypeDef.aliasTarget = none := by
  rw [TypeDef.aliasTarget, IdlTypeDef.toTypeDef, h]
  split
  · rfl
  · cases fields <;> rfl

/-- A definition that is a struct or an alias, if it has a type. -/
def IdlTypeDef.StructOrAlias (t : IdlTypeDef) : Prop :=
  ∀ ty, t.ty = some ty → (∃ fields, ty = .struct fields) ∨ ∃ form target, ty = .aliasOf form target

theorem aliasTarget_some {t : IdlTypeDef} (hstruct : t.StructOrAlias) {value : Value}
    (h : t.toTypeDef.aliasTarget = some value) :
    ∃ form target, t.isGeneric = false ∧ t.ty = some (.aliasOf form target) ∧
      value = toJson target := by
  cases hgeneric : t.isGeneric with
  | true =>
      rw [TypeDef.aliasTarget, isGeneric_toTypeDef, hgeneric] at h
      cases h
  | false =>
      cases hty : t.ty with
      | none =>
          rw [TypeDef.aliasTarget, isGeneric_toTypeDef, hgeneric, IdlTypeDef.toTypeDef, hty] at h
          cases h
      | some ty =>
          obtain ⟨fields, rfl⟩ | ⟨form, target, rfl⟩ := hstruct ty hty
          · rw [aliasTarget_struct hty] at h
            cases h
          · rw [aliasTarget_aliasOf hgeneric hty] at h
            exact ⟨form, target, rfl, rfl, (Option.some.inj h).symm⟩

theorem get_type_toJson (ty : IdlType) : (toJson ty).get .type = none := by
  cases ty with
  | aliasOf form target => cases form <;> rfl
  | defined name args => cases args <;> rfl
  | struct fields => cases fields <;> rfl
  | leaf | number | array | vec | option | coption | generic | enum => rfl

/-- The types of fields, where bare types are allowed. -/
theorem fieldType_values {repr : Repr} {fields : IdlFields IdlType}
    (h : fieldsAllowed repr fields = true) :
    List.Forall₂ (fun value ty => fieldType repr value = some (toJson ty)) (fieldValues fields)
      fields.types := by
  cases fields with
  | none => exact .nil
  | named fields =>
      simp only [fieldValues, IdlFields.types, List.forall₂_map_left_iff,
        List.forall₂_map_right_iff, List.forall₂_same]
      intro field hfield
      rfl
  | tuple items =>
      simp only [fieldValues, IdlFields.types, List.forall₂_map_left_iff, List.forall₂_same]
      intro item hitem
      cases items with
      | nil => cases hitem
      | cons first items =>
          have hrepr : repr = .transparent := by simpa [fieldsAllowed] using h
          rw [fieldType, get_type_toJson, if_pos hrepr]

/-- Otherwise the first one has none. -/
theorem fieldType_refused {repr : Repr} {fields : IdlFields IdlType}
    (h : fieldsAllowed repr fields = false) :
    ∃ value values, fieldValues fields = value :: values ∧ fieldType repr value = none := by
  cases fields with
  | none | named => cases h
  | tuple items =>
      cases items with
      | nil => cases h
      | cons item items =>
          have hrepr : repr ≠ .transparent := by simpa [fieldsAllowed] using h
          exact ⟨_, _, rfl, by rw [fieldType, get_type_toJson, if_neg hrepr]⟩

/-! ## The shape of a type -/

section ShapeWith

variable (named : Name → LayoutM Shape)

theorem shapeWith_array (item len : IdlType) :
    shapeWith named (toJson (.array item len)) = (do
      let item ← shapeWith named (toJson item)
      let len ← ofOption (toJson len).asU64
      let size ← ofOption (checkedMul item.size len)
      pure ⟨size, item.align⟩) := by
  rw [toJson, shapeWith, arrayShape]

theorem shapeWith_defined (name : Name) (args : List (GenericArg IdlType)) :
    shapeWith named (toJson (.defined name args)) = named name := by
  cases args <;> rfl

/-- Only leaves, arrays and links have a shape. -/
theorem shapeWith_other {ty : IdlType} (hleaf : ∀ name, ty ≠ .leaf name)
    (harray : ∀ item len, ty ≠ .array item len) (hdefined : ∀ name args, ty ≠ .defined name args) :
    shapeWith named (toJson ty) = ofOption none := by
  cases ty with
  | leaf name => exact absurd rfl (hleaf name)
  | array item len => exact absurd rfl (harray item len)
  | defined name args => exact absurd rfl (hdefined name args)
  | aliasOf form target => cases form <;> rfl
  | struct fields => cases fields <;> rfl
  | number | vec | option | coption | generic | enum => rfl

end ShapeWith

/-! ## Sound runs -/

/-- The shape of a name follows from the table and its definition. -/
inductive Settled (types : List IdlTypeDef) (known : Known) (name : Name) (shape : Shape) : Prop
  | aliasOf {t : IdlTypeDef} {form : AliasForm} {target : IdlType}
      (hdef : typedDef types name = some t) (hgeneric : t.isGeneric = false)
      (hty : t.ty = some (.aliasOf form target)) (heval : evalType known target = some shape)
  | struct {t : IdlTypeDef} {layout : Layout} (hdef : typedDef types name = some t)
      (heval : evalLayout known t = some layout) (hshape : layout.shape = shape)

theorem Settled.grows {types : List IdlTypeDef} {known known' : Known} {name : Name}
    {shape : Shape} (h : Settled types known name shape) (hgrows : Grows known known') :
    Settled types known' name shape := by
  cases h with
  | aliasOf hdef hgeneric hty heval => exact .aliasOf hdef hgeneric hty (evalType_grows hgrows heval)
  | struct hdef heval hshape => exact .struct hdef (evalLayout_grows hgrows heval) hshape

/-- Every shape of the table is settled, and it is the reference shape. -/
structure Consistent (types : List IdlTypeDef) (known : Known) : Prop where
  settled : ∀ name shape, known.lookup name = some (some shape) →
    Settled types known name shape
  shapes : ∀ name shape, known.lookup name = some (some shape) →
    ∀ args, RefShape types (.defined name args) shape

/-- From a consistent table, the computation extends it to a consistent one in which its result
is as stated. -/
def Sound {α : Type} (types : List IdlTypeDef) (P : Known → α → Prop) (x : LayoutM α) : Prop :=
  ∀ known, Consistent types known → ∀ result known', x.run known = (result, known') →
    Consistent types known' ∧ Extends known known' ∧ ∀ a, result = some a → P known' a

section Sound

variable {types : List IdlTypeDef} {α β : Type}

theorem run_bind_result (x : LayoutM α) (f : α → LayoutM β) (known : Known) :
    (x >>= f).run known = (fun result : Option α × Known =>
      (match result.1 with | some a => (f a).run | none => pure none) result.2) (x.run known) :=
  rfl

theorem run_bind (x : LayoutM α) (f : α → LayoutM β) (known : Known) :
    (x >>= f).run known = match x.run known with
      | (some a, mid) => (f a).run mid
      | (none, mid) => (none, mid) := by
  rw [run_bind_result]
  cases x.run known with
  | mk result mid => cases result <;> rfl

theorem run_ofOption (x : Option α) (known : Known) : (ofOption x).run known = (x, known) := rfl

theorem run_pure (a : α) (known : Known) : (pure a : LayoutM α).run known = (some a, known) := rfl

theorem Extends.refl (known : Known) : Extends known known := fun _ _ h => h

/-- A statement about a table stays true when entries are added. -/
def Stable (P : Known → α → Prop) : Prop :=
  ∀ known known' a, Extends known known' → P known a → P known' a

theorem Sound.ofOption {P : Known → α → Prop} {x : Option α} (h : ∀ known a, x = some a → P known a) :
    Sound types P (ofOption x) := by
  intro known hconsistent result known' hrun
  cases hrun
  exact ⟨hconsistent, Extends.refl known, h known⟩

theorem Sound.pure {P : Known → α → Prop} {a : α} (h : ∀ known, P known a) :
    Sound types P (pure a : LayoutM α) := by
  intro known hconsistent result known' hrun
  rw [run_pure] at hrun
  cases hrun
  refine ⟨hconsistent, Extends.refl known, ?_⟩
  rintro b ⟨⟩
  exact h known

theorem Sound.imp {P Q : Known → α → Prop} {x : LayoutM α} (h : Sound types P x)
    (hPQ : ∀ known a, P known a → Q known a) : Sound types Q x := by
  intro known hconsistent result known' hrun
  obtain ⟨hconsistent', hextends, hP⟩ := h known hconsistent result known' hrun
  exact ⟨hconsistent', hextends, fun a ha => hPQ known' a (hP a ha)⟩

theorem Sound.bind {P : Known → α → Prop} {Q : Known → β → Prop} {x : LayoutM α}
    {f : α → LayoutM β} (hx : Sound types P x) (hP : Stable P)
    (hf : ∀ a, Sound types (fun known b => P known a → Q known b) (f a)) :
    Sound types Q (x >>= f) := by
  intro known hconsistent result known' hrun
  rw [run_bind] at hrun
  cases hmid : x.run known with
  | mk first mid =>
      obtain ⟨hconsistent₁, hextends₁, hfirst⟩ := hx known hconsistent first mid hmid
      rw [hmid] at hrun
      cases first with
      | none =>
          cases hrun
          exact ⟨hconsistent₁, hextends₁, fun a ha => by cases ha⟩
      | some a =>
          obtain ⟨hconsistent₂, hextends₂, hresult⟩ := hf a mid hconsistent₁ result known' hrun
          refine ⟨hconsistent₂, hextends₁.trans hextends₂, fun b hb => ?_⟩
          exact hresult b hb (hP mid known' a hextends₂ (hfirst a rfl))

/-- Every item in turn. -/
theorem Sound.mapM {R : α → Known → β → Prop} {items : List α} {f : α → LayoutM β}
    (hR : ∀ a ∈ items, Stable (R a)) (hf : ∀ a ∈ items, Sound types (R a) (f a)) :
    Sound types (fun known out => List.Forall₂ (fun a b => R a known b) items out)
      (items.mapM f) := by
  induction items with
  | nil => exact Sound.pure fun known => .nil
  | cons a items ih =>
      rw [List.mapM_cons]
      have hrest := ih (fun b hb => hR b (List.mem_cons_of_mem a hb))
        fun b hb => hf b (List.mem_cons_of_mem a hb)
      refine (hf a List.mem_cons_self).bind (hR a List.mem_cons_self) fun b => ?_
      refine hrest.bind ?_ fun out => Sound.pure fun known hout hb => .cons hb hout
      intro known known' out hextends hout
      exact List.forall₂_iff_get.mpr ⟨hout.length_eq, fun i hi hi' =>
        hR _ (List.mem_cons_of_mem a (List.get_mem _ _)) known known' _ hextends (hout.get hi hi')⟩

end Sound

/-! ## Shapes of types -/

theorem ofOption_some_bind {α β : Type} (a : α) (f : α → LayoutM β) :
    (ofOption (some a) >>= f) = f a := rfl

theorem mapM_fieldType {repr : Repr} (shapeOf : Value → LayoutM Shape) {values : List Value}
    {tys : List IdlType}
    (h : List.Forall₂ (fun value ty => fieldType repr value = some (toJson ty)) values tys) :
    (values.mapM fun value => do
      let ty ← ofOption (fieldType repr value)
      shapeOf ty) = tys.mapM fun ty => shapeOf (toJson ty) := by
  induction h with
  | nil => rfl
  | cons hvalue hrest ih =>
      rw [List.mapM_cons, List.mapM_cons, hvalue, ofOption_some_bind, ih]

/-- The layout of a struct with a known representation. -/
theorem structLayoutWith_struct (shapeOf : Value → LayoutM Shape) {t : IdlTypeDef}
    {fields : IdlFields IdlType} {repr : Repr} (hgeneric : t.isGeneric = false)
    (hty : t.ty = some (.struct fields)) (hrepr : t.repr = some repr)
    (hrust : ∀ modifier, repr ≠ .rust modifier) (hallowed : fieldsAllowed repr fields = true) :
    structLayoutWith shapeOf t.toTypeDef = (do
      let shapes ← fields.types.mapM fun ty => shapeOf (toJson ty)
      ofOption (reprLayout shapes repr)) := by
  have hrepr' : t.toTypeDef.repr = some repr := hrepr
  rw [structLayoutWith, isGeneric_toTypeDef, hgeneric, structFields_struct hty, hrepr',
    ← mapM_fieldType shapeOf (fieldType_values hallowed)]
  cases repr with
  | rust modifier => exact absurd rfl (hrust modifier)
  | c modifier => rfl
  | transparent => rfl

/-- Other definitions than such structs have no layout. -/
theorem structLayoutWith_none (shapeOf : Value → LayoutM Shape) {t : IdlTypeDef}
    (hstruct : t.StructOrAlias) (halias : t.toTypeDef.aliasTarget = none)
    (h : ∀ fields repr, t.isGeneric = false → t.ty = some (.struct fields) → t.repr = some repr →
      (∀ modifier, repr ≠ .rust modifier) → fieldsAllowed repr fields = false) :
    structLayoutWith shapeOf t.toTypeDef = ofOption none := by
  rw [structLayoutWith, isGeneric_toTypeDef]
  cases hgeneric : t.isGeneric with
  | true => rfl
  | false =>
      cases hty : t.ty with
      | none =>
          have hfields : structFields t.toTypeDef = none := by
            rw [structFields, IdlTypeDef.toTypeDef, hty]
            rfl
          rw [hfields]
          rfl
      | some ty =>
          obtain ⟨fields, rfl⟩ | ⟨form, target, rfl⟩ := hstruct ty hty
          · rw [structFields_struct hty]
            cases hrepr : t.repr with
            | none =>
                have hrepr' : t.toTypeDef.repr = none := hrepr
                rw [hrepr']
                rfl
            | some repr =>
                have hrepr' : t.toTypeDef.repr = some repr := hrepr
                rw [hrepr']
                have hrefused := h fields repr hgeneric hty hrepr
                cases repr with
                | rust modifier => rfl
                | c modifier =>
                    obtain ⟨value, values, hvalues, hnone⟩ := fieldType_refused (hrefused
                      fun _ => Repr.noConfusion)
                    simp only [hvalues, ofOption_some_bind, List.mapM_cons, hnone]
                    rfl
                | transparent =>
                    obtain ⟨value, values, hvalues, hnone⟩ := fieldType_refused (hrefused
                      fun _ => Repr.noConfusion)
                    simp only [hvalues, ofOption_some_bind, List.mapM_cons, hnone]
                    rfl
          · rw [aliasTarget_aliasOf hgeneric hty] at halias
            cases halias

/-- A set of names whose definitions are structs and aliases that stay within the set. -/
def Closed (types : List IdlTypeDef) (inside : Name → Prop) : Prop :=
  ∀ name t, inside name → typedDef types name = some t →
    t.StructOrAlias ∧ ∀ ty, t.ty = some ty → ∀ target, ty.LinksTo target → inside target

/-- The table gives the type its reference shape. -/
def Shaped (types : List IdlTypeDef) (ty : IdlType) (known : Known) (shape : Shape) : Prop :=
  evalType known ty = some shape ∧ RefShape types ty shape

/-- The table gives the struct its reference layout. -/
def LaidOut (types : List IdlTypeDef) (t : IdlTypeDef) (known : Known) (layout : Layout) : Prop :=
  evalLayout known t = some layout ∧
    ∃ fields ref, RefStruct types t fields ref ∧ ref.shape = layout.shape

theorem shaped_stable (types : List IdlTypeDef) (ty : IdlType) : Stable (Shaped types ty) :=
  fun _ _ _ hextends h => ⟨evalType_grows hextends.grows h.1, h.2⟩

section Shapes

variable {types : List IdlTypeDef} {inside : Name → Prop}

theorem shapeWith_sound {named : Name → LayoutM Shape}
    (hnamed : ∀ name args, inside name → Sound types (Shaped types (.defined name args)) (named name))
    {ty : IdlType} (hlinks : ∀ name, ty.LinksTo name → inside name) :
    Sound types (Shaped types ty) (shapeWith named (toJson ty)) := by
  induction ty using IdlType.induction with
  | step ty ih =>
      cases ty with
      | leaf name =>
          exact Sound.ofOption fun known shape h =>
            ⟨h, .leaf ((leafShape_eq_refLeaf name).symm.trans h)⟩
      | defined name args =>
          rw [shapeWith_defined]
          exact hnamed name args (hlinks name .here)
      | array item len =>
          rw [shapeWith_array]
          refine (ih item List.mem_cons_self fun name h =>
            hlinks name (.child List.mem_cons_self h)).bind (shaped_stable types item) fun inner => ?_
          cases len with
          | number n =>
              show Sound types _ (ofOption (checkedMul inner.size n) >>= _)
              cases hsize : checkedMul inner.size n with
              | none => exact Sound.ofOption fun known shape h => by cases h
              | some size =>
                  refine Sound.pure fun known hinner => ⟨?_, ?_⟩
                  · simp [evalType_array, hinner.1, hsize]
                  · rw [← (checkedMul_eq_some.mp hsize).2]
                    exact .array hinner.2
          | defined name args =>
              cases args <;> exact Sound.ofOption fun known shape h => by cases h
          | struct fields =>
              cases fields <;> exact Sound.ofOption fun known shape h => by cases h
          | aliasOf form target =>
              cases form <;> exact Sound.ofOption fun known shape h => by cases h
          | leaf | array | vec | option | coption | generic | enum =>
              exact Sound.ofOption fun known shape h => by cases h
      | number | vec | option | coption | generic | aliasOf | struct | enum =>
          rw [shapeWith_other named]
          · exact Sound.ofOption fun known shape h => by cases h
          all_goals nofun

theorem structLayoutWith_sound {shapeOf : Value → LayoutM Shape}
    (hshape : ∀ ty, (∀ name, ty.LinksTo name → inside name) →
      Sound types (Shaped types ty) (shapeOf (toJson ty)))
    {t : IdlTypeDef} (hstruct : t.StructOrAlias) (halias : t.toTypeDef.aliasTarget = none)
    (hlinks : ∀ ty, t.ty = some ty → ∀ name, ty.LinksTo name → inside name) :
    Sound types (LaidOut types t) (structLayoutWith shapeOf t.toTypeDef) := by
  by_cases h : ∃ fields repr, t.isGeneric = false ∧ t.ty = some (.struct fields) ∧
      t.repr = some repr ∧ (∀ modifier, repr ≠ .rust modifier) ∧ fieldsAllowed repr fields = true
  · obtain ⟨fields, repr, hgeneric, hty, hrepr, hrust, hallowed⟩ := h
    rw [structLayoutWith_struct shapeOf hgeneric hty hrepr hrust hallowed]
    refine (Sound.mapM (fun ty _ => shaped_stable types ty) fun ty hmem =>
      hshape ty fun name hname => hlinks _ hty name (.child hmem hname)).bind ?_ fun shapes => ?_
    · intro known known' out hextends hout
      exact hout.imp fun ty shape => shaped_stable types ty known known' shape hextends
    · refine Sound.ofOption fun known layout hlayout hshapes => ⟨?_, ?_⟩
      · rw [evalLayout, hgeneric, hty, hrepr]
        have heval : fields.types.mapM (evalType known) = some shapes :=
          Fallible.mapM_eq_some.mpr (hshapes.imp fun _ _ h => h.1)
        simp [hallowed, heval, hlayout]
      · obtain ⟨ref, href, hrefshape, -⟩ := reprLayout_ref hlayout
        exact ⟨fields, ref, ⟨hgeneric, hty, repr, shapes, hrepr, hshapes.imp fun _ _ h => h.2, href⟩,
          hrefshape⟩
  · rw [structLayoutWith_none shapeOf hstruct halias]
    · exact Sound.ofOption fun known layout h => by cases h
    · intro fields repr hgeneric hty hrepr hrust
      by_contra hallowed
      exact h ⟨fields, repr, hgeneric, hty, hrepr, hrust, by simpa using hallowed⟩

theorem lookup_cons_ne {name other : Name} (h : name ≠ other) (shape : Option Shape)
    (known : Known) : List.lookup name ((other, shape) :: known) = known.lookup name := by
  rw [List.lookup_cons, beq_false_of_ne h]

theorem lookup_cons_self (name : Name) (shape : Option Shape) (known : Known) :
    List.lookup name ((name, shape) :: known) = some shape := by
  rw [List.lookup_cons, beq_self_eq_true]

/-- A name that has no shape yet may get one. -/
theorem grows_cons {known : Known} {name : Name} (h : (known.lookup name).join = none)
    (shape : Option Shape) : Grows known ((name, shape) :: known) := by
  intro other found hfound
  rw [lookup_cons_ne _ shape known]
  · exact hfound
  · rintro rfl
    rw [hfound] at h
    cases h

theorem Consistent.cons {known : Known} {name : Name} {shape : Option Shape}
    (h : Consistent types known) (hname : (known.lookup name).join = none)
    (hsettled : ∀ found, shape = some found → Settled types known name found)
    (hshapes : ∀ found, shape = some found → ∀ args, RefShape types (.defined name args) found) :
    Consistent types ((name, shape) :: known) := by
  have hgrows := grows_cons hname shape
  constructor
  · intro other found hfound
    by_cases hother : other = name
    · subst hother
      rw [lookup_cons_self] at hfound
      exact (hsettled found (Option.some.inj hfound)).grows hgrows
    · rw [lookup_cons_ne hother] at hfound
      exact (h.settled other found hfound).grows hgrows
  · intro other found hfound
    by_cases hother : other = name
    · subst hother
      rw [lookup_cons_self] at hfound
      exact hshapes found (Option.some.inj hfound)
    · rw [lookup_cons_ne hother] at hfound
      exact h.shapes other found hfound

/-- The computation for the definition of a name. -/
def defShape (shapeOf : Value → LayoutM Shape) (layoutOf : TypeDef → LayoutM Layout)
    (t : TypeDef) : LayoutM Shape :=
  match t.aliasTarget with
  | some target => shapeOf target
  | none => Layout.shape <$> layoutOf t

theorem namedShape_eq (types : List TypeDef) (shapeOf : Value → LayoutM Shape)
    (layoutOf : TypeDef → LayoutM Layout) (name : Name) (known : Known) :
    (namedShape types shapeOf layoutOf name).run known =
      match known.lookup name, defOf types name with
      | some shape, _ => (shape, known)
      | none, none => (none, (name, none) :: known)
      | none, some t =>
          let (shape, known) := (defShape shapeOf layoutOf t).run ((name, none) :: known)
          (shape, (name, shape) :: known) := by
  rw [namedShape, OptionT.run_mk]
  cases known.lookup name with
  | some shape => rfl
  | none =>
      cases defOf types name with
      | none => rfl
      | some t =>
          simp only [defShape]
          cases t.aliasTarget <;> rfl

theorem namedShape_run (shapeOf : Value → LayoutM Shape) (layoutOf : TypeDef → LayoutM Layout)
    (name : Name) (known : Known) :
    (namedShape (types.map IdlTypeDef.toTypeDef) shapeOf layoutOf name).run known =
      match known.lookup name, typedDef types name with
      | some shape, _ => (shape, known)
      | none, none => (none, (name, none) :: known)
      | none, some t =>
          let (shape, known) := (defShape shapeOf layoutOf t.toTypeDef).run ((name, none) :: known)
          (shape, (name, shape) :: known) := by
  rw [namedShape_eq, defOf_map]
  cases known.lookup name with
  | some shape => rfl
  | none => cases typedDef types name <;> rfl

/-- The shape of a definition follows from the table. -/
theorem defShape_sound {shapeOf : Value → LayoutM Shape} {layoutOf : TypeDef → LayoutM Layout}
    (hshape : ∀ ty, (∀ name, ty.LinksTo name → inside name) →
      Sound types (Shaped types ty) (shapeOf (toJson ty)))
    (hlayout : ∀ t : IdlTypeDef, t.StructOrAlias → t.toTypeDef.aliasTarget = none →
      (∀ ty, t.ty = some ty → ∀ name, ty.LinksTo name → inside name) →
      Sound types (LaidOut types t) (layoutOf t.toTypeDef))
    {name : Name} {t : IdlTypeDef} (hdef : typedDef types name = some t)
    (hstruct : t.StructOrAlias)
    (hlinks : ∀ ty, t.ty = some ty → ∀ name, ty.LinksTo name → inside name) :
    Sound types (fun known shape => Settled types known name shape ∧
      ∀ args, RefShape types (.defined name args) shape)
      (defShape shapeOf layoutOf t.toTypeDef) := by
  rw [defShape]
  cases halias : t.toTypeDef.aliasTarget with
  | none =>
      have hmap : (Layout.shape <$> layoutOf t.toTypeDef) =
          (layoutOf t.toTypeDef >>= fun layout => pure layout.shape) := rfl
      simp only [hmap]
      refine (hlayout t hstruct halias hlinks).bind ?_ fun layout => ?_
      · intro known known' layout hextends h
        exact ⟨evalLayout_grows hextends.grows h.1, h.2⟩
      · refine Sound.pure fun known h => ⟨.struct hdef h.1 rfl, fun args => ?_⟩
        obtain ⟨-, fields, ref, href, hrefshape⟩ := h
        exact hrefshape ▸ href.shape hdef args
  | some value =>
      obtain ⟨form, target, hgeneric, hty, rfl⟩ := aliasTarget_some hstruct halias
      have htarget : ∀ name, target.LinksTo name → inside name := fun name h =>
        hlinks _ hty name (.child List.mem_cons_self h)
      exact (hshape target htarget).imp fun known shape h =>
        ⟨.aliasOf hdef hgeneric hty h.1, fun args => .aliasOf hdef hgeneric hty h.2⟩

theorem namedShape_sound (hclosed : Closed types inside) {shapeOf : Value → LayoutM Shape}
    {layoutOf : TypeDef → LayoutM Layout}
    (hshape : ∀ ty, (∀ name, ty.LinksTo name → inside name) →
      Sound types (Shaped types ty) (shapeOf (toJson ty)))
    (hlayout : ∀ t : IdlTypeDef, t.StructOrAlias → t.toTypeDef.aliasTarget = none →
      (∀ ty, t.ty = some ty → ∀ name, ty.LinksTo name → inside name) →
      Sound types (LaidOut types t) (layoutOf t.toTypeDef))
    {name : Name} (hname : inside name) (args : List (GenericArg IdlType)) :
    Sound types (Shaped types (.defined name args))
      (namedShape (types.map IdlTypeDef.toTypeDef) shapeOf layoutOf name) := by
  intro known hconsistent result known' hrun
  rw [namedShape_run] at hrun
  cases hlookup : known.lookup name with
  | some shape =>
      rw [hlookup] at hrun
      cases hrun
      refine ⟨hconsistent, Extends.refl known, ?_⟩
      rintro shape rfl
      refine ⟨?_, hconsistent.shapes name shape hlookup args⟩
      rw [evalType, hlookup]
      rfl
  | none =>
      have hjoin : (known.lookup name).join = none := by rw [hlookup]; rfl
      have hconsistent₁ : Consistent types ((name, none) :: known) :=
        hconsistent.cons hjoin (fun _ h => by cases h) fun _ h => by cases h
      have hextends₁ : Extends known ((name, none) :: known) := by
        intro other shape hother
        rw [lookup_cons_ne _ none known]
        · exact hother
        · rintro rfl
          rw [hlookup] at hother
          cases hother
      rw [hlookup] at hrun
      cases hdef : typedDef types name with
      | none =>
          rw [hdef] at hrun
          cases hrun
          exact ⟨hconsistent₁, hextends₁, fun _ h => by cases h⟩
      | some t =>
          rw [hdef] at hrun
          obtain ⟨hstruct, hlinks⟩ := hclosed name t hname hdef
          cases hbody : (defShape shapeOf layoutOf t.toTypeDef).run ((name, none) :: known) with
          | mk shape mid =>
              obtain ⟨hconsistent₂, hextends₂, hresult⟩ :=
                defShape_sound hshape hlayout hdef hstruct hlinks _ hconsistent₁ shape mid hbody
              simp only [hbody] at hrun
              cases hrun
              have hmid : (mid.lookup name).join = none := by
                rw [hextends₂ name none (lookup_cons_self name none known)]
                rfl
              refine ⟨hconsistent₂.cons hmid (fun found h => (hresult found h).1)
                fun found h => (hresult found h).2, ?_, ?_⟩
              · intro other found hother
                have hne : other ≠ name := by
                  rintro rfl
                  rw [hlookup] at hother
                  cases hother
                rw [lookup_cons_ne hne]
                exact hextends₂ other found (hextends₁ other found hother)
              · rintro found rfl
                refine ⟨?_, (hresult found rfl).2 args⟩
                rw [evalType, lookup_cons_self]
                rfl

/-- Every shape that is computed is the reference shape, and the table tells it afterwards. -/
theorem fieldShape_sound (hclosed : Closed types inside) (room : Nat) {ty : IdlType}
    (hlinks : ∀ name, ty.LinksTo name → inside name) :
    Sound types (Shaped types ty)
      (fieldShape (types.map IdlTypeDef.toTypeDef) room (toJson ty)) := by
  induction room generalizing ty with
  | zero => exact Sound.ofOption nofun
  | succ room ih =>
      rw [fieldShape]
      refine shapeWith_sound (fun name args hname => ?_) hlinks
      refine namedShape_sound hclosed (fun ty h => ih h) (fun t hstruct halias h => ?_) hname args
      by_cases hroom : room = 0
      · rw [if_pos hroom]
        exact Sound.ofOption nofun
      · rw [if_neg hroom]
        exact structLayoutWith_sound (fun ty h => ih h) hstruct halias h

theorem structLayout_sound (hclosed : Closed types inside) {t : IdlTypeDef}
    {fields : IdlFields IdlType} (hty : t.ty = some (.struct fields))
    (hlinks : ∀ name, (IdlType.struct fields).LinksTo name → inside name) :
    Sound types (LaidOut types t) (structLayout (types.map IdlTypeDef.toTypeDef) t.toTypeDef) := by
  refine structLayoutWith_sound (fun ty h => fieldShape_sound hclosed _ h) ?_
    (aliasTarget_struct hty) ?_
  · intro ty h
    rw [hty] at h
    cases h
    exact Or.inl ⟨fields, rfl⟩
  · intro ty h
    rw [hty] at h
    cases h
    exact hlinks

theorem checkRoots_result (types : List TypeDef) (t : TypeDef) (rest : List TypeDef)
    (known : Known) : (checkRoots types (t :: rest)).run known =
      (fun result : Option Layout × Known =>
        (match result.1 with
          | some _ => checkRoots types rest
          | none => pure (some t) : StateM Known (Option TypeDef)) result.2)
        ((structLayout types t).run known) := rfl

theorem checkRoots_cons (types : List TypeDef) (t : TypeDef) (rest : List TypeDef)
    (known : Known) : (checkRoots types (t :: rest)).run known =
      match (structLayout types t).run known with
      | (some _, mid) => (checkRoots types rest).run mid
      | (none, mid) => (some t, mid) := by
  rw [checkRoots_result]
  cases (structLayout types t).run known with
  | mk result mid => cases result <;> rfl

/-! ## Known shapes are not computed again -/

theorem shapeWith_known {named : Name → LayoutM Shape} {known : Known}
    (hnamed : ∀ name shape, known.lookup name = some (some shape) →
      (named name).run known = (some shape, known))
    {ty : IdlType} {shape : Shape} (h : evalType known ty = some shape) :
    (shapeWith named (toJson ty)).run known = (some shape, known) := by
  induction ty using IdlType.induction generalizing shape with
  | step ty ih =>
      cases ty with
      | leaf name => exact congrArg (fun found => (found, known)) h
      | defined name args =>
          rw [shapeWith_defined]
          exact hnamed name shape (evalType_defined_some h)
      | array item len =>
          obtain ⟨inner, n, size, rfl, hinner, hsize, rfl⟩ := evalType_array_some h
          have hitem := ih item List.mem_cons_self hinner
          have hlen : (toJson (.number n)).asU64 = some n := rfl
          rw [shapeWith_array]
          simp only [run_bind, hitem, run_ofOption, hlen, hsize, run_pure]
      | number | vec | option | coption | generic | aliasOf | struct | enum => cases h

theorem fieldShape_known {known : Known} {ty : IdlType} {shape : Shape}
    (h : evalType known ty = some shape) (room : Nat) :
    (fieldShape (types.map IdlTypeDef.toTypeDef) (room + 1) (toJson ty)).run known =
      (some shape, known) := by
  rw [fieldShape]
  refine shapeWith_known (fun name shape hlookup => ?_) h
  rw [namedShape_run, hlookup]

theorem mapM_known {known : Known} {f : IdlType → LayoutM Shape} {tys : List IdlType}
    {shapes : List Shape}
    (h : List.Forall₂ (fun ty shape => (f ty).run known = (some shape, known)) tys shapes) :
    (tys.mapM f).run known = (some shapes, known) := by
  induction h with
  | nil => rfl
  | cons hfirst hrest ih => simp only [List.mapM_cons, run_bind, hfirst, ih, run_pure]

theorem structLayout_known {known : Known} {t : IdlTypeDef} {layout : Layout}
    (h : evalLayout known t = some layout) :
    (structLayout (types.map IdlTypeDef.toTypeDef) t.toTypeDef).run known =
      (some layout, known) := by
  obtain ⟨fields, repr, shapes, hgeneric, hty, hrepr, hallowed, hshapes, hlayout⟩ :=
    evalLayout_some h
  have hrust : ∀ modifier, repr ≠ .rust modifier := by
    rintro modifier rfl
    cases hlayout
  have hmapM : (fields.types.mapM fun ty =>
      fieldShape (types.map IdlTypeDef.toTypeDef) (nestingLimit + 1) (toJson ty)).run known =
        (some shapes, known) :=
    mapM_known ((Fallible.mapM_eq_some.mp hshapes).imp fun ty shape heval =>
      fieldShape_known heval nestingLimit)
  rw [structLayout, structLayoutWith_struct _ hgeneric hty hrepr hrust hallowed]
  simp only [run_bind, hmapM, run_ofOption, hlayout]

/-! ## Links of types with a shape -/

/-- Only generic types are used with arguments. -/
def PlainUses (types : List IdlTypeDef) : IdlType → Prop :=
  IdlType.Everywhere fun
    | .defined name args => ∀ t, typedDef types name = some t → t.isGeneric = false → args = []
    | _ => True

/-- The names that a type with a shape links to are known. -/
theorem known_of_evalType {known : Known} (hconsistent : Consistent types known) {ty : IdlType}
    (hplain : PlainUses types ty) {shape : Shape} (h : evalType known ty = some shape)
    {name : Name} (hlink : ty.LinksTo name) : ∃ found, known.lookup name = some (some found) := by
  induction hlink generalizing shape with
  | here => exact ⟨shape, evalType_defined_some h⟩
  | @child ty child hchild hlink ih =>
      cases ty with
      | array item len =>
          obtain ⟨inner, n, size, rfl, hinner, hsize, rfl⟩ := evalType_array_some h
          simp only [children, List.mem_cons, List.not_mem_nil, or_false] at hchild
          obtain rfl | rfl := hchild
          · exact ih (hplain.child List.mem_cons_self) hinner
          · cases hlink with
            | child hchild _ => cases hchild
      | defined other args =>
          have hlookup := evalType_defined_some h
          obtain ⟨t, hdef, hgeneric⟩ : ∃ t, typedDef types other = some t ∧ t.isGeneric = false := by
            cases hconsistent.settled other shape hlookup with
            | aliasOf hdef hgeneric hty heval => exact ⟨_, hdef, hgeneric⟩
            | struct hdef heval hshape =>
                obtain ⟨fields, repr, shapes, hgeneric, -⟩ := evalLayout_some heval
                exact ⟨_, hdef, hgeneric⟩
          obtain rfl := hplain.here t hdef hgeneric
          cases hchild
      | leaf | generic | number => cases hchild
      | vec | option | coption | aliasOf | struct | enum => cases h

theorem known_of_evalLayout {known : Known} (hconsistent : Consistent types known)
    {t : IdlTypeDef} (hplain : ∀ ty, t.ty = some ty → PlainUses types ty) {layout : Layout}
    (h : evalLayout known t = some layout) {ty : IdlType} (hty : t.ty = some ty) {name : Name}
    (hlink : ty.LinksTo name) : ∃ found, known.lookup name = some (some found) := by
  obtain ⟨fields, repr, shapes, -, hstruct, -, -, hshapes, -⟩ := evalLayout_some h
  rw [hty] at hstruct
  cases hstruct
  cases hlink with
  | child hchild hlink =>
      obtain ⟨i, hi, rfl⟩ := List.getElem_of_mem hchild
      have hforall := Fallible.mapM_eq_some.mp hshapes
      exact known_of_evalType hconsistent ((hplain _ hty).child hchild)
        (hforall.get hi (hforall.length_eq ▸ hi)) hlink

/-- From a struct with a layout, every type that is reached is known. -/
theorem known_of_reach {known : Known} (hconsistent : Consistent types known)
    (hplain : ∀ t ∈ types, ∀ ty, t.ty = some ty → PlainUses types ty) {start name : Name}
    {t : IdlTypeDef} {layout : Layout} (hdef : typedDef types start = some t)
    (h : evalLayout known t = some layout)
    (hreach : Relation.ReflTransGen (DefLinks types) start name) :
    (name = start ∨ ∃ found, known.lookup name = some (some found)) := by
  induction hreach with
  | refl => exact Or.inl rfl
  | @tail mid name hmid hlink ih =>
      obtain ⟨t', ty, hdef', hty, hlink⟩ := hlink
      refine Or.inr ?_
      obtain rfl | ⟨found, hfound⟩ := ih
      · rw [hdef] at hdef'
        cases hdef'
        exact known_of_evalLayout hconsistent (hplain t (typedDef_mem hdef).1) h hty hlink
      · have hmem := (typedDef_mem hdef').1
        cases hconsistent.settled mid found hfound with
        | aliasOf hdef'' hgeneric hty'' heval =>
            rw [hdef'] at hdef''
            cases hdef''
            rw [hty] at hty''
            cases hty''
            cases hlink with
            | child hchild hlink =>
                obtain rfl := List.mem_singleton.mp hchild
                exact known_of_evalType hconsistent ((hplain t' hmem _ hty).child hchild) heval hlink
        | struct hdef'' heval hshape =>
            rw [hdef'] at hdef''
            cases hdef''
            exact known_of_evalLayout hconsistent (hplain t' hmem) heval hty hlink

end Shapes

end Shipstern.Anchor
