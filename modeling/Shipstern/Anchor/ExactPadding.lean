import Shipstern.Anchor.Padding

/-!
# Zero-copy padding is exact

Every struct in a `zero_copy(unsafe)` account, or in an unsafe struct inside of a checked one,
reads at the offsets of its reference layout after the pass. The exception is an unsafe struct
with type parameters inside of a checked account: the pass skips it without an error, and
nothing that is reached only through it is padded.
-/

namespace Shipstern.Anchor

open Codama IdlType Checked

/-! ## Rows of the pass -/

/-- What the pass makes of one definition. -/
structure Row (zeroCopy : List Name) (known : Known) (t : IdlTypeDef)
    (row : Option (List Value) × IdlTypeDef) : Prop where
  rewrite : rewriteType t.toTypeDef row.1 = row.2.toTypeDef
  name : row.2.name = t.name
  same : row.1 = none → row.2 = t
  outside : t.name ∉ zeroCopy → row.1 = none
  aliasOf : ∀ form target, t.ty = some (.aliasOf form target) → row.2 = t
  struct : t.name ∈ zeroCopy → ∀ layout, evalLayout known t = some layout → Rewritten layout t row.2

/-- Inside of zero-copy accounts, a definition is an alias or a struct with a known layout. -/
def Covered (zeroCopy : List Name) (known : Known) (t : IdlTypeDef) : Prop :=
  t.name ∈ zeroCopy →
    (∃ layout, evalLayout known t = some layout) ∨ ∃ form target, t.ty = some (.aliasOf form target)

section Rows

variable {types : List IdlTypeDef} {zeroCopy : List Name} {known : Known}

/-- The fields of one definition, where they change. -/
def paddedType (types : List IdlTypeDef) (zeroCopy : List Name) (t : IdlTypeDef) :
    StateM Known (Option (List Value)) :=
  if t.name ∈ zeroCopy then (paddedFields (types.map IdlTypeDef.toTypeDef) t.toTypeDef).run
  else pure none

theorem paddedTypes_cons (t : IdlTypeDef) (ts : List TypeDef) :
    (paddedTypes (types.map IdlTypeDef.toTypeDef) zeroCopy (t.toTypeDef :: ts)).run known =
      (paddedType types zeroCopy t >>= fun fields =>
        paddedTypes (types.map IdlTypeDef.toTypeDef) zeroCopy ts >>= fun others =>
          pure (fields :: others)).run known := by
  have hname : t.toTypeDef.name = t.name := rfl
  rw [paddedTypes, paddedType, hname]
  by_cases hmem : t.name ∈ zeroCopy
  · rw [if_pos hmem, if_pos hmem]
  · rw [if_neg hmem, if_neg hmem]

theorem exists_row {t : IdlTypeDef} (h : Covered zeroCopy known t) :
    ∃ row, (paddedType types zeroCopy t).run known = (row.1, known) ∧
      Row zeroCopy known t row := by
  rw [paddedType]
  by_cases hmem : t.name ∈ zeroCopy
  · rw [if_pos hmem]
    obtain ⟨layout, hlayout⟩ | ⟨form, target, hty⟩ := h hmem
    · obtain ⟨result, t', hrun, hrewrite, hsame, hname, hrewritten⟩ :=
        @paddedFields_struct types known t layout hlayout
      refine ⟨(result, t'), hrun, hrewrite, hname, hsame, fun hnot => absurd hmem hnot, ?_, ?_⟩
      · intro form target hty
        obtain ⟨fields, repr, shapes, -, hty', -⟩ := evalLayout_some hlayout
        rw [hty] at hty'
        cases hty'
      · intro _ layout' hlayout'
        rw [hlayout] at hlayout'
        cases hlayout'
        exact hrewritten
    · refine ⟨(none, t), paddedFields_aliasOf hty known, rfl, rfl, fun _ => rfl, fun _ => rfl,
        fun _ _ _ => rfl, ?_⟩
      intro _ layout hlayout
      obtain ⟨fields, repr, shapes, -, hty', -⟩ := evalLayout_some hlayout
      rw [hty] at hty'
      cases hty'
  · rw [if_neg hmem]
    exact ⟨(none, t), rfl, rfl, rfl, fun _ => rfl, fun _ => rfl, fun _ _ _ => rfl,
      fun h => absurd h hmem⟩

/-- The pass over all definitions leaves the table alone. -/
theorem paddedTypes_run {ts : List IdlTypeDef} (h : ∀ t ∈ ts, Covered zeroCopy known t) :
    ∃ rows : List (Option (List Value) × IdlTypeDef),
      (paddedTypes (types.map IdlTypeDef.toTypeDef) zeroCopy
        (ts.map IdlTypeDef.toTypeDef)).run known = (rows.map Prod.fst, known) ∧
      List.Forall₂ (Row zeroCopy known) ts rows := by
  induction ts with
  | nil => exact ⟨[], rfl, .nil⟩
  | cons t ts ih =>
      obtain ⟨row, hrun, hrow⟩ := @exists_row types zeroCopy known t (h t List.mem_cons_self)
      obtain ⟨rows, hrest, hrows⟩ := ih fun t' ht' => h t' (List.mem_cons_of_mem t ht')
      refine ⟨row :: rows, ?_, .cons hrow hrows⟩
      simp only [List.map_cons, paddedTypes_cons, StateT.run_bind, hrun]
      show (do
        let (others, known) ← (paddedTypes (types.map IdlTypeDef.toTypeDef) zeroCopy
          (ts.map IdlTypeDef.toTypeDef)).run known
        pure (row.1 :: others, known) : Id _) = _
      rw [hrest]
      rfl

theorem zipWith_rewriteType {ts : List IdlTypeDef} {rows : List (Option (List Value) × IdlTypeDef)}
    (h : List.Forall₂ (Row zeroCopy known) ts rows) :
    List.zipWith rewriteType (ts.map IdlTypeDef.toTypeDef) (rows.map Prod.fst) =
      (rows.map Prod.snd).map IdlTypeDef.toTypeDef := by
  induction h with
  | nil => rfl
  | cons hrow hrows ih =>
      simp only [List.map_cons, List.zipWith_cons_cons, ih, hrow.rewrite]

/-- The rewritten definition of a name. -/
theorem typedDef_rows {ts : List IdlTypeDef} {rows : List (Option (List Value) × IdlTypeDef)}
    (h : List.Forall₂ (Row zeroCopy known) ts rows) {name : Name} {t : IdlTypeDef}
    (hdef : typedDef ts name = some t) :
    ∃ row ∈ rows, Row zeroCopy known t row ∧ typedDef (rows.map Prod.snd) name = some row.2 := by
  have hreverse := List.rel_reverse h
  rw [typedDef] at hdef
  simp only [typedDef, ← List.map_reverse]
  generalize ts.reverse = ts' at hreverse hdef
  have hmem : ∀ row, row ∈ rows ↔ row ∈ rows.reverse := fun row => List.mem_reverse.symm
  simp only [hmem]
  generalize rows.reverse = rows' at hreverse
  induction hreverse with
  | nil => cases hdef
  | @cons t' row ts' rows' hrow hrows ih =>
      rw [List.find?_cons] at hdef
      rw [List.map_cons, List.find?_cons, hrow.name]
      split at hdef
      · cases hdef
        exact ⟨row, List.mem_cons_self, hrow, rfl⟩
      · obtain ⟨found, hfound, hrow', hdef'⟩ := ih hdef
        exact ⟨found, List.mem_cons_of_mem row hfound, hrow', hdef'⟩

theorem forall₂_imp_of_mem {α β : Type} {R S : α → β → Prop} {as : List α} {bs : List β}
    (h : List.Forall₂ R as bs) (himp : ∀ a ∈ as, ∀ b, R a b → S a b) : List.Forall₂ S as bs := by
  induction h with
  | nil => exact .nil
  | cons hab hrest ih =>
      refine .cons (himp _ List.mem_cons_self _ hab) (ih fun a ha => ?_)
      exact himp a (List.mem_cons_of_mem _ ha)

theorem exists_of_forall₂_mem {α β : Type} {R : α → β → Prop} {as : List α} {bs : List β}
    (h : List.Forall₂ R as bs) {a : α} (ha : a ∈ as) : ∃ b ∈ bs, R a b := by
  induction h with
  | nil => cases ha
  | cons hab hrest ih =>
      obtain rfl | ha := List.mem_cons.mp ha
      · exact ⟨_, List.mem_cons_self, hab⟩
      · obtain ⟨b, hb, hR⟩ := ih ha
        exact ⟨b, List.mem_cons_of_mem _ hb, hR⟩

/-- Everything inside of zero-copy accounts reads as the shape that is known of it. -/
theorem readSize_of_refShape (hconsistent : Consistent types known)
    (hclosed : ∀ name ∈ zeroCopy, ∀ target, DefLinks types name target → target ∈ zeroCopy)
    {rows : List (Option (List Value) × IdlTypeDef)}
    (hrows : List.Forall₂ (Row zeroCopy known) types rows) {ty : IdlType} {shape : Shape}
    (href : RefShape types ty shape) (hlinks : ∀ name, ty.LinksTo name → name ∈ zeroCopy)
    {shape' : Shape} (heval : evalType known ty = some shape') :
    ReadSize (rows.map Prod.snd) ty shape'.size := by
  induction href generalizing shape' with
  | @leaf name shape h => exact .leaf ((leafShape_eq_refLeaf name).symm.trans heval)
  | array h ih =>
      obtain ⟨inner, n, size, hn, hinner, hsize, rfl⟩ := evalType_array_some heval
      cases hn
      rw [← (checkedMul_eq_some.mp hsize).2]
      exact .array (ih (fun name h => hlinks name (.child List.mem_cons_self h)) hinner)
  | @aliasOf name args t form target shape hdef hgeneric hty h ih =>
      have hlookup := evalType_defined_some heval
      have hname := hlinks name .here
      have htarget : ∀ other, target.LinksTo other → other ∈ zeroCopy := fun other h =>
        hclosed name hname other ⟨t, _, hdef, hty, .child List.mem_cons_self h⟩
      obtain ⟨row, -, hrow, hdef'⟩ := typedDef_rows hrows hdef
      cases hconsistent.settled name shape' hlookup with
      | aliasOf hdef'' hgeneric' hty' heval' =>
          rw [hdef] at hdef''
          cases hdef''
          rw [hty] at hty'
          cases hty'
          have hty' : row.2.ty = some (.aliasOf form target) := by
            rw [hrow.aliasOf form target hty, hty]
          exact .aliasOf hdef' hty' (ih htarget heval')
      | struct hdef'' heval' hshape =>
          rw [hdef] at hdef''
          cases hdef''
          obtain ⟨fields, repr, shapes, -, hty', -⟩ := evalLayout_some heval'
          rw [hty] at hty'
          cases hty'
  | @struct name args t fields repr shapes layout hdef hgeneric hty hrepr hfields h hlayout ih =>
      have hlookup := evalType_defined_some heval
      have hname := hlinks name .here
      obtain ⟨row, -, hrow, hdef'⟩ := typedDef_rows hrows hdef
      cases hconsistent.settled name shape' hlookup with
      | aliasOf hdef'' hgeneric' hty' heval' =>
          rw [hdef] at hdef''
          cases hdef''
          rw [hty] at hty'
          cases hty'
      | @struct t' layout' hdef'' heval' hshape =>
          rw [hdef] at hdef''
          cases hdef''
          obtain ⟨fields', repr', shapes', -, hty', -, -, hshapes', hlayout'⟩ :=
            evalLayout_some heval'
          rw [hty] at hty'
          cases hty'
          have hsizes : List.Forall₂
              (fun ty shape => ReadSize (rows.map Prod.snd) ty (Shape.size shape))
              fields.types shapes' := by
            refine forall₂_imp_of_mem (Fallible.mapM_eq_some.mp hshapes') ?_
            intro ty hmem shape hshape
            obtain ⟨field, hfield, rfl⟩ := List.mem_map.mp (hfields ▸ hmem)
            refine ih field hfield (fun other h => ?_) hshape
            exact hclosed name hname other ⟨t, _, hdef, hty, .child hmem h⟩
          obtain ⟨ref, -, hrefshape, -, hstarts, hle⟩ := reprLayout_ref hlayout'
          have hmem : t.name ∈ zeroCopy := (typedDef_mem hdef).2 ▸ hname
          obtain ⟨out, inserted, hout, -, hreads⟩ :=
            (hrow.struct hmem layout' heval').reads hty hsizes hstarts hle
          obtain ⟨sizes, hfst, hread, hstop⟩ := hreads.sizes
          rw [← hshape, ← hrefshape, hstop, Nat.zero_add]
          exact .struct hdef' hout (by rw [hfst, members_snd]) hread

end Rows

/-- What the table gives as a shape is the reference shape. -/
theorem refShape_of_evalType {types : List IdlTypeDef} {known : Known}
    (hconsistent : Consistent types known) {ty : IdlType} {shape : Shape}
    (h : evalType known ty = some shape) : RefShape types ty shape := by
  induction ty using IdlType.induction generalizing shape with
  | step ty ih =>
      cases ty with
      | leaf name => exact .leaf ((leafShape_eq_refLeaf name).symm.trans h)
      | defined name args => exact hconsistent.shapes name shape (evalType_defined_some h) args
      | array item len =>
          obtain ⟨inner, n, size, rfl, hinner, hsize, rfl⟩ := evalType_array_some h
          rw [← (checkedMul_eq_some.mp hsize).2]
          exact .array (ih item List.mem_cons_self hinner)
      | number | vec | option | coption | generic | aliasOf | struct | enum => cases h

/-! ## Roots -/

/-- When no root is refused, each has a layout in the final table. -/
theorem checkRoots_sound {types : List IdlTypeDef} {inside : Name → Prop}
    (hclosed : Closed types inside) {roots : List TypeDef}
    (hroots : ∀ root ∈ roots, ∃ t ∈ types, root = t.toTypeDef ∧ inside t.name ∧
      ∃ fields, t.ty = some (.struct fields)) {known known' : Known}
    (hnames : (types.map IdlTypeDef.name).Nodup) (hconsistent : Consistent types known)
    (hrun : (checkRoots (types.map IdlTypeDef.toTypeDef) roots).run known = (none, known')) :
    Consistent types known' ∧ Extends known known' ∧
      ∀ root ∈ roots, ∃ t ∈ types, root = t.toTypeDef ∧
        ∃ layout, evalLayout known' t = some layout := by
  induction roots generalizing known with
  | nil =>
      cases hrun
      exact ⟨hconsistent, Extends.refl _, fun _ h => absurd h List.not_mem_nil⟩
  | cons root roots ih =>
      obtain ⟨t, hmem, rfl, hinside, fields, hty⟩ := hroots root List.mem_cons_self
      have hdef := typedDef_of_mem hnames hmem
      have hsound := structLayout_sound hclosed hty
        ((hclosed t.name t hinside hdef).2 _ hty)
      rw [checkRoots_cons] at hrun
      cases hmid : (structLayout (types.map IdlTypeDef.toTypeDef) t.toTypeDef).run known with
      | mk result mid =>
          rw [hmid] at hrun
          obtain ⟨hconsistent₁, hextends₁, hlaid⟩ := hsound known hconsistent result mid hmid
          cases result with
          | none => cases hrun
          | some layout =>
              obtain ⟨hconsistent₂, hextends₂, hrest⟩ :=
                ih (fun root hroot => hroots root (List.mem_cons_of_mem _ hroot)) hconsistent₁ hrun
              refine ⟨hconsistent₂, hextends₁.trans hextends₂, ?_⟩
              intro root hroot
              obtain rfl | hroot := List.mem_cons.mp hroot
              · exact ⟨t, hmem, rfl, layout,
                  evalLayout_grows hextends₂.grows (hlaid layout rfl).1⟩
              · exact hrest root hroot

/-! ## Typed IDLs -/

/-- An IDL over the grammar of types. Its fields of facts are what the rest of the conversion
asks of it, and that zero-copy derives are those of structs. -/
structure TypedIdl where
  /-- The types of all instruction arguments. -/
  args : List IdlType
  accounts : List Name
  events : List Name
  types : List IdlTypeDef
  definitions : ∀ t ∈ types, ∀ ty, t.ty = some ty →
    (∃ fields, ty = .struct fields) ∨ (∃ variants, ty = .enum variants) ∨
      ∃ form target, ty = .aliasOf form target
  plainUses : ∀ t ∈ types, ∀ ty, t.ty = some ty → PlainUses types ty
  accountTypes : ∀ name ∈ accounts, ∀ t, typedDef types name = some t → t.isGeneric = false
  unsafeTypes : ∀ t ∈ types, isBytemuckUnsafe t.toTypeDef = true →
    ∃ fields, t.ty = some (.struct fields)

namespace TypedIdl

variable (p : TypedIdl)

def toIdl : Idl := ⟨p.args.map toJson, p.accounts, p.events, p.types.map IdlTypeDef.toTypeDef⟩

def Account (t : IdlTypeDef) : Prop := ∃ name ∈ p.accounts, typedDef p.types name = some t

abbrev Reaches : Name → Name → Prop := Relation.ReflTransGen (DefLinks p.types)

/-- Inside of an account that bytemuck checked. -/
def InBytemuck (name : Name) : Prop :=
  ∃ account, p.Account account ∧ isBytemuck account.toTypeDef = true ∧ p.Reaches account.name name

/-- An unsafe account, or an unsafe type inside of a checked account. -/
def Candidate (t : IdlTypeDef) : Prop :=
  isBytemuckUnsafe t.toTypeDef = true ∧ (p.Account t ∨ t ∈ p.types ∧ p.InBytemuck t.name)

/-- A type in which padding counts. -/
def InZeroCopy (name : Name) : Prop := ∃ t, p.Candidate t ∧ p.Reaches t.name name

/-- A type that Borsh reads: in an instruction argument, an event or a Borsh account. -/
def InBorsh (name : Name) : Prop :=
  ∃ start, ((∃ ty ∈ p.args, ty.LinksTo start) ∨ start ∈ p.events ∨
      start ∈ p.accounts ∧ ∃ t, typedDef p.types start = some t ∧ isBorsh t.toTypeDef = true) ∧
    p.Reaches start name

/-- No type of a zero-copy account is an enum. -/
def EnumFree : Prop :=
  ∀ account, p.Account account →
    (isBytemuck account.toTypeDef = true ∨ isBytemuckUnsafe account.toTypeDef = true) →
    ∀ name, p.Reaches account.name name → ∀ t, typedDef p.types name = some t →
      t.toTypeDef.isEnum = false

/-- A definition and its rewritten form, among all rewritten definitions. -/
structure ExactlyPadded (types' : List IdlTypeDef) (t t' : IdlTypeDef) : Prop where
  rest : t' = { t with ty := t'.ty }
  placed : p.InZeroCopy t.name → ∀ fields, t.ty = some (.struct fields) →
    ∃ layout out inserted, RefStruct p.types t fields layout ∧ t'.ty = some (.struct out) ∧
      Reads types' 0 out.members fields.members layout.starts inserted layout.shape.size ∧
      Fresh (takenNames fields) inserted
  unchanged : ¬ p.InZeroCopy t.name → t' = t
  notBorsh : t' ≠ t → ¬ p.InBorsh t.name

def PaddedExactly (out : List TypeDef) : Prop :=
  ∃ types', out = types'.map IdlTypeDef.toTypeDef ∧
    List.Forall₂ (p.ExactlyPadded types') p.types types'

variable {p}

theorem Account.mem {t : IdlTypeDef} (h : p.Account t) : t ∈ p.types := by
  obtain ⟨name, -, hdef⟩ := h
  exact (typedDef_mem hdef).1

theorem Candidate.mem {t : IdlTypeDef} (h : p.Candidate t) : t ∈ p.types :=
  h.2.elim Account.mem And.left

theorem mem_accountTypes {root : TypeDef} :
    root ∈ Anchor.accountTypes p.toIdl ↔ ∃ t, p.Account t ∧ root = t.toTypeDef := by
  rw [Anchor.accountTypes, List.mem_filter, List.mem_filterMap]
  constructor
  · rintro ⟨⟨name, hname, hdef⟩, -⟩
    rw [toIdl, defOf_map] at hdef
    obtain ⟨t, ht, rfl⟩ := Option.map_eq_some_iff.mp hdef
    exact ⟨t, ⟨name, hname, ht⟩, rfl⟩
  · rintro ⟨t, ⟨name, hname, ht⟩, rfl⟩
    refine ⟨⟨name, hname, ?_⟩, ?_⟩
    · rw [toIdl, defOf_map, ht]
      rfl
    · rw [isGeneric_toTypeDef, p.accountTypes name hname t ht]
      rfl

theorem mem_inBytemuck {name : Name} : name ∈ inBytemuck p.toIdl ↔ p.InBytemuck name := by
  have htypes : p.toIdl.types = p.types.map IdlTypeDef.toTypeDef := rfl
  rw [inBytemuck, htypes, mem_reachable]
  constructor
  · rintro ⟨start, hstart, hreach⟩
    obtain ⟨root, hroot, rfl⟩ := List.mem_map.mp hstart
    rw [List.mem_filter] at hroot
    obtain ⟨t, ht, rfl⟩ := mem_accountTypes.mp hroot.1
    exact ⟨t, ht, hroot.2, hreach⟩
  · rintro ⟨t, ht, hbytemuck, hreach⟩
    exact ⟨t.name, List.mem_map_of_mem (List.mem_filter.mpr
      ⟨mem_accountTypes.mpr ⟨t, ht, rfl⟩, hbytemuck⟩), hreach⟩

theorem mem_roots {root : TypeDef} :
    root ∈ roots p.toIdl ↔ ∃ t, p.Candidate t ∧ t.isGeneric = false ∧ root = t.toTypeDef := by
  rw [roots, List.mem_filter, List.mem_append, List.mem_filter, Bool.and_eq_true]
  constructor
  · rintro ⟨hroot, hraw, hgeneric⟩
    obtain ⟨t, hcandidate, rfl⟩ : ∃ t, (p.Account t ∨ t ∈ p.types ∧ p.InBytemuck t.name) ∧
        root = t.toTypeDef := by
      obtain haccount | ⟨hmem, hinside⟩ := hroot
      · obtain ⟨t, ht, rfl⟩ := mem_accountTypes.mp haccount
        exact ⟨t, Or.inl ht, rfl⟩
      · obtain ⟨t, ht, rfl⟩ := List.mem_map.mp hmem
        exact ⟨t, Or.inr ⟨ht, mem_inBytemuck.mp (of_decide_eq_true hinside)⟩, rfl⟩
    refine ⟨t, ⟨hraw, hcandidate⟩, ?_, rfl⟩
    rw [isGeneric_toTypeDef] at hgeneric
    simpa using hgeneric
  · rintro ⟨t, ⟨hraw, hcandidate⟩, hgeneric, rfl⟩
    refine ⟨?_, hraw, by rw [isGeneric_toTypeDef, hgeneric]; rfl⟩
    obtain haccount | ⟨hmem, hinside⟩ := hcandidate
    · exact Or.inl (mem_accountTypes.mpr ⟨t, haccount, rfl⟩)
    · exact Or.inr ⟨List.mem_map_of_mem hmem, decide_eq_true (mem_inBytemuck.mpr hinside)⟩

theorem mem_borshTypes {name : Name} : name ∈ borshTypes p.toIdl ↔ p.InBorsh name := by
  have htypes : p.toIdl.types = p.types.map IdlTypeDef.toTypeDef := rfl
  rw [borshTypes, htypes, mem_reachable, InBorsh]
  refine exists_congr fun start => and_congr_left fun _ => ?_
  rw [List.mem_append, List.mem_append, or_assoc]
  refine or_congr ?_ (or_congr Iff.rfl ?_)
  · show start ∈ (p.args.map toJson).flatMap pushDefined ↔ _
    rw [List.flatMap_map, List.mem_flatMap]
    exact exists_congr fun ty => and_congr_right fun _ => mem_pushDefined
  · rw [List.mem_filter]
    refine and_congr_right fun _ => ?_
    rw [defOf_map]
    cases typedDef p.types start with
    | none => simp
    | some t => simp

/-- The types that the pass looks into. -/
def zeroCopy (p : TypedIdl) : List Name :=
  reachable (p.types.map IdlTypeDef.toTypeDef) ((roots p.toIdl).map TypeDef.name)

theorem mem_zeroCopy {name : Name} :
    name ∈ p.zeroCopy ↔
      ∃ t, p.Candidate t ∧ t.isGeneric = false ∧ p.Reaches t.name name := by
  rw [zeroCopy, mem_reachable]
  constructor
  · rintro ⟨start, hstart, hreach⟩
    obtain ⟨root, hroot, rfl⟩ := List.mem_map.mp hstart
    obtain ⟨t, ht, hgeneric, rfl⟩ := mem_roots.mp hroot
    exact ⟨t, ht, hgeneric, hreach⟩
  · rintro ⟨t, ht, hgeneric, hreach⟩
    exact ⟨t.name, List.mem_map_of_mem (mem_roots.mpr ⟨t, ht, hgeneric, rfl⟩), hreach⟩

theorem isEnum_enum {t : IdlTypeDef} {variants : List (IdlVariant IdlType)}
    (h : t.ty = some (.enum variants)) : t.toTypeDef.isEnum = true := by
  rw [TypeDef.isEnum, IdlTypeDef.toTypeDef, h]
  rfl

theorem zeroCopy_links {name target : Name} (hname : name ∈ p.zeroCopy)
    (hlink : DefLinks p.types name target) : target ∈ p.zeroCopy := by
  obtain ⟨t, ht, hgeneric, hreach⟩ := mem_zeroCopy.mp hname
  exact mem_zeroCopy.mpr ⟨t, ht, hgeneric, hreach.tail hlink⟩

theorem zeroCopy_closed (henum : p.EnumFree) : Closed p.types (· ∈ p.zeroCopy) := by
  intro name t hname hdef
  constructor
  · intro ty hty
    obtain hstruct | ⟨variants, rfl⟩ | halias := p.definitions t (typedDef_mem hdef).1 ty hty
    · exact Or.inl hstruct
    · -- an enum would be inside of a zero-copy account
      obtain ⟨root, ⟨hraw, hcandidate⟩, -, hreach⟩ := mem_zeroCopy.mp hname
      have hnot : t.toTypeDef.isEnum = false := by
        obtain haccount | ⟨-, account, haccount, hbytemuck, hinside⟩ := hcandidate
        · exact henum root haccount (Or.inr hraw) name hreach t hdef
        · exact henum account haccount (Or.inl hbytemuck) name (hinside.trans hreach) t hdef
      rw [isEnum_enum hty] at hnot
      cases hnot
    · exact Or.inr halias
  · intro ty hty target hlink
    exact zeroCopy_links hname ⟨t, ty, hdef, hty, hlink⟩

/-- What a pass without an error did. -/
theorem padZeroCopy_ok {out : List TypeDef} (hok : padZeroCopy p.toIdl = .ok out) :
    ∃ known, (checkRoots (p.types.map IdlTypeDef.toTypeDef) (roots p.toIdl)).run [] =
        (none, known) ∧
      let padded := ((paddedTypes (p.types.map IdlTypeDef.toTypeDef) p.zeroCopy
        (p.types.map IdlTypeDef.toTypeDef)).run known).1
      (((p.types.map IdlTypeDef.toTypeDef).zip padded).find? fun (t, fields) =>
        fields.isSome && decide (t.name ∈ borshTypes p.toIdl)) = none ∧
      out = List.zipWith rewriteType (p.types.map IdlTypeDef.toTypeDef) padded := by
  rw [padZeroCopy] at hok
  split at hok
  · cases hok
  · split at hok
    · cases hok
    · next known hrun =>
        refine ⟨known, hrun, ?_⟩
        simp only at hok
        split at hok
        · cases hok
        · next hnone =>
            cases hok
            exact ⟨hnone, rfl⟩

/-- Every type that the pass looks into is an alias, or a struct whose layout is known. -/
theorem covered (hnames : (p.types.map IdlTypeDef.name).Nodup) {known : Known}
    (hconsistent : Consistent p.types known)
    (hroots : ∀ root ∈ roots p.toIdl, ∃ t ∈ p.types, root = t.toTypeDef ∧
      ∃ layout, evalLayout known t = some layout) {t : IdlTypeDef} (hmem : t ∈ p.types) :
    Covered p.zeroCopy known t := by
  intro hname
  obtain ⟨start, hstart, hgeneric, hreach⟩ := mem_zeroCopy.mp hname
  obtain ⟨start', hmem', hstart', layout, hlayout⟩ :=
    hroots _ (mem_roots.mpr ⟨start, hstart, hgeneric, rfl⟩)
  have hsame : start'.name = start.name := congrArg TypeDef.name hstart'.symm
  have hdef : typedDef p.types start.name = some start' :=
    hsame ▸ typedDef_of_mem hnames hmem'
  have hdef' := typedDef_of_mem hnames hmem
  obtain heq | ⟨found, hfound⟩ := known_of_reach hconsistent p.plainUses hdef hlayout hreach
  · rw [heq, hdef] at hdef'
    cases hdef'
    exact Or.inl ⟨layout, hlayout⟩
  · cases hconsistent.settled t.name found hfound with
    | aliasOf hdef'' hgeneric' hty heval =>
        rw [hdef'] at hdef''
        cases hdef''
        exact Or.inr ⟨_, _, hty⟩
    | struct hdef'' heval hshape =>
        rw [hdef'] at hdef''
        cases hdef''
        exact Or.inl ⟨_, heval⟩

/-- A struct that the pass looks into reads as its reference layout. -/
theorem placed_of_row {known : Known} (hconsistent : Consistent p.types known)
    {rows : List (Option (List Value) × IdlTypeDef)}
    (hrows : List.Forall₂ (Row p.zeroCopy known) p.types rows)
    (hnames : (p.types.map IdlTypeDef.name).Nodup) {t : IdlTypeDef} (hmem : t ∈ p.types)
    {row : Option (List Value) × IdlTypeDef} (hrow : Row p.zeroCopy known t row)
    (hcovered : Covered p.zeroCopy known t) (hname : t.name ∈ p.zeroCopy)
    {fields : IdlFields IdlType} (hty : t.ty = some (.struct fields)) :
    ∃ layout out inserted, RefStruct p.types t fields layout ∧ row.2.ty = some (.struct out) ∧
      Reads (rows.map Prod.snd) 0 out.members fields.members layout.starts inserted
        layout.shape.size ∧ Fresh (takenNames fields) inserted := by
  obtain ⟨layout, hlayout⟩ | ⟨form, target, halias⟩ := hcovered hname
  · obtain ⟨fields', repr, shapes, hgeneric, hty', hrepr, -, hshapes, hreprLayout⟩ :=
      evalLayout_some hlayout
    rw [hty] at hty'
    cases hty'
    obtain ⟨ref, href, -, -, hstarts, hle⟩ := reprLayout_ref hreprLayout
    have hforall := Fallible.mapM_eq_some.mp hshapes
    have hsizes : List.Forall₂ (fun ty shape => ReadSize (rows.map Prod.snd) ty (Shape.size shape))
        fields.types shapes := by
      refine forall₂_imp_of_mem hforall fun ty hfield shape heval => ?_
      refine readSize_of_refShape hconsistent (fun name hname target => zeroCopy_links hname) hrows
        (refShape_of_evalType hconsistent heval) (fun name hlink => ?_) heval
      exact zeroCopy_links hname ⟨t, _, typedDef_of_mem hnames hmem, hty, .child hfield hlink⟩
    obtain ⟨out, inserted, hout, hfresh, hreads⟩ :=
      (hrow.struct hname layout hlayout).reads hty hsizes hstarts hle
    refine ⟨ref, out, inserted, ⟨hgeneric, hty, repr, shapes, hrepr, ?_, href⟩, hout, hreads, hfresh⟩
    exact hforall.imp fun ty shape => refShape_of_evalType hconsistent
  · rw [hty] at halias
    cases halias

theorem Rewritten.rest {layout : Layout} {t t' : IdlTypeDef} (h : Rewritten layout t t') :
    t' = { t with ty := t'.ty } := by
  cases h <;> rfl

theorem rest_of_row {known : Known} {t : IdlTypeDef} {row : Option (List Value) × IdlTypeDef}
    (hrow : Row p.zeroCopy known t row) (hcovered : Covered p.zeroCopy known t) :
    row.2 = { t with ty := row.2.ty } := by
  by_cases hname : t.name ∈ p.zeroCopy
  · obtain ⟨layout, hlayout⟩ | ⟨form, target, halias⟩ := hcovered hname
    · exact Rewritten.rest (hrow.struct hname layout hlayout)
    · rw [hrow.aliasOf form target halias]
  · rw [hrow.same (hrow.outside hname)]

/-- The pass is exact if and only if no unsafe struct with type parameters is inside of a
checked account. -/
theorem padZeroCopy_exact_iff (p : TypedIdl) (hnames : (p.types.map IdlTypeDef.name).Nodup)
    (henum : p.EnumFree) {out : List TypeDef} (hok : padZeroCopy p.toIdl = .ok out) :
    p.PaddedExactly out ↔
      ∀ t ∈ p.types, isBytemuckUnsafe t.toTypeDef = true → p.InBytemuck t.name →
        t.isGeneric = false := by
  constructor
  · rintro ⟨types', -, hexact⟩ t hmem hraw hinside
    obtain ⟨fields, hty⟩ := p.unsafeTypes t hmem hraw
    obtain ⟨t', -, hpadded⟩ := exists_of_forall₂_mem hexact hmem
    have hzeroCopy : p.InZeroCopy t.name := ⟨t, ⟨hraw, Or.inr ⟨hmem, hinside⟩⟩, .refl⟩
    obtain ⟨layout, out, inserted, hstruct, -⟩ := hpadded.placed hzeroCopy fields hty
    exact hstruct.generic
  · intro hplain
    have hgeneric : ∀ t, p.Candidate t → t.isGeneric = false := by
      rintro t ⟨hraw, ⟨name, hname, hdef⟩ | ⟨hmem, hinside⟩⟩
      · exact p.accountTypes name hname t hdef
      · exact hplain t hmem hraw hinside
    have hzeroCopy : ∀ name, name ∈ p.zeroCopy ↔ p.InZeroCopy name := by
      intro name
      rw [mem_zeroCopy, InZeroCopy]
      exact exists_congr fun t => ⟨fun h => ⟨h.1, h.2.2⟩, fun h => ⟨h.1, hgeneric t h.1, h.2⟩⟩
    obtain ⟨known, hrun, hshared, rfl⟩ := padZeroCopy_ok hok
    have hempty : Consistent p.types [] := ⟨nofun, nofun⟩
    have hinside : ∀ root ∈ roots p.toIdl, ∃ t ∈ p.types, root = t.toTypeDef ∧
        t.name ∈ p.zeroCopy ∧ ∃ fields, t.ty = some (.struct fields) := by
      intro root hroot
      obtain ⟨t, ht, hnot, rfl⟩ := mem_roots.mp hroot
      exact ⟨t, ht.mem, rfl, mem_zeroCopy.mpr ⟨t, ht, hnot, .refl⟩, p.unsafeTypes t ht.mem ht.1⟩
    obtain ⟨hconsistent, -, hroots⟩ :=
      checkRoots_sound (zeroCopy_closed henum) hinside hnames hempty hrun
    have hcovered : ∀ t ∈ p.types, Covered p.zeroCopy known t := fun t hmem =>
      covered hnames hconsistent hroots hmem
    obtain ⟨rows, hpadded, hrows⟩ := @paddedTypes_run p.types p.zeroCopy known p.types hcovered
    rw [hpadded] at hshared ⊢
    refine ⟨rows.map Prod.snd, zipWith_rewriteType hrows, ?_⟩
    rw [List.forall₂_map_right_iff, List.forall₂_iff_zip]
    obtain ⟨hlength, hzip⟩ := List.forall₂_iff_zip.mp hrows
    refine ⟨hlength, fun {t row} hpair => ?_⟩
    have hmem : t ∈ p.types := (List.of_mem_zip hpair).1
    have hrow := hzip hpair
    refine ⟨rest_of_row hrow (hcovered t hmem), ?_, ?_, ?_⟩
    · intro hname fields hty
      exact placed_of_row hconsistent hrows hnames hmem hrow (hcovered t hmem)
        ((hzeroCopy t.name).mpr hname) hty
    · intro hname
      exact hrow.same (hrow.outside fun h => hname ((hzeroCopy t.name).mp h))
    · intro hchanged hborsh
      -- the fields of a changed definition are listed, and no listed one is shared
      have hsome : row.1.isSome = true := by
        rw [Option.isSome_iff_ne_none]
        exact fun hnone => hchanged (hrow.same hnone)
      have hpair' : (t.toTypeDef, row.1) ∈
          (p.types.map IdlTypeDef.toTypeDef).zip (rows.map Prod.fst) := by
        rw [List.zip_map]
        exact List.mem_map.mpr ⟨(t, row), hpair, rfl⟩
      have hnot := List.find?_eq_none.mp hshared _ hpair'
      simp only [hsome, Bool.true_and, decide_eq_true_eq] at hnot
      exact hnot (mem_borshTypes.mpr hborsh)

/-! ## A padded account and a skipped one -/

/-- A struct under `repr(C)` that is not generic. -/
def plainStruct (name : Name) (serialization : Option Name)
    (fields : List (IdlField IdlType)) : IdlTypeDef where
  name := name
  generics := none
  serialization := serialization.map .string
  repr := some (.c ⟨false, none⟩)
  ty := some (.struct (.named fields))

/-- A byte in front of a `u64`. -/
def gapFields : List (IdlField IdlType) :=
  [⟨"a".toList, none, .leaf "u8".toList⟩, ⟨"b".toList, none, .leaf "u64".toList⟩]

def poolTypes : List IdlTypeDef :=
  [plainStruct "Pool".toList (some "bytemuckunsafe".toList) gapFields]

theorem plainUses_of_leaves {types : List IdlTypeDef} {fields : List (IdlField IdlType)}
    (h : ∀ field ∈ fields, ∃ name, field.ty = .leaf name) :
    PlainUses types (.struct (.named fields)) := by
  refine ⟨trivial, fun child hchild => ?_⟩
  obtain ⟨field, hfield, rfl⟩ := List.mem_map.mp hchild
  obtain ⟨name, hname⟩ := h field hfield
  rw [hname]
  exact ⟨trivial, fun _ h => absurd h List.not_mem_nil⟩

theorem gapFields_leaves : ∀ field ∈ gapFields, ∃ name, field.ty = .leaf name := by
  simp [gapFields]

/-- One unsafe account. -/
def poolIdl : TypedIdl where
  args := []
  accounts := ["Pool".toList]
  events := []
  types := poolTypes
  definitions := by
    intro t ht ty hty
    obtain rfl := List.mem_singleton.mp ht
    cases hty
    exact Or.inl ⟨_, rfl⟩
  plainUses := by
    intro t ht ty hty
    obtain rfl := List.mem_singleton.mp ht
    cases hty
    exact plainUses_of_leaves gapFields_leaves
  accountTypes := by
    intro name hname t hdef
    obtain rfl := List.mem_singleton.mp (typedDef_mem hdef).1
    rfl
  unsafeTypes := by
    intro t ht _
    obtain rfl := List.mem_singleton.mp ht
    exact ⟨_, rfl⟩

theorem pool_padded_exactly :
    poolIdl.PaddedExactly (poolTypes.map fun t => { t.toTypeDef with
      ty := some (toJson (.struct (.named [⟨"a".toList, none, .leaf "u8".toList⟩,
        paddingField "padding_before_b".toList 7, ⟨"b".toList, none, .leaf "u64".toList⟩]))) }) := by
  refine (padZeroCopy_exact_iff poolIdl (by decide) ?_ rfl).mpr ?_
  · intro account haccount hkind name hreach t hdef
    obtain rfl := List.mem_singleton.mp (typedDef_mem hdef).1
    rfl
  · intro t ht hraw hinside
    obtain rfl := List.mem_singleton.mp ht
    rfl

def genericUse : IdlType := .defined "G".toList [.type (.leaf "u64".toList)]

/-- The definition of `G`. -/
def skippedGeneric : IdlTypeDef :=
  { plainStruct "G".toList (some "bytemuckunsafe".toList)
      [⟨"y".toList, none, .defined "Y".toList []⟩, ⟨"t".toList, none, .generic "T".toList⟩] with
    generics := some [⟨"type".toList, "T".toList⟩] }

/-- `A` is checked and holds a `G<u64>`, which is unsafe and holds a `Y` with a gap. -/
def skippedTypes : List IdlTypeDef :=
  [plainStruct "A".toList (some "bytemuck".toList) [⟨"g".toList, none, genericUse⟩],
    skippedGeneric, plainStruct "Y".toList none gapFields]

theorem plainUses_skipped : ∀ t ∈ skippedTypes, ∀ ty, t.ty = some ty →
    PlainUses skippedTypes ty := by
  intro t ht ty hty
  simp only [skippedTypes, List.mem_cons, List.not_mem_nil, or_false] at ht
  obtain rfl | rfl | rfl := ht
  · cases hty
    refine ⟨trivial, fun child hchild => ?_⟩
    obtain rfl := List.mem_singleton.mp hchild
    refine ⟨?_, fun child hchild => ?_⟩
    · intro t hdef hgeneric
      have hG : typedDef skippedTypes "G".toList = skippedTypes[1]? := rfl
      rw [hG] at hdef
      cases hdef
      cases hgeneric
    · obtain rfl := List.mem_singleton.mp hchild
      exact ⟨trivial, fun _ h => absurd h List.not_mem_nil⟩
  · cases hty
    refine ⟨trivial, fun child hchild => ?_⟩
    simp only [children, IdlFields.types, List.map_cons, List.map_nil, List.mem_cons,
      List.not_mem_nil, or_false] at hchild
    obtain rfl | rfl := hchild
    · exact ⟨fun _ _ _ => rfl, fun _ h => absurd h List.not_mem_nil⟩
    · exact ⟨trivial, fun _ h => absurd h List.not_mem_nil⟩
  · cases hty
    exact plainUses_of_leaves gapFields_leaves

theorem skipped_structs : ∀ t ∈ skippedTypes, ∃ fields, t.ty = some (.struct fields) := by
  intro t ht
  simp only [skippedTypes, List.mem_cons, List.not_mem_nil, or_false] at ht
  obtain rfl | rfl | rfl := ht <;> exact ⟨_, rfl⟩

def skippedIdl : TypedIdl where
  args := []
  accounts := ["A".toList]
  events := []
  types := skippedTypes
  definitions := by
    intro t ht ty hty
    obtain ⟨fields, hfields⟩ := skipped_structs t ht
    rw [hfields] at hty
    cases hty
    exact Or.inl ⟨fields, rfl⟩
  plainUses := plainUses_skipped
  accountTypes := by
    intro name hname t hdef
    obtain rfl := List.mem_singleton.mp hname
    have hA : typedDef skippedTypes "A".toList = skippedTypes[0]? := rfl
    rw [hA] at hdef
    cases hdef
    rfl
  unsafeTypes := fun t ht _ => skipped_structs t ht

theorem skipped_enumFree : skippedIdl.EnumFree := by
  intro account haccount hkind name hreach t hdef
  have hmem : t ∈ skippedTypes := (typedDef_mem hdef).1
  simp only [skippedTypes, List.mem_cons, List.not_mem_nil, or_false] at hmem
  obtain rfl | rfl | rfl := hmem <;> rfl

theorem skippedGeneric_candidate : skippedIdl.Candidate skippedGeneric := by
  refine ⟨rfl, Or.inr ⟨List.mem_cons_of_mem _ List.mem_cons_self, ?_⟩⟩
  refine ⟨_, ⟨"A".toList, List.mem_cons_self, rfl⟩, rfl, .single ⟨_, _, rfl, rfl, ?_⟩⟩
  exact .child List.mem_cons_self .here

theorem skipped_inZeroCopy : skippedIdl.InZeroCopy "Y".toList := by
  refine ⟨skippedGeneric, skippedGeneric_candidate, .single ⟨skippedGeneric, _, rfl, rfl, ?_⟩⟩
  exact .child List.mem_cons_self .here

/-- The pass accepts the IDL and leaves `Y` as it is: 16 bytes in memory, 9 when it is read. -/
theorem generic_unsafe_struct_not_padded :
    padZeroCopy skippedIdl.toIdl = .ok skippedIdl.toIdl.types ∧
      (skippedTypes.map IdlTypeDef.name).Nodup ∧ skippedIdl.EnumFree ∧
      skippedIdl.InZeroCopy "Y".toList ∧
      RefShape skippedTypes (.defined "Y".toList []) ⟨16, 8⟩ ∧
      ReadSize skippedTypes (.defined "Y".toList []) 9 ∧
      ¬ skippedIdl.PaddedExactly skippedIdl.toIdl.types := by
  have hu8 : refLeaf "u8".toList = some ⟨1, 1⟩ := by decide
  have hu64 : refLeaf "u64".toList = some ⟨8, 8⟩ := by decide
  refine ⟨rfl, by decide, skipped_enumFree, skipped_inZeroCopy, ?_, ?_, ?_⟩
  · refine @RefShape.struct skippedTypes _ _ _ _ _
      [(.leaf "u8".toList, ⟨1, 1⟩), (.leaf "u64".toList, ⟨8, 8⟩)] ⟨[0, 8], ⟨16, 8⟩⟩
      rfl rfl rfl rfl rfl ?_ rfl
    simp only [List.forall_mem_cons]
    exact ⟨.leaf hu8, .leaf hu64, fun _ h => absurd h List.not_mem_nil⟩
  · refine @ReadSize.struct skippedTypes _ _ _ _
      [(.leaf "u8".toList, 1), (.leaf "u64".toList, 8)] rfl rfl rfl ?_
    simp only [List.forall_mem_cons]
    exact ⟨.leaf hu8, .leaf hu64, fun _ h => absurd h List.not_mem_nil⟩
  · rintro ⟨types', -, hexact⟩
    obtain ⟨t', -, hpadded⟩ := exists_of_forall₂_mem hexact
      (show skippedGeneric ∈ skippedTypes from List.mem_cons_of_mem _ List.mem_cons_self)
    obtain ⟨layout, out, inserted, hstruct, -⟩ :=
      hpadded.placed ⟨_, skippedGeneric_candidate, .refl⟩ _ rfl
    cases hstruct.generic

end TypedIdl

end Shipstern.Anchor
