import Shipstern.Anchor.FreeNames
import Shipstern.Anchor.LayoutRuns

/-!
# Padded structs are read at their offsets

A rewritten struct is read field by field, without gaps, and the structs inside of it by their
own rewritten definitions. `Reads` says where the original fields are found in such a reading.
The paddings come from the table of known shapes, so a struct whose layout is known reads as
its reference layout when the types of its fields do.
-/

namespace Shipstern.Anchor

open Codama IdlType

/-! ## Reading back to back -/

/-- The number of bytes that a type takes when everything is read back to back. -/
inductive ReadSize (types : List IdlTypeDef) : IdlType → Nat → Prop
  | leaf {name : Name} {shape : Shape} (h : refLeaf name = some shape) :
      ReadSize types (.leaf name) shape.size
  | array {item : IdlType} {size len : Nat} (h : ReadSize types item size) :
      ReadSize types (.array item (.number len)) (size * len)
  | aliasOf {name : Name} {args : List (GenericArg IdlType)} {t : IdlTypeDef} {form : AliasForm}
      {target : IdlType} {size : Nat} (hdef : typedDef types name = some t)
      (hty : t.ty = some (.aliasOf form target)) (h : ReadSize types target size) :
      ReadSize types (.defined name args) size
  | struct {name : Name} {args : List (GenericArg IdlType)} {t : IdlTypeDef}
      {fields : IdlFields IdlType} {sizes : List (IdlType × Nat)}
      (hdef : typedDef types name = some t) (hty : t.ty = some (.struct fields))
      (hfields : sizes.map Prod.fst = fields.types)
      (h : ∀ field ∈ sizes, ReadSize types field.1 field.2) :
      ReadSize types (.defined name args) (sizes.map Prod.snd).sum

/-- The fields of a struct, with their names if they have any. -/
def IdlFields.members {T : Type} : IdlFields T → List (Option Name × T)
  | .none => []
  | .named fields => fields.map fun field => (some field.name, field.ty)
  | .tuple items => items.map fun item => (Option.none, item)

/-- Reading `out` from an offset on finds `fields` at `starts`, with fields of the names
`inserted` between them, and stops at an offset. -/
inductive Reads (types : List IdlTypeDef) :
    Nat → List (Option Name × IdlType) → List (Option Name × IdlType) → List Nat → List Name →
      Nat → Prop
  | done {offset : Nat} : Reads types offset [] [] [] [] offset
  | original {offset size stop : Nat} {field : Option Name × IdlType}
      {out fields : List (Option Name × IdlType)} {starts : List Nat} {inserted : List Name}
      (hsize : ReadSize types field.2 size)
      (h : Reads types (offset + size) out fields starts inserted stop) :
      Reads types offset (field :: out) (field :: fields) (offset :: starts) inserted stop
  | inserted {offset size stop : Nat} {name : Name} {ty : IdlType}
      {out fields : List (Option Name × IdlType)} {starts : List Nat} {inserted : List Name}
      (hsize : ReadSize types ty size)
      (h : Reads types (offset + size) out fields starts inserted stop) :
      Reads types offset ((some name, ty) :: out) fields starts (name :: inserted) stop

theorem members_snd {T : Type} (fields : IdlFields T) :
    fields.members.map Prod.snd = fields.types := by
  cases fields with
  | none => rfl
  | named fields => rw [IdlFields.members, IdlFields.types, List.map_map]; rfl
  | tuple items => rw [IdlFields.members, IdlFields.types, List.map_map]; exact List.map_id items

/-- The bytes between the two offsets are those of the fields. -/
theorem Reads.sizes {types : List IdlTypeDef} {offset stop : Nat}
    {out fields : List (Option Name × IdlType)} {starts : List Nat} {inserted : List Name}
    (h : Reads types offset out fields starts inserted stop) :
    ∃ sizes : List (IdlType × Nat), sizes.map Prod.fst = out.map Prod.snd ∧
      (∀ field ∈ sizes, ReadSize types field.1 field.2) ∧
      stop = offset + (sizes.map Prod.snd).sum := by
  induction h with
  | done => exact ⟨[], rfl, fun _ h => absurd h List.not_mem_nil, rfl⟩
  | @original offset size stop field out fields starts inserted hsize h ih =>
      obtain ⟨sizes, hfst, hread, rfl⟩ := ih
      refine ⟨(field.2, size) :: sizes, ?_, List.forall_mem_cons.mpr ⟨hsize, hread⟩, ?_⟩
      · rw [List.map_cons, List.map_cons, hfst]
      · rw [List.map_cons, List.sum_cons, Nat.add_assoc]
  | @inserted offset size stop name ty out fields starts inserted hsize h ih =>
      obtain ⟨sizes, hfst, hread, rfl⟩ := ih
      refine ⟨(ty, size) :: sizes, ?_, List.forall_mem_cons.mpr ⟨hsize, hread⟩, ?_⟩
      · rw [List.map_cons, List.map_cons, hfst]
      · rw [List.map_cons, List.sum_cons, Nat.add_assoc]

/-- Another field at the end. -/
theorem Reads.append {types : List IdlTypeDef} {offset stop size : Nat}
    {out fields : List (Option Name × IdlType)} {starts : List Nat} {inserted : List Name}
    (h : Reads types offset out fields starts inserted stop) (name : Name) {ty : IdlType}
    (hsize : ReadSize types ty size) :
    Reads types offset (out ++ [(some name, ty)]) fields starts (inserted ++ [name])
      (stop + size) := by
  induction h with
  | done => exact .inserted hsize .done
  | original hfirst h ih => exact .original hfirst ih
  | inserted hfirst h ih => exact .inserted hfirst ih

/-! ## Inserted paddings -/

def paddingField (name : Name) (len : Nat) : IdlField IdlType :=
  ⟨name, none, .array (.leaf "u8".toList) (.number len)⟩

theorem readSize_paddingField (types : List IdlTypeDef) (name : Name) (len : Nat) :
    ReadSize types (paddingField name len).ty len := by
  have hleaf : refLeaf "u8".toList = some ⟨1, 1⟩ := by decide
  have h : ReadSize types (paddingField name len).ty (1 * len) := .array (.leaf hleaf)
  rwa [Nat.one_mul] at h

/-- The fields with the paddings in front of them, under the inserted names. -/
inductive Interleaved :
    List Nat → List (IdlField IdlType) → List (IdlField IdlType) → List Name → Prop
  | nil : Interleaved [] [] [] []
  | plain {pads : List Nat} {field : IdlField IdlType} {fields out : List (IdlField IdlType)}
      {inserted : List Name} (h : Interleaved pads fields out inserted) :
      Interleaved (0 :: pads) (field :: fields) (field :: out) inserted
  | padded {pad : Nat} {pads : List Nat} {field : IdlField IdlType}
      {fields out : List (IdlField IdlType)} {inserted : List Name} {name : Name}
      (h : Interleaved pads fields out inserted) :
      Interleaved (pad :: pads) (field :: fields) (paddingField name pad :: field :: out)
        (name :: inserted)

/-- The paddings put every field at its start. -/
theorem Interleaved.reads {types : List IdlTypeDef} {pads : List Nat}
    {fields out : List (IdlField IdlType)} {inserted : List Name}
    (h : Interleaved pads fields out inserted) {shapes : List Shape}
    (hsizes : List.Forall₂ (fun field shape => ReadSize types (IdlField.ty field) shape.size)
      fields shapes) (offset : Nat) :
    Reads types offset (IdlFields.named out).members (IdlFields.named fields).members
      (paddedStarts offset pads shapes).1 inserted (paddedStarts offset pads shapes).2 := by
  induction h generalizing shapes offset with
  | nil =>
      cases hsizes
      exact .done
  | plain h ih =>
      cases hsizes with
      | cons hsize hrest => exact .original hsize (ih hrest _)
  | padded h ih =>
      cases hsizes with
      | cons hsize hrest =>
          exact .inserted (readSize_paddingField _ _ _) (.original hsize (ih hrest _))

/-- Without paddings every field stays where it is. -/
theorem reads_zeros {types : List IdlTypeDef} {fields : List (Option Name × IdlType)}
    {shapes : List Shape}
    (hsizes : List.Forall₂ (fun ty shape => ReadSize types ty (Shape.size shape))
      (fields.map Prod.snd) shapes) (offset : Nat) :
    Reads types offset fields fields
      (paddedStarts offset ((fields.map Prod.snd).map fun _ => 0) shapes).1 []
      (paddedStarts offset ((fields.map Prod.snd).map fun _ => 0) shapes).2 := by
  induction fields generalizing shapes offset with
  | nil =>
      cases hsizes
      exact .done
  | cons field fields ih =>
      cases hsizes with
      | cons hsize hrest => exact .original hsize (ih hrest _)

/-- Distinct names that are not taken, by their camel case. -/
structure Fresh (taken inserted : List Name) : Prop where
  nodup : (inserted.map camelCase).Nodup
  free : ∀ name ∈ inserted, camelCase name ∉ taken

theorem Fresh.cons {taken inserted : List Name} {name : Name} (hname : camelCase name ∉ taken)
    (h : Fresh (camelCase name :: taken) inserted) : Fresh taken (name :: inserted) := by
  constructor
  · refine List.nodup_cons.mpr ⟨?_, h.nodup⟩
    intro hmem
    obtain ⟨other, hother, heq⟩ := List.mem_map.mp hmem
    exact h.free other hother (heq ▸ List.mem_cons_self)
  · intro other hother
    obtain rfl | hother := List.mem_cons.mp hother
    · exact hname
    · exact fun hmem => h.free other hother (List.mem_cons_of_mem _ hmem)

theorem Fresh.append {taken inserted : List Name} {name : Name} (h : Fresh taken inserted)
    (hname : camelCase name ∉ inserted.map camelCase ++ taken) :
    Fresh taken (inserted ++ [name]) := by
  rw [List.mem_append, not_or] at hname
  constructor
  · rw [List.map_append]
    exact h.nodup.append (List.nodup_singleton _) (List.disjoint_singleton.mpr hname.1)
  · intro other hother
    obtain hother | hother := List.mem_append.mp hother
    · exact h.free other hother
    · obtain rfl := List.mem_singleton.mp hother
      exact hname.2

theorem insertPads_spec {taken : List Name} {fields : List (IdlField IdlType)} {pads : List Nat}
    (hlength : pads.length = fields.length) :
    ∃ out inserted taken', insertPads taken ((fields.map fieldJson).zip pads) =
        some (out.map fieldJson, taken') ∧ Interleaved pads fields out inserted ∧
      Fresh taken inserted ∧ (∀ name ∈ inserted.map camelCase ++ taken, name ∈ taken') := by
  induction fields generalizing taken pads with
  | nil =>
      obtain rfl := List.eq_nil_of_length_eq_zero hlength
      exact ⟨[], [], taken, rfl, .nil, ⟨List.nodup_nil, fun _ h => absurd h List.not_mem_nil⟩,
        fun _ h => h⟩
  | cons field fields ih =>
      obtain _ | ⟨pad, pads⟩ := pads
      · cases hlength
      have hlength' : pads.length = fields.length := Nat.succ.inj hlength
      rw [List.map_cons, List.zip_cons_cons, insertPads]
      by_cases hpad : pad = 0
      · subst hpad
        obtain ⟨out, inserted, taken', hout, hinter, hfresh, htaken⟩ := ih hlength'
        refine ⟨field :: out, inserted, taken', ?_, .plain hinter, hfresh, htaken⟩
        rw [if_pos rfl, hout]
        rfl
      · let name := freeName taken ("padding_before_".toList ++ field.name)
        have hname : camelCase name ∉ taken := freeName_fresh (by decide) _ taken
        obtain ⟨out, inserted, taken', hout, hinter, hfresh, htaken⟩ :=
          @ih (camelCase name :: taken) pads hlength'
        refine ⟨paddingField name pad :: field :: out, name :: inserted, taken', ?_,
          .padded hinter, hfresh.cons hname, ?_⟩
        · have hget : ((fieldJson field).get .name).bind Value.asStr = some field.name := rfl
          rw [if_neg hpad, hget]
          show (insertPads (camelCase name :: taken) _ >>= _) = _
          rw [hout]
          rfl
        · intro other hother
          refine htaken other ?_
          simp only [List.map_cons, List.mem_append, List.mem_cons] at hother ⊢
          tauto

/-! ## Rewritten definitions -/

/-- The names of the fields of a struct, in camel case. -/
def takenNames (fields : IdlFields IdlType) : List Name :=
  (fields.members.filterMap Prod.fst).map camelCase

/-- The definition with the paddings of a layout inserted. -/
inductive Rewritten (layout : Layout) (t : IdlTypeDef) : IdlTypeDef → Prop
  | same {fields : IdlFields IdlType} (hty : t.ty = some (.struct fields))
      (hpads : layout.pads = fields.types.map fun _ => 0) (htail : layout.tail = 0) :
      Rewritten layout t t
  | padded {fields out : List (IdlField IdlType)} {inserted : List Name}
      (hty : t.ty = some (.struct (.named fields)))
      (hinter : Interleaved layout.pads fields out inserted)
      (hfresh : Fresh (takenNames (.named fields)) inserted) (htail : layout.tail = 0) :
      Rewritten layout t { t with ty := some (.struct (.named out)) }
  | tailed {fields out : List (IdlField IdlType)} {inserted : List Name} {name : Name}
      (hty : t.ty = some (.struct (.named fields)))
      (hinter : Interleaved layout.pads fields out inserted)
      (hfresh : Fresh (takenNames (.named fields)) (inserted ++ [name])) :
      Rewritten layout t
        { t with ty := some (.struct (.named (out ++ [paddingField name layout.tail]))) }

theorem forall₂_map_ty {types : List IdlTypeDef} {fields : List (IdlField IdlType)}
    {shapes : List Shape}
    (h : List.Forall₂ (fun ty shape => ReadSize types ty (Shape.size shape))
      (IdlFields.named fields).types shapes) :
    List.Forall₂ (fun field shape => ReadSize types (IdlField.ty field) shape.size) fields shapes :=
  List.forall₂_map_left_iff.mp h

/-- A rewritten struct reads as its reference layout when its fields read as their shapes. -/
theorem Rewritten.reads {types : List IdlTypeDef} {layout : Layout} {t t' : IdlTypeDef}
    (h : Rewritten layout t t') {fields : IdlFields IdlType} (hty : t.ty = some (.struct fields))
    {shapes : List Shape}
    (hsizes : List.Forall₂ (fun ty shape => ReadSize types ty (Shape.size shape)) fields.types
      shapes) {ref : RefLayout}
    (hstarts : paddedStarts 0 layout.pads shapes = (ref.starts, ref.shape.size - layout.tail))
    (hle : layout.tail ≤ ref.shape.size) :
    ∃ out inserted, t'.ty = some (.struct out) ∧ Fresh (takenNames fields) inserted ∧
      Reads types 0 out.members fields.members ref.starts inserted ref.shape.size := by
  cases h with
  | @same fields' hty' hpads htail =>
      rw [hty] at hty'
      cases hty'
      refine ⟨fields, [], hty, ⟨List.nodup_nil, fun _ h => absurd h List.not_mem_nil⟩, ?_⟩
      rw [hpads, ← members_snd, htail, Nat.sub_zero] at hstarts
      have hreads := reads_zeros (members_snd fields ▸ hsizes) 0
      rw [hstarts] at hreads
      exact hreads
  | @padded fields' out inserted hty' hinter hfresh htail =>
      rw [hty] at hty'
      cases hty'
      have hreads := hinter.reads (forall₂_map_ty hsizes) 0
      rw [hstarts, htail] at hreads
      exact ⟨.named out, inserted, rfl, hfresh, hreads⟩
  | @tailed fields' out inserted name hty' hinter hfresh =>
      rw [hty] at hty'
      cases hty'
      refine ⟨_, inserted ++ [name], rfl, hfresh, ?_⟩
      have hreads := (hinter.reads (forall₂_map_ty hsizes) 0).append name
        (readSize_paddingField types name layout.tail)
      rw [hstarts] at hreads
      simp only [Nat.sub_add_cancel hle] at hreads
      rw [IdlFields.members, List.map_append]
      exact hreads

theorem reprLayout_nil {repr : Repr} {layout : Layout} (h : reprLayout [] repr = some layout) :
    layout.pads = [] ∧ layout.tail = 0 := by
  cases repr with
  | rust modifier => cases h
  | transparent => cases h
  | c modifier =>
      obtain ⟨explicit, -, h⟩ := Option.bind_eq_some_iff.mp h
      obtain ⟨size, hsize, h⟩ := Option.bind_eq_some_iff.mp h
      cases h
      rw [checkedNextMultipleOf, Nat.zero_mod, if_pos rfl] at hsize
      split at hsize
      · cases hsize
      · cases hsize
        exact ⟨rfl, rfl⟩

/-- The layout of a struct without named fields has no paddings. -/
theorem evalLayout_unnamed {known : Known} {t : IdlTypeDef} {layout : Layout}
    (h : evalLayout known t = some layout) {fields : IdlFields IdlType}
    (hty : t.ty = some (.struct fields)) (hnamed : ∀ named, fields ≠ .named named) :
    layout.pads = (fields.types.map fun _ => 0) ∧ layout.tail = 0 := by
  obtain ⟨fields', repr, shapes, -, hty', -, hallowed, hshapes, hlayout⟩ := evalLayout_some h
  rw [hty] at hty'
  cases hty'
  cases fields with
  | named fields => exact absurd rfl (hnamed fields)
  | none =>
      cases hshapes
      exact reprLayout_nil hlayout
  | tuple items =>
      cases items with
      | nil =>
          cases hshapes
          exact reprLayout_nil hlayout
      | cons item items =>
          have hrepr : repr = .transparent := by simpa [fieldsAllowed] using hallowed
          subst hrepr
          rw [reprLayout, transparentLayout] at hlayout
          split at hlayout
          · cases hlayout
          · split at hlayout
            · cases hlayout
              have hlength := (Fallible.mapM_eq_some.mp hshapes).length_eq
              refine ⟨?_, rfl⟩
              rw [List.map_const', List.map_const', hlength]
            · cases hlayout

theorem takenNames_values (fields : List (IdlField IdlType)) :
    ((fieldValues (.named fields)).filterMap fun field =>
      ((field.get .name).bind Value.asStr).map camelCase) = takenNames (.named fields) := by
  rw [takenNames, IdlFields.members, fieldValues, List.filterMap_map, List.filterMap_map,
    List.map_filterMap]
  rfl

theorem rewriteType_named {t : IdlTypeDef} {fields : List (IdlField IdlType)}
    (hty : t.ty = some (.struct (.named fields))) (out : List (IdlField IdlType)) :
    rewriteType t.toTypeDef (some (out.map fieldJson)) =
      IdlTypeDef.toTypeDef { t with ty := some (.struct (.named out)) } := by
  have hset : setFields (out.map fieldJson) (toJson (.struct (.named fields))) =
      toJson (.struct (.named out)) := by
    rw [← namedJson_eq]
    rfl
  simp only [rewriteType, IdlTypeDef.toTypeDef, hty, Option.map_some, hset]

/-- A definition whose layout is known is padded by that layout. -/
theorem paddedFields_known (types : List IdlTypeDef) {known : Known} {t : IdlTypeDef}
    {layout : Layout} {fields : IdlFields IdlType} (h : evalLayout known t = some layout)
    (hty : t.ty = some (.struct fields)) :
    (paddedFields (types.map IdlTypeDef.toTypeDef) t.toTypeDef).run known =
      (if layout.tail = 0 ∧ layout.pads.all (· == 0) then ofOption none
      else do
        let taken := (fieldValues fields).filterMap fun field =>
          ((field.get .name).bind Value.asStr).map camelCase
        let (out, taken) ← ofOption (insertPads taken ((fieldValues fields).zip layout.pads))
        if layout.tail = 0 then pure out
        else pure (out ++ [padding (freeName taken "padding_end".toList) layout.tail]) :
        LayoutM (List Value)).run known := by
  rw [paddedFields, structFields_struct hty, ofOption_some_bind, run_bind, structLayout_known h]

/-- What becomes of a definition whose layout is known. -/
theorem paddedFields_struct {types : List IdlTypeDef} {known : Known} {t : IdlTypeDef}
    {layout : Layout} (h : evalLayout known t = some layout) :
    ∃ result t', (paddedFields (types.map IdlTypeDef.toTypeDef) t.toTypeDef).run known =
        (result, known) ∧
      rewriteType t.toTypeDef result = t'.toTypeDef ∧ (result = none → t' = t) ∧
      t'.name = t.name ∧ Rewritten layout t t' := by
  obtain ⟨fields, repr, shapes, -, hty, -, -, hshapes, hlayout⟩ := evalLayout_some h
  have hlength : layout.pads.length = fields.types.length := by
    obtain ⟨ref, -, -, hlength, -⟩ := reprLayout_ref hlayout
    rw [hlength, (Fallible.mapM_eq_some.mp hshapes).length_eq]
  have hrun := paddedFields_known types h hty
  by_cases hnone : layout.tail = 0 ∧ layout.pads.all (· == 0) = true
  · rw [if_pos hnone] at hrun
    have hzeros : layout.pads = fields.types.map fun _ => 0 := by
      rw [List.map_const', ← hlength, List.eq_replicate_iff]
      exact ⟨rfl, by simpa using hnone.2⟩
    exact ⟨none, t, hrun, rfl, fun _ => rfl, rfl, .same hty hzeros hnone.1⟩
  · rw [if_neg hnone] at hrun
    cases fields with
    | none | tuple =>
        exfalso
        obtain ⟨hpads, htail⟩ := evalLayout_unnamed h hty fun _ h => by cases h
        refine hnone ⟨htail, ?_⟩
        rw [hpads]
        simp
    | named fields =>
        obtain ⟨out, inserted, taken', hout, hinter, hfresh, htaken⟩ :=
          @insertPads_spec (takenNames (.named fields)) fields layout.pads
            (by rw [hlength, IdlFields.types, List.length_map])
        simp only [takenNames_values] at hrun
        simp only [fieldValues, hout, ofOption_some_bind] at hrun
        by_cases htail : layout.tail = 0
        · rw [if_pos htail] at hrun
          exact ⟨some (out.map fieldJson), _, hrun, rewriteType_named hty out, (fun h => by cases h), rfl,
            .padded hty hinter hfresh htail⟩
        · rw [if_neg htail] at hrun
          let name := freeName taken' "padding_end".toList
          have hname : camelCase name ∉ taken' := freeName_fresh (by decide) _ taken'
          refine ⟨some ((out ++ [paddingField name layout.tail]).map fieldJson), _, ?_,
            rewriteType_named hty _, (fun h => by cases h), rfl,
            .tailed hty hinter (hfresh.append fun hmem => hname (htaken _ hmem))⟩
          rw [hrun, List.map_append]
          rfl

/-- An alias stays as it is. -/
theorem paddedFields_aliasOf {types : List IdlTypeDef} {t : IdlTypeDef} {form : AliasForm}
    {target : IdlType} (hty : t.ty = some (.aliasOf form target)) (known : Known) :
    (paddedFields (types.map IdlTypeDef.toTypeDef) t.toTypeDef).run known = (none, known) := by
  have hlayout : ∃ result,
      (structLayout (types.map IdlTypeDef.toTypeDef) t.toTypeDef).run known = (result, known) ∧
      ∀ layout, result = some layout → layout.pads = [] ∧ layout.tail = 0 := by
    rw [structLayout, structLayoutWith, structFields_aliasOf hty]
    cases t.toTypeDef.isGeneric with
    | true => exact ⟨none, rfl, fun _ h => by cases h⟩
    | false =>
        cases hrepr : t.toTypeDef.repr with
        | none => exact ⟨none, rfl, fun _ h => by cases h⟩
        | some repr =>
            cases repr with
            | rust modifier => exact ⟨none, rfl, fun _ h => by cases h⟩
            | c modifier => exact ⟨reprLayout [] (.c modifier), rfl, fun _ => reprLayout_nil⟩
            | transparent => exact ⟨reprLayout [] .transparent, rfl, fun _ => reprLayout_nil⟩
  obtain ⟨result, hrun, hnone⟩ := hlayout
  rw [paddedFields, structFields_aliasOf hty, ofOption_some_bind, run_bind, hrun]
  cases result with
  | none => rfl
  | some layout =>
      obtain ⟨hpads, htail⟩ := hnone layout rfl
      simp only [hpads, htail, List.all_nil, and_self, if_true, run_ofOption]

end Shipstern.Anchor
