import Shipstern.Codegen.ProstWire
import Shipstern.Codegen.VersionedCodecs

/-!
# The levels of the generated decoders

A message of a crate is cut off below a number of levels. The decoders go down to the recursion
limit only, so those with more levels than that all decode alike: one with a level more has the
default where the other one has nothing.
-/

namespace Shipstern.Codegen

open Codama Prost

variable {prost : Prost}

/-! ## A level more -/

section Deepen

variable (prost) {shallow deep : Name → Message prost.Ctx}
  (below : ∀ msg, (shallow msg).Value → (deep msg).Value) (structName : Name)

def deepenField : (f : FieldIr) → (emitProstFieldCodegen prost shallow structName f).Value →
    (emitProstFieldCodegen prost deep structName f).Value
  | ⟨name, tag, label, .message msg⟩ => arriveMessage prost structName name tag (below msg) label
  | ⟨_, _, _, .scalar _⟩ => id

def deepenFields : (fields : List FieldIr) →
    ProstField.Values (fields.map (emitProstFieldCodegen prost shallow structName)) →
      ProstField.Values (fields.map (emitProstFieldCodegen prost deep structName))
  | [], () => ()
  | f :: fields, (v, vs) => (deepenField prost below structName f v, deepenFields fields vs)

end Deepen

section Deepen

variable (prost) {shallow deep : RustPath → Message prost.Ctx}
  (below : ∀ path, (shallow path).Value → (deep path).Value)

def MessageDecl.deepen : (d : MessageDecl) →
    (d.message prost shallow).Value → (d.message prost deep).Value
  | .struct scope t => deepenFields prost (fun msg => below (scope.resolveMsg msg)) t.name t.fields
  | .enum first rest =>
      arriveUnion prost below (.refl ((first :: rest).map fun v => (v.tag, v.messageType)))

def WrapperDecl.deepen : (d : WrapperDecl) →
    (d.message prost shallow).Value → (d.message prost deep).Value
  | .dispatch scope _ variants =>
      arriveChoice prost (fun v => deepenFields prost (fun msg => below (scope.resolveMsg msg))
        v.messageType (payloadFields v.messageType)) (.refl variants)
  | .account names => arriveUnion prost below (.refl (numbered names))

/-- The value with the default of what was cut off. -/
def Crate.deepen (crate : Crate) : (levels : Nat) → (path : RustPath) →
    (crate.message prost levels path).Value → (crate.message prost (levels + 1) path).Value
  | 0, path => fun _ => (crate.message prost 1 path).default
  | levels + 1, path => (crate path).deepen prost (deepen crate levels)

/-- The value with some levels more. -/
def Crate.deepenBy (crate : Crate) (levels : Nat) (path : RustPath) : (more : Nat) →
    (crate.message prost levels path).Value → (crate.message prost (levels + more) path).Value
  | 0 => id
  | more + 1 => crate.deepen prost (levels + more) path ∘ deepenBy crate levels path more

def WrapperDecl.deepenBy (d : WrapperDecl) (crate : Crate) (levels : Nat) : (more : Nat) →
    (d.message prost (crate.message prost levels)).Value →
      (d.message prost (crate.message prost (levels + more))).Value
  | 0 => id
  | more + 1 => d.deepen prost (crate.deepen prost (levels + more)) ∘ deepenBy d crate levels more

end Deepen

/-! ## Defaults -/

section Defaults

theorem deepenField_default {shallow deep : Name → Message prost.Ctx}
    {below : ∀ msg, (shallow msg).Value → (deep msg).Value}
    (h : ∀ msg, below msg (shallow msg).default = (deep msg).default) (structName : Name)
    (f : FieldIr) : deepenField prost below structName f
      (emitProstFieldCodegen prost shallow structName f).default =
        (emitProstFieldCodegen prost deep structName f).default := by
  obtain ⟨name, tag, label, fieldType⟩ := f
  cases fieldType with
  | scalar s => rfl
  | message msg =>
      cases label with
      | singular => exact h msg
      | optional | repeated | fixedArray => rfl

theorem deepenFields_default {shallow deep : Name → Message prost.Ctx}
    {below : ∀ msg, (shallow msg).Value → (deep msg).Value}
    (h : ∀ msg, below msg (shallow msg).default = (deep msg).default) (structName : Name)
    (fields : List FieldIr) : deepenFields prost below structName fields
      (ProstField.defaults (fields.map (emitProstFieldCodegen prost shallow structName))) =
        ProstField.defaults (fields.map (emitProstFieldCodegen prost deep structName)) := by
  induction fields with
  | nil => rfl
  | cons f fields ih => exact congrArg₂ Prod.mk (deepenField_default h structName f) ih

theorem MessageDecl.deepen_default {shallow deep : RustPath → Message prost.Ctx}
    {below : ∀ path, (shallow path).Value → (deep path).Value}
    (h : ∀ path, below path (shallow path).default = (deep path).default) (d : MessageDecl) :
    d.deepen prost below (d.message prost shallow).default = (d.message prost deep).default := by
  cases d with
  | struct scope t =>
      exact deepenFields_default (fun msg => h (scope.resolveMsg msg)) t.name t.fields
  | enum first rest => exact congrArg Sum.inl (h (.topLevel first.messageType))

theorem Crate.deepen_default (crate : Crate) (levels : Nat) (path : RustPath) :
    crate.deepen prost levels path (crate.message prost levels path).default =
      (crate.message prost (levels + 1) path).default := by
  induction levels generalizing path with
  | zero => rfl
  | succ levels ih => exact (crate path).deepen_default ih

end Defaults

/-! ## Decoders -/

theorem mapErr_map {α β : Type} (x : Decode α) (g : α → β) (f : DecodeError → DecodeError) :
    Decode.mapErr (g <$> x) f = g <$> Decode.mapErr x f := by
  funext input
  show Decode.mapErr (fun input => x input >>= fun p => pure (g p.1, p.2)) f input =
    (x.mapErr f input >>= fun p => pure (g p.1, p.2))
  simp only [Decode.mapErr]
  cases x input with
  | ok result => rfl
  | error failure => cases failure <;> rfl

section Arms

variable {name : Name} {tag : Nat} {m : Message prost.Ctx} {variants : Variants prost.Ctx}
  {ctx : prost.Ctx} {key : FieldKey}

theorem oneofArms_own (h : key.tag = tag) (field : Option (OneofValue ((tag, m) :: variants))) :
    prost.oneofArms name ((tag, m) :: variants) ctx key field =
      Sum.inl <$> prost.messageMerge m.mergeField ctx key.wireType
        ((field.bind Sum.getLeft?).getD m.default) :=
  if_pos h

theorem oneofArms_later (h : key.tag ≠ tag) (field : Option (OneofValue ((tag, m) :: variants))) :
    prost.oneofArms name ((tag, m) :: variants) ctx key field =
      Sum.inr <$> prost.oneofArms name variants ctx key (field.bind Sum.getRight?) :=
  if_neg h

/-- A union that was merged is there. -/
theorem merged_eq {V : Type} (arms : Decode V) (v : V) :
    ((some <$> arms) >>= fun
      | some merged => pure merged
      | none => pure v) = arms := by
  rw [bind_map_left]
  exact bind_pure arms

end Arms

theorem map_square {α β γ δ : Type} {f : α → β} {g : β → δ} {f' : α → γ} {g' : γ → δ}
    (h : ∀ a, g (f a) = g' (f' a)) (x : Decode α) : g <$> f <$> x = g' <$> f' <$> x := by
  rw [Functor.map_map, Functor.map_map]
  exact congrArg (· <$> x) (funext h)

/-- The deeper message merges what stands for a value as the other one merges the value. -/
def Deepens (ctx : prost.Ctx) (shallow deep : MessageImpl prost.Ctx)
    (below : shallow.Value → deep.Value) : Prop :=
  ∀ key v, deep.mergeField ctx key (below v) = below <$> shallow.mergeField ctx key v

/-- Messages that do so in fields of a message, one level further down. -/
structure DeepensBelow (ctx : prost.Ctx) (shallow deep : Message prost.Ctx)
    (below : shallow.Value → deep.Value) : Prop where
  default : below shallow.default = deep.default
  inner : ∀ inner, prost.enterRecursion ctx = some inner →
    Deepens inner shallow.toMessageImpl deep.toMessageImpl below

section Merges

variable (laws : prost.Lawful) (uniform : prost.Uniform) {ctx : prost.Ctx}

include laws uniform

theorem messageField_deepens {shallow deep : Message prost.Ctx} {below : shallow.Value → deep.Value}
    (h : DeepensBelow ctx shallow deep below) (structName field : Name) (tag : Nat)
    (label : LabelIr) (wireType : WireType)
    (v : (messageField prost structName field tag shallow label).Value) :
    (messageField prost structName field tag deep label).merge ctx wireType
      (arriveMessage prost structName field tag below label v) =
        arriveMessage prost structName field tag below label <$>
          (messageField prost structName field tag shallow label).merge ctx wireType v := by
  have hmerge (v : shallow.Value) := uniform.messageMerge h.inner wireType v
  have hsingular (v : shallow.Value) :
      (prost.messageMerge deep.mergeField ctx wireType (below v)).mapErr (·.push structName field) =
        below <$> (prost.messageMerge shallow.mergeField ctx wireType v).mapErr
          (·.push structName field) := by
    rw [hmerge, mapErr_map]
  cases label with
  | singular => exact hsingular v
  | optional =>
      have hstart (v : Option shallow.Value) :
          (v.map below).getD deep.default = below (v.getD shallow.default) := by
        cases v with
        | none => exact h.default.symm
        | some v => rfl
      show some <$> (prost.messageMerge deep.mergeField ctx wireType
        ((Option.map below v).getD deep.default)).mapErr _ = Option.map below <$> some <$> _
      rw [hstart v]
      refine (congrArg (some <$> ·) (hsingular _)).trans ?_
      exact map_square (fun _ => by rfl) _
  | repeated | fixedArray =>
      have hrepeated (vs : List shallow.Value) :
          (prost.messageMergeRepeated deep.default deep.mergeField ctx wireType
            (vs.map below)).mapErr (·.push structName field) =
          List.map below <$> (prost.messageMergeRepeated shallow.default shallow.mergeField ctx
            wireType vs).mapErr (·.push structName field) := by
        rw [laws.messageMergeRepeated_eq, laws.messageMergeRepeated_eq, ← h.default, hmerge,
          mapErr_map, mapErr_map, mapErr_map]
        exact map_square (fun v => by rw [List.map_append, List.map_singleton]) _
      exact hrepeated v

section Structs

variable {shallow deep : Name → Message prost.Ctx}
  {below : ∀ msg, (shallow msg).Value → (deep msg).Value}
  (h : ∀ msg, DeepensBelow ctx (shallow msg) (deep msg) (below msg)) (structName : Name)

include h

theorem emitProstFieldCodegen_deepens (f : FieldIr) (wireType : WireType)
    (v : (emitProstFieldCodegen prost shallow structName f).Value) :
    (emitProstFieldCodegen prost deep structName f).merge ctx wireType
      (deepenField prost below structName f v) =
        deepenField prost below structName f <$>
          (emitProstFieldCodegen prost shallow structName f).merge ctx wireType v := by
  obtain ⟨name, tag, label, fieldType⟩ := f
  cases fieldType with
  | scalar s => exact (id_map _).symm
  | message msg =>
      exact messageField_deepens laws uniform (h msg) structName name tag label wireType v

theorem structMessage_deepens (fields : List FieldIr) :
    let fieldsOf (message : Name → Message prost.Ctx) :=
      fields.map (emitProstFieldCodegen prost message structName)
    Deepens ctx (structMessage prost (fieldsOf shallow)).toMessageImpl
      (structMessage prost (fieldsOf deep)).toMessageImpl
      (deepenFields prost below structName fields) := by
  intro fieldsOf key vs
  let deepen := deepenFields prost below structName fields
  show ProstField.mergeArms prost.skipField _ ctx key (deepen vs) =
    deepen <$> ProstField.mergeArms prost.skipField _ ctx key vs
  induction fields with
  | nil => exact (id_map (prost.skipField ctx key)).symm
  | cons f fields ih =>
      obtain ⟨v, vs⟩ := vs
      have hf := emitProstFieldCodegen_deepens laws uniform h structName f key.wireType v
      show ProstField.mergeArms prost.skipField (_ :: _) ctx key (_, _) =
        _ <$> ProstField.mergeArms prost.skipField (_ :: _) ctx key (v, vs)
      rw [ProstField.mergeArms, ProstField.mergeArms, emitProstFieldCodegen_tag,
        emitProstFieldCodegen_tag]
      split
      · rw [hf]
        exact map_square (fun _ => by rfl) _
      · rw [ih vs]
        exact map_square (fun _ => by rfl) _

end Structs

omit laws

section Unions

variable {α : Type} {tag : α → Nat} {shallow deep : α → Message prost.Ctx}
  {below : ∀ a, (shallow a).Value → (deep a).Value}
  (h : ∀ a, DeepensBelow ctx (shallow a) (deep a) (below a))

include h

theorem oneofArms_deepens (name : Name) (variants : List α) (key : FieldKey)
    (field : Option (OneofValue (variants.map fun a => (tag a, shallow a)))) :
    prost.oneofArms name (variants.map fun a => (tag a, deep a)) ctx key
      (field.map (arriveChoice prost below (.refl variants))) =
        arriveChoice prost below (.refl variants) <$> prost.oneofArms name _ ctx key field := by
  induction variants with
  | nil => rfl
  | cons a variants ih =>
      let deepen : OneofValue ((a :: variants).map fun a => (tag a, shallow a)) →
          OneofValue ((a :: variants).map fun a => (tag a, deep a)) :=
        arriveChoice prost below (.refl (a :: variants))
      by_cases hkey : key.tag = tag a
      · have hstart : ((field.map deepen).bind Sum.getLeft?).getD (deep a).default =
            below a ((field.bind Sum.getLeft?).getD (shallow a).default) := by
          rcases field with _ | v | later
          · exact (h a).default.symm
          · rfl
          · exact (h a).default.symm
        refine (oneofArms_own hkey _).trans (Eq.trans ?_ (congrArg _ (oneofArms_own hkey _).symm))
        refine (congrArg
          (Sum.inl <$> prost.messageMerge (deep a).mergeField ctx _ ·) hstart).trans ?_
        rw [uniform.messageMerge (h a).inner]
        exact map_square (fun _ => by rfl) _
      · have hrest : (field.map deepen).bind Sum.getRight? =
            (field.bind Sum.getRight?).map (arriveChoice prost below (.refl variants)) := by
          rcases field with _ | v | later <;> rfl
        refine (oneofArms_later hkey _).trans
          (Eq.trans ?_ (congrArg _ (oneofArms_later hkey _).symm))
        refine (congrArg (Sum.inr <$> prost.oneofArms name _ ctx key ·) hrest).trans ?_
        rw [ih]
        exact map_square (fun _ => by rfl) _

theorem union_deepens {name : Name} (variants : List α)
    {oneof : OneofImpl (OneofValue (variants.map fun a => (tag a, shallow a))) prost.Ctx}
    {oneof' : OneofImpl (OneofValue (variants.map fun a => (tag a, deep a))) prost.Ctx}
    (hmerge : oneof.merge = prost.oneofMerge name _)
    (hmerge' : oneof'.merge = prost.oneofMerge name _) :
    Deepens ctx (manualProstMessageImpl prost oneof (choiceDepth prost _) (choiceSent prost _))
      (manualProstMessageImpl prost oneof' (choiceDepth prost _) (choiceSent prost _))
      (arriveChoice prost below (.refl variants)) := by
  intro key v
  have harms := oneofArms_deepens uniform h name variants key (some v)
  show (oneof'.merge ctx key (some _) >>= _) = _ <$> (oneof.merge ctx key (some v) >>= _)
  rw [hmerge, hmerge']
  exact (merged_eq _ _).trans (harms.trans (congrArg _ (merged_eq _ v).symm))

end Unions

include laws

section Declarations

variable {shallow deep : RustPath → Message prost.Ctx}
  {below : ∀ path, (shallow path).Value → (deep path).Value}
  (h : ∀ path, DeepensBelow ctx (shallow path) (deep path) (below path))

include h

theorem MessageDecl.deepens (d : MessageDecl) :
    Deepens ctx (d.message prost shallow).toMessageImpl (d.message prost deep).toMessageImpl
      (d.deepen prost below) := by
  cases d with
  | struct scope t =>
      exact structMessage_deepens laws uniform (fun msg => h (scope.resolveMsg msg)) t.name t.fields
  | enum first rest =>
      exact union_deepens uniform (fun v : Nat × Name => h (.topLevel v.2)) _
        (congrArg OneofImpl.merge (laws.derivedOneof_eq _ _))
        (congrArg OneofImpl.merge (laws.derivedOneof_eq _ _))

theorem WrapperDecl.deepens
    (hinner : ∀ inner, prost.enterRecursion ctx = some inner →
      ∀ path, DeepensBelow inner (shallow path) (deep path) (below path)) (d : WrapperDecl) :
    Deepens ctx (d.message prost shallow) (d.message prost deep) (d.deepen prost below) := by
  cases d with
  | dispatch scope name variants =>
      refine union_deepens uniform (fun v => ⟨?_, fun inner henter => ?_⟩) variants rfl rfl
      · exact deepenFields_default (fun msg => (h (scope.resolveMsg msg)).default) _ _
      · exact structMessage_deepens laws uniform
          (fun msg => hinner inner henter (scope.resolveMsg msg)) _ _
  | account names =>
      exact union_deepens uniform (fun v : Nat × Name => h (.topLevel v.2)) _
        (congrArg OneofImpl.merge (laws.derivedOneof_eq _ _))
        (congrArg OneofImpl.merge (laws.derivedOneof_eq _ _))

end Declarations

/-! ## Crates -/

variable {crate : Crate} {levels : Nat}

/-- By induction on the levels: none of them is left when the last one is merged. -/
theorem Crate.deepens (hlimit : ¬ prost.Allows levels ctx) (path : RustPath) :
    Deepens ctx (crate.message prost levels path).toMessageImpl
      (crate.message prost (levels + 1) path).toMessageImpl (crate.deepen prost levels path) := by
  induction levels generalizing ctx path with
  | zero => exact absurd trivial hlimit
  | succ levels ih =>
      refine MessageDecl.deepens laws uniform
        (fun path => ⟨?_, fun inner henter => ?_⟩) (crate path)
      · exact crate.deepen_default levels path
      · exact ih (fun hallows => hlimit ⟨inner, henter, hallows⟩) path

omit laws uniform in
theorem not_allows_inner {inner : prost.Ctx} (hlimit : ¬ prost.Allows levels ctx)
    (henter : prost.enterRecursion ctx = some inner) : ¬ prost.Allows levels inner := by
  intro hallows
  have hmore : prost.Allows (levels + 1) ctx := ⟨inner, henter, hallows⟩
  exact hlimit (hmore.mono (Nat.le_succ levels))

theorem Crate.deepensBelow (hlimit : ¬ prost.Allows levels ctx) (path : RustPath) :
    DeepensBelow ctx (crate.message prost levels path) (crate.message prost (levels + 1) path)
      (crate.deepen prost levels path) :=
  ⟨crate.deepen_default levels path, fun _ henter =>
    Crate.deepens laws uniform (not_allows_inner hlimit henter) path⟩

end Merges

section Limit

variable (laws : prost.Lawful) (uniform : prost.Uniform) (guard : prost.PanicFree) {crate : Crate}
  {levels : Nat} (hlevels : 101 ≤ levels)

include guard hlevels in
theorem not_allows_of_le : ¬ prost.Allows levels prost.defaultCtx :=
  fun hallows => guard.limit (hallows.mono hlevels)

include laws uniform guard hlevels

/-- From 101 levels on, the decoders of a crate come to the same end on any bytes: the same
failure, or the same value but for the defaults of what the smaller one cuts off. -/
theorem Crate.decoders_agree (more : Nat) :
    (∀ path start bytes, prost.mergeAll (crate.message prost (levels + more) path).mergeField
      (crate.deepenBy prost levels path more start) bytes =
        crate.deepenBy prost levels path more <$>
          prost.mergeAll (crate.message prost levels path).mergeField start bytes) ∧
    ∀ (d : WrapperDecl) start bytes,
      prost.mergeAll (d.message prost (crate.message prost (levels + more))).mergeField
        (d.deepenBy prost crate levels more start) bytes =
          d.deepenBy prost crate levels more <$> prost.mergeAll
            (d.message prost (crate.message prost levels)).mergeField start bytes := by
  induction more with
  | zero => exact ⟨fun _ _ _ => (id_map _).symm, fun _ _ _ => (id_map _).symm⟩
  | succ more ih =>
      have hlimit : ¬ prost.Allows (levels + more) prost.defaultCtx :=
        not_allows_of_le guard (Nat.le_trans hlevels (Nat.le_add_right levels more))
      refine ⟨fun path start bytes => ?_, fun d start bytes => ?_⟩
      · refine (uniform.mergeAll (Crate.deepens laws uniform hlimit path) _ bytes).trans ?_
        rw [ih.1, Functor.map_map]
        rfl
      · have hbelow {ctx} (hctx : ¬ prost.Allows (levels + more) ctx) (path : RustPath) :
            DeepensBelow ctx (crate.message prost (levels + more) path) _ _ :=
          Crate.deepensBelow laws uniform hctx path
        have hwrapper := d.deepens laws uniform (hbelow hlimit)
          fun inner henter => hbelow (not_allows_inner hlimit henter)
        refine (uniform.mergeAll hwrapper _ bytes).trans ?_
        rw [ih.2, Functor.map_map]
        rfl

end Limit

end Shipstern.Codegen
