import Shipstern.Codegen.ProstWire
import Shipstern.Codegen.VersionedCodecs

/-!
# Round trips of the generated codecs

A program that has not changed is a version of itself. What arrives is then what was sent, which is
the whole value but for negative zeros in singular floats.
-/

namespace Shipstern.Codegen

open Codama CanonicalCode TaggedFields Prost

variable {prost : Prost}

/-! ## The unchanged version -/

theorem FieldsChange.tags_refl (fields : List FieldIr) :
    (FieldsChange.refl fields).tags = fields.map (·.tag) := by
  induction fields with
  | nil => rfl
  | cons f fields ih => exact congrArg (f.tag :: ·) ih

theorem FieldsChange.not_drops_refl (fields : List FieldIr) : ¬ (FieldsChange.refl fields).Drops := by
  induction fields with
  | nil => exact id
  | cons f fields ih => exact ih

theorem VariantsChange.map_refl {α β : Type} (g : α → β) (variants : List α) :
    (VariantsChange.refl variants).map g = .refl (variants.map g) := by
  induction variants with
  | nil => rfl
  | cons a variants ih => exact congrArg (VariantsChange.kept (g a)) ih

section Sent

theorem arriveField_sent (message : Name → Message prost.Ctx) (structName : Name) (f : FieldIr) :
    arriveField prost (fun msg => (message msg).sent) structName f =
      (emitProstFieldCodegen prost message structName f).sent := by
  obtain ⟨name, tag, label, fieldType⟩ := f
  cases fieldType with
  | scalar s => rfl
  | message msg => cases label <;> rfl

theorem arriveFields_refl (message : Name → Message prost.Ctx) (structName : Name)
    (fields : List FieldIr) :
    arriveFields prost (fun msg => (message msg).sent) structName (.refl fields) =
      ProstField.sentAll (fields.map (emitProstFieldCodegen prost message structName)) := by
  induction fields with
  | nil => rfl
  | cons f fields ih =>
      funext ⟨v, vs⟩
      exact congrArg₂ Prod.mk (congrFun (arriveField_sent message structName f) v) (congrFun ih vs)

theorem arriveChoice_refl {α : Type} {tag : α → Nat} {message : α → Message prost.Ctx}
    {below : ∀ a, (message a).Value → (message a).Value} (h : ∀ a, below a = (message a).sent)
    (variants : List α) :
    (arriveChoice prost below (.refl variants) :
      OneofValue (variants.map fun a => (tag a, message a)) → _) =
      choiceSent prost (variants.map fun a => (tag a, message a)) := by
  funext choice
  induction variants with
  | nil => exact choice.elim
  | cons a variants ih =>
      cases choice with
      | inl v => exact congrArg Sum.inl (congrFun (h a) v)
      | inr later => exact congrArg Sum.inr (ih later)

variable (message : RustPath → Message prost.Ctx)

theorem arriveIn_refl (scope : Scope) :
    arriveIn prost (fun path => (message path).sent) scope scope =
      fun msg => (message (scope.resolveMsg msg)).sent :=
  funext fun msg => arriveAt_self (scope.resolveMsg msg)

theorem DeclChange.arrive_refl (d : MessageDecl) :
    (DeclChange.refl d).arrive prost (fun path => (message path).sent) =
      (d.message prost message).sent := by
  cases d with
  | struct scope t =>
      show arriveFields prost (arriveIn prost _ scope scope) t.name (.refl t.fields) = _
      rw [arriveIn_refl]
      exact arriveFields_refl (fun msg => message (scope.resolveMsg msg)) t.name t.fields
  | enum first rest =>
      let number (v : OneofVariantIr) := (v.tag, v.messageType)
      have hchoice : arriveUnion prost (fun path => (message path).sent)
          ((VariantsChange.refl (first :: rest)).map number) = choiceSent prost _ := by
        rw [VariantsChange.map_refl]
        exact arriveChoice_refl (fun _ => rfl) _
      exact hchoice

theorem WrapperChange.arrive_refl (d : WrapperDecl) :
    (WrapperChange.refl d).arrive prost (fun path => (message path).sent) =
      (d.message prost message).sent := by
  cases d with
  | dispatch scope name variants =>
      refine arriveChoice_refl (fun v => ?_) _
      rw [arrivePayload, arriveIn_refl]
      exact arriveFields_refl (fun msg => message (scope.resolveMsg msg)) v.messageType
        (payloadFields v.messageType)
  | account names => exact arriveChoice_refl (fun _ => rfl) _

end Sent

/-! ## Round trips -/

section Crates

variable (crate : Crate)

theorem CrateChange.arrive_refl (levels : Nat) :
    CrateChange.arrive prost (fun path => DeclChange.refl (crate path)) levels =
      fun path => (crate.message prost levels path).sent := by
  induction levels with
  | zero => rfl
  | succ levels ih =>
      funext path
      show (DeclChange.refl (crate path)).arrive prost _ = _
      rw [ih]
      exact DeclChange.arrive_refl (crate.message prost levels) (crate path)

theorem DeclChange.keepsTags_refl {d : MessageDecl} (h : WellTagged d.tags) :
    (DeclChange.refl d).KeepsTags := by
  cases d with
  | struct scope t =>
      show WellTagged (FieldsChange.refl t.fields).tags
      rwa [FieldsChange.tags_refl]
  | enum first rest => exact h

theorem DeclChange.keepsPaths_refl (d : MessageDecl) : (DeclChange.refl d).KeepsPaths := by
  cases d with
  | struct scope t => exact fun _ _ _ _ _ => rfl
  | enum first rest => trivial

theorem DeclChange.not_drops_refl (d : MessageDecl) : ¬ (DeclChange.refl d).Drops := by
  cases d with
  | struct scope t => exact FieldsChange.not_drops_refl t.fields
  | enum first rest => exact id

theorem compatible_refl {crate : Crate} (h : crate.TagsDiffer) :
    CrateChange.Compatible fun path => DeclChange.refl (crate path) :=
  ⟨fun path => DeclChange.keepsTags_refl (h path),
    fun path => DeclChange.keepsPaths_refl (crate path)⟩

end Crates

/-! ### Values that arrive whole -/

/-- A singular float drops negative zeros, any other field keeps every value. -/
def FieldIr.KeepsZeros (f : FieldIr) : Prop :=
  f.label = .singular → f.fieldType ≠ .scalar .float ∧ f.fieldType ≠ .scalar .double

def MessageDecl.KeepsZeros : MessageDecl → Prop
  | .struct _ t => ∀ f ∈ t.fields, f.KeepsZeros
  | .enum _ _ => True

def Crate.KeepsZeros (crate : Crate) : Prop := ∀ path, (crate path).KeepsZeros

theorem WireScalar.eq_default_of_not_written {w : WireScalar} (hfloat : w ≠ .float)
    (hdouble : w ≠ .double) {v : w.Value} (h : w.isWritten v = false) : v = w.default := by
  cases w with
  | float => exact absurd rfl hfloat
  | double => exact absurd rfl hdouble
  | bool | uint32 | uint64 | int32 | int64 => simpa [isWritten, default] using h
  | string => exact String.isEmpty_iff.mp (by simpa [isWritten] using h)
  | bytes => exact List.isEmpty_iff.mp (by simpa [isWritten] using h)

theorem plainField_sent {structName field : Name} {tag : Nat} {w : WireScalar}
    {isLengthDelimited : Bool} {label : LabelIr}
    (h : label = .singular → w ≠ .float ∧ w ≠ .double)
    (v : (plainField prost structName field tag w isLengthDelimited label).Value) :
    (plainField prost structName field tag w isLengthDelimited label).sent v = v := by
  cases label with
  | singular =>
      obtain ⟨hfloat, hdouble⟩ := h rfl
      show (if w.isWritten v then v else w.default) = v
      by_cases hwritten : w.isWritten v = true
      · exact if_pos hwritten
      · have hfalse := Bool.eq_false_iff.mpr hwritten
        exact (if_neg hwritten).trans (WireScalar.eq_default_of_not_written hfloat hdouble hfalse).symm
  | optional | repeated | fixedArray => rfl

theorem scalarField_sent {structName field : Name} {tag : Nat} {scalar : ScalarIr} {label : LabelIr}
    (h : label = .singular → scalar ≠ .float ∧ scalar ≠ .double)
    (v : (scalarField prost structName field tag scalar label).Value) :
    (scalarField prost structName field tag scalar label).sent v = v := by
  cases scalar with
  | publicKey | u8 | u16 | shortU16 | i8 | i16 | u128 | i128 => cases label <;> rfl
  | float => exact plainField_sent (fun hlabel => absurd rfl (h hlabel).1) v
  | double => exact plainField_sent (fun hlabel => absurd rfl (h hlabel).2) v
  | bool | uint32 | uint64 | int32 | int64 | string | sizePrefixedString | bytes | sizePrefixedBytes
  | fixedBytes =>
      exact plainField_sent (fun _ => ⟨by decide, by decide⟩) v

section Whole

theorem emitProstFieldCodegen_sent {message : Name → Message prost.Ctx} {structName : Name}
    {f : FieldIr} (hf : f.KeepsZeros) (h : ∀ msg v, (message msg).sent v = v)
    (v : (emitProstFieldCodegen prost message structName f).Value) :
    (emitProstFieldCodegen prost message structName f).sent v = v := by
  obtain ⟨name, tag, label, fieldType⟩ := f
  cases fieldType with
  | scalar s =>
      refine scalarField_sent (fun hlabel => ?_) v
      obtain ⟨hfloat, hdouble⟩ := hf hlabel
      exact ⟨fun heq => hfloat (congrArg FieldTypeIr.scalar heq),
        fun heq => hdouble (congrArg FieldTypeIr.scalar heq)⟩
  | message msg =>
      have hid : (message msg).sent = id := funext (h msg)
      cases label with
      | singular => exact h msg v
      | optional => exact (congrFun (congrArg Option.map hid) v).trans (congrFun Option.map_id v)
      | repeated | fixedArray => exact (congrFun (congrArg List.map hid) v).trans (List.map_id _)

theorem sentAll_eq {message : Name → Message prost.Ctx} {structName : Name} {fields : List FieldIr}
    (hfields : ∀ f ∈ fields, f.KeepsZeros) (h : ∀ msg v, (message msg).sent v = v)
    (vs : ProstField.Values (fields.map (emitProstFieldCodegen prost message structName))) :
    ProstField.sentAll _ vs = vs := by
  induction fields with
  | nil => rfl
  | cons f fields ih =>
      rw [List.forall_mem_cons] at hfields
      obtain ⟨v, vs⟩ := vs
      exact congrArg₂ Prod.mk (emitProstFieldCodegen_sent hfields.1 h v) (ih hfields.2 vs)

theorem choiceSent_eq {variants : Variants prost.Ctx}
    (h : ∀ variant ∈ variants, ∀ v, variant.2.sent v = v) (v : OneofValue variants) :
    choiceSent prost variants v = v := by
  induction variants with
  | nil => exact v.elim
  | cons variant variants ih =>
      rw [List.forall_mem_cons] at h
      cases v with
      | inl v => exact congrArg Sum.inl (h.1 v)
      | inr later => exact congrArg Sum.inr (ih h.2 later)

theorem unionVariants_sent {message : RustPath → Message prost.Ctx}
    (h : ∀ path v, (message path).sent v = v) (variants : List (Nat × Name)) :
    ∀ variant ∈ unionVariants prost message variants, ∀ v, variant.2.sent v = v := by
  intro variant hvariant
  obtain ⟨pair, -, rfl⟩ := List.mem_map.mp hvariant
  exact h (.topLevel pair.2)

theorem MessageDecl.sent_eq {message : RustPath → Message prost.Ctx} {d : MessageDecl}
    (hd : d.KeepsZeros) (h : ∀ path v, (message path).sent v = v)
    (v : (d.message prost message).Value) : (d.message prost message).sent v = v := by
  cases d with
  | struct scope t => exact sentAll_eq hd (fun msg => h (scope.resolveMsg msg)) v
  | enum first rest => exact choiceSent_eq (unionVariants_sent h _) v

theorem Crate.sent_eq {crate : Crate} (hcrate : crate.KeepsZeros) (levels : Nat) (path : RustPath)
    (v : (crate.message prost levels path).Value) :
    (crate.message prost levels path).sent v = v := by
  induction levels generalizing path with
  | zero => rfl
  | succ levels ih => exact MessageDecl.sent_eq (hcrate path) ih v

theorem payloadFields_keepsZeros (name : Name) : ∀ f ∈ payloadFields name, f.KeepsZeros := by
  simp [payloadFields, FieldIr.KeepsZeros]

theorem WrapperDecl.sent_eq {message : RustPath → Message prost.Ctx} (d : WrapperDecl)
    (h : ∀ path v, (message path).sent v = v) (v : (d.message prost message).Value) :
    (d.message prost message).sent v = v := by
  cases d with
  | dispatch scope name variants =>
      refine choiceSent_eq (fun variant hvariant => ?_) v
      obtain ⟨variant, -, rfl⟩ := List.mem_map.mp hvariant
      exact sentAll_eq (payloadFields_keepsZeros _) fun msg => h (scope.resolveMsg msg)
  | account names => exact choiceSent_eq (unionVariants_sent h _) v

end Whole

/-! ### The round trip -/

/-- Reading what carries a value gives what arrives of it. -/
theorem mergeAll_carried (laws : prost.Lawful) {w r : MessageImpl prost.Ctx}
    {arrive : w.Value → r.Value} {start : r.Value} {v : w.Value}
    (h : w.Carries r arrive prost.defaultCtx start v) :
    prost.mergeAll r.mergeField start (w.encodeRaw v) = .ok (arrive v) := by
  obtain ⟨fields, hraw, hvalid, habsorbs⟩ := h
  rw [hraw]
  exact laws.mergeAll_eq habsorbs hvalid

/-- What a value is written as has the length that it says, and is read back over a start that is
fresh for it. A message that keeps `whole` sends the value as it is. -/
def MessageImpl.ReadsBack (m : MessageImpl prost.Ctx) (fresh : m.Value → m.Value → Prop)
    (whole : Prop) : Prop :=
  ∀ v, m.encodedLen v = (m.encodeRaw v).length ∧
    (∀ start, fresh start (m.sent v) → prost.Allows (m.depth v) prost.defaultCtx →
      Fits (m.encodeRaw v) → prost.mergeAll m.mergeField start (m.encodeRaw v) = .ok (m.sent v)) ∧
    (whole → m.sent v = v)

section RoundTrip

variable (laws : prost.Lawful) {crate : Crate} (htags : crate.TagsDiffer) (levels : Nat)

include laws htags

theorem Crate.message_faithful (path : RustPath) :
    (crate.message prost levels path).Faithful 0 (crate.message prost levels path)
      (crate.message prost levels path).sent := by
  induction levels using Nat.strong_induction_on generalizing path with
  | h levels ih =>
      have h := CrateChange.faithful laws (compatible_refl htags)
        (fun path hdrops => (DeclChange.not_drops_refl (crate path) hdrops).elim) levels ih path
      rwa [CrateChange.arrive_refl] at h

theorem WrapperDecl.faithful {d : WrapperDecl} (hd : WellTagged d.tags) :
    let m := d.message prost (crate.message prost levels)
    (∀ v, m.encodedLen v = (m.encodeRaw v).length) ∧
      ∀ ctx start v, prost.Allows (m.depth v + 0) ctx → Fits (m.encodeRaw v) →
        d.FreshFor prost (crate.message prost levels) start (m.sent v) →
          m.Carries m m.sent ctx start v := by
  have hkeeps : (WrapperChange.refl d).KeepsTags ∧ (WrapperChange.refl d).KeepsPaths := by
    cases d with
    | dispatch scope name variants => exact ⟨hd, fun _ _ _ _ _ _ => rfl⟩
    | account names => exact ⟨hd, trivial⟩
  have hself := Crate.message_faithful laws htags levels
  have h := (WrapperChange.refl d).faithful laws hself hself hkeeps.1 hkeeps.2
  rwa [WrapperChange.arrive_refl] at h

theorem Crate.message_readsBack (path : RustPath) :
    let m := crate.message prost levels path
    m.ReadsBack (fun start _ => start = m.default) crate.KeepsZeros := by
  have hfaithful := Crate.message_faithful laws htags levels path
  intro m v
  refine ⟨hfaithful.encodedLen_eq v, fun start hstart hallows hfits => ?_,
    fun hzeros => Crate.sent_eq hzeros levels path v⟩
  rw [hstart]
  exact mergeAll_carried laws (hfaithful.carries prost.defaultCtx v hallows hfits)

theorem WrapperDecl.message_readsBack {d : WrapperDecl} (hd : WellTagged d.tags) :
    (d.message prost (crate.message prost levels)).ReadsBack
      (d.FreshFor prost (crate.message prost levels)) crate.KeepsZeros := by
  obtain ⟨hlen, hcarries⟩ := WrapperDecl.faithful laws htags levels hd
  intro v
  refine ⟨hlen v, fun start hfresh hallows hfits => ?_,
    fun hzeros => d.sent_eq (fun path => Crate.sent_eq hzeros levels path) v⟩
  exact mergeAll_carried laws (hcarries prost.defaultCtx start v hallows hfits hfresh)

/-- What a generated message is written as has the length that it says, and is read back. -/
theorem Crate.roundTrip :
    (∀ path, let m := crate.message prost levels path
      m.ReadsBack (fun start _ => start = m.default) crate.KeepsZeros) ∧
    ∀ d : WrapperDecl, WellTagged d.tags →
      (d.message prost (crate.message prost levels)).ReadsBack
        (d.FreshFor prost (crate.message prost levels)) crate.KeepsZeros :=
  ⟨Crate.message_readsBack laws htags levels, fun _ => WrapperDecl.message_readsBack laws htags levels⟩

end RoundTrip

/-- A list of amounts: an integer and the rest of the list. -/
def amounts : Crate := fun _ =>
  .struct .outside ⟨"Amounts".toList,
    [⟨"amount".toList, 1, .singular, .scalar .uint64⟩,
      ⟨"rest".toList, 2, .optional .native, .message "Amounts".toList⟩], .definedType⟩

/-- Two amounts. -/
def twoAmounts : (amounts.message prostWire 2 (.topLevel "Amounts".toList)).Value :=
  ((7 : BitVec 64), some ((0 : BitVec 64), none, ()), ())

theorem amounts_tagsDiffer : amounts.TagsDiffer :=
  fun _ => show WellTagged [1, 2] by decide

theorem encodeRaw_twoAmounts :
    (amounts.message prostWire 2 (.topLevel "Amounts".toList)).encodeRaw twoAmounts = [8, 7, 18, 0] := by
  decide +kernel

theorem roundTrip_twoAmounts :
    let m := amounts.message prostWire 2 (.topLevel "Amounts".toList)
    prostWire.mergeAll m.mergeField m.default (m.encodeRaw twoAmounts) = .ok twoAmounts := by
  obtain ⟨-, hreads, hwhole⟩ := (Crate.roundTrip ProstWire.prostWire_lawful amounts_tagsDiffer 2).1
    (.topLevel "Amounts".toList) twoAmounts
  have hsent : (amounts.message prostWire 2 (.topLevel "Amounts".toList)).sent twoAmounts =
      twoAmounts := rfl
  have hfits : Prost.Fits
      ((amounts.message prostWire 2 (.topLevel "Amounts".toList)).encodeRaw twoAmounts) := by
    rw [encodeRaw_twoAmounts]
    exact (by decide : 4 < 2 ^ 64)
  rw [hsent] at hreads
  exact hreads _ rfl ⟨(99 : Nat), rfl, trivial⟩ hfits

/-! ## Versions -/

/-- The writer keeps its own tags apart. -/
theorem DeclChange.KeepsTags.writer {d d' : MessageDecl} {change : DeclChange d d'}
    (h : change.KeepsTags) : WellTagged d.tags := by
  cases change with
  | struct scope scope' name kind kind' fields => exact h.sublist fields.writers_sublist
  | enum variants => exact h.sublist (variants.writers_sublist.map OneofVariantIr.tag)
  | added => exact show WellTagged [] by decide
  | dropped => exact h

/-- The reader merges what a value is written as into a start that is fresh for what arrives. -/
def MessageImpl.ArrivesAt (w r : MessageImpl prost.Ctx) (fresh : r.Value → r.Value → Prop)
    (arrive : w.Value → r.Value) : Prop :=
  ∀ start v, fresh start (arrive v) → prost.Allows (w.depth v + 1) prost.defaultCtx →
    Fits (w.encodeRaw v) → prost.mergeAll r.mergeField start (w.encodeRaw v) = .ok (arrive v)

/-- A reader of one version takes in what a writer of another has sent, if no tag and no path has
changed its meaning: the fields that it knows arrive, the others are skipped, and what is missing
is the default. -/
theorem CrateChange.merge_arrives (laws : prost.Lawful) {old new : Crate}
    {change : CrateChange old new} (h : change.Compatible) (levels : Nat) :
    let arrive := change.arrive prost levels
    (∀ path, let r := new.message prost levels path
      (old.message prost levels path).ArrivesAt r.toMessageImpl (fun start _ => start = r.default)
        (arrive path)) ∧
    ∀ {d d' : WrapperDecl} (wrapper : WrapperChange d d'), wrapper.KeepsTags → wrapper.KeepsPaths →
      (d.message prost (old.message prost levels)).ArrivesAt
        (d'.message prost (new.message prost levels)) (d'.FreshFor prost (new.message prost levels))
        (wrapper.arrive prost arrive) := by
  have hwriter : old.TagsDiffer := fun path => (h.tags path).writer
  have hself (levels : Nat) (path : RustPath) : (old.message prost levels path).Faithful 1 _ _ :=
    (Crate.message_faithful laws hwriter levels path).mono (Nat.zero_le 1)
  have hfaithful := CrateChange.faithful laws h (fun _ _ => Nat.le_refl 1) levels
    fun below _ => hself below
  refine ⟨fun path start v hstart hallows hfits => ?_,
    fun wrapper htags hpaths start v hfresh hallows hfits => ?_⟩
  · rw [hstart]
    exact mergeAll_carried laws ((hfaithful path).carries prost.defaultCtx v hallows hfits)
  · have hwrapper := wrapper.faithful laws (hself levels) hfaithful htags hpaths
    exact mergeAll_carried laws (hwrapper.2 prost.defaultCtx start v hallows hfits hfresh)

end Shipstern.Codegen
