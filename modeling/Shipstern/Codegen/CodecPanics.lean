import Shipstern.Codegen.CodecRoundTrip

/-!
# Panics of the generated decoders

A union takes a tag that it does not know for unreachable. A struct skips such a tag, so all of the
panics of a decoder come from unions: those in its fields, as deep as the recursion limit lets a
message nest. `Exposed` says that there is such a union, and exactly then some bytes make the
decoder panic.
-/

namespace Shipstern.Codegen

open Codama CanonicalCode TaggedFields Prost

variable {prost : Prost}

/-! ## Unions within reach -/

/-- A tag that no variant has, or a variant that goes on to one. -/
def UnionExposed (prost : Prost) (ctx : prost.Ctx) {α : Type} (tag : α → Nat)
    (below : prost.Ctx → α → Prop) (variants : List α) : Prop :=
  (∃ t, ValidTag t ∧ t ∉ variants.map tag) ∨
    ∃ v ∈ variants, ∃ inner, prost.enterRecursion ctx = some inner ∧ below inner v

/-- A field whose message goes on to a union. -/
def StructExposed (prost : Prost) (ctx : prost.Ctx) (below : prost.Ctx → Name → Prop)
    (fields : List FieldIr) : Prop :=
  ∃ f ∈ fields, ∃ msg inner, f.fieldType = .message msg ∧
    prost.enterRecursion ctx = some inner ∧ below inner msg

def MessageDecl.Exposed (prost : Prost) (below : prost.Ctx → RustPath → Prop) (ctx : prost.Ctx) :
    MessageDecl → Prop
  | .struct scope t =>
      StructExposed prost ctx (fun inner msg => below inner (scope.resolveMsg msg)) t.fields
  | .enum first rest =>
      UnionExposed prost ctx Prod.fst (fun inner v => below inner (.topLevel v.2))
        ((first :: rest).map fun v => (v.tag, v.messageType))

def WrapperDecl.Exposed (prost : Prost) (below : prost.Ctx → RustPath → Prop) (ctx : prost.Ctx) :
    WrapperDecl → Prop
  | .dispatch scope _ variants =>
      UnionExposed prost ctx OneofVariantIr.tag
        (fun inner v => StructExposed prost inner
          (fun inner msg => below inner (scope.resolveMsg msg)) (payloadFields v.messageType))
        variants
  | .account names =>
      UnionExposed prost ctx Prod.fst (fun inner v => below inner (.topLevel v.2)) (numbered names)

/-- A message whose bytes may come to a union with a tag that this does not know. -/
def Crate.Exposed (crate : Crate) (prost : Prost) : Nat → prost.Ctx → RustPath → Prop
  | 0, _, _ => False
  | levels + 1, ctx, path => (crate path).Exposed prost (crate.Exposed prost levels) ctx

/-! ## What does not panic -/

theorem failsOnly_mapErr {α : Type} {x : Decode α} (f : DecodeError → DecodeError)
    (h : FailsOnly DecodeFailure.IsError x) : FailsOnly DecodeFailure.IsError (x.mapErr f) := by
  intro input failure hrun
  cases hx : x input with
  | ok p =>
      rw [Decode.mapErr, hx] at hrun
      cases hrun
  | error inner =>
      obtain ⟨e, rfl⟩ := h input inner hx
      rw [Decode.mapErr, hx] at hrun
      cases hrun
      exact ⟨f e, rfl⟩

/-- A message that does not panic one level further down. -/
def SafeBelow (ctx : prost.Ctx) (m : MessageImpl prost.Ctx) : Prop :=
  ∀ inner, prost.enterRecursion ctx = some inner → ∀ key, ValidTag key.tag →
    ∀ v, FailsOnly DecodeFailure.IsError (m.mergeField inner key v)

def ProstField.Safe (f : ProstField prost.Ctx) (ctx : prost.Ctx) : Prop :=
  ∀ wireType v, FailsOnly DecodeFailure.IsError (f.merge ctx wireType v)

theorem select_safe {ctx : prost.Ctx} {a b c : ProstField prost.Ctx} (ha : a.Safe ctx)
    (hb : b.Safe ctx) (hc : c.Safe ctx) (label : LabelIr) : (LabelIr.select a b c label).Safe ctx := by
  cases label <;> assumption

section Safe

variable (laws : prost.Lawful) (guard : prost.PanicFree) (ctx : prost.Ctx)

include laws guard

theorem wrapperMergeField_failsOnly (key : FieldKey) (value : List UInt8) :
    FailsOnly DecodeFailure.IsError (prost.wrapperMergeField ctx key value) := by
  rw [laws.wrapperMergeField_eq]
  split
  · exact failsOnly_mapErr _ (guard.merge .bytes ctx _ _)
  · exact (guard.skipField ctx key).map _

theorem pubkeyConversion_failsOnly (structName field : Name) (wireType : WireType) :
    FailsOnly DecodeFailure.IsError ((pubkeyConversion prost structName field).merge ctx wireType) := by
  refine .bind (failsOnly_mapErr _ (guard.messageMerge (fun inner _ key _ v =>
    wrapperMergeField_failsOnly laws guard inner key v) wireType [])) fun value _ _ _ => ?_
  cases Core.Pubkey.tryFrom value with
  | some key => exact .pure key
  | none => exact .throw ⟨_, rfl⟩

omit laws in
theorem bytesConversion_failsOnly (structName field : Name) (nativeType : List Char)
    (wireType : WireType) : FailsOnly DecodeFailure.IsError
      ((bytesConversion prost structName field nativeType).merge ctx wireType) := by
  refine .bind (failsOnly_mapErr _ (guard.merge .bytes ctx wireType _)) fun bytes _ _ _ => ?_
  split
  · exact .pure _
  · exact .throw ⟨_, rfl⟩

omit laws guard in
theorem convertedField_safe {tag : Nat} {conversion : Converted prost.Ctx}
    (h : ∀ wireType, FailsOnly DecodeFailure.IsError (conversion.merge ctx wireType))
    (default : conversion.Native) (written : conversion.Native → Bool) (label : LabelIr) :
    (convertedField prost tag conversion default written label).Safe ctx :=
  select_safe (fun wireType _ => h wireType) (fun wireType _ => (h wireType).map _)
    (fun wireType _ => (h wireType).map _) label

omit laws in
theorem widenedField_safe (structName field : Name) (tag : Nat) {width : Nat}
    (widening : Widening width) (label : LabelIr) :
    (widenedField prost structName field tag widening label).Safe ctx :=
  select_safe (fun wireType _ => (failsOnly_mapErr _ (guard.merge _ ctx wireType _)).map _)
    (fun wireType _ => (failsOnly_mapErr _ (guard.merge _ ctx wireType _)).map _)
    (fun wireType _ => (failsOnly_mapErr _ (guard.mergeRepeated _ ctx wireType _)).map _) label

omit laws in
theorem plainField_safe (structName field : Name) (tag : Nat) (w : WireScalar)
    (isLengthDelimited : Bool) (label : LabelIr) :
    (plainField prost structName field tag w isLengthDelimited label).Safe ctx :=
  select_safe (fun wireType _ => failsOnly_mapErr _ (guard.merge w ctx wireType _))
    (fun wireType _ => (failsOnly_mapErr _ (guard.merge w ctx wireType _)).map _)
    (fun wireType _ => failsOnly_mapErr _ (guard.mergeRepeated w ctx wireType _)) label

theorem scalarField_safe (structName field : Name) (tag : Nat) (scalar : ScalarIr)
    (label : LabelIr) : (scalarField prost structName field tag scalar label).Safe ctx := by
  cases scalar with
  | publicKey =>
      exact convertedField_safe ctx (pubkeyConversion_failsOnly laws guard ctx structName field) _ _
        label
  | u8 | u16 | shortU16 | i8 | i16 => exact widenedField_safe guard ctx structName field tag _ label
  | u128 | i128 =>
      exact convertedField_safe ctx (bytesConversion_failsOnly guard ctx structName field _) _ _ label
  | bool | uint32 | uint64 | int32 | int64 | float | double | string | sizePrefixedString | bytes
  | sizePrefixedBytes | fixedBytes => exact plainField_safe guard ctx structName field tag _ _ label

theorem messageField_safe {m : Message prost.Ctx} (h : SafeBelow ctx m.toMessageImpl)
    (structName field : Name) (tag : Nat) (label : LabelIr) :
    (messageField prost structName field tag m label).Safe ctx := by
  have hrepeated (wireType : WireType) (vs : List m.Value) : FailsOnly DecodeFailure.IsError
      (prost.messageMergeRepeated m.default m.mergeField ctx wireType vs) := by
    rw [laws.messageMergeRepeated_eq]
    exact (guard.messageMerge h wireType _).map _
  exact select_safe (fun wireType v => failsOnly_mapErr _ (guard.messageMerge h wireType v))
    (fun wireType v => (failsOnly_mapErr _ (guard.messageMerge h wireType _)).map _)
    (fun wireType vs => failsOnly_mapErr _ (hrepeated wireType vs)) label

theorem emitProstFieldCodegen_safe {message : Name → Message prost.Ctx} (structName : Name)
    {f : FieldIr} (h : ∀ msg, f.fieldType = .message msg → SafeBelow ctx (message msg).toMessageImpl) :
    (emitProstFieldCodegen prost message structName f).Safe ctx := by
  obtain ⟨name, tag, label, fieldType⟩ := f
  cases fieldType with
  | scalar s => exact scalarField_safe laws guard ctx structName name tag s label
  | message msg => exact messageField_safe laws guard ctx (h msg rfl) structName name tag label

omit laws in
theorem mergeArms_failsOnly {fields : List (ProstField prost.Ctx)} (h : ∀ f ∈ fields, f.Safe ctx)
    (key : FieldKey) (vs : ProstField.Values fields) : FailsOnly DecodeFailure.IsError
      (ProstField.mergeArms prost.skipField fields ctx key vs) := by
  induction fields with
  | nil => exact guard.skipField ctx key
  | cons f fields ih =>
      rw [List.forall_mem_cons] at h
      obtain ⟨v, vs⟩ := vs
      rw [ProstField.mergeArms]
      split
      · exact (h.1 key.wireType v).map _
      · exact (ih h.2 vs).map _

/-- A struct none of whose messages goes on to a union. -/
theorem structMessage_failsOnly {below : prost.Ctx → Name → Prop}
    {message : Name → Message prost.Ctx} (structName : Name) {fields : List FieldIr}
    (hbelow : ∀ inner msg, ¬ below inner msg → ∀ key, ValidTag key.tag → ∀ v,
      FailsOnly DecodeFailure.IsError ((message msg).mergeField inner key v))
    (h : ¬ StructExposed prost ctx below fields) (key : FieldKey)
    (vs : ProstField.Values (fields.map (emitProstFieldCodegen prost message structName))) :
    FailsOnly DecodeFailure.IsError (ProstField.mergeArms prost.skipField _ ctx key vs) := by
  refine mergeArms_failsOnly guard ctx (fun codec hcodec => ?_) key vs
  obtain ⟨f, hf, rfl⟩ := List.mem_map.mp hcodec
  refine emitProstFieldCodegen_safe laws guard ctx structName fun msg hmsg inner henter => ?_
  exact hbelow inner msg fun hexposed => h ⟨f, hf, msg, inner, hmsg, henter, hexposed⟩

omit laws in
theorem oneofArms_failsOnly (name : Name) {variants : Variants prost.Ctx}
    (h : ∀ variant ∈ variants, SafeBelow ctx variant.2.toMessageImpl) {key : FieldKey}
    (hkey : key.tag ∈ variants.map (·.1)) (field : Option (OneofValue variants)) :
    FailsOnly DecodeFailure.IsError (prost.oneofArms name variants ctx key field) := by
  induction variants with
  | nil => cases hkey
  | cons variant variants ih =>
      obtain ⟨tag, m⟩ := variant
      rw [List.forall_mem_cons] at h
      rw [Prost.oneofArms]
      split
      · exact (guard.messageMerge h.1 _ _).map _
      · have hlater := (List.mem_cons.mp hkey).resolve_left ‹_›
        exact (ih h.2 hlater _).map _

omit laws in
/-- A union that has each tag, and no message that goes on to another. -/
theorem union_failsOnly {name : Name} {α : Type} {tag : α → Nat} {message : α → Message prost.Ctx}
    {below : prost.Ctx → α → Prop} {variants : List α}
    {oneof : OneofImpl (OneofValue (variants.map fun a => (tag a, message a))) prost.Ctx}
    (hmerge : oneof.merge = prost.oneofMerge name _)
    (hbelow : ∀ inner a, ¬ below inner a → ∀ key, ValidTag key.tag → ∀ v,
      FailsOnly DecodeFailure.IsError ((message a).mergeField inner key v))
    (h : ¬ UnionExposed prost ctx tag below variants) {key : FieldKey} (hkey : ValidTag key.tag)
    (v : OneofValue (variants.map fun a => (tag a, message a))) :
    FailsOnly DecodeFailure.IsError ((manualProstMessageImpl prost oneof (choiceDepth prost _)
      (choiceSent prost _)).mergeField ctx key v) := by
  rw [UnionExposed, not_or] at h
  have htag : key.tag ∈ variants.map tag := by
    by_contra hmissing
    exact h.1 ⟨key.tag, hkey, hmissing⟩
  have hsafe : ∀ variant ∈ variants.map fun a => (tag a, message a),
      SafeBelow ctx variant.2.toMessageImpl := by
    intro variant hvariant
    obtain ⟨a, ha, rfl⟩ := List.mem_map.mp hvariant
    intro inner henter
    exact hbelow inner a fun hexposed => h.2 ⟨a, ha, inner, henter, hexposed⟩
  have harms := oneofArms_failsOnly guard ctx name hsafe
    (by rwa [List.map_map]) (some v)
  show FailsOnly _ (oneof.merge ctx key (some v) >>= _)
  rw [hmerge]
  refine .bind (harms.map some) fun merged _ _ _ => ?_
  cases merged with
  | some merged => exact .pure merged
  | none => exact .pure v

end Safe

section Declarations

variable (laws : prost.Lawful) (guard : prost.PanicFree) {message : RustPath → Message prost.Ctx}
  {below : prost.Ctx → RustPath → Prop}
  (hbelow : ∀ inner path, ¬ below inner path → ∀ key, ValidTag key.tag → ∀ v,
    FailsOnly DecodeFailure.IsError ((message path).mergeField inner key v))
  {ctx : prost.Ctx} {key : FieldKey} (hkey : ValidTag key.tag)

include laws guard hbelow hkey

theorem MessageDecl.failsOnly {d : MessageDecl} (h : ¬ d.Exposed prost below ctx)
    (v : (d.message prost message).Value) :
    FailsOnly DecodeFailure.IsError ((d.message prost message).mergeField ctx key v) := by
  cases d with
  | struct scope t =>
      exact structMessage_failsOnly laws guard ctx t.name
        (fun inner msg => hbelow inner (scope.resolveMsg msg)) h key v
  | enum first rest =>
      exact union_failsOnly guard ctx (congrArg OneofImpl.merge (laws.derivedOneof_eq _ _))
        (fun inner (v : Nat × Name) => hbelow inner (.topLevel v.2)) h hkey v

theorem WrapperDecl.failsOnly {d : WrapperDecl} (h : ¬ d.Exposed prost below ctx)
    (v : (d.message prost message).Value) :
    FailsOnly DecodeFailure.IsError ((d.message prost message).mergeField ctx key v) := by
  cases d with
  | dispatch scope name variants =>
      refine union_failsOnly guard ctx rfl (fun inner v hpayload key hkey vs => ?_) h hkey v
      exact structMessage_failsOnly laws guard inner v.messageType
        (fun inner msg => hbelow inner (scope.resolveMsg msg)) hpayload key vs
  | account names =>
      exact union_failsOnly guard ctx (congrArg OneofImpl.merge (laws.derivedOneof_eq _ _))
        (fun inner (v : Nat × Name) => hbelow inner (.topLevel v.2)) h hkey v

end Declarations

theorem Crate.failsOnly (laws : prost.Lawful) (guard : prost.PanicFree) {crate : Crate}
    {levels : Nat} {ctx : prost.Ctx} {path : RustPath} (h : ¬ crate.Exposed prost levels ctx path)
    (key : FieldKey) (hkey : ValidTag key.tag) (v : (crate.message prost levels path).Value) :
    FailsOnly DecodeFailure.IsError ((crate.message prost levels path).mergeField ctx key v) := by
  induction levels generalizing ctx path key with
  | zero => exact guard.skipField ctx key
  | succ levels ih =>
      have hbelow : ∀ inner path, ¬ crate.Exposed prost levels inner path → ∀ key, ValidTag key.tag →
          ∀ v, FailsOnly DecodeFailure.IsError
            ((crate.message prost levels path).mergeField inner key v) :=
        fun _ _ hinner key hkey v => ih hinner key hkey v
      exact MessageDecl.failsOnly laws guard hbelow hkey h v

/-! ## What panics -/

theorem map_panic {α β : Type} {x : Decode α} {input : List UInt8} {failure : DecodeFailure}
    (g : α → β) (h : x input = .error failure) : (g <$> x) input = .error failure := by
  rw [← bind_pure_comp]
  exact bind_of_error h

theorem mapErr_panic {α : Type} {x : Decode α} {input : List UInt8} {message : List Char}
    (f : DecodeError → DecodeError) (h : x input = .error (.panic message)) :
    (x.mapErr f) input = .error (.panic message) := by
  rw [Decode.mapErr, h]

/-- One field of at most the given size, key included, makes the message panic. -/
def MessageImpl.Panics (m : MessageImpl prost.Ctx) (ctx : prost.Ctx) (size : Nat) : Prop :=
  ∃ key body message, ValidTag key.tag ∧ (prost.encodeKey key ++ body).length ≤ size ∧
    ∀ v rest, m.mergeField ctx key v (body ++ rest) = .error (.panic message)

section Panics

variable (laws : prost.Lawful) (guard : prost.PanicFree) {ctx inner : prost.Ctx}

/-- An unknown tag in a union. -/
theorem oneofArms_unknown {name : Name} {variants : Variants prost.Ctx} {key : FieldKey}
    (h : key.tag ∉ variants.map (·.1)) (field : Option (OneofValue variants)) (input : List UInt8) :
    prost.oneofArms name variants ctx key field input = .error (unreachableTag name key.tag) := by
  induction variants with
  | nil => rfl
  | cons variant variants ih =>
      obtain ⟨tag, m⟩ := variant
      rw [List.map_cons, List.mem_cons, not_or] at h
      rw [Prost.oneofArms, if_neg h.1]
      exact map_panic _ (ih h.2 _)

/-- The body of a message that panics. -/
def PanicBody (ctx : prost.Ctx) {V : Type} (mergeField : prost.Ctx → FieldKey → V → Decode V)
    (body : List UInt8) (message : List Char) : Prop :=
  ∀ v rest, prost.messageMerge mergeField ctx .lengthDelimited v (body ++ rest) =
    .error (.panic message)

include guard in
/-- A message that panics in its first field does so inside of another one. -/
theorem MessageImpl.Panics.body {m : MessageImpl prost.Ctx} {size : Nat} (h : m.Panics inner size)
    (henter : prost.enterRecursion ctx = some inner) (hsize : size < 2 ^ 64) {tag : Nat}
    (htag : ValidTag tag) : ∃ body message,
      (prost.encodeKey ⟨tag, .lengthDelimited⟩ ++ body).length ≤ size + 15 ∧
        PanicBody ctx m.mergeField body message := by
  obtain ⟨key, body, message, hkey, hlength, hpanic⟩ := h
  refine ⟨messageBody prost (prost.encodeKey key ++ body), message, ?_, fun v rest => ?_⟩
  · have hkeyLength := guard.length_encodeKey_le ⟨tag, .lengthDelimited⟩ htag
    have hvarint := guard.length_encodeVarint_le (Nat.lt_of_le_of_lt hlength hsize)
    rw [List.length_append, messageBody, List.length_append]
    omega
  · exact guard.messageMerge_panics henter hkey (Nat.lt_of_le_of_lt hlength hsize) (hpanic v rest)

theorem oneofArms_panics {name : Name} {variants : Variants prost.Ctx} {tag : Nat}
    {m : Message prost.Ctx} {body : List UInt8} {message : List Char}
    (hmem : (tag, m) ∈ variants) (htags : (variants.map (·.1)).Nodup)
    (h : PanicBody ctx m.mergeField body message) (field : Option (OneofValue variants))
    (rest : List UInt8) :
    prost.oneofArms name variants ctx ⟨tag, .lengthDelimited⟩ field (body ++ rest) =
      .error (.panic message) := by
  induction variants with
  | nil => cases hmem
  | cons variant variants ih =>
      obtain ⟨first, head⟩ := variant
      rw [List.map_cons, List.nodup_cons] at htags
      rcases List.mem_cons.mp hmem with heq | hmem
      · cases heq
        rw [Prost.oneofArms, if_pos rfl]
        exact map_panic _ (h _ rest)
      · have hne : tag ≠ first := fun heq => htags.1 (List.mem_map.mpr ⟨_, hmem, heq⟩)
        rw [Prost.oneofArms, if_neg hne]
        exact map_panic _ (ih hmem htags.2 _)

theorem mergeArms_panics {fields : List (ProstField prost.Ctx)} {f : ProstField prost.Ctx}
    (hmem : f ∈ fields) (htags : (fields.map (·.tag)).Nodup) {wireType : WireType}
    {body : List UInt8} {message : List Char}
    (h : ∀ v rest, f.merge ctx wireType v (body ++ rest) = .error (.panic message))
    (vs : ProstField.Values fields) (rest : List UInt8) :
    ProstField.mergeArms prost.skipField fields ctx ⟨f.tag, wireType⟩ vs (body ++ rest) =
      .error (.panic message) := by
  induction fields with
  | nil => cases hmem
  | cons first fields ih =>
      obtain ⟨v, vs⟩ := vs
      rw [List.map_cons, List.nodup_cons] at htags
      rcases List.mem_cons.mp hmem with rfl | hmem
      · rw [ProstField.mergeArms, if_pos rfl]
        exact map_panic _ (h v rest)
      · have hne : f.tag ≠ first.tag := fun heq => htags.1 (heq ▸ List.mem_map_of_mem hmem)
        rw [ProstField.mergeArms, if_neg hne]
        exact map_panic _ (ih hmem htags.2 vs)

include laws in
theorem messageField_panics {m : Message prost.Ctx} {body : List UInt8} {message : List Char}
    (h : PanicBody ctx m.mergeField body message) (structName field : Name) (tag : Nat)
    (label : LabelIr) (v : (messageField prost structName field tag m label).Value)
    (rest : List UInt8) :
    (messageField prost structName field tag m label).merge ctx .lengthDelimited v (body ++ rest) =
      .error (.panic message) := by
  have hrepeated (vs : List m.Value) : prost.messageMergeRepeated m.default m.mergeField ctx
      .lengthDelimited vs (body ++ rest) = .error (.panic message) := by
    rw [laws.messageMergeRepeated_eq]
    exact map_panic _ (h _ rest)
  cases label with
  | singular => exact mapErr_panic _ (h v rest)
  | optional => exact map_panic _ (mapErr_panic _ (h _ rest))
  | repeated | fixedArray => exact mapErr_panic _ (hrepeated v)

end Panics

section Exposed

variable (laws : prost.Lawful) (guard : prost.PanicFree)

include laws guard

/-- The field that leads on to a union. -/
theorem structMessage_panics {ctx : prost.Ctx} {message : Name → Message prost.Ctx}
    {below : prost.Ctx → Name → Prop} {size : Nat} (hsize : size < 2 ^ 64)
    (hbelow : ∀ inner msg, prost.enterRecursion ctx = some inner → below inner msg →
      (message msg).Panics inner size)
    (structName : Name) {fields : List FieldIr} (htags : WellTagged (fields.map (·.tag)))
    (h : StructExposed prost ctx below fields) :
    (structMessage prost (fields.map (emitProstFieldCodegen prost message structName))).Panics ctx
      (size + 15) := by
  obtain ⟨f, hf, msg, inner, hmsg, henter, hexposed⟩ := h
  have hvalid : ValidTag f.tag := htags.2 f.tag (List.mem_map_of_mem hf)
  obtain ⟨body, text, hlength, hpanic⟩ :=
    (hbelow inner msg henter hexposed).body guard henter hsize hvalid
  refine ⟨⟨f.tag, .lengthDelimited⟩, body, text, hvalid, hlength, fun vs rest => ?_⟩
  have hnodup : ((fields.map (emitProstFieldCodegen prost message structName)).map (·.tag)).Nodup := by
    rw [List.map_map]
    exact (List.map_congr_left fun f _ => emitProstFieldCodegen_tag message structName f) ▸ htags.1
  have hmerge : ∀ v rest, (emitProstFieldCodegen prost message structName f).merge ctx
      .lengthDelimited v (body ++ rest) = .error (.panic text) := by
    obtain ⟨name, tag, label, fieldType⟩ := f
    cases hmsg
    exact messageField_panics laws hpanic structName name tag label
  have harm := mergeArms_panics (List.mem_map_of_mem hf) hnodup hmerge vs rest
  rwa [emitProstFieldCodegen_tag] at harm

omit laws in
/-- The variant that leads on to a union, or the tag that there is none for. -/
theorem union_panics {ctx : prost.Ctx} {name : Name} {α : Type} {tag : α → Nat}
    {message : α → Message prost.Ctx} {below : prost.Ctx → α → Prop} {variants : List α}
    {oneof : OneofImpl (OneofValue (variants.map fun a => (tag a, message a))) prost.Ctx}
    (hmerge : oneof.merge = prost.oneofMerge name _) {size : Nat} (hsize : size < 2 ^ 64)
    (hbelow : ∀ inner, ∀ a ∈ variants, prost.enterRecursion ctx = some inner → below inner a →
      (message a).Panics inner size)
    (htags : WellTagged (variants.map tag)) (h : UnionExposed prost ctx tag below variants) :
    (manualProstMessageImpl prost oneof (choiceDepth prost _) (choiceSent prost _)).Panics ctx
      (size + 15) := by
  have hnodup : ((variants.map fun a => (tag a, message a)).map (·.1)).Nodup := by
    rw [List.map_map]
    exact htags.1
  have hmergeField {key : FieldKey} {v} {input : List UInt8} {text : List Char}
      (harms : prost.oneofArms name _ ctx key (some v) input = .error (.panic text)) :
      (manualProstMessageImpl prost oneof (choiceDepth prost _) (choiceSent prost _)).mergeField ctx
        key v input = .error (.panic text) := by
    refine bind_of_error ?_
    rw [hmerge]
    exact map_panic _ harms
  rcases h with ⟨t, ht, hunknown⟩ | ⟨a, ha, inner, henter, hexposed⟩
  · have hmissing : t ∉ (variants.map fun a => (tag a, message a)).map (·.1) := by
      rwa [List.map_map]
    refine ⟨⟨t, .varint⟩, [], _, ht, ?_, fun v rest => hmergeField (oneofArms_unknown hmissing _ _)⟩
    have hkey := guard.length_encodeKey_le ⟨t, .varint⟩ ht
    rw [List.append_nil]
    omega
  · have hvalid : ValidTag (tag a) := htags.2 _ (List.mem_map_of_mem ha)
    obtain ⟨body, text, hlength, hpanic⟩ :=
      (hbelow inner a ha henter hexposed).body guard henter hsize hvalid
    exact ⟨⟨tag a, .lengthDelimited⟩, body, text, hvalid, hlength, fun v rest =>
      hmergeField (oneofArms_panics (List.mem_map.mpr ⟨a, ha, rfl⟩) hnodup hpanic _ rest)⟩

/-- With the levels that are left, a union within reach makes for a short panic. -/
theorem Crate.panics {crate : Crate} (htags : crate.TagsDiffer) {levels : Nat} {ctx : prost.Ctx}
    {path : RustPath} {room : Nat} (hroom : ¬ prost.Allows (room + 1) ctx) (hle : room ≤ 100)
    (h : crate.Exposed prost levels ctx path) :
    (crate.message prost levels path).Panics ctx (15 * room + 15) := by
  induction levels generalizing ctx path room with
  | zero => exact h.elim
  | succ levels ih =>
      have hsize : 15 * room < 2 ^ 64 := by omega
      have hbelow : ∀ inner path, prost.enterRecursion ctx = some inner →
          crate.Exposed prost levels inner path →
            (crate.message prost levels path).Panics inner (15 * room) := by
        intro inner path henter hexposed
        obtain ⟨room, rfl⟩ : ∃ r, room = r + 1 := by
          cases room with
          | zero => exact absurd ⟨inner, henter, trivial⟩ hroom
          | succ r => exact ⟨r, rfl⟩
        exact ih (fun hallows => hroom ⟨inner, henter, hallows⟩) (Nat.le_of_succ_le hle) hexposed
      have hdecl := htags path
      rw [Crate.Exposed] at h
      show ((crate path).message prost (crate.message prost levels)).Panics ctx _
      cases hpath : crate path with
      | struct scope t =>
          rw [hpath] at h hdecl
          exact structMessage_panics laws guard hsize
            (fun inner msg => hbelow inner (scope.resolveMsg msg)) t.name hdecl h
      | enum first rest =>
          rw [hpath] at h hdecl
          have hnumbered : WellTagged
              (((first :: rest).map fun v => (v.tag, v.messageType)).map Prod.fst) := by
            rwa [List.map_map]
          exact union_panics guard (congrArg OneofImpl.merge (laws.derivedOneof_eq _ _)) hsize
            (fun inner (v : Nat × Name) _ => hbelow inner (.topLevel v.2)) hnumbered h

theorem Crate.panics_below {crate : Crate} (htags : crate.TagsDiffer) {levels : Nat}
    {ctx inner : prost.Ctx} {path : RustPath} {room : Nat} (hroom : ¬ prost.Allows (room + 1) ctx)
    (hle : room ≤ 100) (henter : prost.enterRecursion ctx = some inner)
    (h : crate.Exposed prost levels inner path) :
    (crate.message prost levels path).Panics inner (15 * room) := by
  cases room with
  | zero => exact absurd ⟨inner, henter, trivial⟩ hroom
  | succ room =>
      exact Crate.panics laws guard htags (fun hallows => hroom ⟨inner, henter, hallows⟩)
        (Nat.le_of_succ_le hle) h

theorem WrapperDecl.panics {crate : Crate} (htags : crate.TagsDiffer) {levels : Nat}
    {ctx : prost.Ctx} {room : Nat} (hroom : ¬ prost.Allows (room + 1) ctx) (hle : room ≤ 100)
    {d : WrapperDecl} (hd : WellTagged d.tags)
    (h : d.Exposed prost (crate.Exposed prost levels) ctx) :
    (d.message prost (crate.message prost levels)).Panics ctx (15 * room + 15) := by
  have hsize : 15 * room < 2 ^ 64 := by omega
  cases d with
  | dispatch scope name variants =>
      refine union_panics guard rfl hsize (fun inner v _ henter hpayload => ?_) hd h
      cases room with
      | zero => exact absurd ⟨inner, henter, trivial⟩ hroom
      | succ room =>
          have hinner : ¬ prost.Allows (room + 1) inner := fun hallows =>
            hroom ⟨inner, henter, hallows⟩
          have htwo : WellTagged ((payloadFields v.messageType).map (·.tag)) := by
            rw [← FieldsChange.tags_refl]
            exact payload_wellTagged v.messageType
          have hbelow : ∀ inner' msg, prost.enterRecursion inner = some inner' →
              crate.Exposed prost levels inner' (scope.resolveMsg msg) →
                (crate.message prost levels (scope.resolveMsg msg)).Panics inner' (15 * room) :=
            fun _ _ => Crate.panics_below laws guard htags hinner (Nat.le_of_succ_le hle)
          exact structMessage_panics laws guard (by omega) hbelow v.messageType htwo hpayload
  | account names =>
      exact union_panics guard (congrArg OneofImpl.merge (laws.derivedOneof_eq _ _)) hsize
        (fun inner (v : Nat × Name) _ henter => Crate.panics_below laws guard htags hroom hle henter)
        hd h

omit laws in
/-- Bytes that make the decoder panic, from a field that makes the message panic. -/
theorem mergeAll_panic {m : MessageImpl prost.Ctx} {size : Nat}
    (h : m.Panics prost.defaultCtx size) (start : m.Value) :
    ∃ bytes text, prost.mergeAll m.mergeField start bytes = .error (.panic text) := by
  obtain ⟨key, body, text, hkey, -, hpanic⟩ := h
  have hbody := hpanic start []
  rw [List.append_nil] at hbody
  exact ⟨prost.encodeKey key ++ body, text, guard.mergeAll_panics hkey hbody⟩

omit laws in
theorem not_mergeAll_panic {m : MessageImpl prost.Ctx}
    (h : ∀ key, ValidTag key.tag →
      ∀ v, FailsOnly DecodeFailure.IsError (m.mergeField prost.defaultCtx key v)) (start : m.Value) :
    ¬ ∃ bytes text, prost.mergeAll m.mergeField start bytes = .error (.panic text) := by
  rintro ⟨bytes, text, hpanic⟩
  obtain ⟨e, he⟩ := guard.mergeAll h start bytes _ hpanic
  cases he

/-- A decoder panics on some bytes exactly if a union is within its reach that leaves a tag open. -/
theorem Crate.mergeAll_panics_iff {crate : Crate} (htags : crate.TagsDiffer) (levels : Nat) :
    (∀ path, let m := crate.message prost levels path
      ∀ start, (∃ bytes text, prost.mergeAll m.mergeField start bytes = .error (.panic text)) ↔
        crate.Exposed prost levels prost.defaultCtx path) ∧
    ∀ d : WrapperDecl, WellTagged d.tags →
      let m := d.message prost (crate.message prost levels)
      ∀ start, (∃ bytes text, prost.mergeAll m.mergeField start bytes = .error (.panic text)) ↔
        d.Exposed prost (crate.Exposed prost levels) prost.defaultCtx := by
  refine ⟨fun path start => ⟨fun hpanic => ?_, fun h => ?_⟩,
    fun d hd start => ⟨fun hpanic => ?_, fun h => ?_⟩⟩
  · by_contra h
    exact not_mergeAll_panic guard (Crate.failsOnly laws guard h) start hpanic
  · exact mergeAll_panic guard
      (Crate.panics laws guard htags guard.limit (Nat.le_refl 100) h) start
  · by_contra h
    have hbelow : ∀ inner path, ¬ crate.Exposed prost levels inner path → _ := fun inner path h =>
      Crate.failsOnly laws guard h
    exact not_mergeAll_panic guard
      (fun key hkey v => WrapperDecl.failsOnly laws guard hbelow hkey h v) start hpanic
  · exact mergeAll_panic guard
      (WrapperDecl.panics laws guard htags guard.limit (Nat.le_refl 100) hd h) start

end Exposed

/-- Orders, each on one of two sides. -/
def orders : Crate
  | .topLevel name =>
      if name = "Order".toList then
        .struct .outside ⟨name, [⟨"side".toList, 1, .singular, .message "Side".toList⟩], .definedType⟩
      else .enum ⟨1, "Buy".toList, "SideBuy".toList⟩ [⟨2, "Sell".toList, "SideSell".toList⟩]
  | _ => .struct .outside ⟨[], [], .helper⟩

theorem orders_tagsDiffer : orders.TagsDiffer := by
  intro path
  cases path with
  | topLevel name =>
      by_cases hname : name = "Order".toList
      · rw [orders, if_pos hname]
        exact show WellTagged [1] by decide
      · rw [orders, if_neg hname]
        exact show WellTagged [1, 2] by decide
  | instruction | event | dispatch => exact show WellTagged [] by decide

theorem orders_panic : let m := orders.message prostWire 3 (.topLevel "Order".toList)
    ∃ bytes text, prostWire.mergeAll m.mergeField m.default bytes = .error (.panic text) := by
  refine ((Crate.mergeAll_panics_iff ProstWire.prostWire_lawful ProstWire.prostWire_panicFree
    orders_tagsDiffer 3).1 (.topLevel "Order".toList) _).mpr ?_
  exact ⟨_, List.mem_cons_self, "Side".toList, (99 : Nat), rfl, rfl,
    .inl ⟨3, ⟨by decide, by decide⟩, by decide⟩⟩

end Shipstern.Codegen
