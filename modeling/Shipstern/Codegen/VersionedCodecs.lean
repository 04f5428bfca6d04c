import Shipstern.Codegen.FieldCodecs
import Shipstern.Codegen.SchemaVersions

/-!
# Codecs of two versions

A reader of one version takes in what a writer of another one has sent: the fields that both know,
in whatever order their pieces come, as their tags keep them apart. It skips what it does not know
and keeps the defaults of what the writer does not know. The induction for structs is on the change
of the fields, that for unions on the change of the variants, and that for programs on the levels
of types.
-/

namespace Shipstern.Codegen

open Codama CanonicalCode TaggedFields Prost

variable {prost : Prost}

/-! ## The field of a struct -/

theorem select_sound {spare : Nat} {a b c : ProstField prost.Ctx} (ha : a.Sound spare)
    (hb : b.Sound spare) (hc : c.Sound spare) (label : LabelIr) :
    (LabelIr.select a b c label).Sound spare := by
  cases label <;> assumption

section Fields

variable (laws : prost.Lawful) {spare : Nat}

include laws

theorem widenedField_sound {tag : Nat} (htag : ValidTag tag) (structName field : Name) {width : Nat}
    {widening : Widening width} (hnumeric : widening.wire.IsNumeric) (label : LabelIr) :
    (widenedField prost structName field tag widening label).Sound spare :=
  select_sound (singularWidened_sound laws htag structName field widening)
    (optionalWidened_sound laws htag structName field widening)
    (repeatedWidened_sound laws htag structName field widening hnumeric) label

omit laws in
theorem convertedField_sound {tag : Nat} {conversion : Converted prost.Ctx}
    (h : conversion.Faithful tag) {default : conversion.Native} {written : conversion.Native → Bool}
    (hdefault : ∀ v, written v = false → v = default) (label : LabelIr) :
    (convertedField prost tag conversion default written label).Sound spare :=
  select_sound (singularConverted_sound h hdefault) (optionalConverted_sound h)
    (repeatedConverted_sound h) label

theorem plainField_sound {tag : Nat} (htag : ValidTag tag) (structName field : Name) {w : WireScalar}
    {isLengthDelimited : Bool} (hkind : isLengthDelimited = true ↔ ¬ w.IsNumeric)
    (label : LabelIr) :
    (plainField prost structName field tag w isLengthDelimited label).Sound spare :=
  select_sound (singularScalar_sound laws htag structName field)
    (optionalScalar_sound laws htag structName field)
    (repeatedScalar_sound laws htag structName field hkind) label

theorem scalarField_sound {tag : Nat} (htag : ValidTag tag) (structName field : Name)
    (scalar : ScalarIr) (label : LabelIr) :
    (scalarField prost structName field tag scalar label).Sound spare := by
  have hzero (v : BitVec 128) (h : (v != 0) = false) : v = 0 := by simpa using h
  cases scalar with
  | publicKey =>
      exact convertedField_sound (pubkeyConversion_faithful laws htag structName field)
        (fun _ h => by cases h) label
  | u8 | u16 | shortU16 | i8 | i16 =>
      exact widenedField_sound laws htag structName field (fun h => by cases h) label
  | u128 | i128 =>
      exact convertedField_sound (bytesConversion_faithful laws htag structName field _) hzero label
  | bool | uint32 | uint64 | int32 | int64 | float | double | string | sizePrefixedString | bytes
  | sizePrefixedBytes | fixedBytes =>
      exact plainField_sound laws htag structName field
        (by simp [isLengthDelimited, WireScalar.IsNumeric, WireScalar.wireType]) label

omit laws in
@[simp] theorem emitProstFieldCodegen_tag (message : Name → Message prost.Ctx) (structName : Name)
    (f : FieldIr) : (emitProstFieldCodegen prost message structName f).tag = f.tag := by
  obtain ⟨name, tag, label, fieldType⟩ := f
  cases fieldType with
  | message msg => cases label <;> rfl
  | scalar s => cases s <;> cases label <;> rfl

/-- A field is read by the version of its type that the reader knows. -/
theorem emitProstFieldCodegen_faithful {old new : Name → Message prost.Ctx}
    {below : ∀ msg, (old msg).Value → (new msg).Value} (structName : Name) {f : FieldIr}
    (h : ∀ msg, f.fieldType = .message msg → (old msg).Faithful spare (new msg) (below msg))
    (htag : ValidTag f.tag) :
    (emitProstFieldCodegen prost old structName f).Faithful spare
      (emitProstFieldCodegen prost new structName f) (arriveField prost below structName f) := by
  obtain ⟨name, tag, label, fieldType⟩ := f
  cases fieldType with
  | scalar s => exact scalarField_sound laws htag structName name s label
  | message msg =>
      have hmsg := h msg rfl
      cases label with
      | singular => exact singularMessage_faithful hmsg laws htag structName name
      | optional => exact optionalMessage_faithful hmsg laws htag structName name
      | repeated | fixedArray => exact repeatedMessage_faithful hmsg laws htag structName name

end Fields

/-! ## Structs -/

section Arms

variable {fields : List (ProstField prost.Ctx)} {ctx : prost.Ctx}

/-- A reader without such a field leaves its values alone. -/
theorem mergeArms_unknown {key : FieldKey} {body : List UInt8}
    (hskip : Reads (prost.skipField ctx key) body ()) (htag : key.tag ∉ fields.map (·.tag))
    (vs : ProstField.Values fields) :
    Reads (ProstField.mergeArms prost.skipField fields ctx key vs) body vs := by
  induction fields with
  | nil => exact hskip
  | cons f fields ih =>
      obtain ⟨v, vs⟩ := vs
      rw [List.map_cons, List.mem_cons, not_or] at htag
      rw [ProstField.mergeArms, if_neg htag.1]
      exact Reads.map _ (ih htag.2 vs)

/-- The first field takes the pieces under its tag. -/
theorem mergeArms_head {f : ProstField prost.Ctx} {a b : f.Value}
    {pieces : List (Field UInt8 WireType)} (h : Absorbs (f.merge ctx) a pieces b)
    (vs : ProstField.Values fields) :
    Absorbs (ProstField.mergeArms prost.skipField (f :: fields) ctx) (a, vs)
      (taggedPieces f.tag pieces) (b, vs) := by
  refine h.embed (fun v => (v, vs)) (FieldKey.mk f.tag) fun piece _ a b hread => ?_
  rw [ProstField.mergeArms, if_pos rfl]
  exact Reads.map _ hread

/-- The other fields take what comes under other tags. -/
theorem mergeArms_tail {f : ProstField prost.Ctx} {as bs : ProstField.Values fields}
    {pieces : List (Field UInt8 FieldKey)}
    (h : Absorbs (ProstField.mergeArms prost.skipField fields ctx) as pieces bs)
    (htags : ∀ piece ∈ pieces, piece.1.tag ≠ f.tag) (v : f.Value) :
    Absorbs (ProstField.mergeArms prost.skipField (f :: fields) ctx) (v, as) pieces (v, bs) := by
  have hsame : (pieces.map fun piece => (id piece.1, piece.2)) = pieces := List.map_id pieces
  rw [← hsame]
  refine h.embed (fun vs => (v, vs)) id fun piece hpiece as bs hread => ?_
  rw [id, ProstField.mergeArms, if_neg (htags piece hpiece)]
  exact Reads.map _ hread

end Arms

theorem tags_taggedPieces {tag : Nat} {pieces : List (Field UInt8 WireType)}
    {piece : Field UInt8 FieldKey} (h : piece ∈ taggedPieces tag pieces) : piece.1.tag = tag := by
  obtain ⟨piece, -, rfl⟩ := List.mem_map.mp h
  rfl

theorem wellTagged_cons {tag : Nat} {tags : List Nat} :
    WellTagged (tag :: tags) ↔ (tag ∉ tags ∧ ValidTag tag) ∧ WellTagged tags := by
  rw [WellTagged, WellTagged, List.nodup_cons, List.forall_mem_cons]
  exact and_and_and_comm

theorem WellTagged.sublist {tags all : List Nat} (h : WellTagged all) (hsub : tags.Sublist all) :
    WellTagged tags :=
  ⟨h.1.sublist hsub, fun tag htag => h.2 tag (hsub.subset htag)⟩

theorem FieldsChange.writers_sublist {ws rs : List FieldIr} (change : FieldsChange ws rs) :
    (ws.map (·.tag)).Sublist change.tags := by
  induction change with
  | nil => exact .slnil
  | kept f rest ih | dropped f rest ih => exact ih.cons_cons f.tag
  | added f rest ih => exact ih.cons f.tag

theorem FieldsChange.tags_dropAll (fields : List FieldIr) :
    (FieldsChange.dropAll fields).tags = fields.map (·.tag) := by
  induction fields with
  | nil => rfl
  | cons f fields ih => exact congrArg (f.tag :: ·) ih

theorem FieldsChange.readers_subset {ws rs : List FieldIr} (change : FieldsChange ws rs) :
    rs.map (·.tag) ⊆ change.tags := by
  induction change with
  | nil => exact List.Subset.refl _
  | kept f rest ih | added f rest ih => exact List.cons_subset_cons f.tag ih
  | dropped f rest ih => exact List.subset_cons_of_subset f.tag ih

section Structs

variable (laws : prost.Lawful) {spare : Nat} {old new : Name → Message prost.Ctx}
  {below : ∀ msg, (old msg).Value → (new msg).Value} (structName : Name)

/-- What the writer sends for a struct, and what becomes of it. -/
def StructCarried (spare : Nat) (structName : Name)
    (below : ∀ msg, (old msg).Value → (new msg).Value) {ws rs : List FieldIr}
    (change : FieldsChange ws rs) : Prop :=
  let writers := ws.map (emitProstFieldCodegen prost old structName)
  let readers := rs.map (emitProstFieldCodegen prost new structName)
  ∀ ctx (vs : ProstField.Values writers),
    prost.Allows (ProstField.depthAll writers vs + spare) ctx →
    Fits (ProstField.encodeAll writers vs) →
      ∃ pieces, ProstField.encodeAll writers vs = symbols prost.encodeKey pieces ∧
        (∀ piece ∈ pieces, piece.1.tag ∈ change.tags) ∧
          Absorbs (ProstField.mergeArms prost.skipField readers ctx) (ProstField.defaults readers)
            pieces (arriveFields prost below structName change vs)

theorem StructCarried.kept {f : FieldIr} {ws rs : List FieldIr} {rest : FieldsChange ws rs}
    (hf : (emitProstFieldCodegen prost old structName f).Faithful spare
      (emitProstFieldCodegen prost new structName f) (arriveField prost below structName f))
    (hfresh : f.tag ∉ rest.tags) (hrest : StructCarried spare structName below rest) :
    StructCarried spare structName below (.kept f rest) := by
  intro ctx ⟨v, vs⟩ hallows hfits
  obtain ⟨head, hhead, -, habsorbs⟩ := hf.carries ctx v
    (hallows.mono (Nat.add_le_add_right (Nat.le_max_left _ _) spare)) hfits.of_append_left
  obtain ⟨tail, htail, htags, hrest⟩ := hrest ctx vs
    (hallows.mono (Nat.add_le_add_right (Nat.le_max_right _ _) spare)) hfits.of_append_right
  rw [emitProstFieldCodegen_tag] at hhead
  have hother : ∀ piece ∈ tail, piece.1.tag ≠ f.tag := fun piece hpiece heq =>
    hfresh (heq ▸ htags piece hpiece)
  have htaken := (mergeArms_head habsorbs _).append (mergeArms_tail hrest
    (by rwa [emitProstFieldCodegen_tag]) _)
  rw [emitProstFieldCodegen_tag] at htaken
  refine ⟨taggedPieces f.tag head ++ tail, ?_, ?_, htaken⟩
  · rw [symbols_append, ← htail]
    exact congrArg (· ++ _) hhead
  · intro piece hpiece
    rcases List.mem_append.mp hpiece with hpiece | hpiece
    · rw [tags_taggedPieces hpiece]
      exact List.mem_cons_self
    · exact List.mem_cons_of_mem _ (htags piece hpiece)

theorem StructCarried.added {f : FieldIr} {ws rs : List FieldIr} {rest : FieldsChange ws rs}
    (hfresh : f.tag ∉ rest.tags) (hrest : StructCarried spare structName below rest) :
    StructCarried spare structName below (.added f rest) := by
  intro ctx vs hallows hfits
  obtain ⟨pieces, hpieces, htags, hrest⟩ := hrest ctx vs hallows hfits
  refine ⟨pieces, hpieces, fun piece hpiece => List.mem_cons_of_mem _ (htags piece hpiece), ?_⟩
  refine mergeArms_tail hrest (fun piece hpiece heq => hfresh ?_) _
  rw [emitProstFieldCodegen_tag] at heq
  exact heq ▸ htags piece hpiece

/-- The reader skips what it does not know, for which it needs a level. -/
theorem StructCarried.dropped {f : FieldIr} {ws rs : List FieldIr} {rest : FieldsChange ws rs}
    {r : ProstField prost.Ctx}
    {arrive : (emitProstFieldCodegen prost old structName f).Value → r.Value}
    (hf : (emitProstFieldCodegen prost old structName f).Faithful spare r arrive)
    (hfresh : f.tag ∉ rest.tags) (hspare : 1 ≤ spare)
    (hrest : StructCarried spare structName below rest) :
    StructCarried spare structName below (.dropped f rest) := by
  intro ctx ⟨v, vs⟩ hallows hfits
  obtain ⟨head, hhead, hskips, -⟩ := hf.carries ctx v
    (hallows.mono (Nat.add_le_add_right (Nat.le_max_left _ _) spare)) hfits.of_append_left
  obtain ⟨tail, htail, htags, hrest⟩ := hrest ctx vs
    (hallows.mono (Nat.add_le_add_right (Nat.le_max_right _ _) spare)) hfits.of_append_right
  rw [emitProstFieldCodegen_tag] at hhead hskips
  refine ⟨taggedPieces f.tag head ++ tail, ?_, ?_, .append (.ignored ?_) hrest⟩
  · rw [symbols_append, ← htail]
    exact congrArg (· ++ _) hhead
  · intro piece hpiece
    rcases List.mem_append.mp hpiece with hpiece | hpiece
    · rw [tags_taggedPieces hpiece]
      exact List.mem_cons_self
    · exact List.mem_cons_of_mem _ (htags piece hpiece)
  · intro piece hpiece
    obtain ⟨piece, hmem, rfl⟩ := List.mem_map.mp hpiece
    have htagsNew : (rs.map (emitProstFieldCodegen prost new structName)).map (·.tag) =
        rs.map (·.tag) := by
      rw [List.map_map]
      exact List.map_congr_left fun f _ => emitProstFieldCodegen_tag new structName f
    have hunknown : f.tag ∉ (rs.map (emitProstFieldCodegen prost new structName)).map (·.tag) := by
      rw [htagsNew]
      exact fun h => hfresh (rest.readers_subset h)
    exact mergeArms_unknown (hskips piece hmem ctx
      (hallows.mono (Nat.le_trans hspare (Nat.le_add_left spare _)))) hunknown _

variable (hself : ∀ msg, (old msg).Faithful spare (old msg) (old msg).sent)

include laws hself

/-- The messages in the fields that are kept are read by their other versions. What is dropped is
read by nobody, but its writer gets along with its own reader. -/
theorem structCarried {ws rs : List FieldIr} (change : FieldsChange ws rs)
    (hkept : ∀ f ∈ ws, f ∈ rs → ∀ msg, f.fieldType = .message msg →
      (old msg).Faithful spare (new msg) (below msg))
    (htags : WellTagged change.tags) (hspare : change.Drops → 1 ≤ spare) :
    StructCarried spare structName below change := by
  induction change with
  | nil => exact fun ctx _ _ _ => ⟨[], rfl, fun _ h => (List.not_mem_nil h).elim, .nil _⟩
  | kept f rest ih =>
      obtain ⟨hf, hrest⟩ := wellTagged_cons.mp htags
      have hcodec := emitProstFieldCodegen_faithful laws structName
        (hkept f List.mem_cons_self List.mem_cons_self) hf.2
      refine .kept structName hcodec hf.1 (ih (fun g hw hr => ?_) hrest hspare)
      exact hkept g (List.mem_cons_of_mem f hw) (List.mem_cons_of_mem f hr)
  | added f rest ih =>
      obtain ⟨hf, hrest⟩ := wellTagged_cons.mp htags
      refine .added structName hf.1 (ih (fun g hw hr => ?_) hrest hspare)
      exact hkept g hw (List.mem_cons_of_mem f hr)
  | dropped f rest ih =>
      obtain ⟨hf, hrest⟩ := wellTagged_cons.mp htags
      have hcodec := emitProstFieldCodegen_faithful laws structName (fun msg _ => hself msg) hf.2
      refine .dropped structName hcodec hf.1 (hspare trivial)
        (ih (fun g hw hr => ?_) hrest fun _ => hspare trivial)
      exact hkept g (List.mem_cons_of_mem f hw) hr

theorem encodedLenAll_eq (ws : List FieldIr) (hvalid : ∀ f ∈ ws, ValidTag f.tag)
    (vs : ProstField.Values (ws.map (emitProstFieldCodegen prost old structName))) :
    ProstField.encodedLenAll _ vs = (ProstField.encodeAll _ vs).length := by
  induction ws with
  | nil => rfl
  | cons f ws ih =>
      obtain ⟨v, vs⟩ := vs
      rw [List.forall_mem_cons] at hvalid
      have hf := emitProstFieldCodegen_faithful laws structName (fun msg _ => hself msg) hvalid.1
      refine Eq.trans ?_ (List.length_append).symm
      exact congrArg₂ (· + ·) (hf.encodedLen_eq v) (ih hvalid.2 vs)

theorem structMessage_faithful {ws rs : List FieldIr} (change : FieldsChange ws rs)
    (hkept : ∀ f ∈ ws, f ∈ rs → ∀ msg, f.fieldType = .message msg →
      (old msg).Faithful spare (new msg) (below msg))
    (htags : WellTagged change.tags) (hspare : change.Drops → 1 ≤ spare) :
    (structMessage prost (ws.map (emitProstFieldCodegen prost old structName))).Faithful spare
      (structMessage prost (rs.map (emitProstFieldCodegen prost new structName)))
      (arriveFields prost below structName change) where
  encodedLen_eq := encodedLenAll_eq laws structName hself ws fun f hf =>
    htags.2 f.tag (change.writers_sublist.subset (List.mem_map_of_mem hf))
  carries ctx vs hallows hfits := by
    obtain ⟨pieces, hpieces, hpieceTags, habsorbs⟩ :=
      structCarried laws structName hself change hkept htags hspare ctx vs hallows hfits
    exact ⟨pieces, hpieces, fun piece hpiece => htags.2 _ (hpieceTags piece hpiece), habsorbs⟩

end Structs

/-! ## Unions -/

/-- A value of the variant is merged into what is there, so this has to be the default. -/
def FreshFor : (variants : Variants prost.Ctx) → OneofValue variants → OneofValue variants → Prop
  | (_, m) :: _, .inl start, .inl _ => start = m.default
  | _ :: variants, .inr start, .inr v => FreshFor variants start v
  | _ :: _, .inl _, .inr _ => True
  | _ :: _, .inr _, .inl _ => True

section Arms

variable {name : Name} {tag : Nat} {m : Message prost.Ctx} {variants : Variants prost.Ctx}
  {ctx : prost.Ctx} {body : List UInt8} {field : Option (OneofValue ((tag, m) :: variants))}

theorem oneofArms_head {v : m.Value}
    (h : Reads (prost.messageMerge m.mergeField ctx .lengthDelimited
      ((field.bind Sum.getLeft?).getD m.default)) body v) :
    Reads (prost.oneofArms name ((tag, m) :: variants) ctx ⟨tag, .lengthDelimited⟩ field) body
      (Sum.inl v) := by
  rw [Prost.oneofArms, if_pos rfl]
  exact Reads.map Sum.inl h

theorem oneofArms_tail {t : Nat} {v : OneofValue variants} (htag : t ≠ tag)
    (h : Reads (prost.oneofArms name variants ctx ⟨t, .lengthDelimited⟩
      (field.bind Sum.getRight?)) body v) :
    Reads (prost.oneofArms name ((tag, m) :: variants) ctx ⟨t, .lengthDelimited⟩ field) body
      (Sum.inr v) := by
  rw [Prost.oneofArms, if_neg htag]
  exact Reads.map Sum.inr h

theorem freshFor_later {v : OneofValue variants}
    (h : ∀ start ∈ field, FreshFor ((tag, m) :: variants) start (Sum.inr v)) :
    ∀ start ∈ field.bind Sum.getRight?, FreshFor variants start v := by
  intro start hstart
  obtain ⟨both, hfield, hright⟩ := Option.bind_eq_some_iff.mp hstart
  rw [Sum.getRight?_eq_some_iff.mp hright] at hfield
  exact h _ hfield

end Arms

def WrapperDecl.FreshFor (prost : Prost) (message : RustPath → Message prost.Ctx) :
    (d : WrapperDecl) → (d.message prost message).Value → (d.message prost message).Value → Prop
  | .dispatch scope _ variants =>
      Codegen.FreshFor (dispatchMessages prost message scope variants)
  | .account names => Codegen.FreshFor (unionVariants prost message (numbered names))

section Unions

variable (laws : prost.Lawful) {spare : Nat} {α : Type} {tag : α → Nat}
  {old new : α → Message prost.Ctx} {below : ∀ a, (old a).Value → (new a).Value}

include laws

/-- The arm of the variant merges its body. -/
theorem oneofArms_reads (name : Name) {ws rs : List α} (change : VariantsChange ws rs)
    (h : ∀ a ∈ ws, (old a).Faithful spare (new a) (below a))
    (htags : WellTagged (rs.map tag)) {ctx : prost.Ctx}
    (v : OneofValue (ws.map fun a => (tag a, old a)))
    (hallows : prost.Allows (choiceDepth prost _ v + spare) ctx) (hfits : Fits (prost.oneofEncode _ v))
    (field : Option (OneofValue (rs.map fun a => (tag a, new a))))
    (hfresh : ∀ start ∈ field, FreshFor _ start (arriveChoice prost below change v)) :
    ∃ t ∈ rs.map tag, ∃ raw : List UInt8,
      prost.oneofEncode _ v = prost.encodeKey ⟨t, .lengthDelimited⟩ ++ messageBody prost raw ∧
        Reads (prost.oneofArms name _ ctx ⟨t, .lengthDelimited⟩ field) (messageBody prost raw)
          (arriveChoice prost below change v) := by
  induction change with
  | nil => exact v.elim
  | kept a rest ih =>
      rw [List.map_cons, wellTagged_cons] at htags
      rw [List.forall_mem_cons] at h
      cases v with
      | inl v =>
          refine ⟨tag a, List.mem_cons_self, (old a).encodeRaw v,
            messageEncode_body h.1 laws htags.1.2 v, ?_⟩
          have hstart : (field.bind Sum.getLeft?).getD (new a).default = (new a).default := by
            rcases field with _ | start | start
            · rfl
            · exact hfresh _ rfl
            · rfl
          refine oneofArms_head ?_
          rw [hstart]
          have hbody := hfits.of_eq_append (messageEncode_body h.1 laws htags.1.2 v)
          exact messageMerge_default h.1 laws hallows hbody
      | inr later =>
          obtain ⟨t, ht, raw, hencode, hreads⟩ :=
            ih h.2 htags.2 later hallows hfits (field.bind Sum.getRight?) (freshFor_later hfresh)
          exact ⟨t, List.mem_cons_of_mem _ ht, raw, hencode,
            oneofArms_tail (fun heq => htags.1.1 (heq ▸ ht)) hreads⟩
  | added a rest ih =>
      rw [List.map_cons, wellTagged_cons] at htags
      obtain ⟨t, ht, raw, hencode, hreads⟩ :=
        ih h htags.2 v hallows hfits (field.bind Sum.getRight?) (freshFor_later hfresh)
      exact ⟨t, List.mem_cons_of_mem _ ht, raw, hencode,
        oneofArms_tail (fun heq => htags.1.1 (heq ▸ ht)) hreads⟩

theorem oneofEncodedLen_eq {ws : List α}
    (h : ∀ a ∈ ws, (old a).Faithful spare (new a) (below a))
    (hvalid : ∀ a ∈ ws, ValidTag (tag a))
    (v : OneofValue (ws.map fun a => (tag a, old a))) :
    prost.oneofEncodedLen _ v = (prost.oneofEncode _ v).length := by
  induction ws with
  | nil => exact v.elim
  | cons a ws ih =>
      rw [List.forall_mem_cons] at h hvalid
      cases v with
      | inl v => exact messageEncodedLen_body h.1 laws hvalid.1 v
      | inr later => exact ih h.2 hvalid.2 later

omit laws in
theorem VariantsChange.writers_sublist {ws rs : List α} (change : VariantsChange ws rs) :
    ws.Sublist rs := by
  induction change with
  | nil => exact .slnil
  | kept a rest ih => exact ih.cons_cons a
  | added a rest ih => exact ih.cons a

/-- What a union is written as, whoever has generated its methods. -/
theorem union_carries {name : Name} {ws rs : List α} (change : VariantsChange ws rs)
    (h : ∀ a ∈ ws, (old a).Faithful spare (new a) (below a))
    (htags : WellTagged (rs.map tag)) {writer : OneofImpl (OneofValue _) prost.Ctx}
    {reader : OneofImpl (OneofValue _) prost.Ctx}
    (hwriter : writer.encode = prost.oneofEncode (ws.map fun a => (tag a, old a)))
    (hreader : reader.merge = prost.oneofMerge name (rs.map fun a => (tag a, new a)))
    {ctx : prost.Ctx} {start : OneofValue (rs.map fun a => (tag a, new a))}
    (v : OneofValue (ws.map fun a => (tag a, old a)))
    (hallows : prost.Allows (choiceDepth prost _ v + spare) ctx) (hfits : Fits (writer.encode v))
    (hfresh : FreshFor _ start (arriveChoice prost below change v)) :
    (manualProstMessageImpl prost writer (choiceDepth prost _) (choiceSent prost _)).Carries
      (manualProstMessageImpl prost reader (choiceDepth prost _) (choiceSent prost _))
      (arriveChoice prost below change) ctx start v := by
  obtain ⟨t, ht, raw, hencode, hreads⟩ := oneofArms_reads laws name change h htags v hallows
    (hwriter ▸ hfits) (some start) fun s hs => by
      rw [← Option.some.inj hs]
      exact hfresh
  refine ⟨[(⟨t, .lengthDelimited⟩, messageBody prost raw)], ?_, ?_, .one ?_⟩
  · rw [symbols_cons, symbols_nil, List.append_nil, ← hencode, ← hwriter]
    rfl
  · intro field hfield
    rw [List.mem_singleton.mp hfield]
    exact htags.2 t ht
  · show Reads (reader.merge ctx ⟨t, .lengthDelimited⟩ (some start) >>= _) _ _
    rw [hreader]
    exact reads_bind (Reads.map some hreads) fun _ => rfl

end Unions

section Dispatch

variable (laws : prost.Lawful) (message : RustPath → Message prost.Ctx) (scope : Scope)

include laws

/-- The lengths are written by hand, but they are those of the payload. -/
theorem dispatchEncode_eq {variants : List OneofVariantIr}
    (hvalid : ∀ v ∈ variants, ValidTag v.tag) :
    dispatchEncode prost message scope variants =
      prost.oneofEncode (dispatchMessages prost message scope variants) := by
  funext choice
  induction variants with
  | nil => exact choice.elim
  | cons v variants ih =>
      rw [List.forall_mem_cons] at hvalid
      rcases choice with ⟨accounts, args, ⟨⟩⟩ | later
      · refine Eq.trans ?_ (laws.messageEncode_eq _ hvalid.1).symm
        rw [dispatchEncode, List.append_assoc, List.append_assoc]
        refine congrArg (List.append _) (congrArg (List.append _) (congrArg (List.append _) ?_))
        exact (List.append_nil _).symm
      · exact ih hvalid.2 later

theorem dispatchEncodedLen_eq {variants : List OneofVariantIr}
    (hvalid : ∀ v ∈ variants, ValidTag v.tag) :
    dispatchEncodedLen prost message scope variants =
      prost.oneofEncodedLen (dispatchMessages prost message scope variants) := by
  funext choice
  induction variants with
  | nil => exact choice.elim
  | cons v variants ih =>
      rw [List.forall_mem_cons] at hvalid
      rcases choice with ⟨accounts, args, ⟨⟩⟩ | later
      · exact (laws.messageEncodedLen_eq _ hvalid.1).symm
      · exact ih hvalid.2 later

end Dispatch

/-! ## Programs -/

/-- The default is the first variant with its default inside, which is a fresh start for any
variant. -/
theorem freshFor_default {tag : Nat} {m : Message prost.Ctx} {variants : Variants prost.Ctx}
    (v : OneofValue ((tag, m) :: variants)) :
    FreshFor ((tag, m) :: variants) (Sum.inl m.default) v := by
  cases v with
  | inl => rfl
  | inr => trivial

section Declarations

variable (laws : prost.Lawful) {spare : Nat} {old new : RustPath → Message prost.Ctx}
  {below : ∀ path, (old path).Value → (new path).Value}
  (hself : ∀ path, (old path).Faithful spare (old path) (old path).sent)
  (h : ∀ path, (old path).Faithful spare (new path) (below path))

theorem arriveAt_self (path : RustPath) : arriveAt prost below path path = below path :=
  dif_pos rfl

include h in
theorem arriveAt_faithful {path path' : RustPath} (hpath : path = path') :
    (old path).Faithful spare (new path') (arriveAt prost below path path') := by
  subst hpath
  rw [arriveAt_self]
  exact h path

section Derived

variable (name : Name) {ws rs : List (Nat × Name)}

include laws

include hself in
/-- The union of an enum or of the accounts, whose methods are derived. -/
theorem derived_encodedLen (htags : WellTagged (ws.map (·.1)))
    (v : OneofValue (unionVariants prost old ws)) :
    (prost.derivedOneof name (unionVariants prost old ws)).encodedLen v =
      ((prost.derivedOneof name (unionVariants prost old ws)).encode v).length := by
  rw [laws.derivedOneof_eq]
  exact oneofEncodedLen_eq laws (fun v _ => hself (.topLevel v.2))
    (fun v hv => htags.2 v.1 (List.mem_map_of_mem hv)) v

include h in
theorem derived_carries (variants : VariantsChange ws rs) (htags : WellTagged (rs.map (·.1)))
    {ctx : prost.Ctx} {start : OneofValue (unionVariants prost new rs)}
    (v : OneofValue (unionVariants prost old ws))
    (hallows : prost.Allows (choiceDepth prost _ v + spare) ctx)
    (hfits : Fits ((prost.derivedOneof name (unionVariants prost old ws)).encode v))
    (hfresh : FreshFor _ start (arriveUnion prost below variants v)) :
    (manualProstMessageImpl prost (prost.derivedOneof name (unionVariants prost old ws))
      (choiceDepth prost _) (choiceSent prost _)).Carries
        (manualProstMessageImpl prost (prost.derivedOneof name (unionVariants prost new rs))
          (choiceDepth prost _) (choiceSent prost _))
        (arriveUnion prost below variants) ctx start v :=
  union_carries laws variants (fun v _ => h (.topLevel v.2)) htags
    (congrArg OneofImpl.encode (laws.derivedOneof_eq name _))
    (congrArg OneofImpl.merge (laws.derivedOneof_eq name _)) v hallows hfits hfresh

end Derived

include laws hself

/-- A struct without fields skips all of it. -/
theorem dropped_faithful (scope : Scope) (name : Name) (kind : TypeKindIr) {d : MessageDecl}
    (htags : WellTagged d.tags) (hspare : 1 ≤ spare) : (d.message prost old).Faithful spare
      ((MessageDecl.struct scope ⟨name, [], kind⟩).message prost new) fun _ => () := by
  cases d with
  | struct scope t =>
      let message (msg : Name) := old (scope.resolveMsg msg)
      have hdropped : WellTagged (FieldsChange.dropAll t.fields).tags := by
        rwa [FieldsChange.tags_dropAll]
      have hskipped : (structMessage prost _).Faithful spare (structMessage prost _)
          (arriveFields prost (fun msg => (message msg).sent) t.name (.dropAll t.fields)) :=
        structMessage_faithful laws t.name (fun msg => hself (scope.resolveMsg msg))
          (.dropAll t.fields) (fun f _ hf => (List.not_mem_nil hf).elim) hdropped fun _ => hspare
      exact hskipped
  | enum first rest =>
      let variants := (first :: rest).map fun v => (v.tag, v.messageType)
      have hvariants : WellTagged (variants.map (·.1)) := by
        rwa [List.map_map]
      refine ⟨derived_encodedLen laws hself _ hvariants, fun ctx v hallows hfits => ?_⟩
      have hwriter : (prost.derivedOneof "Kind".toList _).encode v =
          prost.oneofEncode (unionVariants prost old variants) v :=
        congrFun (congrArg OneofImpl.encode (laws.derivedOneof_eq _ _)) v
      have hfits : Fits ((prost.derivedOneof "Kind".toList _).encode v) := hfits
      rw [hwriter] at hfits
      obtain ⟨t, ht, raw, hencode, -⟩ := oneofArms_reads laws "Kind".toList (.refl variants)
        (fun v _ => hself (.topLevel v.2)) hvariants v hallows hfits none
        fun _ hstart => by cases hstart
      have hallowsOne := hallows.mono (Nat.le_trans hspare (Nat.le_add_left spare _))
      have hskips := laws.skipMessage_reads raw (hvariants.2 t ht) hallowsOne
        (hfits.of_eq_append hencode).of_append_right
      refine ⟨[(⟨t, .lengthDelimited⟩, messageBody prost raw)], ?_, ?_, .one hskips⟩
      · rw [symbols_cons, symbols_nil, List.append_nil]
        exact hwriter.trans hencode
      · intro field hfield
        rw [List.mem_singleton.mp hfield]
        exact hvariants.2 t ht

include h

theorem DeclChange.faithful {d d' : MessageDecl} (change : DeclChange d d')
    (htags : change.KeepsTags) (hpaths : change.KeepsPaths) (hspare : change.Drops → 1 ≤ spare) :
    (d.message prost old).Faithful spare (d'.message prost new) (change.arrive prost below) := by
  cases change with
  | struct scope scope' name kind kind' fields =>
      exact structMessage_faithful laws name (fun msg => hself (scope.resolveMsg msg)) fields
        (fun f hw hr msg hmsg => arriveAt_faithful h (hpaths f hw hr msg hmsg)) htags hspare
  | @enum first first' rest rest' variants =>
      let number (v : OneofVariantIr) := (v.tag, v.messageType)
      have hnumbered : WellTagged (((first' :: rest').map number).map (·.1)) := by
        rwa [List.map_map]
      have hwriter := hnumbered.sublist (((variants.map number).writers_sublist).map (·.1))
      refine ⟨derived_encodedLen laws hself _ hwriter, fun ctx v hallows hfits => ?_⟩
      exact derived_carries laws h _ (variants.map number) hnumbered v hallows hfits
        (freshFor_default _)
  | added =>
      exact ⟨fun _ => rfl, fun _ _ _ _ => ⟨[], rfl, fun _ h => (List.not_mem_nil h).elim, .nil _⟩⟩
  | dropped scope name kind d =>
      exact dropped_faithful laws hself scope name kind htags (hspare trivial)

omit laws h hself in
theorem payload_wellTagged (name : Name) :
    WellTagged (FieldsChange.refl (payloadFields name)).tags :=
  show WellTagged [1, 2] by decide

theorem dispatchPayload_faithful {scope scope' : Scope} {v : OneofVariantIr}
    (hpaths : ∀ f ∈ payloadFields v.messageType, SamePath scope scope' f) :
    (dispatchPayload prost old scope v).Faithful spare (dispatchPayload prost new scope' v)
      (arrivePayload prost below scope scope' v) :=
  structMessage_faithful laws v.messageType (fun msg => hself (scope.resolveMsg msg))
    (.refl (payloadFields v.messageType))
    (fun f hf _ msg hmsg => arriveAt_faithful h (hpaths f hf msg hmsg))
    (payload_wellTagged v.messageType) False.elim

/-- A wrapper has no default. It is merged into any value that is fresh for what comes. -/
theorem WrapperChange.faithful {d d' : WrapperDecl} (change : WrapperChange d d')
    (htags : change.KeepsTags) (hpaths : change.KeepsPaths) :
    (∀ v, (d.message prost old).encodedLen v = ((d.message prost old).encodeRaw v).length) ∧
      ∀ ctx start v, prost.Allows ((d.message prost old).depth v + spare) ctx →
        Fits ((d.message prost old).encodeRaw v) →
        d'.FreshFor prost new start (change.arrive prost below v) →
          (d.message prost old).Carries (d'.message prost new) (change.arrive prost below) ctx
            start v := by
  cases change with
  | @dispatch scope scope' name ws rs variants =>
      have hvalid : ∀ v ∈ ws, ValidTag v.tag := fun v hv =>
        htags.2 v.tag (List.mem_map_of_mem (variants.writers_sublist.subset hv))
      have hpayload : ∀ v ∈ ws, (dispatchPayload prost old scope v).Faithful spare
          (dispatchPayload prost new scope' v) (arrivePayload prost below scope scope' v) :=
        fun v hv => dispatchPayload_faithful laws hself h (hpaths v hv)
      refine ⟨fun v => ?_, fun ctx start v hallows hfits hfresh => ?_⟩
      · show dispatchEncodedLen prost old scope ws v = (dispatchEncode prost old scope ws v).length
        rw [dispatchEncode_eq laws old scope hvalid, dispatchEncodedLen_eq laws old scope hvalid]
        exact oneofEncodedLen_eq laws hpayload hvalid v
      · exact union_carries laws variants hpayload htags (dispatchEncode_eq laws old scope hvalid)
          rfl v hallows hfits hfresh
  | account variants =>
      have hwriter := htags.sublist (variants.writers_sublist.map (·.1))
      exact ⟨derived_encodedLen laws hself _ hwriter, fun ctx start v hallows hfits hfresh =>
        derived_carries laws h _ variants htags v hallows hfits hfresh⟩

end Declarations

section Crates

variable (laws : prost.Lawful) {old new : Crate}

/-- Two versions of a program whose tags and paths keep apart what they stand for. -/
structure CrateChange.Compatible (change : CrateChange old new) : Prop where
  tags : ∀ path, (change path).KeepsTags
  paths : ∀ path, (change path).KeepsPaths

include laws

/-- Each message is read by its other version, by induction on the levels of its type. -/
theorem CrateChange.faithful {change : CrateChange old new} (h : change.Compatible) {spare : Nat}
    (hspare : ∀ path, (change path).Drops → 1 ≤ spare) (levels : Nat)
    (hself : ∀ below < levels, ∀ path, (old.message prost below path).Faithful spare
      (old.message prost below path) (old.message prost below path).sent)
    (path : RustPath) :
    (old.message prost levels path).Faithful spare (new.message prost levels path)
      (change.arrive prost levels path) := by
  induction levels generalizing path with
  | zero =>
      exact ⟨fun _ => rfl, fun _ _ _ _ => ⟨[], rfl, fun _ h => (List.not_mem_nil h).elim, .nil _⟩⟩
  | succ levels ih =>
      have hbelow := ih fun below hlt => hself below (Nat.lt_succ_of_lt hlt)
      exact (change path).faithful laws (hself levels (Nat.lt_succ_self levels)) hbelow
        (h.tags path) (h.paths path) (hspare path)

end Crates

end Shipstern.Codegen
