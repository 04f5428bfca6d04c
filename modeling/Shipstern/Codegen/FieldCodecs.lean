import Shipstern.Codegen.MessageCodecs

/-!
# The codecs of fields carry every value

What a field writes is a run of pieces under its tag. A reader of the field that merges the pieces
into its default gets what the writer sent, and a reader without such a field can skip each of
them. The reader of a message field may know another version of the message, so for messages it
is given what the reader makes of a value.
-/

namespace Shipstern.Codegen

open Codama CanonicalCode TaggedFields Prost

variable {prost : Prost}

/-! ## What it means to carry a value -/

/-- The fields that a value is written as take the start of the reader to what arrives. -/
def MessageImpl.Carries (w r : MessageImpl prost.Ctx) (arrive : w.Value → r.Value)
    (ctx : prost.Ctx) (start : r.Value) (v : w.Value) : Prop :=
  ∃ fields, w.encodeRaw v = symbols prost.encodeKey fields ∧
    (∀ field ∈ fields, ValidTag field.1.tag) ∧ Absorbs (r.mergeField ctx) start fields (arrive v)

/-- The reader gets along with the writer, given some levels beyond the depth of a value. -/
structure Message.Faithful (spare : Nat) (w r : Message prost.Ctx) (arrive : w.Value → r.Value) :
    Prop where
  encodedLen_eq : ∀ v, w.encodedLen v = (w.encodeRaw v).length
  carries : ∀ ctx v, prost.Allows (w.depth v + spare) ctx → Fits (w.encodeRaw v) →
    w.Carries r.toMessageImpl arrive ctx r.default v

theorem Message.Faithful.mono {spare more : Nat} {w r : Message prost.Ctx}
    {arrive : w.Value → r.Value} (h : w.Faithful spare r arrive) (hle : spare ≤ more) :
    w.Faithful more r arrive where
  encodedLen_eq := h.encodedLen_eq
  carries ctx v hallows := h.carries ctx v (hallows.mono (Nat.add_le_add_left hle (w.depth v)))

/-- The pieces under the tag of a field. -/
def taggedPieces (tag : Nat) (pieces : List (Field UInt8 WireType)) : List (Field UInt8 FieldKey) :=
  pieces.map fun piece => (⟨tag, piece.1⟩, piece.2)

/-- A reader that does not know the tag skips the piece. -/
def Skips (prost : Prost) (tag : Nat) (piece : Field UInt8 WireType) : Prop :=
  ∀ ctx, prost.Allows 1 ctx → Reads (prost.skipField ctx ⟨tag, piece.1⟩) piece.2 ()

namespace ProstField

def Carries (w r : ProstField prost.Ctx) (arrive : w.Value → r.Value) (ctx : prost.Ctx)
    (v : w.Value) : Prop :=
  ∃ pieces, w.encode v = symbols prost.encodeKey (taggedPieces w.tag pieces) ∧
    (∀ piece ∈ pieces, Skips prost w.tag piece) ∧
      Absorbs (r.merge ctx) r.default pieces (arrive v)

structure Faithful (spare : Nat) (w r : ProstField prost.Ctx) (arrive : w.Value → r.Value) :
    Prop where
  encodedLen_eq : ∀ v, w.encodedLen v = (w.encode v).length
  carries : ∀ ctx v, prost.Allows (w.depth v + spare) ctx → Fits (w.encode v) →
    w.Carries r arrive ctx v

/-- Writer and reader know the same field. -/
abbrev Sound (spare : Nat) (f : ProstField prost.Ctx) : Prop := f.Faithful spare f f.sent

variable {w r : ProstField prost.Ctx} {arrive : w.Value → r.Value} {ctx : prost.Ctx} {v : w.Value}

theorem Carries.none (hencode : w.encode v = []) (hdefault : arrive v = r.default) :
    w.Carries r arrive ctx v := by
  refine ⟨[], hencode, fun _ h => (List.not_mem_nil h).elim, ?_⟩
  rw [hdefault]
  exact .nil _

theorem Carries.one {wireType : WireType} {body : List UInt8} (hfits : Fits (w.encode v))
    (hencode : w.encode v = prost.encodeKey ⟨w.tag, wireType⟩ ++ body)
    (hreads : Fits body → Reads (r.merge ctx wireType r.default) body (arrive v))
    (hskip : Fits body → Skips prost w.tag (wireType, body)) : w.Carries r arrive ctx v := by
  have hbody : Fits body := hfits.of_eq_append hencode
  refine ⟨[(wireType, body)], ?_, ?_, .one (hreads hbody)⟩
  · rw [hencode, taggedPieces, List.map_singleton, symbols_cons, symbols_nil, List.append_nil]
  · intro piece hpiece
    rw [List.mem_singleton.mp hpiece]
    exact hskip hbody

end ProstField

/-- The items of a repeated field, each with its own key. -/
theorem flatMap_pieces {α : Type} {encode : α → List UInt8} {key : FieldKey} {body : α → List UInt8}
    {items : List α} (h : ∀ item ∈ items, encode item = prost.encodeKey key ++ body item) :
    items.flatMap encode = symbols prost.encodeKey
      (taggedPieces key.tag (items.map fun item => (key.wireType, body item))) := by
  induction items with
  | nil => rfl
  | cons item items ih =>
      rw [List.forall_mem_cons] at h
      rw [List.flatMap_cons, h.1, ih h.2]
      simp only [taggedPieces, List.map_cons, symbols_cons, List.append_assoc]

/-- Items that come one by one, each pushed behind those before. -/
theorem items_carried {α β : Type} {encode : α → List UInt8} {tag : Nat} {wireType : WireType}
    {body : α → List UInt8} {merge : WireType → List β → Decode (List β)} (sent : α → β)
    {items : List α}
    (hfits : Fits (items.flatMap encode))
    (hencode : ∀ item ∈ items, encode item = prost.encodeKey ⟨tag, wireType⟩ ++ body item)
    (hskip : ∀ item ∈ items, Fits (body item) → Skips prost tag (wireType, body item))
    (hreads : ∀ item ∈ items, Fits (body item) →
      ∀ as, Reads (merge wireType as) (body item) (as ++ [sent item])) :
    ∃ pieces, items.flatMap encode = symbols prost.encodeKey (taggedPieces tag pieces) ∧
      (∀ piece ∈ pieces, Skips prost tag piece) ∧ Absorbs merge [] pieces (items.map sent) := by
  have hbody : ∀ item ∈ items, Fits (body item) := fun item hitem =>
    (hfits.of_flatMap hitem).of_eq_append (hencode item hitem)
  refine ⟨items.map fun item => (wireType, body item), flatMap_pieces hencode, ?_, ?_⟩
  · intro piece hpiece
    obtain ⟨item, hitem, rfl⟩ := List.mem_map.mp hpiece
    exact hskip item hitem (hbody item hitem)
  · exact Absorbs.items [] fun item hitem => hreads item hitem (hbody item hitem)

theorem length_flatMap {α : Type} {encode : α → List UInt8} {len : α → Nat} {items : List α}
    (h : ∀ item ∈ items, len item = (encode item).length) :
    (items.map len).sum = (items.flatMap encode).length := by
  rw [List.length_flatMap, List.map_congr_left h]

theorem le_deepest {α : Type} (depth : α → Nat) {values : List α} {v : α} (h : v ∈ values) :
    depth v ≤ deepest depth values := by
  induction values with
  | nil => cases h
  | cons w values ih =>
      rw [deepest, List.map_cons, List.foldr_cons]
      rcases List.mem_cons.mp h with rfl | h
      · exact Nat.le_max_left _ _
      · exact Nat.le_trans (ih h) (Nat.le_max_right _ _)

/-! ## Messages in fields -/

section Messages

variable {spare : Nat} {w r : Message prost.Ctx} {arrive : w.Value → r.Value}
  (h : w.Faithful spare r arrive) (laws : prost.Lawful) {tag : Nat} (htag : ValidTag tag)
  (structName field : Name)

include laws

/-- A message is merged into a start from which its fields are carried. -/
theorem messageMerge_body {w r : MessageImpl prost.Ctx} {arrive : w.Value → r.Value}
    {ctx inner : prost.Ctx} {start : r.Value} {v : w.Value}
    (henter : prost.enterRecursion ctx = some inner) (hfits : Fits (w.encodeRaw v))
    (h : w.Carries r arrive inner start v) :
    Reads (prost.messageMerge r.mergeField ctx .lengthDelimited start)
      (messageBody prost (w.encodeRaw v)) (arrive v) := by
  obtain ⟨fields, hraw, hvalid, habsorbs⟩ := h
  rw [hraw] at hfits ⊢
  exact laws.messageMerge_reads henter habsorbs hvalid hfits

include htag in
theorem skips_message {raw : List UInt8} (hfits : Fits (messageBody prost raw)) :
    Skips prost tag (.lengthDelimited, messageBody prost raw) :=
  fun _ hallows => laws.skipMessage_reads raw htag hallows hfits.of_append_right

include h

theorem messageMerge_default {ctx : prost.Ctx} {v : w.Value}
    (hallows : prost.Allows (w.depth v + 1 + spare) ctx)
    (hfits : Fits (messageBody prost (w.encodeRaw v))) :
    Reads (prost.messageMerge r.mergeField ctx .lengthDelimited r.default)
      (messageBody prost (w.encodeRaw v)) (arrive v) := by
  rw [Nat.add_right_comm] at hallows
  obtain ⟨inner, henter, hinner⟩ := hallows
  have hraw := hfits.of_append_right
  exact messageMerge_body laws henter hraw (h.carries inner v hinner hraw)

include htag

theorem messageEncode_body (v : w.Value) :
    prost.messageEncode tag (w.encodedLen v) (w.encodeRaw v) =
      prost.encodeKey ⟨tag, .lengthDelimited⟩ ++ messageBody prost (w.encodeRaw v) := by
  rw [laws.messageEncode_eq _ htag, h.encodedLen_eq v, messageBody]

theorem messageEncodedLen_body (v : w.Value) :
    prost.messageEncodedLen tag (w.encodedLen v) =
      (prost.messageEncode tag (w.encodedLen v) (w.encodeRaw v)).length := by
  rw [messageEncode_body h laws htag, laws.messageEncodedLen_eq _ htag,
    laws.keyLen_eq .lengthDelimited htag, laws.encodedLenVarint_eq, h.encodedLen_eq v, messageBody,
    List.length_append, List.length_append, Nat.add_assoc]

theorem singularMessage_faithful : (singularMessage prost structName field tag w).Faithful spare
    (singularMessage prost structName field tag r) arrive where
  encodedLen_eq := messageEncodedLen_body h laws htag
  carries _ v hallows hfits :=
    .one hfits (messageEncode_body h laws htag v)
      (fun hbody => reads_mapErr _ (messageMerge_default h laws hallows hbody))
      (skips_message laws htag)

theorem optionalMessage_faithful : (optionalMessage prost structName field tag w).Faithful spare
    (optionalMessage prost structName field tag r) (Option.map arrive) where
  encodedLen_eq v := by
    cases v with
    | none => rfl
    | some v => exact messageEncodedLen_body h laws htag v
  carries ctx v hallows hfits := by
    cases v with
    | none => exact .none rfl rfl
    | some v =>
        exact .one hfits (messageEncode_body h laws htag v)
          (fun hbody => Reads.map some (reads_mapErr _ (messageMerge_default h laws hallows hbody)))
          (skips_message laws htag)

theorem repeatedMessage_faithful : (repeatedMessage prost structName field tag w).Faithful spare
    (repeatedMessage prost structName field tag r) (List.map arrive) where
  encodedLen_eq (vs : List w.Value) := by
    refine (laws.messageEncodedLenRepeated_eq _ htag).trans ?_
    rw [List.map_map]
    exact length_flatMap fun v _ => messageEncodedLen_body h laws htag v
  carries ctx (vs : List w.Value) hallows hfits := by
    refine items_carried arrive hfits (fun v _ => messageEncode_body h laws htag v)
      (fun v _ => skips_message laws htag) fun v hv hbody as => ?_
    refine reads_mapErr _ ?_
    rw [laws.messageMergeRepeated_eq]
    have hdepth := Nat.add_le_add_right (le_deepest (w.depth · + 1) hv) spare
    exact Reads.map _ (messageMerge_default h laws (hallows.mono hdepth) hbody)

end Messages

/-! ## Scalars that are sent as another type -/

/-- A conversion writes a key and a body, and reads the value back from the body. -/
structure Converted.Faithful (conversion : Converted prost.Ctx) (tag : Nat) : Prop where
  encodedLen_eq : ∀ v, conversion.encodedLen tag v = (conversion.encode tag v).length
  carried : ∃ body : conversion.Native → List UInt8, ∀ v,
    conversion.encode tag v = prost.encodeKey ⟨tag, .lengthDelimited⟩ ++ body v ∧
      (Fits (body v) → Skips prost tag (.lengthDelimited, body v)) ∧
      ∀ ctx, prost.Allows conversion.depth ctx → Fits (body v) →
        Reads (conversion.merge ctx .lengthDelimited) (body v) v

section Conversions

variable (laws : prost.Lawful) {tag : Nat} (htag : ValidTag tag) (structName field : Name)

include laws htag

theorem pubkeyConversion_faithful : (pubkeyConversion prost structName field).Faithful tag := by
  obtain ⟨body, hencode, hreads, -, -⟩ := laws.scalar .bytes
  have hone : ValidTag 1 := ⟨Nat.le_refl 1, by decide⟩
  have hne (key : Core.Pubkey) : key.toList ≠ [] := by
    intro h
    have hlength := congrArg List.length h
    simp at hlength
  have hraw (key : Core.Pubkey) : prost.wrapperEncodeRaw key.toList =
      symbols prost.encodeKey [(⟨1, .lengthDelimited⟩, body key.toList)] := by
    rw [laws.wrapperEncodeRaw_eq, if_neg (hne key), hencode _ hone, symbols_cons, symbols_nil,
      List.append_nil]
    rfl
  have hlen (key : Core.Pubkey) :
      prost.wrapperEncodedLen key.toList = (prost.wrapperEncodeRaw key.toList).length := by
    rw [laws.wrapperEncodedLen_eq, laws.wrapperEncodeRaw_eq, if_neg (hne key), if_neg (hne key),
      laws.encodedLen_eq _ hone]
  have hbody (key : Core.Pubkey) : (pubkeyConversion prost structName field).encode tag key =
      prost.encodeKey ⟨tag, .lengthDelimited⟩ ++
        messageBody prost (prost.wrapperEncodeRaw key.toList) := by
    show prost.messageEncode tag _ _ = _
    rw [laws.messageEncode_eq _ htag, hlen, messageBody]
  refine ⟨fun key : Core.Pubkey => ?_, fun key => messageBody prost (prost.wrapperEncodeRaw key.toList),
    fun key : Core.Pubkey =>
      ⟨hbody key, skips_message laws htag, fun ctx hallows hfits => ?_⟩⟩
  · rw [hbody, messageBody]
    show prost.messageEncodedLen tag _ = _
    rw [laws.messageEncodedLen_eq _ htag, laws.keyLen_eq .lengthDelimited htag,
      laws.encodedLenVarint_eq, hlen, List.length_append, List.length_append, Nat.add_assoc]
  · obtain ⟨inner, henter, -⟩ := hallows
    have hinner : Fits (body key.toList) := by
      have hwrapper := hfits.of_append_right
      rw [hraw, symbols_cons, symbols_nil, List.append_nil] at hwrapper
      exact hwrapper.of_append_right
    have hfield : Reads (prost.wrapperMergeField inner ⟨1, .lengthDelimited⟩ [])
        (body key.toList) key.toList := by
      rw [laws.wrapperMergeField_eq, if_pos rfl]
      exact reads_mapErr _ (hreads inner _ _ hinner)
    have hmerge := laws.messageMerge_reads henter (Absorbs.one hfield) fun piece hpiece => by
      rw [List.mem_singleton.mp hpiece]
      exact hone
    rw [← hraw key] at hmerge
    replace hmerge := hmerge hfits.of_append_right
    refine reads_bind (reads_mapErr _ hmerge) fun rest => ?_
    rw [Core.Pubkey.tryFrom_toList]
    rfl

theorem bytesConversion_faithful (nativeType : List Char) :
    (bytesConversion prost structName field nativeType).Faithful tag := by
  obtain ⟨body, hencode, hreads, -, hskip⟩ := laws.scalar .bytes
  refine ⟨fun v => laws.encodedLen_eq _ htag, fun v => body (toLeBytes 16 v.toNat),
    fun v : BitVec 128 =>
      ⟨hencode _ htag, fun hfits ctx hallows => hskip _ htag hallows hfits,
        fun ctx _ hfits => ?_⟩⟩
  refine reads_bind (reads_mapErr _ (hreads ctx _ _ hfits)) fun rest => ?_
  have hvalue : BitVec.ofNat 128 (Wire.leNat (toLeBytes 16 v.toNat)) = v := by
    rw [leNat_toLeBytes (show v.toNat < 256 ^ 16 from v.isLt), BitVec.ofNat_toNat, BitVec.setWidth_eq]
  rw [if_pos (length_toLeBytes _ _), hvalue]
  rfl

end Conversions

section Converted

variable {tag spare : Nat} {conversion : Converted prost.Ctx} (h : conversion.Faithful tag)

include h

theorem singularConverted_sound {default : conversion.Native}
    {written : conversion.Native → Bool} (hdefault : ∀ v, written v = false → v = default) :
    (singularConverted prost tag conversion default written).Sound spare where
  encodedLen_eq v := by
    show (if written v then _ else 0) = (if written v then _ else []).length
    split
    · exact h.encodedLen_eq v
    · rfl
  carries ctx v hallows hfits := by
    obtain ⟨body, hbody⟩ := h.carried
    obtain ⟨hencode, hskip, hreads⟩ := hbody v
    cases hwritten : written v with
    | false =>
        refine .none ?_ (hdefault v hwritten)
        show (if written v then _ else []) = _
        rw [hwritten]
        rfl
    | true =>
        refine .one hfits ?_ (hreads ctx (hallows.mono (Nat.le_add_right _ spare))) hskip
        show (if written v then _ else []) = _
        rw [if_pos hwritten]
        exact hencode

theorem optionalConverted_sound : (optionalConverted prost tag conversion).Sound spare where
  encodedLen_eq v := by
    cases v with
    | none => rfl
    | some v => exact h.encodedLen_eq v
  carries ctx v hallows hfits := by
    obtain ⟨body, hbody⟩ := h.carried
    cases v with
    | none => exact .none rfl rfl
    | some v =>
        obtain ⟨hencode, hskip, hreads⟩ := hbody v
        exact .one hfits hencode (fun hbody => Reads.map some
          (hreads ctx (hallows.mono (Nat.le_add_right _ spare)) hbody)) hskip

theorem repeatedConverted_sound : (repeatedConverted prost tag conversion).Sound spare where
  encodedLen_eq vs := length_flatMap fun v _ => h.encodedLen_eq v
  carries ctx (vs : List conversion.Native) hallows hfits := by
    obtain ⟨body, hbody⟩ := h.carried
    have hreads : ∀ v ∈ vs, Fits (body v) → ∀ as : List conversion.Native,
        Reads ((repeatedConverted prost tag conversion).merge ctx .lengthDelimited as) (body v)
          (as ++ [id v]) := by
      intro v hv hfits as
      have hdepth := Nat.le_trans (le_deepest (fun _ => conversion.depth) hv)
        (Nat.le_add_right _ spare)
      exact Reads.map _ ((hbody v).2.2 ctx (hallows.mono hdepth) hfits)
    have hcarried := items_carried id hfits (fun v _ => (hbody v).1) (fun v _ => (hbody v).2.1) hreads
    rwa [List.map_id] at hcarried

end Converted

/-! ## Widened scalars -/

section Widened

variable (laws : prost.Lawful) {tag spare : Nat} (htag : ValidTag tag) (structName field : Name)
  {width : Nat} (widening : Widening width)

include laws htag

theorem singularWidened_sound :
    (singularWidened prost structName field tag widening).Sound spare where
  encodedLen_eq (v : BitVec width) := by
    show (if v ≠ 0 then _ else 0) = (if v ≠ 0 then _ else []).length
    split
    · exact laws.encodedLen_eq _ htag
    · rfl
  carries ctx (v : BitVec width) _ hfits := by
    obtain ⟨body, hencode, hreads, -, hskip⟩ := laws.scalar widening.wire
    by_cases hzero : v = 0
    · exact .none (if_neg fun h => h hzero) hzero
    · refine .one hfits ((if_pos hzero).trans (hencode _ htag)) (fun hbody => ?_)
        fun hbody ctx hallows => hskip _ htag hallows hbody
      have hread := Reads.map widening.narrow (reads_mapErr (·.push structName field)
        (hreads ctx (widening.widen 0) (widening.widen v) hbody))
      rwa [widening.narrow_widen] at hread

theorem optionalWidened_sound :
    (optionalWidened prost structName field tag widening).Sound spare where
  encodedLen_eq v := by
    cases v with
    | none => rfl
    | some v => exact laws.encodedLen_eq _ htag
  carries ctx v _ hfits := by
    obtain ⟨body, hencode, hreads, -, hskip⟩ := laws.scalar widening.wire
    cases v with
    | none => exact .none rfl rfl
    | some v =>
        refine .one hfits (hencode _ htag) (fun hbody => ?_)
          fun hbody ctx hallows => hskip _ htag hallows hbody
        have hread := Reads.map (some ∘ widening.narrow)
          (reads_mapErr (·.push structName field)
            (hreads ctx (widening.widen 0) (widening.widen v) hbody))
        rwa [Function.comp_apply, widening.narrow_widen] at hread

theorem repeatedWidened_sound (hnumeric : widening.wire.IsNumeric) :
    (repeatedWidened prost structName field tag widening).Sound spare where
  encodedLen_eq vs := laws.encodedLenPacked_eq _ hnumeric htag
  carries ctx (vs : List (BitVec width)) _ hfits := by
    by_cases hempty : vs = []
    · subst hempty
      exact .none (laws.encodePacked_nil hnumeric) rfl
    · have hne : vs.map widening.widen ≠ [] := fun h => hempty (List.map_eq_nil_iff.mp h)
      obtain ⟨body, hencode, hreads, hskip⟩ := laws.packed hnumeric htag hne
      refine .one hfits hencode (fun hbody => ?_) fun hbody ctx hallows => hskip ctx hallows hbody
      have hread := Reads.map (List.map widening.narrow)
        (reads_mapErr (·.push structName field) (hreads ctx [] hbody))
      have hback : (List.map widening.narrow ([] ++ vs.map widening.widen)) = vs := by
        rw [List.nil_append, List.map_map]
        exact (List.map_congr_left fun v _ => widening.narrow_widen v).trans (List.map_id vs)
      rwa [hback] at hread

end Widened

/-! ## Other scalars -/

section Plain

variable (laws : prost.Lawful) {tag spare : Nat} (htag : ValidTag tag) (structName field : Name)
  {w : WireScalar}

include laws htag

/-- A value that is not written arrives as the default. -/
theorem singularScalar_sound :
    (singularScalar prost structName field tag w).Sound spare where
  encodedLen_eq v := by
    show (if w.isWritten v then _ else 0) = (if w.isWritten v then _ else []).length
    split
    · exact laws.encodedLen_eq _ htag
    · rfl
  carries ctx v _ hfits := by
    obtain ⟨body, hencode, hreads, -, hskip⟩ := laws.scalar w
    by_cases hwritten : w.isWritten v = true
    · have hsent : (singularScalar prost structName field tag w).sent v = v := if_pos hwritten
      refine .one hfits ((if_pos hwritten).trans (hencode _ htag)) (fun hbody => ?_)
        fun hbody ctx hallows => hskip _ htag hallows hbody
      rw [hsent]
      exact reads_mapErr _ (hreads ctx _ v hbody)
    · exact .none (if_neg hwritten) (if_neg hwritten)

theorem optionalScalar_sound : (optionalScalar prost structName field tag w).Sound spare where
  encodedLen_eq v := by
    cases v with
    | none => rfl
    | some v => exact laws.encodedLen_eq _ htag
  carries ctx v _ hfits := by
    obtain ⟨body, hencode, hreads, -, hskip⟩ := laws.scalar w
    cases v with
    | none => exact .none rfl rfl
    | some v =>
        exact .one hfits (hencode _ htag)
          (fun hbody => Reads.map some (reads_mapErr _ (hreads ctx _ v hbody)))
          fun hbody ctx hallows => hskip _ htag hallows hbody

theorem repeatedScalar_sound {isLengthDelimited : Bool}
    (hkind : isLengthDelimited = true ↔ ¬ w.IsNumeric) :
    (repeatedScalar prost structName field tag w isLengthDelimited).Sound spare where
  encodedLen_eq vs := by
    cases isLengthDelimited with
    | true =>
        refine (laws.encodedLenRepeated_eq vs htag).trans ?_
        exact length_flatMap fun v _ => laws.encodedLen_eq v htag
    | false => exact laws.encodedLenPacked_eq vs (not_not.mp fun h => by cases hkind.mpr h) htag
  carries ctx (vs : List w.Value) _ hfits := by
    cases isLengthDelimited with
    | true =>
        obtain ⟨body, hencode, -, hreads, hskip⟩ := laws.scalar w
        have hitems : ∀ v ∈ vs, Fits (body v) → ∀ as : List w.Value,
            Reads ((repeatedScalar prost structName field tag w true).merge ctx w.wireType as)
              (body v) (as ++ [id v]) := fun v _ hbody as =>
          reads_mapErr _ (hreads (hkind.mp rfl) ctx as v hbody)
        have hcarried := items_carried id hfits (fun v _ => hencode v htag)
          (fun v _ hbody ctx hallows => hskip v htag hallows hbody) hitems
        rwa [List.map_id] at hcarried
    | false =>
        have hnumeric : w.IsNumeric := not_not.mp fun h => by cases hkind.mpr h
        by_cases hempty : vs = []
        · subst hempty
          exact .none (laws.encodePacked_nil hnumeric) rfl
        · obtain ⟨body, hencode, hreads, hskip⟩ := laws.packed hnumeric htag hempty
          exact .one hfits hencode (fun hbody => reads_mapErr _ (hreads ctx [] hbody))
            fun hbody ctx hallows => hskip ctx hallows hbody

end Plain

end Shipstern.Codegen
