import Shipstern.Anchor.PassStages
import Shipstern.Codama.Encoding

/-!
# The passes keep the wire format

Bytes are read alike before and after the passes. An inlined type is the format that its link
stood for; the fields of a flattened struct are read one after the other as the struct was; and
`[u8; n]` has the format of `n` bytes.
-/

namespace Shipstern.Anchor

open Codama Fallible Wire

/-! ## Formats of one level of types -/

section Alike

variable (constants : ConstantBytes) (env env' : Name → Option Encoding) (R : Name → Name → Prop)

abbrev SimilarEncoding : Encoding → Encoding → Prop :=
  Similar (codec constants) env (codec constants) env' R

/-- A type by whose kind the format of the type around it is chosen. -/
def plainLeaf : TypeNode → Option TypeNode
  | .bytes => some .bytes
  | .string encoding => some (.string encoding)
  | .number number => some (.number number)
  | _ => none

structure Alike (ty ty' : TypeNode) : Prop where
  similar : SimilarEncoding constants env env' R ty.encoding ty'.encoding
  leaf : plainLeaf ty' = plainLeaf ty

variable {constants env env' R}

theorem never_similar : SimilarEncoding constants env env' R .never .never :=
  .tagged ((SameCount.refl _).tag _) .nil

theorem byte_similar : SimilarEncoding constants env env' R .byte .byte := .atom (.refl _)

theorem bytes_similar (c : Count) : SimilarEncoding constants env env' R (.bytes c) (.bytes c) :=
  Similar.counted byte_similar (.refl c)

theorem withNumber_similar (number : NestedTypeNode NumberTypeNode)
    {make make' : NumberTypeNode → Encoding}
    (h : ∀ number, SimilarEncoding constants env env' R (make number) (make' number)) :
    SimilarEncoding constants env env' R (.withNumber number make) (.withNumber number make') := by
  rw [Encoding.withNumber, Encoding.withNumber]
  cases number.plain with
  | none => exact never_similar
  | some number => exact h number

theorem count_similar (count : CountNode) {item item' : Encoding}
    (h : SimilarEncoding constants env env' R item item') :
    SimilarEncoding constants env env' R (count.encoding item) (count.encoding item') := by
  cases count with
  | fixed n => exact h.counted (.refl _)
  | prefixed number => exact withNumber_similar number fun number => h.counted (.refl _)
  | remainder => exact h.remainder

theorem text_similar (encoding : BytesEncoding) (number : NumberTypeNode) :
    SimilarEncoding constants env env' R (sizePrefixedText encoding number)
      (sizePrefixedText encoding number) := by
  cases encoding with
  | utf8 => exact .atom (.refl _)
  | base16 | base58 | base64 => exact bytes_similar _

theorem constant_encoding_eq (constant : ConstantValueNode) :
    ConstantValue.encoding constant = .atom (.constant constant.value
      (match plainLeaf constant.type with
      | some (.number number) => some number
      | _ => none)) := by
  obtain ⟨type, value⟩ := constant
  cases type <;> rfl

theorem fixedSize_encoding_eq (size : Nat) (type : TypeNode) :
    (TypeNode.fixedSize size type).encoding =
      match plainLeaf type with
      | some .bytes | some (.string _) => .bytes (.const size)
      | _ => .framed (.const size) type.encoding := by
  cases type <;> rfl

theorem sizePrefix_encoding_eq (type : TypeNode) (number : NestedTypeNode NumberTypeNode) :
    (TypeNode.sizePrefix type number).encoding =
      match plainLeaf type with
      | some .bytes => .withNumber number fun number => .bytes (.number number)
      | some (.string encoding) => .withNumber number (sizePrefixedText encoding)
      | _ => .withNumber number fun number => .framed (.number number) type.encoding := by
  cases type <;> rfl

variable {ty ty' : TypeNode}

theorem fixedSize_similar (size : Nat) (h : Alike constants env env' R ty ty') :
    SimilarEncoding constants env env' R (TypeNode.fixedSize size ty).encoding
      (TypeNode.fixedSize size ty').encoding := by
  rw [fixedSize_encoding_eq, fixedSize_encoding_eq, h.leaf]
  split
  · exact bytes_similar _
  · exact bytes_similar _
  · exact h.similar.framed (.refl _)

theorem sizePrefix_similar (number : NestedTypeNode NumberTypeNode)
    (h : Alike constants env env' R ty ty') :
    SimilarEncoding constants env env' R (TypeNode.sizePrefix ty number).encoding
      (TypeNode.sizePrefix ty' number).encoding := by
  rw [sizePrefix_encoding_eq, sizePrefix_encoding_eq, h.leaf]
  split
  · exact withNumber_similar number fun number => bytes_similar _
  · exact withNumber_similar number (text_similar _)
  · exact withNumber_similar number fun number => h.similar.framed (.refl _)

theorem option_similar (fixed : Option Bool) (number : NestedTypeNode NumberTypeNode)
    (h : Alike constants env env' R ty ty') :
    SimilarEncoding constants env env' R (TypeNode.option fixed ty number).encoding
      (TypeNode.option fixed ty' number).encoding := by
  rw [TypeNode.encoding, TypeNode.encoding]
  refine withNumber_similar number fun number => h.similar.option ((SameCount.refl _).tag _) ?_
  rw [optionPadding]
  split
  · exact .size
  · exact .bytes

theorem items_similar {items items' : List TypeNode}
    (h : List.Forall₂ (Alike constants env env' R) items items') :
    List.Forall₂ (SimilarEncoding constants env env' R) (items.map TypeNode.encoding)
      (items'.map TypeNode.encoding) := by
  rw [List.forall₂_map_left_iff, List.forall₂_map_right_iff]
  exact h.imp fun _ _ halike => halike.similar

theorem fields_similar {fields fields' : List StructFieldTypeNode}
    (h : FieldsRetyped (Alike constants env env' R) fields fields') :
    List.Forall₂ (SimilarEncoding constants env env' R) (fieldEncodings fields)
      (fieldEncodings fields') := by
  have htypes := items_similar (h.types fun _ _ => rfl)
  rw [List.map_map, List.map_map] at htypes
  rw [fieldEncodings_eq, fieldEncodings_eq]
  exact htypes

theorem constants_similar {consts consts' : List ConstantValueNode}
    (h : ConstantsRetyped (Alike constants env env' R) consts consts') :
    List.Forall₂ (SimilarEncoding constants env env' R) (consts.map ConstantValue.encoding)
      (consts'.map ConstantValue.encoding) := by
  rw [List.forall₂_map_left_iff, List.forall₂_map_right_iff]
  refine List.Forall₂.imp (fun constant constant' hrow => ?_) h
  obtain ⟨type, halike, rfl⟩ := hrow
  rw [constant_encoding_eq, constant_encoding_eq, halike.leaf]
  exact .atom (.refl _)

theorem payload_similar {payload payload' : VariantPayload TypeNode}
    (h : PayloadReplaced (Alike constants env env' R) payload payload') :
    SimilarEncoding constants env env' R (payloadEncoding payload) (payloadEncoding payload') := by
  cases h with
  | empty => exact .tuple .nil
  | struct h => exact .tuple (fields_similar h)
  | tuple h =>
      rw [payloadEncoding, payloadEncoding, itemEncodings_eq, itemEncodings_eq]
      exact .tuple (items_similar h)
  | wrapped => exact never_similar

theorem positional_eq {variants variants' : List EnumVariantTypeNode}
    (h : variants'.map (·.discriminator) = variants.map (·.discriminator)) :
    positional variants' = positional variants := by
  have hall : ∀ variants : List EnumVariantTypeNode, positional variants =
      (variants.map (·.discriminator)).zipIdx.all fun entry => entry.1.all (· = entry.2) := by
    intro variants
    rw [positional, List.zipIdx_map, List.all_map]
    rfl
  rw [hall, hall, h]

theorem enum_similar {variants variants' : List EnumVariantTypeNode}
    (size : NestedTypeNode NumberTypeNode)
    (h : VariantsReplaced (Alike constants env env' R) variants variants') :
    SimilarEncoding constants env env' R (TypeNode.enum variants size).encoding
      (TypeNode.enum variants' size).encoding := by
  have hpayloads : List.Forall₂ (SimilarEncoding constants env env' R)
      (variantEncodings variants) (variantEncodings variants') := by
    rw [variantEncodings_eq, variantEncodings_eq, List.forall₂_map_left_iff,
      List.forall₂_map_right_iff]
    refine h.imp fun variant variant' hrow => ?_
    obtain ⟨payload, hpayload, rfl⟩ := hrow
    exact payload_similar hpayload
  have hpositional : positional variants' = positional variants := by
    refine positional_eq (List.forall₂_eq_eq_eq ▸ ?_)
    rw [List.forall₂_map_left_iff, List.forall₂_map_right_iff]
    refine (h.imp fun variant variant' hrow => ?_).flip
    obtain ⟨payload, -, rfl⟩ := hrow
    rfl
  rw [TypeNode.encoding, TypeNode.encoding]
  refine withNumber_similar size fun number => ?_
  rw [hpositional]
  split
  · exact .tagged ((SameCount.refl _).tag _) hpayloads
  · exact never_similar

/-- A type of which the parts are alike is alike, when its links are related. -/
theorem Replaced.alike (h : Replaced (Alike constants env env' R) ty ty')
    (hkind : WrittenKind ty) (hlink : ∀ name, ty = .link name → R name name) :
    Alike constants env env' R ty ty' := by
  refine ⟨?_, ?_⟩
  · cases h with
    | array h => exact count_similar _ h.similar
    | fixedSize h => exact fixedSize_similar _ h
    | sizePrefix h => exact sizePrefix_similar _ h
    | option h => exact option_similar _ _ h
    | hiddenPrefix h hconstants =>
        rw [TypeNode.encoding, TypeNode.encoding]
        exact .tuple (List.rel_append (constants_similar hconstants) (.cons h.similar .nil))
    | struct h => exact .tuple (fields_similar h)
    | tuple h =>
        rw [TypeNode.encoding, TypeNode.encoding, itemEncodings_eq, itemEncodings_eq]
        exact .tuple (items_similar h)
    | enum h => exact enum_similar _ h
    | same h =>
        cases ty with
        | boolean size => exact withNumber_similar size fun number => .atom (.refl _)
        | publicKey => exact bytes_similar _
        | number number => exact .atom (.refl _)
        | string encoding =>
            cases encoding with
            | utf8 => exact .atom (.refl _)
            | base16 | base58 | base64 => exact byte_similar.remainder
        | bytes => exact byte_similar.remainder
        | link name => exact .link (hlink name rfl)
        | hiddenSuffix | map | set | unsupported => exact hkind.elim
        | _ => exact h.elim
  · cases h <;> rfl

/-! ## Arrays of bytes -/

theorem readNat_one (bigEndian : Bool) (bs : Bytes) :
    readNat 1 bigEndian bs = readNat 1 false bs := by
  cases bigEndian with
  | false => rfl
  | true =>
      cases bs with
      | nil => rfl
      | cons b bs => simp [readNat, takeBytes, natOf]

/-- A `u8` is a byte in either byte order. -/
theorem u8_similar {number : NumberTypeNode} (h : number.format = .u8) :
    SimilarEncoding constants env env' R (.atom (.number number)) .byte := by
  obtain ⟨format, endian⟩ := number
  cases h
  refine .atom ⟨fun bs => ?_, rfl⟩
  simp only [codec, NumberTypeNode.readBits, NumberFormat.width, NumberTypeNode.littleEndian]
  rw [readNat_one]
  rfl

theorem u8ArrayToBytes_alike (h : Alike constants env env' R ty ty')
    (hitem : ∀ item' count', ty' = .array item' count' →
      ∃ item, ty = .array item count' ∧ Alike constants env env' R item item') :
    Alike constants env env' R ty (u8ArrayToBytes ty') := by
  rw [u8ArrayToBytes.eq_def]
  split
  · next number count =>
    split
    · next hu8 =>
      obtain ⟨item, rfl, halike⟩ := hitem _ _ rfl
      have hnumber : item = .number number := by
        have hleaf := halike.leaf
        cases item <;> cases hleaf
        rfl
      subst hnumber
      exact ⟨(u8_similar hu8).counted (.refl _), rfl⟩
    · exact h
  · exact h

/-- Writing arrays of `u8` as bytes keeps the wire format of a type. -/
theorem u8ArraysToBytes_alike {room : Nat} (hwritten : Written ty)
    (hlinks : ∀ name ∈ collectLinks ty, R name name) (h : u8ArraysToBytes room ty = some ty') :
    Alike constants env env' R ty ty' := by
  induction room generalizing ty ty' with
  | zero => cases h
  | succ room ih =>
      obtain ⟨replaced, hrun, rfl⟩ := Option.map_eq_some_iff.mp h
      obtain ⟨hkind, hchildren⟩ := written_iff.mp hwritten
      have hbelow : Replaced (Alike constants env env' R) ty replaced := by
        refine (forEachChildMut_replaced hrun).imp fun type htype type' hgives => ?_
        refine ih (hchildren type (walked_subset_children htype)) (fun name hname => ?_) hgives
        exact hlinks name (mem_collectLinks_iff.mpr (.inr ⟨type, htype, hname⟩))
      have halike := hbelow.alike hkind fun name hname =>
        hlinks name (mem_collectLinks_iff.mpr (.inl hname))
      refine u8ArrayToBytes_alike halike fun item' count' harray => ?_
      subst harray
      cases hbelow with
      | array hitem => exact ⟨_, rfl, hitem⟩
      | same h => exact h.elim

end Alike

/-! ## Types of a program -/

/-- The defined types of a program as named formats. -/
def typeEnv (program : ProgramNode) (name : Name) : Option Encoding :=
  ((defsOf program.definedTypes).lookup name).map TypeNode.encoding

theorem lookup_defsOf_of_mem {types : List DefinedTypeNode} (hnames : (types.map (·.name)).Nodup)
    {ty : DefinedTypeNode} (h : ty ∈ types) : (defsOf types).lookup ty.name = some ty.type :=
  lookup_of_mem (nodup_defsOf hnames) (List.mem_reverse.mpr (List.mem_map_of_mem h))

theorem lookup_defsOf_mem {types : List DefinedTypeNode} {name : Name} {type : TypeNode}
    (h : (defsOf types).lookup name = some type) :
    ∃ ty ∈ types, ty.name = name ∧ ty.type = type := by
  obtain ⟨ty, hty, heq⟩ := List.mem_map.mp (List.mem_reverse.mp (mem_of_lookup h))
  cases heq
  exact ⟨ty, hty, rfl, rfl⟩

/-- A type as the converter writes it, without a link that is replaced. -/
structure Resolved (program : ProgramNode) (ty : TypeNode) : Prop where
  written : Written ty
  kept : LinksKept (inlineDefs program) ty

theorem Resolved.field {program : ProgramNode} {fields : List StructFieldTypeNode}
    (h : Resolved program (.struct fields)) {type : TypeNode} (htype : type ∈ fields.map (·.type)) :
    Resolved program type :=
  ⟨(written_iff.mp h.written).2 type htype, (linksKept_iff.mp h.kept).2 type htype⟩

theorem Resolved.parts {program : ProgramNode} {ty : TypeNode} (h : Resolved program ty) :
    ∀ type ∈ partTypes ty, Resolved program type := by
  rw [partTypes.eq_def]
  split
  · exact fun type htype => h.field htype
  · exact fun type htype => List.mem_singleton.mp htype ▸ h

section Stages

variable {program unwrapped flattened program' : ProgramNode}

theorem inlineDefs_written (hwritten : OnTypes Written program) :
    ∀ name body, (inlineDefs program).lookup name = some body → Written body := by
  intro name body hfound
  obtain ⟨ty, hty, -, -, rfl⟩ := inlineDefs_lookup hfound
  exact hwritten.types ty hty

/-- No link that is replaced is left after links are replaced. -/
theorem Unwraps.resolved (h : Unwraps program unwrapped) (hwritten : OnTypes Written program) :
    OnTypes (Resolved program) unwrapped := by
  have hcounted : ∀ ty ∈ countedTypes program, Written ty → Resolved program ty :=
    fun ty hty hty' => ⟨hty', linksKept_of_counted hty⟩
  simp only [countedTypes, List.forall_mem_append, List.forall_mem_flatMap,
    List.forall_mem_map] at hcounted
  obtain ⟨⟨⟨⟨⟨haccounts, hevents⟩, htypes⟩, hconstants⟩, -⟩, -⟩ := hcounted
  rw [h.rest]
  refine ⟨?_, ?_, ?_, ?_, ?_⟩
  · exact fun account haccount ty hty =>
      haccounts account haccount ty hty (hwritten.accounts account haccount ty hty)
  · exact fun event hevent => hevents event hevent (hwritten.events event hevent)
  · intro ty hty
    have hmem := (List.mem_filter.mp hty).1
    exact htypes ty hmem (hwritten.types ty hmem)
  · exact fun constant hconstant =>
      hconstants constant hconstant (hwritten.constants constant hconstant)
  · intro ix' hix' ty' hty'
    obtain ⟨ix, hix, hretyped⟩ := forall₂_mem_right h.instructions hix'
    obtain ⟨ty, hty, room, hrun⟩ := forall₂_mem_right hretyped.types hty'
    exact ⟨inlineLinks_written (inlineDefs_written hwritten)
      (hwritten.instructions ix hix ty hty) hrun,
      (inlineDefs_bodiesKept program).inlineLinks_kept hrun⟩

theorem flatten_resolved (h : flattenInstructionDataArguments unwrapped = .ok flattened)
    (hresolved : OnTypes (Resolved program) unwrapped) : OnTypes (Resolved program) flattened := by
  obtain ⟨hrest, hinstructions⟩ := flatten_spec h
  rw [hrest]
  refine ⟨hresolved.accounts, hresolved.events, hresolved.types, hresolved.constants, ?_⟩
  intro ix' hix' ty' hty'
  obtain ⟨ix, hix, hflattens⟩ := forall₂_mem_right hinstructions hix'
  have htypes := hresolved.instructions ix hix
  obtain hty' | hty' := List.mem_append.mp hty'
  · rw [hflattens.types] at hty'
    obtain ⟨ty, hty, hpart⟩ := List.mem_flatMap.mp hty'
    exact (htypes ty (List.mem_append_left _ hty)).parts ty' hpart
  · rw [hflattens.accounts] at hty'
    exact htypes ty' (List.mem_append_right _ hty')

end Stages

/-! ## Arguments -/

section Arguments

variable {A P C N : Type}

/-- The values of the arguments in place of one of the type. -/
def spreadValue (ty : TypeNode) (v : Wire.Value A) : List (Wire.Value A) :=
  match ty with
  | .struct fields => v.unpack fields.length
  | _ => [v]

/-- The values of all arguments, with the fields of a struct in place of the struct. -/
def spread (inline : Defs) : List TypeNode → List (Wire.Value A) → List (Wire.Value A)
  | ty :: types, v :: vs => spreadValue (replaceLink inline ty) v ++ spread inline types vs
  | _, _ => []

variable {constants : ConstantBytes} {env : Name → Option Encoding} {inline : Defs}
  {bs rest : Bytes}

/-- A struct is read like its fields one after the other. -/
theorem reads_parts_iff {ty : TypeNode} {ws : List (Wire.Value Atom)} :
    Reads (codec constants) env (.all ((partTypes ty).map TypeNode.encoding)) bs ws rest ↔
      ∃ v, Reads (codec constants) env (.one ty.encoding) bs [v] rest ∧ ws = spreadValue ty v := by
  rw [partTypes.eq_def]
  split
  · next fields =>
    have hlength : ((fields.map (·.type)).map TypeNode.encoding).length = fields.length := by
      rw [List.length_map, List.length_map]
    have hfields : fieldEncodings fields = (fields.map (·.type)).map TypeNode.encoding := by
      rw [fieldEncodings_eq, List.map_map]
      rfl
    rw [TypeNode.encoding, hfields]
    constructor
    · intro h
      refine ⟨.pack ws, reads_tuple_iff.mpr ⟨ws, h, rfl⟩, ?_⟩
      rw [spreadValue, ← hlength, ← h.length_eq, Wire.Value.unpack_pack]
    · rintro ⟨v, h, rfl⟩
      obtain ⟨vs, hvs, rfl⟩ := reads_tuple_iff.mp h
      rw [spreadValue, ← hlength, ← hvs.length_eq, Wire.Value.unpack_pack]
      exact hvs
  · next hother =>
    have hspread : ∀ v : Wire.Value Atom, spreadValue ty v = [v] := by
      intro v
      rw [spreadValue.eq_def]
      split
      · next fields => exact absurd rfl (hother fields)
      · rfl
    simp only [hspread, List.map_singleton, reads_cons_iff, reads_nil_iff]
    constructor
    · rintro ⟨v, vs, mid, rfl, h, rfl, rfl⟩
      exact ⟨v, h, rfl⟩
    · rintro ⟨v, h, rfl⟩
      exact ⟨v, [], rest, rfl, h, rfl, rfl⟩

/-- The bytes of the arguments are those of what is put in their place. -/
theorem reads_spread_iff {types : List TypeNode}
    (hlinks : ∀ ty ∈ types, ∀ v bs rest,
      Reads (codec constants) env (.one (replaceLink inline ty).encoding) bs [v] rest ↔
        Reads (codec constants) env (.one ty.encoding) bs [v] rest)
    {ws : List (Wire.Value Atom)} :
    Reads (codec constants) env
        (.all (((types.map (replaceLink inline)).flatMap partTypes).map TypeNode.encoding))
        bs ws rest ↔
      ∃ vs, Reads (codec constants) env (.all (types.map TypeNode.encoding)) bs vs rest ∧
        ws = spread inline types vs := by
  induction types generalizing bs ws with
  | nil =>
      simp only [List.map_nil, List.flatMap_nil, reads_nil_iff]
      constructor
      · rintro ⟨rfl, rfl⟩
        exact ⟨[], ⟨rfl, rfl⟩, rfl⟩
      · rintro ⟨vs, ⟨rfl, rfl⟩, rfl⟩
        exact ⟨rfl, rfl⟩
  | cons ty types ih =>
      obtain ⟨hfirst, hothers⟩ := List.forall_mem_cons.mp hlinks
      rw [List.map_cons, List.flatMap_cons, List.map_append, reads_append_iff, List.map_cons]
      constructor
      · rintro ⟨ls, rs, mid, rfl, hleft, hright⟩
        obtain ⟨v, hv, rfl⟩ := reads_parts_iff.mp hleft
        obtain ⟨vs, hvs, rfl⟩ := (ih hothers).mp hright
        exact ⟨v :: vs, .cons ((hfirst v bs mid).mp hv) hvs, rfl⟩
      · rintro ⟨vs, hvs, rfl⟩
        obtain ⟨v, vs, mid, rfl, hv, hvs⟩ := reads_cons_iff.mp hvs
        exact ⟨_, _, mid, rfl, reads_parts_iff.mpr ⟨v, (hfirst v bs mid).mpr hv, rfl⟩,
          (ih hothers).mpr ⟨vs, hvs, rfl⟩⟩

end Arguments

/-! ## A run -/

/-- The types of the fields of an account, also of a wrapped one. -/
def accountFieldTypes (account : AccountNode) : List TypeNode :=
  account.data.getNestedTypeNode.map (·.type)

/-- A program as the converter writes it. -/
structure Converted (program : ProgramNode) : Prop where
  names : (program.definedTypes.map (·.name)).Nodup
  written : ∀ ty ∈ rootTypes program, Written ty
  inPlace : ∀ account ∈ program.accounts, ∃ fields, account.data = .value fields

/-- Types that are read alike one after the other, each in its program. -/
def ReadAlike (constants : ConstantBytes) (program program' : ProgramNode)
    (types types' : List TypeNode) : Prop :=
  ∀ bs vs rest,
    Reads (codec constants) (typeEnv program) (.all (types.map TypeNode.encoding)) bs vs rest ↔
      Reads (codec constants) (typeEnv program') (.all (types'.map TypeNode.encoding)) bs vs rest

/-- What is kept of a program: the bytes of every item with their values, those of the arguments
with the fields of a struct in place of the struct, and the definition of every link. -/
structure SameBytes (constants : ConstantBytes) (program program' : ProgramNode) : Prop where
  instructions : List.Forall₂ (fun ix ix' => ix'.name = ix.name ∧ ∀ bs ws rest,
    Reads (codec constants) (typeEnv program') (.all ((argumentTypes ix').map TypeNode.encoding))
        bs ws rest ↔
      ∃ vs, Reads (codec constants) (typeEnv program)
        (.all ((argumentTypes ix).map TypeNode.encoding)) bs vs rest ∧
        ws = spread (inlineDefs program) (argumentTypes ix) vs)
    program.instructions program'.instructions
  accounts : List.Forall₂ (fun account account' => account'.name = account.name ∧
    ReadAlike constants program program' (accountFieldTypes account) (accountFieldTypes account'))
    program.accounts program'.accounts
  events : List.Forall₂ (fun event event' => event'.name = event.name ∧
    ReadAlike constants program program' [event.data] [event'.data])
    program.events program'.events
  types : List.Forall₂ (fun ty ty' => ty'.name = ty.name ∧
    ReadAlike constants program program' [ty.type] [ty'.type])
    (program.definedTypes.filter fun ty => !isInlined program ty) program'.definedTypes
  arguments : ∀ ix ∈ program'.instructions, (ix.arguments.map (·.name)).Nodup
  links : ∀ ty ∈ rootTypes program', ∀ name, Occurs (.link name) ty →
    name ∈ program.definedTypes.map (·.name) → name ∈ program'.definedTypes.map (·.name)

section Run

variable {constants : ConstantBytes} {program unwrapped flattened program' : ProgramNode}
  {room : Nat}

/-- A link that is not replaced. -/
def KeptLink (program : ProgramNode) (name name' : Name) : Prop :=
  name' = name ∧ (inlineDefs program).lookup name = none

theorem Resolved.alike {ty ty' : TypeNode} (h : Resolved program ty)
    (hrun : u8ArraysToBytes room ty = some ty') {env env' : Name → Option Encoding} :
    Alike constants env env' (KeptLink program) ty ty' :=
  u8ArraysToBytes_alike h.written (fun name hname => ⟨rfl, h.kept name hname⟩) hrun

theorem Resolved.u8ArraysToBytes {ty ty' : TypeNode} (h : Resolved program ty)
    (hrun : u8ArraysToBytes room ty = some ty') : Resolved program ty' := by
  induction room generalizing ty ty' with
  | zero => cases hrun
  | succ room ih =>
      obtain ⟨replaced, hreplaced, rfl⟩ := Option.map_eq_some_iff.mp hrun
      have hbelow := forEachChildMut_replaced hreplaced
      have hchild : ∀ type ∈ walked ty, Resolved program type := by
        intro type htype
        exact ⟨(written_iff.mp h.written).2 type (walked_subset_children htype),
          (linksKept_iff.mp h.kept).2 type htype⟩
      have hresolved : Resolved program replaced := by
        refine ⟨hbelow.written h.written fun type htype type' hgives _ =>
          (ih (hchild type htype) hgives).written, linksKept_iff.mpr ⟨fun name hname => ?_, ?_⟩⟩
        · subst hname
          exact (linksKept_iff.mp h.kept).1 name hbelow.link
        · intro type' htype'
          obtain ⟨type, htype, hgives⟩ := forall₂_mem_right hbelow.walked htype'
          exact (ih (hchild type htype) hgives).kept
      rw [u8ArrayToBytes.eq_def]
      split
      · split
        · next count _ =>
          refine ⟨written_fixedBytes count, fun name hname => ?_⟩
          have hlink := ((written_fixedBytes count).mem_collectLinks).mp hname
          cases hlink with
          | inside hmem hrest =>
              cases List.mem_singleton.mp hmem
              cases hrest with
              | inside hmem _ => cases hmem
        · exact hresolved
      · exact hresolved

theorem ProgramRetyped.onTypes {P : TypeNode → TypeNode → Prop} {Q : TypeNode → Prop}
    (h : ProgramRetyped P program program') (hQ : OnTypes Q program)
    (hstep : ∀ ty ty', Q ty → P ty ty' → Q ty') : OnTypes Q program' := by
  refine ⟨?_, ?_, ?_, ?_, ?_⟩
  · intro account' haccount' ty' hty'
    obtain ⟨account, haccount, -, -, htypes⟩ := forall₂_mem_right h.accounts haccount'
    obtain ⟨ty, hty, hP⟩ := forall₂_mem_right htypes hty'
    exact hstep ty ty' (hQ.accounts account haccount ty hty) hP
  · intro event' hevent'
    obtain ⟨event, hevent, -, hP⟩ := forall₂_mem_right h.events hevent'
    exact hstep _ _ (hQ.events event hevent) hP
  · intro ty' hty'
    obtain ⟨ty, hty, -, hP⟩ := forall₂_mem_right h.types hty'
    exact hstep _ _ (hQ.types ty hty) hP
  · intro constant' hconstant'
    obtain ⟨constant, hconstant, hP⟩ := forall₂_mem_right h.constants hconstant'
    exact hstep _ _ (hQ.constants constant hconstant) hP
  · intro ix' hix' ty' hty'
    obtain ⟨ix, hix, hretyped⟩ := forall₂_mem_right h.instructions hix'
    obtain ⟨ty, hty, hP⟩ := forall₂_mem_right hretyped.types hty'
    exact hstep ty ty' (hQ.instructions ix hix ty hty) hP

/-- A type that is not replaced is kept. -/
theorem mem_kept {ty : DefinedTypeNode} (hnames : (program.definedTypes.map (·.name)).Nodup)
    (hty : ty ∈ program.definedTypes) (hkept : (inlineDefs program).lookup ty.name = none) :
    ty ∈ program.definedTypes.filter fun ty => !isInlined program ty := by
  refine List.mem_filter.mpr ⟨hty, ?_⟩
  cases hinlined : isInlined program ty with
  | false => rfl
  | true =>
      have hnodup : ((program.definedTypes.filter (isInlined program)).map (·.name)).Nodup :=
        hnames.sublist (List.filter_sublist.map _)
      have hfound := lookup_defsOf_of_mem hnodup (List.mem_filter.mpr ⟨hty, hinlined⟩)
      rw [inlineDefs, hfound] at hkept
      cases hkept

theorem inlineDefs_found (hnames : (program.definedTypes.map (·.name)).Nodup) {name : Name}
    {body : TypeNode} (h : (inlineDefs program).lookup name = some body) :
    typeEnv program name = some body.encoding := by
  obtain ⟨ty, hty, -, rfl, rfl⟩ := inlineDefs_lookup h
  rw [typeEnv, lookup_defsOf_of_mem hnames hty]
  rfl

/-- An argument becomes the body of its type, where that is inlined, or stays as it is. -/
theorem inlines_eq {ix : InstructionNode} (hix : ix ∈ program.instructions) {ty ty' : TypeNode}
    (hty : ty ∈ argumentTypes ix) (h : Inlines program ty ty') :
    ty' = replaceLink (inlineDefs program) ty := by
  obtain ⟨room, hrun⟩ := h
  obtain ⟨name, body, rfl, hfound, heq⟩ | ⟨heq, hnone⟩ := replaceLink_cases (inlineDefs program) ty
  · exact ((inlineDefs_bodiesKept program).inlineLinks_link hfound hrun).trans heq.symm
  · rw [heq]
    refine LinksKept.inlineLinks_eq ?_ hrun
    obtain ⟨arg, harg, rfl⟩ := List.mem_map.mp hty
    cases hdirect : directLink arg with
    | some name =>
        have hlink : arg.type = .link name := by
          rw [directLink] at hdirect
          split at hdirect <;> cases hdirect
          assumption
        refine linksKept_iff.mpr ⟨hnone, ?_⟩
        rw [hlink]
        simp [walked]
    | none =>
        refine linksKept_of_counted ?_
        simp only [countedTypes, List.mem_append, List.mem_flatMap, List.mem_map, List.mem_filter]
        exact .inr ⟨ix, hix, arg, ⟨harg, by rw [hdirect]; rfl⟩, rfl⟩

theorem argumentTypes_inlined {ix ix' : InstructionNode} (hix : ix ∈ program.instructions)
    (h : InstructionRetyped (Inlines program) ix ix') :
    argumentTypes ix' = (argumentTypes ix).map (replaceLink (inlineDefs program)) := by
  have htypes : List.Forall₂ (Inlines program) (argumentTypes ix) (argumentTypes ix') :=
    h.arguments.types fun _ _ => rfl
  have heqs : List.Forall₂ (fun ty ty' => ty' = ty)
      ((argumentTypes ix).map (replaceLink (inlineDefs program))) (argumentTypes ix') := by
    rw [List.forall₂_map_left_iff]
    exact forall₂_imp_mem htypes fun ty hty ty' hinlines => inlines_eq hix hty hinlines
  exact forall₂_eq heqs fun _ _ _ heq => heq

theorem accountFieldTypes_of_value {account : AccountNode} {fields : List StructFieldTypeNode}
    (h : account.data = .value fields) : accountFieldTypes account = dataTypes account := by
  rw [accountFieldTypes, dataTypes, h]
  rfl

section Types

variable (hnames : (program.definedTypes.map (·.name)).Nodup)
  (hkept : flattened.definedTypes = program.definedTypes.filter fun ty => !isInlined program ty)
  (hresolved : OnTypes (Resolved program) flattened)
  (hretyped : ProgramRetyped (Gives (u8ArraysToBytes room)) flattened program')
include hnames hkept hresolved hretyped

/-- Links that are kept stand for formats that are read alike. -/
theorem keptLink_respects :
    Respects (codec constants) (typeEnv program) (codec constants) (typeEnv program')
      (KeptLink program) := by
  have hnames' : (program'.definedTypes.map (·.name)).Nodup := by
    rw [forall₂_map_eq hretyped.types fun _ _ hrow => hrow.1, hkept]
    exact hnames.sublist (List.filter_sublist.map _)
  intro name name' hname
  obtain ⟨heq, hnone⟩ := hname
  rw [heq, typeEnv, typeEnv]
  cases hfound : (defsOf program.definedTypes).lookup name with
  | none =>
      cases hfound' : (defsOf program'.definedTypes).lookup name with
      | none => exact .none
      | some type =>
          obtain ⟨ty', hty', rfl, -⟩ := lookup_defsOf_mem hfound'
          obtain ⟨ty, hty, hname, -⟩ := forall₂_mem_right hretyped.types hty'
          rw [hkept] at hty
          rw [hname, lookup_defsOf_of_mem hnames (List.mem_filter.mp hty).1] at hfound
          cases hfound
  | some type =>
      obtain ⟨ty, hty, rfl, rfl⟩ := lookup_defsOf_mem hfound
      have hmem : ty ∈ flattened.definedTypes := hkept ▸ mem_kept hnames hty hnone
      obtain ⟨ty', hty', hname, hgives⟩ := forall₂_mem_right hretyped.types.flip hmem
      rw [← hname, lookup_defsOf_of_mem hnames' hty']
      exact .some ((hresolved.types ty hmem).alike hgives).similar

theorem readAlike {types types' : List TypeNode}
    (h : List.Forall₂ (Gives (u8ArraysToBytes room)) types types')
    (htypes : ∀ ty ∈ types, Resolved program ty) :
    ReadAlike constants program program' types types' := by
  intro bs vs rest
  refine Similar.all_reads_iff (keptLink_respects hnames hkept hresolved hretyped) ?_
  exact items_similar (forall₂_imp_mem h fun ty hty ty' hgives => (htypes ty hty).alike hgives)

/-- The arguments of an instruction, along the three passes. -/
theorem arguments_spread {ix inlined flat ix' : InstructionNode}
    (hix : ix ∈ program.instructions) (hflat : flat ∈ flattened.instructions)
    (hinlined : InstructionRetyped (Inlines program) ix inlined)
    (hflattened : Flattens inlined flat)
    (hix' : InstructionRetyped (Gives (u8ArraysToBytes room)) flat ix') (bs : List UInt8)
    (ws : List (Wire.Value Atom)) (rest : List UInt8) :
    Reads (codec constants) (typeEnv program') (.all ((argumentTypes ix').map TypeNode.encoding))
        bs ws rest ↔
      ∃ vs, Reads (codec constants) (typeEnv program)
        (.all ((argumentTypes ix).map TypeNode.encoding)) bs vs rest ∧
        ws = spread (inlineDefs program) (argumentTypes ix) vs := by
  have hsame : ReadAlike constants program program' (argumentTypes flat) (argumentTypes ix') :=
    readAlike hnames hkept hresolved hretyped (hix'.arguments.types fun _ _ => rfl) fun ty hty =>
      hresolved.instructions flat hflat ty (List.mem_append_left _ hty)
  refine (hsame bs ws rest).symm.trans ?_
  rw [hflattened.types, argumentTypes_inlined hix hinlined]
  refine reads_spread_iff fun ty _ v bs rest => ?_
  obtain ⟨name, body, rfl, hfound, heq⟩ | ⟨heq, -⟩ := replaceLink_cases (inlineDefs program) ty
  · rw [heq]
    exact (reads_link_iff (inlineDefs_found hnames hfound)).symm
  · rw [heq]

/-- A link of the result is not one that was replaced, and what it names is kept. -/
theorem links_defined :
    ∀ ty ∈ rootTypes program', ∀ name, Occurs (.link name) ty →
      name ∈ program.definedTypes.map (·.name) → name ∈ program'.definedTypes.map (·.name) := by
  intro ty hty name hoccurs hname
  have hresolved' := hretyped.onTypes hresolved fun ty ty' hty hgives => hty.u8ArraysToBytes hgives
  have htype := onTypes_iff.mp hresolved' ty hty
  have hnone := htype.kept name (htype.written.mem_collectLinks.mpr hoccurs)
  obtain ⟨definition, hdefinition, rfl⟩ := List.mem_map.mp hname
  have hmem : definition ∈ flattened.definedTypes := hkept ▸ mem_kept hnames hdefinition hnone
  obtain ⟨definition', hdefinition', hname', -⟩ := forall₂_mem_right hretyped.types.flip hmem
  exact List.mem_map.mpr ⟨definition', hdefinition', hname'⟩

end Types

/-- Other types for its arguments leave their names as flattening made them. -/
theorem Flattens.retyped_distinct {P : TypeNode → TypeNode → Prop} {ix flat ix' : InstructionNode}
    (h : Flattens ix flat) (hretyped : InstructionRetyped P flat ix') :
    (ix'.arguments.map (·.name)).Nodup := by
  have hnames : ix'.arguments.map (·.name) = flat.arguments.map (·.name) := by
    refine forall₂_map_eq hretyped.arguments fun arg arg' hrow => ?_
    obtain ⟨type, -, rfl⟩ := hrow
    rfl
  rw [hnames]
  exact h.distinct

/-- The passes after the addresses are set. -/
theorem sameBytes_of_unwraps (hnames : (program.definedTypes.map (·.name)).Nodup)
    (hwritten : OnTypes Written program)
    (hinPlace : ∀ account ∈ program.accounts, ∃ fields, account.data = .value fields)
    (hunwraps : Unwraps program unwrapped)
    (hflatten : flattenInstructionDataArguments unwrapped = .ok flattened)
    (htransform : transformU8ArraysToBytes room flattened = some program') :
    SameBytes constants program program' := by
  have hresolved := flatten_resolved hflatten (hunwraps.resolved hwritten)
  obtain ⟨hrest, hflattens⟩ := flatten_spec hflatten
  have hretyped := transform_retyped htransform
  have hkept : flattened.definedTypes =
      program.definedTypes.filter fun ty => !isInlined program ty := by
    rw [hrest, hunwraps.rest]
  have haccounts : flattened.accounts = program.accounts := by rw [hrest, hunwraps.rest]
  have hevents : flattened.events = program.events := by rw [hrest, hunwraps.rest]
  have halike :=
    @readAlike constants program flattened program' room hnames hkept hresolved hretyped
  refine ⟨?_, ?_, ?_, ?_, ?_, links_defined hnames hkept hresolved hretyped⟩
  · have hall := forall₂_comp (forall₂_comp hunwraps.instructions hflattens) hretyped.instructions
    refine forall₂_imp_mem hall fun ix hix ix' hrow => ?_
    obtain ⟨flat, hflat, ⟨inlined, -, hinlined, hflattened⟩, hix'⟩ := hrow
    exact ⟨hix'.name.trans (hflattened.name.trans hinlined.name),
      arguments_spread hnames hkept hresolved hretyped hix hflat hinlined hflattened hix'⟩
  · rw [← haccounts]
    refine forall₂_imp_mem hretyped.accounts fun account haccount account' hrow => ?_
    obtain ⟨hname, hvalue, htypes⟩ := hrow
    obtain ⟨fields, hfields⟩ := hinPlace account (haccounts ▸ haccount)
    obtain ⟨fields', hfields'⟩ := hvalue fields hfields
    rw [accountFieldTypes_of_value hfields, accountFieldTypes_of_value hfields']
    exact ⟨hname, halike htypes (hresolved.accounts account haccount)⟩
  · rw [← hevents]
    refine forall₂_imp_mem hretyped.events fun event hevent event' hrow => ?_
    refine ⟨hrow.1, halike (.cons hrow.2 .nil) fun ty hty => ?_⟩
    exact List.mem_singleton.mp hty ▸ hresolved.events event hevent
  · rw [← hkept]
    refine forall₂_imp_mem hretyped.types fun definition hdefinition definition' hrow => ?_
    refine ⟨hrow.1, halike (.cons hrow.2 .nil) fun ty hty => ?_⟩
    exact List.mem_singleton.mp hty ▸ hresolved.types definition hdefinition
  · intro ix' hix'
    obtain ⟨flat, hflat, hretypedIx⟩ := forall₂_mem_right hretyped.instructions hix'
    obtain ⟨ix, -, hflattened⟩ := forall₂_mem_right hflattens hflat
    exact hflattened.retyped_distinct hretypedIx

theorem seedTypes_default (account : InstructionAccountNode) :
    seedTypes (setAccountDefaultValue account) = seedTypes account := by
  rw [seedTypes, seedTypes, inPlacePda_default]

/-- Setting addresses changes no bytes. -/
theorem SameBytes.of_default
    (h : SameBytes constants (setInstructionAccountDefaultValues program) program') :
    SameBytes constants program program' where
  instructions := by
    have hinstructions := h.instructions
    rw [inlineDefs_default] at hinstructions
    exact List.forall₂_map_left_iff.mp hinstructions
  accounts := h.accounts
  events := h.events
  types := by
    have htypes := h.types
    rw [isInlined_default] at htypes
    exact htypes
  arguments := h.arguments
  links := h.links

end Run

/-- A run of the passes that succeeds keeps the wire format of every item, the definition of
every link, and gives each instruction arguments of distinct names. -/
theorem run_sameBytes (constants : ConstantBytes) {program program' : ProgramNode} {room : Nat}
    (hconverted : Converted program) (hrun : run room program = some (.ok program')) :
    SameBytes constants program program' := by
  obtain ⟨unwrapped, hunwrap, h⟩ := Option.bind_eq_some_iff.mp hrun
  split at h
  · cases h
  · next flattened hflatten =>
    obtain ⟨transformed, htransform, hok⟩ := Option.map_eq_some_iff.mp h
    cases hok
    have hwritten := onTypes_iff.mpr hconverted.written
    refine SameBytes.of_default (sameBytes_of_unwraps hconverted.names ?_ hconverted.inPlace
      (unwrap_spec hunwrap) hflatten htransform)
    refine ⟨hwritten.accounts, hwritten.events, hwritten.types, hwritten.constants, ?_⟩
    intro ix' hix' ty hty
    obtain ⟨ix, hix, rfl⟩ := List.mem_map.mp hix'
    refine hwritten.instructions ix hix ty ?_
    rw [instructionTypes, List.flatMap_map] at hty
    simp only [seedTypes_default] at hty
    exact hty

def depositField (name : String) (type : TypeNode) : StructFieldTypeNode :=
  ⟨name.toList, none, type, none⟩

/-- Its arguments are inlined and flattened, and the type of its account refers to itself. -/
def depositProgram : ProgramNode where
  publicKey := "program".toList
  accounts := [⟨"vault".toList, .value [depositField "first" (.link "node".toList)], []⟩]
  instructions :=
    [ { name := "deposit".toList
        accounts := [⟨"systemProgram".toList, none, none⟩]
        arguments :=
          [ discriminatorArgument [1],
            ⟨"args".toList, none, .link "depositArgs".toList, none⟩ ]
        discriminators := [fieldDiscriminator] } ]
  definedTypes :=
    [ ⟨"depositArgs".toList, .struct
        [ depositField "amount" (.number (.littleEndian .u64)),
          depositField "salt" (.array (.number (.littleEndian .u8)) (.fixed 4)) ]⟩,
      ⟨"node".toList, .struct
        [ depositField "owner" .publicKey,
          depositField "next" (.option none (.link "node".toList)
            (.value (.littleEndian .u8))) ]⟩ ]
  events := []
  constants := []

theorem depositProgram_converted : Converted depositProgram where
  names := by decide
  written := by
    have hlink : ∀ raw name : Name, ident raw = .ok name → Written (.link name) :=
      fun raw name h => written_of_leaf ⟨raw, h⟩ rfl
    have hnode : Written (.link "node".toList) := hlink "node".toList _ rfl
    have hnumber : ∀ number, Written (.number number) := fun _ => written_of_leaf trivial rfl
    have hargs : Written (.struct
        [ depositField "amount" (.number (.littleEndian .u64)),
          depositField "salt" (.array (.number (.littleEndian .u8)) (.fixed 4)) ]) :=
      written_struct (List.forall_mem_cons.mpr ⟨hnumber _,
        List.forall_mem_singleton.mpr (written_wrapper trivial rfl (hnumber _))⟩)
    have hnext : Written (.struct
        [ depositField "owner" .publicKey,
          depositField "next" (.option none (.link "node".toList)
            (.value (.littleEndian .u8))) ]) :=
      written_struct (List.forall_mem_cons.mpr ⟨written_of_leaf trivial rfl,
        List.forall_mem_singleton.mpr (written_wrapper trivial rfl hnode)⟩)
    simp only [rootTypes, depositProgram, instructionTypes, argumentTypes, dataTypes,
      List.flatMap_cons, List.flatMap_nil, List.map_cons, List.map_nil, List.append_nil,
      List.forall_mem_append, List.forall_mem_cons]
    refine ⟨⟨⟨hnode, by simp⟩, hargs, hnext, by simp⟩,
      ⟨written_fixedBytes _, hlink "depositArgs".toList _ rfl, by simp⟩, ?_⟩
    simp [seedTypes, inPlacePda]
  inPlace := by
    intro account haccount
    cases List.mem_singleton.mp haccount
    exact ⟨_, rfl⟩

theorem run_sameBytes_deposit : ∃ program', run 8 depositProgram = some (.ok program') ∧
    SameBytes (fun _ _ => none) depositProgram program' := by
  have hrun : ∃ program', run 8 depositProgram = some (.ok program') := ⟨_, rfl⟩
  obtain ⟨program', hrun⟩ := hrun
  exact ⟨program', hrun, run_sameBytes _ depositProgram_converted hrun⟩

end Shipstern.Anchor
