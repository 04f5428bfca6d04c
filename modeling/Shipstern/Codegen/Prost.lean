import Shipstern.Codegen.ProstImpls
import Shipstern.Lib.TaggedFields

/-!
# What the generated codecs use of `prost`

`Prost` lists the functions of `prost::encoding` that the generated impls call, and what the derives
of `prost` make of a union of messages and of the wrapper of a key. Nothing is known of them but
`Prost.Lawful`: an encoder writes a key and a body, the decoder of the same type takes that body,
a message is merged field by field one level further down, and nothing in there panics by itself.

A message of the generated code is its Rust type with its impl of `prost::Message`. `depth` and
`sent` are not part of the impl: they say how deep the encoding of a value nests, and what of a
value is written at all.
-/

namespace Shipstern.Codegen

open Codama CanonicalCode TaggedFields

inductive WireType
  | varint
  | sixtyFourBit
  | lengthDelimited
  | startGroup
  | endGroup
  | thirtyTwoBit
deriving DecidableEq

/-- What stands in front of the body of a field. -/
structure FieldKey where
  tag : Nat
  wireType : WireType
deriving DecidableEq

/-- The tags that `decode_key` lets through. -/
def ValidTag (tag : Nat) : Prop := 1 ≤ tag ∧ tag < 2 ^ 29

instance (tag : Nat) : Decidable (ValidTag tag) := inferInstanceAs (Decidable (_ ∧ _))

/-- `prost::DecodeError`, with the messages and fields around the failure, innermost first. -/
structure DecodeError where
  description : List Char
  stack : List (Name × Name)
deriving DecidableEq

def DecodeError.new (description : List Char) : DecodeError := ⟨description, []⟩

def DecodeError.push (e : DecodeError) (message field : Name) : DecodeError :=
  { e with stack := e.stack ++ [(message, field)] }

inductive DecodeFailure
  | error (e : DecodeError)
  | panic (message : List Char)
deriving DecidableEq

def DecodeFailure.IsError (failure : DecodeFailure) : Prop := ∃ e, failure = .error e

/-- Take something off the front of a buffer. -/
abbrev Decode := Reader DecodeFailure UInt8

def decodeError (description : List Char) : DecodeFailure := .error (.new description)

/-- `map_err` on the result of a decoder. A panic is no result. -/
def Decode.mapErr {α : Type} (x : Decode α) (f : DecodeError → DecodeError) : Decode α :=
  fun bytes =>
    match x bytes with
    | .ok result => .ok result
    | .error (.error e) => .error (.error (f e))
    | .error (.panic message) => .error (.panic message)

theorem reads_bind {α β : Type} {x : Decode α} {f : α → Decode β} {body : List UInt8} {a : α} {b : β}
    (h : Reads x body a) (hf : ∀ rest, f a rest = .ok (b, rest)) : Reads (x >>= f) body b := by
  intro rest
  rw [bind_of_ok (h rest)]
  exact hf rest

theorem reads_mapErr {α : Type} {x : Decode α} {body : List UInt8} {a : α}
    (f : DecodeError → DecodeError) (h : Reads x body a) : Reads (x.mapErr f) body a := by
  intro rest
  rw [Decode.mapErr, h rest]

/-- The Rust types of `prost`. Integers and floats are their bits. -/
abbrev WireScalar.Value : WireScalar → Type
  | .bool => Bool
  | .uint32 | .int32 | .float => BitVec 32
  | .uint64 | .int64 | .double => BitVec 64
  | .string => String
  | .bytes => List UInt8

def WireScalar.wireType : WireScalar → WireType
  | .bool | .uint32 | .int32 | .uint64 | .int64 => .varint
  | .float => .thirtyTwoBit
  | .double => .sixtyFourBit
  | .string | .bytes => .lengthDelimited

/-- Repeated fields of the type are packed. -/
def WireScalar.IsNumeric (w : WireScalar) : Prop := w.wireType ≠ .lengthDelimited

/-- Going back from a wider signed integer. -/
theorem setWidth_signExtend {width wide : Nat} (h : width ≤ wide) (v : BitVec width) :
    (v.signExtend wide).setWidth width = v := by
  ext i hi
  rw [BitVec.getElem_setWidth, BitVec.getLsbD_signExtend, if_pos hi, BitVec.getLsbD_eq_getElem hi]
  simp [Nat.lt_of_lt_of_le hi h]

/-- A Rust type with its impl of `prost::Message`. -/
structure MessageImpl (Ctx : Type) where
  Value : Type
  encodeRaw : Value → List UInt8
  encodedLen : Value → Nat
  mergeField : Ctx → FieldKey → Value → Decode Value
  depth : Value → Nat
  sent : Value → Value

/-- A message type that has a default, as every type of a field does. -/
structure Message (Ctx : Type) extends MessageImpl Ctx where
  default : Value

/-- A union: its tags, and the messages that they stand for. -/
abbrev Variants (Ctx : Type) := List (Nat × Message Ctx)

/-- A value of one of the variants. -/
def OneofValue {Ctx : Type} : Variants Ctx → Type
  | [] => Empty
  | (_, m) :: variants => m.Value ⊕ OneofValue variants

/-- The methods of a type that is a `prost::Oneof`. -/
structure OneofImpl (V Ctx : Type) where
  encode : V → List UInt8
  merge : Ctx → FieldKey → Option V → Decode (Option V)
  encodedLen : V → Nat

structure Prost where
  /-- `DecodeContext`. -/
  Ctx : Type
  defaultCtx : Ctx
  /-- One level further down, unless that is one too many. -/
  enterRecursion : Ctx → Option Ctx
  encodeKey : FieldKey → List UInt8
  keyLen : Nat → Nat
  encodeVarint : Nat → List UInt8
  encodedLenVarint : Nat → Nat
  skipField : Ctx → FieldKey → Decode Unit
  /-- The modules of the scalar types. -/
  encode (w : WireScalar) : Nat → w.Value → List UInt8
  encodedLen (w : WireScalar) : Nat → w.Value → Nat
  merge (w : WireScalar) : Ctx → WireType → w.Value → Decode w.Value
  mergeRepeated (w : WireScalar) : Ctx → WireType → List w.Value → Decode (List w.Value)
  encodedLenRepeated (w : WireScalar) : Nat → List w.Value → Nat
  encodePacked (w : WireScalar) : Nat → List w.Value → List UInt8
  encodedLenPacked (w : WireScalar) : Nat → List w.Value → Nat
  /-- The module `message`. A message comes as its `encoded_len` and its `encode_raw`, or as its
  `merge_field`. -/
  messageEncode : Nat → Nat → List UInt8 → List UInt8
  messageEncodedLen : Nat → Nat → Nat
  messageEncodedLenRepeated : Nat → List Nat → Nat
  messageMerge {V : Type} : (Ctx → FieldKey → V → Decode V) → Ctx → WireType → V → Decode V
  messageMergeRepeated {V : Type} :
    V → (Ctx → FieldKey → V → Decode V) → Ctx → WireType → List V → Decode (List V)
  /-- `Message::merge`. -/
  mergeAll {V : Type} :
    (Ctx → FieldKey → V → Decode V) → V → List UInt8 → Except DecodeFailure V
  /-- What the derive makes of a union of messages, by the name of the enum. -/
  derivedOneof (name : Name) (variants : Variants Ctx) : OneofImpl (OneofValue variants) Ctx
  /-- What the derive makes of the wrapper of a key, a struct with one field of bytes. -/
  wrapperEncodeRaw : List UInt8 → List UInt8
  wrapperEncodedLen : List UInt8 → Nat
  wrapperMergeField : Ctx → FieldKey → List UInt8 → Decode (List UInt8)

namespace Prost

variable (prost : Prost)

/-- There is room for the given number of levels. -/
def Allows : Nat → prost.Ctx → Prop
  | 0, _ => True
  | n + 1, ctx => ∃ inner, prost.enterRecursion ctx = some inner ∧ Allows n inner

variable {prost} in
theorem Allows.mono {m n : Nat} {ctx : prost.Ctx} (h : prost.Allows n ctx) (hle : m ≤ n) :
    prost.Allows m ctx := by
  induction m generalizing n ctx with
  | zero => trivial
  | succ m ih =>
      obtain ⟨n, rfl⟩ : ∃ k, n = k + 1 := ⟨n - 1, by omega⟩
      obtain ⟨inner, henter, hrest⟩ := h
      exact ⟨inner, henter, ih hrest (Nat.le_of_succ_le_succ hle)⟩

/-! ## Unions -/

/-- What `unreachable!` panics with. -/
def unreachableTag (name : Name) (tag : Nat) : DecodeFailure :=
  .panic ("internal error: entered unreachable code: invalid ".toList ++ name ++
    " tag: ".toList ++ Nat.toDigits 10 tag)

/-- The arms of the match on the tag. A value of the same variant is merged into. -/
def oneofArms (name : Name) : (variants : Variants prost.Ctx) → prost.Ctx → FieldKey →
    Option (OneofValue variants) → Decode (OneofValue variants)
  | [], _, key, _ => throw (unreachableTag name key.tag)
  | (tag, m) :: variants, ctx, key, field =>
      if key.tag = tag then
        Sum.inl <$> prost.messageMerge m.mergeField ctx key.wireType
          ((field.bind Sum.getLeft?).getD m.default)
      else Sum.inr <$> oneofArms name variants ctx key (field.bind Sum.getRight?)

def oneofMerge (name : Name) (variants : Variants prost.Ctx) (ctx : prost.Ctx) (key : FieldKey)
    (field : Option (OneofValue variants)) : Decode (Option (OneofValue variants)) :=
  some <$> prost.oneofArms name variants ctx key field

def oneofEncode : (variants : Variants prost.Ctx) → OneofValue variants → List UInt8
  | (tag, m) :: _, .inl value => prost.messageEncode tag (m.encodedLen value) (m.encodeRaw value)
  | _ :: variants, .inr later => oneofEncode variants later

def oneofEncodedLen : (variants : Variants prost.Ctx) → OneofValue variants → Nat
  | (tag, m) :: _, .inl value => prost.messageEncodedLen tag (m.encodedLen value)
  | _ :: variants, .inr later => oneofEncodedLen variants later

/-! ## What is known -/

/-- A length is a `u64`. -/
def Fits (bytes : List UInt8) : Prop := bytes.length < 2 ^ 64

theorem Fits.of_append_right {front back : List UInt8} (h : Fits (front ++ back)) : Fits back := by
  rw [Fits, List.length_append] at h
  exact Nat.lt_of_le_of_lt (Nat.le_add_left _ _) h

theorem Fits.of_eq_append {bytes front back : List UInt8} (h : Fits bytes)
    (heq : bytes = front ++ back) : Fits back := by
  rw [heq] at h
  exact h.of_append_right

theorem Fits.of_append_left {front back : List UInt8} (h : Fits (front ++ back)) : Fits front := by
  rw [Fits, List.length_append] at h
  exact Nat.lt_of_le_of_lt (Nat.le_add_right _ _) h

theorem Fits.of_flatMap {α : Type} {encode : α → List UInt8} {items : List α}
    (h : Fits (items.flatMap encode)) {item : α} (hitem : item ∈ items) : Fits (encode item) := by
  obtain ⟨before, after, rfl⟩ := List.append_of_mem hitem
  rw [List.flatMap_append, List.flatMap_cons] at h
  exact h.of_append_right.of_append_left

/-- The body of a message. -/
def messageBody (raw : List UInt8) : List UInt8 :=
  prost.encodeVarint raw.length ++ raw

structure Lawful : Prop where
  keyLen_eq : ∀ {tag} wireType, ValidTag tag →
    prost.keyLen tag = (prost.encodeKey ⟨tag, wireType⟩).length
  encodedLenVarint_eq : ∀ n, prost.encodedLenVarint n = (prost.encodeVarint n).length
  encodedLen_eq : ∀ {w tag} value, ValidTag tag →
    prost.encodedLen w tag value = (prost.encode w tag value).length
  /-- A scalar is its key and a body, alone or as the next item of a list of strings. -/
  scalar : ∀ w, ∃ body : w.Value → List UInt8,
    (∀ {tag} value, ValidTag tag →
      prost.encode w tag value = prost.encodeKey ⟨tag, w.wireType⟩ ++ body value) ∧
    (∀ ctx old value, Fits (body value) →
      Reads (prost.merge w ctx w.wireType old) (body value) value) ∧
    (¬ w.IsNumeric → ∀ ctx values value, Fits (body value) →
      Reads (prost.mergeRepeated w ctx w.wireType values) (body value) (values ++ [value])) ∧
    ∀ {tag ctx} value, ValidTag tag → prost.Allows 1 ctx → Fits (body value) →
      Reads (prost.skipField ctx ⟨tag, w.wireType⟩) (body value) ()
  encodedLenRepeated_eq : ∀ {w tag} values, ValidTag tag →
    prost.encodedLenRepeated w tag values = (values.map (prost.encodedLen w tag)).sum
  encodePacked_nil : ∀ {w tag}, w.IsNumeric → prost.encodePacked w tag [] = []
  packed : ∀ {w tag values}, w.IsNumeric → ValidTag tag → values ≠ [] →
    ∃ body, prost.encodePacked w tag values =
        prost.encodeKey ⟨tag, .lengthDelimited⟩ ++ body ∧
      (∀ ctx old, Fits body →
        Reads (prost.mergeRepeated w ctx .lengthDelimited old) body (old ++ values)) ∧
      ∀ ctx, prost.Allows 1 ctx → Fits body →
        Reads (prost.skipField ctx ⟨tag, .lengthDelimited⟩) body ()
  encodedLenPacked_eq : ∀ {w tag} values, w.IsNumeric → ValidTag tag →
    prost.encodedLenPacked w tag values = (prost.encodePacked w tag values).length
  messageEncode_eq : ∀ {tag len} raw, ValidTag tag →
    prost.messageEncode tag len raw =
      prost.encodeKey ⟨tag, .lengthDelimited⟩ ++ (prost.encodeVarint len ++ raw)
  messageEncodedLen_eq : ∀ {tag} len, ValidTag tag →
    prost.messageEncodedLen tag len = prost.keyLen tag + prost.encodedLenVarint len + len
  messageEncodedLenRepeated_eq : ∀ {tag} lens, ValidTag tag →
    prost.messageEncodedLenRepeated tag lens = (lens.map (prost.messageEncodedLen tag)).sum
  /-- The fields of a message are merged one level further down. -/
  messageMerge_reads : ∀ {V : Type} {mergeField : prost.Ctx → FieldKey → V → Decode V}
    {ctx inner : prost.Ctx} {a b : V} {fields : List (Field UInt8 FieldKey)},
    prost.enterRecursion ctx = some inner → Absorbs (mergeField inner) a fields b →
    (∀ field ∈ fields, ValidTag field.1.tag) → Fits (symbols prost.encodeKey fields) →
    Reads (prost.messageMerge mergeField ctx .lengthDelimited a)
      (prost.encodeVarint (symbols prost.encodeKey fields).length ++
        symbols prost.encodeKey fields) b
  messageMergeRepeated_eq : ∀ {V : Type} (default : V)
    (mergeField : prost.Ctx → FieldKey → V → Decode V) (ctx : prost.Ctx) (wireType : WireType)
    (values : List V), prost.messageMergeRepeated default mergeField ctx wireType values =
      (fun value => values ++ [value]) <$> prost.messageMerge mergeField ctx wireType default
  skipMessage_reads : ∀ {tag ctx} (raw : List UInt8), ValidTag tag → prost.Allows 1 ctx → Fits raw →
    Reads (prost.skipField ctx ⟨tag, .lengthDelimited⟩) (prost.encodeVarint raw.length ++ raw) ()
  mergeAll_eq : ∀ {V : Type} {mergeField : prost.Ctx → FieldKey → V → Decode V} {a b : V}
    {fields : List (Field UInt8 FieldKey)}, Absorbs (mergeField prost.defaultCtx) a fields b →
    (∀ field ∈ fields, ValidTag field.1.tag) →
    prost.mergeAll mergeField a (symbols prost.encodeKey fields) = .ok b
  derivedOneof_eq : ∀ name variants, prost.derivedOneof name variants =
    ⟨prost.oneofEncode variants, prost.oneofMerge name variants, prost.oneofEncodedLen variants⟩
  wrapperEncodeRaw_eq : ∀ value, prost.wrapperEncodeRaw value =
    if value = [] then [] else prost.encode .bytes 1 value
  wrapperEncodedLen_eq : ∀ value, prost.wrapperEncodedLen value =
    if value = [] then 0 else prost.encodedLen .bytes 1 value
  wrapperMergeField_eq : ∀ ctx key value, prost.wrapperMergeField ctx key value =
    if key.tag = 1 then
      (prost.merge .bytes ctx key.wireType value).mapErr
        (·.push "PublicKeyProtoWrapper".toList "value".toList)
    else (fun () => value) <$> prost.skipField ctx key

/-- Failures of `prost` are errors. A panic comes from the `merge_field` that it is given, and goes
all the way up. -/
structure PanicFree : Prop where
  merge : ∀ w ctx wireType old, FailsOnly DecodeFailure.IsError (prost.merge w ctx wireType old)
  mergeRepeated : ∀ w ctx wireType values,
    FailsOnly DecodeFailure.IsError (prost.mergeRepeated w ctx wireType values)
  skipField : ∀ ctx key, FailsOnly DecodeFailure.IsError (prost.skipField ctx key)
  messageMerge : ∀ {V : Type} {mergeField : prost.Ctx → FieldKey → V → Decode V} {ctx : prost.Ctx},
    (∀ inner, prost.enterRecursion ctx = some inner → ∀ key, ValidTag key.tag →
      ∀ v, FailsOnly DecodeFailure.IsError (mergeField inner key v)) →
    ∀ wireType v, FailsOnly DecodeFailure.IsError (prost.messageMerge mergeField ctx wireType v)
  mergeAll : ∀ {V : Type} {mergeField : prost.Ctx → FieldKey → V → Decode V},
    (∀ key, ValidTag key.tag →
      ∀ v, FailsOnly DecodeFailure.IsError (mergeField prost.defaultCtx key v)) →
    ∀ start bytes failure, prost.mergeAll mergeField start bytes = .error failure → failure.IsError
  messageMerge_panics : ∀ {V : Type} {mergeField : prost.Ctx → FieldKey → V → Decode V}
    {ctx inner : prost.Ctx} {key : FieldKey} {body rest : List UInt8} {v : V} {message : List Char},
    prost.enterRecursion ctx = some inner → ValidTag key.tag → Fits (prost.encodeKey key ++ body) →
    mergeField inner key v (body ++ rest) = .error (.panic message) →
    prost.messageMerge mergeField ctx .lengthDelimited v
      (prost.messageBody (prost.encodeKey key ++ body) ++ rest) = .error (.panic message)
  mergeAll_panics : ∀ {V : Type} {mergeField : prost.Ctx → FieldKey → V → Decode V}
    {key : FieldKey} {body : List UInt8} {v : V} {message : List Char}, ValidTag key.tag →
    mergeField prost.defaultCtx key v body = .error (.panic message) →
    prost.mergeAll mergeField v (prost.encodeKey key ++ body) = .error (.panic message)
  /-- The recursion limit, and the largest sizes of a key and of a length. -/
  limit : ¬ prost.Allows 101 prost.defaultCtx
  length_encodeKey_le : ∀ key, ValidTag key.tag → (prost.encodeKey key).length ≤ 5
  length_encodeVarint_le : ∀ {n}, n < 2 ^ 64 → (prost.encodeVarint n).length ≤ 10

/-- The functions of `prost` know of a message what its `merge_field` does, so a type whose values
stand for those of another is merged alike. -/
structure Uniform : Prop where
  messageMerge : ∀ {V V' : Type} {mergeField : prost.Ctx → FieldKey → V → Decode V}
    {mergeField' : prost.Ctx → FieldKey → V' → Decode V'} {φ : V → V'} {ctx : prost.Ctx},
    (∀ inner, prost.enterRecursion ctx = some inner →
      ∀ key v, mergeField' inner key (φ v) = φ <$> mergeField inner key v) →
    ∀ wireType v, prost.messageMerge mergeField' ctx wireType (φ v) =
      φ <$> prost.messageMerge mergeField ctx wireType v
  mergeAll : ∀ {V V' : Type} {mergeField : prost.Ctx → FieldKey → V → Decode V}
    {mergeField' : prost.Ctx → FieldKey → V' → Decode V'} {φ : V → V'},
    (∀ key v, mergeField' prost.defaultCtx key (φ v) = φ <$> mergeField prost.defaultCtx key v) →
    ∀ start bytes, prost.mergeAll mergeField' (φ start) bytes =
      φ <$> prost.mergeAll mergeField start bytes

end Prost

end Shipstern.Codegen
