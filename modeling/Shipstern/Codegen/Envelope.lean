import Mathlib
import Shipstern.Codegen.Discriminator
import Shipstern.Codegen.Ir
import Shipstern.Lib.Fallible

/-!
# The envelope of self-CPI events

The data of a self-CPI event is an envelope tag, the discriminator of the event and its payload.
The envelope is read off the discriminators that the events of a program declare, and the
discriminators are moved to where they are behind the envelope.

The tag is decoded here by another function than the discriminators in the generated code. The
two agree on bytes, and on numbers of types that are one byte wide.
-/

namespace Shipstern.Codegen

open Codama

structure CpiEventEnvelope where
  discriminator : List UInt8
  /-- Where the discriminator of the event itself begins. -/
  payloadOffset : Nat
deriving DecidableEq

structure ConstantDiscriminatorNode where
  offset : Nat
  constant : ConstantValueNode

inductive ConstantError
  | undecodable (offset : Nat) (encoding : BytesEncoding)
  | signedOrFloat (offset : Nat)
  | neitherBytesNorNumber (offset : Nat)
deriving DecidableEq

inductive EnvelopeError
  | mixedChain (event : Name)
  | manyAtZero (event : Name) (atZero : Nat)
  | constant (event : Name) (reason : ConstantError)
  | overlap (event : Name) (length offset nextOffset : Nat)
  | differentTags (first event : Name) (firstTag tag : List UInt8)
  | differentOffsets (first event : Name) (firstOffset offset : Nat)
  | onlyEnvelope (event : Name) (tag : List UInt8)
deriving DecidableEq

section Codecs

variable (codecs : BytesCodecs)

def tryDecodeBytes (bytes : BytesValueNode) : Option (List UInt8) :=
  match bytes.encoding with
  | .base16 => Hex.decode (padHex bytes.data)
  | .base58 => codecs.base58 bytes.data
  | .base64 => codecs.base64 bytes.data
  | .utf8 => some (String.ofList bytes.data).toUTF8.toList

/-- Numbers narrow to one byte. -/
def constantDiscriminatorBytes (node : ConstantDiscriminatorNode) :
    Except ConstantError (List UInt8) :=
  match node.constant.value with
  | .bytes bytes =>
      match tryDecodeBytes codecs bytes with
      | some decoded => .ok decoded
      | none => .error (.undecodable node.offset bytes.encoding)
  | .number (.unsignedInteger value) => .ok [UInt8.ofNat value]
  | .number _ => .error (.signedOrFloat node.offset)
  | .other => .error (.neitherBytesNorNumber node.offset)

/-! ## The envelope of one event -/

def constantsOf (discriminators : List DiscriminatorNode) : List ConstantDiscriminatorNode :=
  discriminators.filterMap fun
    | .constant offset constant => some ⟨offset, constant⟩
    | _ => none

def sortByOffset (constants : List ConstantDiscriminatorNode) : List ConstantDiscriminatorNode :=
  constants.insertionSort fun a b => a.offset ≤ b.offset

/-- Gaps are allowed. -/
def checkOverlap (event : Name) : List (Nat × List UInt8) → Except EnvelopeError Unit
  | (offset, bytes) :: (nextOffset, nextBytes) :: rest =>
      if (checkedUsize (offset + bytes.length)).any (· ≤ nextOffset) then
        checkOverlap event ((nextOffset, nextBytes) :: rest)
      else .error (.overlap event bytes.length offset nextOffset)
  | _ => .ok ()

def decodeConstants (event : Name) (constants : List ConstantDiscriminatorNode) :
    Except EnvelopeError (List (Nat × List UInt8)) :=
  constants.mapM fun node =>
    match constantDiscriminatorBytes codecs node with
    | .ok bytes => .ok (node.offset, bytes)
    | .error reason => .error (.constant event reason)

/-- None is declared by an event that is matched in the log only. -/
def envelopeOf (event : EventNode) : Except EnvelopeError (Option CpiEventEnvelope) :=
  let constants := constantsOf event.discriminators
  if constants.length ≠ event.discriminators.length then
    if 2 ≤ event.discriminators.length ∧ constants.any (·.offset = 0) then
      .error (.mixedChain event.name)
    else .ok none
  else if constants.length < 2 then .ok none
  else
    let atZero := constants.countP (·.offset = 0)
    if atZero = 0 then .ok none
    else if 1 < atZero then .error (.manyAtZero event.name atZero)
    else do
      let decoded ← decodeConstants codecs event.name (sortByOffset constants)
      checkOverlap event.name decoded
      match decoded with
      | (_, discriminator) :: (payloadOffset, _) :: _ =>
          .ok (some ⟨discriminator, payloadOffset⟩)
      | _ => .ok none

/-! ## The envelope of a program -/

structure ProgramEnvelope where
  envelope : CpiEventEnvelope
  /-- For each event, in order, whether it declares the envelope. -/
  enveloped : List (Name × Bool)

/-- What is known after some of the events. -/
structure EnvelopeScan where
  found : Option (Name × CpiEventEnvelope)
  enveloped : List (Name × Bool)
  loneConstants : List (Name × List UInt8)

/-- The one discriminator of an event, when it is a constant at offset 0. -/
def loneConstant (event : EventNode) : Option (Name × List UInt8) :=
  match event.discriminators with
  | [.constant 0 constant] =>
      match constantDiscriminatorBytes codecs ⟨0, constant⟩ with
      | .ok bytes => some (event.name, bytes)
      | .error _ => none
  | _ => none

def scanEnvelope (scan : EnvelopeScan) (event : EventNode) : Except EnvelopeError EnvelopeScan := do
  match ← envelopeOf codecs event with
  | none =>
      .ok { scan with
        enveloped := scan.enveloped ++ [(event.name, false)]
        loneConstants := scan.loneConstants ++ (loneConstant codecs event).toList }
  | some envelope =>
      let enveloped := scan.enveloped ++ [(event.name, true)]
      match scan.found with
      | none => .ok { scan with found := some (event.name, envelope), enveloped }
      | some (firstName, first) =>
          if first.discriminator ≠ envelope.discriminator then
            .error (.differentTags firstName event.name first.discriminator envelope.discriminator)
          else if first.payloadOffset ≠ envelope.payloadOffset then
            .error (.differentOffsets firstName event.name first.payloadOffset
              envelope.payloadOffset)
          else .ok { scan with enveloped }

def programEnvelope (events : List EventNode) : Except EnvelopeError (Option ProgramEnvelope) := do
  let scan ← events.foldlM (scanEnvelope codecs) ⟨none, [], []⟩
  match scan.found with
  | none => .ok none
  | some (_, envelope) =>
      match scan.loneConstants.find? (·.2 = envelope.discriminator) with
      | some (name, _) => .error (.onlyEnvelope name envelope.discriminator)
      | none => .ok (some ⟨envelope, scan.enveloped⟩)

/-- The envelope of each event. The panics are those of events that are not the validated ones. -/
def ProgramEnvelope.resolve (program : ProgramEnvelope) (events : List EventNode) :
    Option (List (Option CpiEventEnvelope)) :=
  if events.length = program.enveloped.length then
    (program.enveloped.zip events).mapM fun ((name, enveloped), event) =>
      if name = event.name then some (if enveloped then some program.envelope else none) else none
  else none

/-- The first instruction that shares a prefix with the tag, and its discriminator. -/
def envelopeInstructionCollision (discriminator : List UInt8) :
    List InstructionNode → Gen (Option (Name × List UInt8))
  | [] => .ok none
  | ix :: instructions => do
      match ← extractIxDiscriminatorKey codecs ix with
      | some (.field 0 bytes) =>
          let shared := min bytes.length discriminator.length
          if bytes ≠ [] ∧ bytes.take shared = discriminator.take shared then
            .ok (some (ix.name, bytes))
          else envelopeInstructionCollision discriminator instructions
      | _ => envelopeInstructionCollision discriminator instructions

/-! ## Discriminators behind the envelope -/

/-- The constants of an event behind the envelope, at the offsets that they have there. -/
def rebasedConstants (event : EventNode) (envelope : CpiEventEnvelope) :
    List ConstantDiscriminatorNode :=
  sortByOffset <| (constantsOf event.discriminators).filterMap fun node =>
    if node.offset = 0 then none
    else some { node with offset := node.offset - envelope.payloadOffset }

def toDiscriminator (node : ConstantDiscriminatorNode) : DiscriminatorNode :=
  .constant node.offset node.constant

/-- Key of an event that declares an envelope. -/
def extractEnvelopedDiscriminatorKey (event : EventNode) (envelope : CpiEventEnvelope) :
    Gen (Option DiscriminatorKey) :=
  extractDiscriminatorKey codecs ((rebasedConstants event envelope).map toDiscriminator)
    (resolveEventField codecs event)

/-- What one discriminator of an event contributes. -/
def eventDiscriminatorInfo (event : EventNode) (node : ConstantDiscriminatorNode) :
    Gen (Option DiscriminatorInfo) :=
  extractDiscriminatorInfo codecs [toDiscriminator node] (resolveEventField codecs event)

/-- Tests of discriminators; none when one of them cannot be tested. -/
def leadingChecks (event : EventNode) :
    List ConstantDiscriminatorNode → Gen (Option (List (List UInt8 → Bool)))
  | [] => .ok (some [])
  | node :: rest => do
      match ← eventDiscriminatorInfo codecs event node with
      | none => .ok none
      | some info => do
          let checks ← leadingChecks event rest
          .ok (checks.map (info.check :: ·))

/-- Test of an event that declares an envelope, on the data behind the envelope. All its
discriminators are tested, and the arguments come after the last one. -/
def extractEnvelopedDiscriminatorInfo (event : EventNode) (envelope : CpiEventEnvelope) :
    Gen (Option DiscriminatorInfo) :=
  let rebased := rebasedConstants event envelope
  match rebased.getLast? with
  | none => .ok none
  | some last => do
      match ← eventDiscriminatorInfo codecs event last with
      | none => .ok none
      | some tail => do
          let checks ← leadingChecks codecs event rebased.dropLast
          .ok (checks.map fun checks =>
            { check := fun data => (checks ++ [tail.check]).all (· data)
              argsStart := tail.argsStart })

end Codecs

/-! ## The two encoders -/

/-- The constant is one byte on the wire if it is a number. -/
def ConstantValueNode.NarrowNumber (constant : ConstantValueNode) : Prop :=
  match constant.value with
  | .number _ =>
      ∃ number, constant.type = .number number ∧
        (number.format = .u8 ∨ number.format = .i8 ∨ number.format = .shortU16)
  | _ => True

theorem ofNat_mod_256 (value : Nat) : UInt8.ofNat (value % 256) = UInt8.ofNat value := by
  rw [← UInt8.toNat_inj, UInt8.toNat_ofNat', UInt8.toNat_ofNat', Nat.mod_mod]

/-- A number that can be encoded takes one byte exactly for the narrow types. -/
theorem discriminatorWidth_eq_one {value width : Nat} {signed : Bool} {format : NumberFormat}
    (h : discriminatorWidth value format = some (width, signed)) :
    width = 1 ↔ format = .u8 ∨ format = .i8 ∨ format = .shortU16 := by
  cases format <;> simp [discriminatorWidth] at h ⊢ <;> omega

/-- The byte that a number narrows to is its encoding when its type is one byte wide. -/
theorem numberDiscriminatorBytes_eq_singleton_iff {type : TypeNode} {value : Nat}
    {bytes : List UInt8} (h : numberDiscriminatorBytes type value = .ok bytes) :
    [UInt8.ofNat value] = bytes ↔
      ∃ number, type = .number number ∧
        (number.format = .u8 ∨ number.format = .i8 ∨ number.format = .shortU16) := by
  cases type with
  | number number =>
      simp only [numberDiscriminatorBytes] at h
      cases hwidth : discriminatorWidth value number.format with
      | none => simp only [hwidth, reduceCtorEq] at h
      | some found =>
          obtain ⟨width, signed⟩ := found
          simp only [hwidth] at h
          have hnarrow := discriminatorWidth_eq_one hwidth
          by_cases hrange : width * 8 - (if signed then 1 else 0) < 128 ∧
              value >>> (width * 8 - if signed then 1 else 0) ≠ 0
          · rw [if_pos hrange] at h
            cases h
          · rw [if_neg hrange] at h
            obtain rfl := Except.ok.inj h
            simp only [TypeNode.number.injEq, exists_eq_left', ← hnarrow]
            constructor
            · intro heq
              have hlength := congrArg List.length heq
              split at hlength <;>
                simp only [List.length_singleton, List.length_reverse, length_toLeBytes] at hlength
              · exact hlength.symm
              · exact hlength.symm
            · rintro rfl
              simp [toLeBytes, ofNat_mod_256]
  | _ => simp only [numberDiscriminatorBytes, reduceCtorEq] at h

theorem decodeDiscriminatorFieldBytes_eq (codecs : BytesCodecs) (bytes : BytesValueNode) :
    decodeDiscriminatorFieldBytes codecs bytes = match tryDecodeBytes codecs bytes with
      | none => .error .discriminatorBytes
      | some bytes => .ok bytes := rfl

/-- The two encoders decode bytes alike. -/
theorem prefixDiscriminator_bytes {codecs : BytesCodecs}
    (resolveField : Name → Gen (Option ResolvedFieldDiscriminator))
    {node : ConstantDiscriminatorNode} {bytes : BytesValueNode} {decoded : List UInt8}
    (hvalue : node.constant.value = .bytes bytes)
    (h : constantDiscriminatorBytes codecs node = .ok decoded) :
    prefixDiscriminator codecs resolveField (toDiscriminator node) =
      .ok (some (node.offset, decoded)) := by
  simp only [constantDiscriminatorBytes, hvalue] at h
  cases hdecode : tryDecodeBytes codecs bytes with
  | none => simp only [hdecode, reduceCtorEq] at h
  | some found =>
      simp only [hdecode] at h
      obtain rfl := Except.ok.inj h
      have hsame : decodeDiscriminatorFieldBytes codecs bytes = .ok found := by
        rw [decodeDiscriminatorFieldBytes_eq, hdecode]
      simp only [toDiscriminator, prefixDiscriminator, hvalue, hsame]
      rfl

/-- Where both encoders give bytes for a constant, they give the same bytes exactly if the constant
is no number or a number of a type that is one byte wide. -/
theorem constant_encoders_agree_iff (codecs : BytesCodecs)
    (resolveField : Name → Gen (Option ResolvedFieldDiscriminator))
    (node : ConstantDiscriminatorNode) (tag : List UInt8) (found : Nat × List UInt8)
    (htag : constantDiscriminatorBytes codecs node = .ok tag)
    (hfound : prefixDiscriminator codecs resolveField (.constant node.offset node.constant) =
      .ok (some found)) :
    found = (node.offset, tag) ↔ ConstantValueNode.NarrowNumber node.constant := by
  obtain ⟨offset, type, value⟩ := node
  cases value with
  | bytes bytes =>
      have hsame := prefixDiscriminator_bytes resolveField rfl htag
      obtain rfl := Option.some.inj (Except.ok.inj (hfound.symm.trans hsame))
      exact iff_of_true rfl trivial
  | other => simp only [constantDiscriminatorBytes, reduceCtorEq] at htag
  | number number =>
      cases number with
      | unsignedInteger value =>
          obtain rfl := Except.ok.inj htag
          simp only [prefixDiscriminator] at hfound
          obtain ⟨bytes, hbytes, hpair⟩ := Fallible.bind_eq_ok.mp hfound
          obtain rfl := Option.some.inj (Except.ok.inj hpair)
          rw [Prod.mk.injEq, eq_self_iff_true, true_and, eq_comm]
          exact numberDiscriminatorBytes_eq_singleton_iff hbytes
      | signedInteger value => simp only [constantDiscriminatorBytes, reduceCtorEq] at htag
      | float => simp only [constantDiscriminatorBytes, reduceCtorEq] at htag

/-- The tag `1` of type `u16`. -/
def wideTag : ConstantDiscriminatorNode :=
  ⟨0, ⟨.number ⟨.u16, .le⟩, .number (.unsignedInteger 1)⟩⟩

/-- The tag that is stripped is one byte, the tag in the generated code two. -/
theorem wideTag_encoders_differ :
    ∃ tag found, constantDiscriminatorBytes noCodecs wideTag = .ok tag ∧
      prefixDiscriminator noCodecs (fun _ => .ok none) (.constant wideTag.offset wideTag.constant) =
        .ok (some found) ∧ found ≠ (wideTag.offset, tag) :=
  ⟨[1], (0, [1, 0]), rfl, rfl, by decide⟩

theorem constant_encoders_agree_iff_wideTag :
    (0, [1, 0]) = (wideTag.offset, ([1] : List UInt8)) ↔
      ConstantValueNode.NarrowNumber wideTag.constant :=
  constant_encoders_agree_iff noCodecs (fun _ => .ok none) wideTag [1] (0, [1, 0]) rfl rfl

end Shipstern.Codegen
