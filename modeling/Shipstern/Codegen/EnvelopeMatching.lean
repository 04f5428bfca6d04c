import Shipstern.Codegen.Envelope
import Shipstern.Lib.StableSort

/-!
# Events behind an envelope are matched exactly

The parser strips one number of bytes from every self-CPI event of a program that declares an
envelope. For byte constants the test of an event on what is left is the test of all its declared
discriminators at their declared offsets, and the arguments begin where the last of them ends.

`Laid` is what validation establishes: the discriminators in the order of their offsets, none of
which runs into the next. Behind the envelope the constants are sorted again, and since the sort is
stable they come in the order in which they were validated.
-/

namespace Shipstern.Codegen

open Codama

/-- A discriminator and its offset, as bytes. -/
abbrev Piece := Nat × List UInt8

def Piece.stop (piece : Piece) : Nat := piece.1 + piece.2.length

/-- No piece runs into a later one. -/
def Laid (pieces : List Piece) : Prop := pieces.Pairwise fun a b => a.stop ≤ b.1

/-- `windows(2)` compares neighbours, and that is enough. -/
theorem checkOverlap_ok {event : Name} {pieces : List Piece}
    (h : checkOverlap event pieces = .ok ()) : Laid pieces := by
  induction pieces with
  | nil => exact .nil
  | cons piece pieces ih =>
      obtain ⟨offset, bytes⟩ := piece
      cases pieces with
      | nil => exact List.pairwise_singleton _ _
      | cons next rest =>
          obtain ⟨nextOffset, nextBytes⟩ := next
          rw [checkOverlap] at h
          split at h
          · next hfits =>
              have hnext : Piece.stop (offset, bytes) ≤ nextOffset := by
                rw [checkedUsize] at hfits
                split at hfits
                · simpa [Piece.stop] using hfits
                · cases hfits
              have hrest := ih h
              refine List.pairwise_cons.mpr ⟨fun piece hpiece => ?_, hrest⟩
              obtain rfl | hpiece := List.mem_cons.mp hpiece
              · exact hnext
              · have hlater := (List.pairwise_cons.mp hrest).1 piece hpiece
                exact (hnext.trans (Nat.le_add_right _ _)).trans hlater
          · cases h

theorem getRange_drop {data : List UInt8} {n offset stop : Nat} (hn : n ≤ offset)
    (hstop : offset ≤ stop) (hdata : n ≤ data.length) :
    getRange (data.drop n) (offset - n) (stop - n) = getRange data offset stop := by
  rw [getRange, getRange, List.length_drop]
  by_cases hlength : stop ≤ data.length
  · rw [if_pos ⟨by omega, by omega⟩, if_pos ⟨hstop, hlength⟩, ← List.drop_take, List.drop_drop,
      Nat.add_sub_cancel' hn]
  · rw [if_neg (by omega), if_neg (by omega)]

section Codecs

variable (codecs : BytesCodecs)

/-- The discriminator stands in the data where it is declared. -/
def Occurs (data : List UInt8) : DiscriminatorNode → Prop
  | .constant offset constant =>
      ∃ bytes, constantDiscriminatorBytes codecs ⟨offset, constant⟩ = .ok bytes ∧
        getRange data offset (offset + bytes.length) = some bytes
  | _ => False

/-- The event declares these bytes at this offset. -/
def Declares (event : EventNode) (piece : Piece) : Prop :=
  ∃ constant, .constant piece.1 constant ∈ event.discriminators ∧
    constantDiscriminatorBytes codecs ⟨piece.1, constant⟩ = .ok piece.2

/-- All constants of the event are bytes. -/
def ByteConstants (event : EventNode) : Prop :=
  ∀ node ∈ constantsOf event.discriminators, ∃ bytes, node.constant.value = .bytes bytes

/-- A constant and what it decodes to. -/
def Decodes (node : ConstantDiscriminatorNode) (piece : Piece) : Prop :=
  piece.1 = node.offset ∧ constantDiscriminatorBytes codecs node = .ok piece.2

/-- What validation knows of an event that declares an envelope: its sorted constants, the first
of which is the tag. -/
structure Validated (event : EventNode) (envelope : CpiEventEnvelope) where
  tag : ConstantDiscriminatorNode
  nodes : List ConstantDiscriminatorNode
  pieces : List Piece
  sorted : sortByOffset (constantsOf event.discriminators) = tag :: nodes
  allConstant : (constantsOf event.discriminators).length = event.discriminators.length
  tagOffset : tag.offset = 0
  tagBytes : constantDiscriminatorBytes codecs tag = .ok envelope.discriminator
  behind : ∀ node ∈ nodes, node.offset ≠ 0 ∧ envelope.payloadOffset ≤ node.offset
  nonempty : nodes ≠ []
  decodes : List.Forall₂ (Decodes codecs) nodes pieces
  laid : Laid pieces
  tagStop : envelope.discriminator.length ≤ envelope.payloadOffset

variable {codecs}

theorem decodeConstants_ok {event : Name} {nodes : List ConstantDiscriminatorNode}
    {pieces : List Piece} (h : decodeConstants codecs event nodes = .ok pieces) :
    List.Forall₂ (Decodes codecs) nodes pieces := by
  refine (Fallible.mapM_eq_ok.mp h).imp fun node piece hpiece => ?_
  split at hpiece
  · next bytes hbytes =>
      obtain rfl := Except.ok.inj hpiece
      exact ⟨rfl, hbytes⟩
  · cases hpiece

theorem sorted_sortByOffset (nodes : List ConstantDiscriminatorNode) :
    (sortByOffset nodes).Pairwise fun a b => a.offset ≤ b.offset := by
  have htotal : Std.Total fun a b : ConstantDiscriminatorNode => a.offset ≤ b.offset :=
    ⟨fun a b => Nat.le_total a.offset b.offset⟩
  have htrans : IsTrans ConstantDiscriminatorNode fun a b => a.offset ≤ b.offset :=
    ⟨fun _ _ _ => Nat.le_trans⟩
  exact List.pairwise_insertionSort _ nodes

theorem mem_sortByOffset {nodes : List ConstantDiscriminatorNode}
    {node : ConstantDiscriminatorNode} : node ∈ sortByOffset nodes ↔ node ∈ nodes :=
  List.mem_insertionSort _

/-- An event declares an envelope only after the validation. -/
theorem envelopeOf_validated {event : EventNode} {envelope : CpiEventEnvelope}
    (h : envelopeOf codecs event = .ok (some envelope)) :
    Nonempty (Validated codecs event envelope) := by
  rw [envelopeOf] at h
  simp only at h
  split at h
  · split at h <;> cases h
  next hall =>
  split at h
  · cases h
  split at h
  · cases h
  next hzero =>
  split at h
  · cases h
  next hone =>
  obtain ⟨decoded, hdecoded, h⟩ := Fallible.bind_eq_ok.mp h
  obtain ⟨⟨⟩, hoverlap, h⟩ := Fallible.bind_eq_ok.mp h
  have hpieces := decodeConstants_ok hdecoded
  have hsorted := sorted_sortByOffset (constantsOf event.discriminators)
  have hcount : (sortByOffset (constantsOf event.discriminators)).countP (·.offset = 0) = 1 := by
    rw [sortByOffset, (List.perm_insertionSort _ _).countP_eq]
    omega
  split at h
  · next tagOffset discriminator payloadOffset payload pieces _ =>
      obtain rfl := Option.some.inj (Except.ok.inj h)
      generalize hnodes : sortByOffset (constantsOf event.discriminators) = sorted at *
      cases hpieces with
      | @cons tag _ nodes _ htag hrest =>
      cases hrest with
      | @cons first _ rest _ hfirst hrest =>
      obtain ⟨hle, hsortedRest⟩ := List.pairwise_cons.mp hsorted
      -- the first in order is the one at zero
      have hmem : ∃ node ∈ tag :: first :: rest, node.offset = 0 := by
        have hpos : 0 < (tag :: first :: rest).countP (·.offset = 0) := by omega
        simpa using List.countP_pos_iff.mp hpos
      have htagOffset : tag.offset = 0 := by
        obtain ⟨node, hnode, hnodeOffset⟩ := hmem
        obtain rfl | hnode := List.mem_cons.mp hnode
        · exact hnodeOffset
        · have := hle node hnode
          omega
      have hbehind : ∀ node ∈ first :: rest, node.offset ≠ 0 := by
        rw [List.countP_cons_of_pos (by simpa using htagOffset)] at hcount
        have hnone : (first :: rest).countP (·.offset = 0) = 0 := by omega
        simpa using List.countP_eq_zero.mp hnone
      have hlaid := checkOverlap_ok hoverlap
      obtain ⟨hfromTag, hlaidRest⟩ := List.pairwise_cons.mp hlaid
      refine ⟨{
        tag, nodes := first :: rest, pieces := (payloadOffset, payload) :: pieces
        sorted := hnodes
        allConstant := not_not.mp hall
        tagOffset := htagOffset
        tagBytes := htag.2
        behind := fun node hnode => ⟨hbehind node hnode, ?_⟩
        nonempty := List.cons_ne_nil _ _
        decodes := .cons hfirst hrest
        laid := hlaidRest
        tagStop := ?_ }⟩
      · obtain rfl | hnode := List.mem_cons.mp hnode
        · exact hfirst.1.le
        · exact hfirst.1.le.trans ((List.pairwise_cons.mp hsortedRest).1 node hnode)
      · have hstop := hfromTag _ List.mem_cons_self
        exact (Nat.le_add_left _ _).trans hstop
  · cases h

/-! ## The chain behind the envelope -/

/-- A constant behind the first `n` bytes. -/
def rebase (n : Nat) (node : ConstantDiscriminatorNode) : ConstantDiscriminatorNode :=
  { node with offset := node.offset - n }

/-- Test of a piece behind the first `n` bytes, and where it ends there. -/
def pieceInfo (n : Nat) (piece : Piece) : DiscriminatorInfo :=
  ⟨fun data =>
      getRange data (piece.1 - n) (piece.1 - n + piece.2.length) == some piece.2,
    piece.1 - n + piece.2.length⟩

theorem check_pieceInfo_drop {n : Nat} {piece : Piece} {data : List UInt8} (hn : n ≤ piece.1)
    (hdata : n ≤ data.length) :
    (pieceInfo n piece).check (data.drop n) = true ↔
      getRange data piece.1 piece.stop = some piece.2 := by
  have hstop : piece.1 ≤ piece.stop := Nat.le_add_right _ _
  have hlength : piece.1 - n + piece.2.length = piece.stop - n := by
    simp only [Piece.stop]
    omega
  simp only [pieceInfo, hlength, getRange_drop hn hstop hdata, beq_iff_eq]

/-- Behind the envelope are the constants after the tag, in the order in which they were
validated. -/
theorem rebasedConstants_eq {event : EventNode} {envelope : CpiEventEnvelope}
    (h : Validated codecs event envelope) :
    rebasedConstants event envelope = h.nodes.map (rebase envelope.payloadOffset) := by
  let behind : ConstantDiscriminatorNode → Bool := fun node => node.offset ≠ 0
  have hkept : (sortByOffset (constantsOf event.discriminators)).filter behind = h.nodes := by
    rw [h.sorted, List.filter_cons_of_neg (by simp [behind, h.tagOffset])]
    exact List.filter_eq_self.mpr fun node hnode => by simpa [behind] using (h.behind node hnode).1
  have hsorted : sortByOffset ((constantsOf event.discriminators).filter behind) = h.nodes := by
    have htotal : Std.Total fun a b : ConstantDiscriminatorNode => a.offset ≤ b.offset :=
      ⟨fun a b => Nat.le_total a.offset b.offset⟩
    have htrans : IsTrans ConstantDiscriminatorNode fun a b => a.offset ≤ b.offset :=
      ⟨fun _ _ _ => Nat.le_trans⟩
    rw [← hkept]
    exact (StableSort.filter_insertionSort behind _).symm
  have hmap : ∀ constants : List ConstantDiscriminatorNode,
      (constants.filterMap fun node =>
        if node.offset = 0 then none
        else some { node with offset := node.offset - envelope.payloadOffset }) =
        (constants.filter behind).map (rebase envelope.payloadOffset) := by
    intro constants
    induction constants with
    | nil => rfl
    | cons node constants ih =>
        by_cases hzero : node.offset = 0 <;> simp [behind, hzero, rebase] at ih ⊢ <;> exact ih
  have hfar : ∀ node ∈ (constantsOf event.discriminators).filter behind,
      envelope.payloadOffset ≤ node.offset := by
    intro node hnode
    rw [← mem_sortByOffset, hsorted] at hnode
    exact (h.behind node hnode).2
  rw [rebasedConstants, hmap, ← hsorted, sortByOffset, sortByOffset]
  refine (List.map_insertionSort _ _ _ _ fun a ha b hb => ?_).symm
  have := hfar a ha
  have := hfar b hb
  simp only [rebase]
  omega

theorem eventDiscriminatorInfo_of_decodes {event : EventNode} {node : ConstantDiscriminatorNode}
    {piece : Piece} {bytes : BytesValueNode} (n : Nat) (hvalue : node.constant.value = .bytes bytes)
    (h : Decodes codecs node piece) :
    eventDiscriminatorInfo codecs event (rebase n node) = .ok (some (pieceInfo n piece)) := by
  have hbytes : constantDiscriminatorBytes codecs (rebase n node) = .ok piece.2 := by
    have hdecoded := h.2
    simp only [constantDiscriminatorBytes, hvalue, rebase] at hdecoded ⊢
    split at hdecoded
    · exact hdecoded
    · cases hdecoded
  have hrebased : (rebase n node).constant.value = .bytes bytes := hvalue
  have hfound := prefixDiscriminator_bytes (resolveEventField codecs event) hrebased hbytes
  rw [eventDiscriminatorInfo, toDiscriminator, extractDiscriminatorInfo]
  · rw [toDiscriminator] at hfound
    rw [hfound, pieceInfo, h.1]
    rfl
  · intro size hsize
    cases hsize

theorem leadingChecks_eq {event : EventNode} {nodes : List ConstantDiscriminatorNode}
    {infos : List DiscriminatorInfo}
    (h : List.Forall₂ (fun node info => eventDiscriminatorInfo codecs event node = .ok (some info))
      nodes infos) :
    leadingChecks codecs event nodes = .ok (some (infos.map (·.check))) := by
  induction h with
  | nil => rfl
  | cons hinfo _ ih =>
      rw [leadingChecks, hinfo]
      show (leadingChecks codecs event _ >>= _) = _
      rw [ih]
      rfl

/-- All the tests of the chain are made, and its last piece says where the arguments begin. -/
theorem extractEnvelopedDiscriminatorInfo_eq {event : EventNode} {envelope : CpiEventEnvelope}
    {infos : List DiscriminatorInfo} {last : DiscriminatorInfo}
    (h : List.Forall₂ (fun node info => eventDiscriminatorInfo codecs event node = .ok (some info))
      (rebasedConstants event envelope) (infos ++ [last])) :
    ∃ info, extractEnvelopedDiscriminatorInfo codecs event envelope = .ok (some info) ∧
      (∀ data, info.check data = (infos ++ [last]).all (·.check data)) ∧
      info.argsStart = last.argsStart := by
  have hfront := List.forall₂_take_append _ infos [last] h
  obtain ⟨node, nodes, hnode, hnil, hdrop⟩ :=
    List.forall₂_cons_right_iff.mp (List.forall₂_drop_append _ infos [last] h)
  obtain rfl := List.forall₂_nil_right_iff.mp hnil
  have hsplit : (rebasedConstants event envelope).take infos.length ++ [node] =
      rebasedConstants event envelope := by
    rw [← hdrop, List.take_append_drop]
  rw [extractEnvelopedDiscriminatorInfo]
  generalize rebasedConstants event envelope = rebased at *
  generalize rebased.take infos.length = front at *
  subst hsplit
  refine ⟨⟨fun data => (infos.map (·.check) ++ [last.check]).all (· data), last.argsStart⟩,
    ?_, fun data => ?_, rfl⟩
  · simp only [List.getLast?_concat, List.dropLast_concat, hnode, leadingChecks_eq hfront]
    rfl
  · simp [List.all_map, Function.comp_def]

/-- The discriminators of an event that declares an envelope are all constants. -/
theorem eq_map_toDiscriminator {discriminators : List DiscriminatorNode}
    (h : (constantsOf discriminators).length = discriminators.length) :
    discriminators = (constantsOf discriminators).map toDiscriminator := by
  induction discriminators with
  | nil => rfl
  | cons discriminator discriminators ih =>
      have hle : (constantsOf discriminators).length ≤ discriminators.length :=
        List.length_filterMap_le _ _
      cases discriminator with
      | constant offset constant =>
          have hcons : constantsOf (.constant offset constant :: discriminators) =
              ⟨offset, constant⟩ :: constantsOf discriminators := rfl
          rw [hcons] at h ⊢
          rw [List.map_cons, ← ih (Nat.succ.inj h)]
          rfl
      | field name offset =>
          have hskip : constantsOf (.field name offset :: discriminators) =
              constantsOf discriminators := rfl
          rw [hskip, List.length_cons] at h
          omega
      | size size =>
          have hskip : constantsOf (.size size :: discriminators) =
              constantsOf discriminators := rfl
          rw [hskip, List.length_cons] at h
          omega

/-! ## One event -/

variable (codecs) in
/-- What the generated code does with an event behind the envelope is what the event declares. -/
structure Exact (event : EventNode) (envelope : CpiEventEnvelope) (info : DiscriminatorInfo) :
    Prop where
  noUnderflow : ∀ node ∈ constantsOf event.discriminators, node.offset ≠ 0 →
    envelope.payloadOffset ≤ node.offset
  check_iff : ∀ data, envelope.payloadOffset ≤ data.length → envelope.discriminator <+: data →
    (info.check (data.drop envelope.payloadOffset) = true ↔
      ∀ discriminator ∈ event.discriminators, Occurs codecs data discriminator)
  args : ∃ last, Declares codecs event last ∧
    envelope.payloadOffset + info.argsStart = last.stop ∧
    ∀ piece, Declares codecs event piece → piece.1 ≤ last.1 ∧ piece.stop ≤ last.stop

theorem Decodes.eq {node : ConstantDiscriminatorNode} {piece other : Piece}
    (h : Decodes codecs node piece) (hother : Decodes codecs node other) : piece = other :=
  Prod.ext (h.1.trans hother.1.symm) (Except.ok.inj (h.2.symm.trans hother.2))

theorem Decodes.occurs_iff {node : ConstantDiscriminatorNode} {piece : Piece}
    (h : Decodes codecs node piece) {data : List UInt8} :
    Occurs codecs data (toDiscriminator node) ↔
      getRange data piece.1 piece.stop = some piece.2 := by
  constructor
  · rintro ⟨bytes, hbytes, hrange⟩
    obtain rfl := Except.ok.inj (h.2.symm.trans hbytes)
    rw [Piece.stop, h.1]
    exact hrange
  · intro hrange
    rw [Piece.stop, h.1] at hrange
    exact ⟨piece.2, h.2, hrange⟩

theorem declares_iff {event : EventNode} {piece : Piece} :
    Declares codecs event piece ↔
      ∃ node ∈ constantsOf event.discriminators, Decodes codecs node piece := by
  constructor
  · rintro ⟨constant, hmem, hbytes⟩
    exact ⟨⟨piece.1, constant⟩, List.mem_filterMap.mpr ⟨_, hmem, rfl⟩, rfl, hbytes⟩
  · rintro ⟨⟨offset, constant⟩, hmem, rfl, hbytes⟩
    obtain ⟨discriminator, hmem, hsome⟩ := List.mem_filterMap.mp hmem
    cases discriminator with
    | constant offset' constant' =>
        cases hsome
        exact ⟨constant, hmem, hbytes⟩
    | field name offset' => cases hsome
    | size size => cases hsome

namespace Validated

variable {event : EventNode} {envelope : CpiEventEnvelope} (h : Validated codecs event envelope)

include h

theorem mem_constants {node : ConstantDiscriminatorNode} :
    node ∈ constantsOf event.discriminators ↔ node = h.tag ∨ node ∈ h.nodes := by
  rw [← mem_sortByOffset, h.sorted, List.mem_cons]

theorem payloadOffset_le {piece : Piece} (hpiece : piece ∈ h.pieces) :
    envelope.payloadOffset ≤ piece.1 := by
  have hall := (Fallible.forall₂_forall_iff
    (P := fun node => envelope.payloadOffset ≤ node.offset)
    (Q := fun piece : Piece => envelope.payloadOffset ≤ piece.1)
    (fun node piece hdecodes => by rw [hdecodes.1]) h.decodes).mp
      fun node hnode => (h.behind node hnode).2
  exact hall piece hpiece

/-- Behind the tag, the discriminators of the event occur exactly if its pieces do. -/
theorem occurs_iff {data : List UInt8} (htag : envelope.discriminator <+: data) :
    (∀ discriminator ∈ event.discriminators, Occurs codecs data discriminator) ↔
      ∀ piece ∈ h.pieces, getRange data piece.1 piece.stop = some piece.2 := by
  have htagOccurs : Occurs codecs data (toDiscriminator h.tag) := by
    refine ⟨envelope.discriminator, h.tagBytes, ?_⟩
    rw [h.tagOffset]
    exact getRange_zero_iff.mpr htag
  rw [eq_map_toDiscriminator h.allConstant, List.forall_mem_map,
    ← Fallible.forall₂_forall_iff (fun _ _ hdecodes => hdecodes.occurs_iff) h.decodes]
  constructor
  · intro hall node hnode
    exact hall node (h.mem_constants.mpr (.inr hnode))
  · intro hall node hnode
    obtain rfl | hnode := h.mem_constants.mp hnode
    · exact htagOccurs
    · exact hall node hnode

theorem declares_of_mem {piece : Piece} (hpiece : piece ∈ h.pieces) :
    Declares codecs event piece := by
  have hmem : List.Forall₂ (fun node piece => node ∈ h.nodes ∧ Decodes codecs node piece)
      h.nodes h.pieces := List.forall₂_and_left _ _ |>.mpr ⟨fun _ hnode => hnode, h.decodes⟩
  obtain ⟨node, hnode, hdecodes⟩ := Fallible.forall₂_exists hmem.flip hpiece
  exact declares_iff.mpr ⟨node, h.mem_constants.mpr (.inr hnode), hdecodes⟩

/-- A piece that the event declares is the tag or one of the pieces behind it. -/
theorem eq_tag_or_mem {piece : Piece} (hpiece : Declares codecs event piece) :
    piece = (0, envelope.discriminator) ∨ piece ∈ h.pieces := by
  obtain ⟨node, hnode, hdecodes⟩ := declares_iff.mp hpiece
  obtain rfl | hnode := h.mem_constants.mp hnode
  · left
    exact hdecodes.eq ⟨h.tagOffset.symm, h.tagBytes⟩
  · right
    have hall := (Fallible.forall₂_forall_iff
      (P := fun node => ∀ piece, Decodes codecs node piece → piece ∈ h.pieces)
      (Q := fun piece : Piece => piece ∈ h.pieces)
      (fun node piece hdecodes =>
        ⟨fun hall => hall piece hdecodes, fun hmem other hother => hdecodes.eq hother ▸ hmem⟩)
      h.decodes).mpr fun _ hmem => hmem
    exact hall node hnode piece hdecodes

end Validated

theorem Laid.le_last {front : List Piece} {last piece : Piece} (h : Laid (front ++ [last]))
    (hpiece : piece ∈ front ++ [last]) : piece.1 ≤ last.1 ∧ piece.stop ≤ last.stop := by
  obtain hfront | hlast := List.mem_append.mp hpiece
  · have hle := (List.pairwise_append.mp h).2.2 piece hfront last List.mem_cons_self
    have hoffset : piece.1 ≤ piece.stop := Nat.le_add_right _ _
    have hstop : last.1 ≤ last.stop := Nat.le_add_right _ _
    omega
  · rw [List.mem_singleton.mp hlast]
    exact ⟨le_rfl, le_rfl⟩

theorem exact_of_validated {event : EventNode} {envelope : CpiEventEnvelope}
    (h : Validated codecs event envelope) (hbytes : ByteConstants event) :
    ∃ info, extractEnvelopedDiscriminatorInfo codecs event envelope = .ok (some info) ∧
      Exact codecs event envelope info := by
  obtain hnil | ⟨front, last, hpieces⟩ := h.pieces.eq_nil_or_concat
  · have hlength := h.decodes.length_eq
    rw [hnil] at hlength
    exact absurd (List.eq_nil_of_length_eq_zero hlength) h.nonempty
  rw [List.concat_eq_append] at hpieces
  have hlast : last ∈ h.pieces := by
    rw [hpieces]
    exact List.mem_append_right front List.mem_cons_self
  have hmap : front.map (pieceInfo envelope.payloadOffset) ++
      [pieceInfo envelope.payloadOffset last] =
      h.pieces.map (pieceInfo envelope.payloadOffset) := by
    rw [hpieces, List.map_append, List.map_singleton]
  have hinfos : List.Forall₂
      (fun node info => eventDiscriminatorInfo codecs event node = .ok (some info))
      (rebasedConstants event envelope)
      (front.map (pieceInfo envelope.payloadOffset) ++
        [pieceInfo envelope.payloadOffset last]) := by
    rw [rebasedConstants_eq h, hmap, List.forall₂_map_left_iff, List.forall₂_map_right_iff]
    have hvalues : List.Forall₂
        (fun node piece => (∃ bytes, node.constant.value = .bytes bytes) ∧
          Decodes codecs node piece) h.nodes h.pieces :=
      List.forall₂_and_left _ _ |>.mpr
        ⟨fun node hnode => hbytes node (h.mem_constants.mpr (.inr hnode)), h.decodes⟩
    refine hvalues.imp ?_
    rintro node piece ⟨⟨bytes, hvalue⟩, hdecodes⟩
    exact eventDiscriminatorInfo_of_decodes _ hvalue hdecodes
  obtain ⟨info, hinfo, hcheck, hstart⟩ := extractEnvelopedDiscriminatorInfo_eq hinfos
  refine ⟨info, hinfo, ?_, fun data hdata htag => ?_, last, ?_, ?_, fun piece hpiece => ?_⟩
  · intro node hnode hzero
    obtain rfl | hnode := h.mem_constants.mp hnode
    · exact absurd h.tagOffset hzero
    · exact (h.behind node hnode).2
  · rw [hcheck, h.occurs_iff htag, hmap, List.all_map, List.all_eq_true]
    refine forall₂_congr fun piece hpiece => ?_
    rw [Function.comp_apply, check_pieceInfo_drop (h.payloadOffset_le hpiece) hdata]
  · exact h.declares_of_mem hlast
  · rw [hstart]
    have hle := h.payloadOffset_le hlast
    simp only [pieceInfo, Piece.stop]
    omega
  · have hfar := h.payloadOffset_le hlast
    obtain rfl | hpiece := h.eq_tag_or_mem hpiece
    · have htagStop := h.tagStop
      simp only [Piece.stop]
      omega
    · exact Laid.le_last (hpieces ▸ h.laid) (hpieces ▸ hpiece)

/-! ## The program -/

variable (codecs) in
/-- The verdict on an event is that of `envelopeOf`, and an envelope is the one that was found. -/
def Judged (found : Option CpiEventEnvelope) (event : EventNode) (verdict : Name × Bool) : Prop :=
  verdict.1 = event.name ∧
    if verdict.2 then ∃ envelope, found = some envelope ∧
      envelopeOf codecs event = .ok (some envelope)
    else envelopeOf codecs event = .ok none

theorem scanEnvelope_judged {events : List EventNode} {scan : EnvelopeScan}
    (h : events.foldlM (scanEnvelope codecs) ⟨none, [], []⟩ = .ok scan) :
    List.Forall₂ (Judged codecs (scan.found.map Prod.snd)) events scan.enveloped := by
  refine Fallible.foldlM_induction
    (P := fun done (scan : EnvelopeScan) =>
      List.Forall₂ (Judged codecs (scan.found.map Prod.snd)) done scan.enveloped)
    .nil (fun done event scan next hdone hstep => ?_) h
  obtain ⟨verdict, hverdict, hstep⟩ := Fallible.bind_eq_ok.mp hstep
  cases verdict with
  | none =>
      obtain rfl := Except.ok.inj hstep
      exact List.rel_append hdone (.cons ⟨rfl, hverdict⟩ .nil)
  | some envelope =>
      obtain ⟨found, enveloped, lone⟩ := scan
      cases found with
      | none =>
          obtain rfl := Except.ok.inj hstep
          refine List.rel_append (hdone.imp fun event verdict hjudged => ⟨hjudged.1, ?_⟩)
            (.cons ⟨rfl, envelope, rfl, hverdict⟩ .nil)
          -- no event before declares an envelope
          have hverdict := hjudged.2
          split at hverdict
          · obtain ⟨_, hnone, -⟩ := hverdict
            cases hnone
          · next hkind =>
              rw [if_neg hkind]
              exact hverdict
      | some first =>
          obtain ⟨firstName, first⟩ := first
          simp only at hstep
          split at hstep
          · cases hstep
          next hdiscriminator =>
          split at hstep
          · cases hstep
          next hoffset =>
          obtain rfl := Except.ok.inj hstep
          have hsame : first = envelope := by
            obtain ⟨discriminator, payloadOffset⟩ := first
            obtain ⟨discriminator', payloadOffset'⟩ := envelope
            simp only [ne_eq, not_not] at hdiscriminator hoffset
            rw [hdiscriminator, hoffset]
          exact List.rel_append hdone (.cons ⟨rfl, first, rfl, hsame ▸ hverdict⟩ .nil)

theorem programEnvelope_judged {events : List EventNode} {program : ProgramEnvelope}
    (h : programEnvelope codecs events = .ok (some program)) :
    List.Forall₂ (Judged codecs (some program.envelope)) events program.enveloped := by
  obtain ⟨scan, hscan, h⟩ := Fallible.bind_eq_ok.mp h
  have hjudged := scanEnvelope_judged hscan
  split at h
  · cases h
  next hfound =>
  split at h
  · cases h
  · obtain rfl := Option.some.inj (Except.ok.inj h)
    rw [hfound] at hjudged
    exact hjudged

/-- Neither panic of `resolve` is reached, and every event gets its own verdict. -/
theorem resolve_eq {events : List EventNode} {program : ProgramEnvelope}
    (h : List.Forall₂ (Judged codecs (some program.envelope)) events program.enveloped) :
    ∃ resolved, program.resolve events = some resolved ∧
      List.Forall₂ (fun event envelope => envelopeOf codecs event = .ok envelope ∧
        ∀ found, envelope = some found → found = program.envelope) events resolved := by
  rw [ProgramEnvelope.resolve, if_pos h.length_eq]
  generalize program.enveloped = enveloped at h
  induction h with
  | nil => exact ⟨[], rfl, .nil⟩
  | @cons event verdict events verdicts hjudged _ ih =>
      obtain ⟨resolved, hresolved, hverdicts⟩ := ih
      obtain ⟨name, enveloped⟩ := verdict
      obtain ⟨rfl, hverdict⟩ := hjudged
      refine ⟨(if enveloped then some program.envelope else none) :: resolved, ?_,
        .cons ?_ hverdicts⟩
      · rw [List.zip_cons_cons, List.mapM_cons, hresolved]
        simp only [↓reduceIte]
        rfl
      · cases enveloped with
        | false => exact ⟨hverdict, fun found hfound => by cases hfound⟩
        | true =>
            obtain ⟨envelope, hfound, hverdict⟩ := hverdict
            obtain rfl := Option.some.inj hfound
            exact ⟨hverdict, fun found hfound => (Option.some.inj hfound).symm⟩

/-- Data that starts with the tag is no data of an instruction without a collision. -/
theorem not_prefix_of_no_collision {discriminator : List UInt8}
    {instructions : List InstructionNode}
    (h : envelopeInstructionCollision codecs discriminator instructions = .ok none)
    {ix : InstructionNode} (hix : ix ∈ instructions) {bytes : List UInt8} (hbytes : bytes ≠ [])
    (hkey : extractIxDiscriminatorKey codecs ix = .ok (some (.field 0 bytes)))
    {data : List UInt8} (htag : discriminator <+: data) : ¬ bytes <+: data := by
  induction instructions with
  | nil => cases hix
  | cons head instructions ih =>
      rw [envelopeInstructionCollision] at h
      obtain ⟨key, hhead, h⟩ := Fallible.bind_eq_ok.mp h
      obtain rfl | hix := List.mem_cons.mp hix
      · obtain rfl := Except.ok.inj (hhead.symm.trans hkey)
        simp only at h
        split at h
        · cases h
        next hdiffer =>
        intro hprefix
        refine hdiffer ⟨hbytes, ?_⟩
        rw [List.prefix_iff_eq_take.mp hprefix, List.prefix_iff_eq_take.mp htag, List.take_take,
          List.take_take]
        simp
      · split at h
        · simp only at h
          split at h
          · cases h
          · exact ih h hix
        · exact ih h hix

theorem extractDiscriminatorInfo_of_key {discriminators : List DiscriminatorNode}
    {resolveField : Name → Gen (Option ResolvedFieldDiscriminator)} {offset : Nat}
    {bytes : List UInt8}
    (h : extractDiscriminatorKey codecs discriminators resolveField =
      .ok (some (.field offset bytes))) :
    extractDiscriminatorInfo codecs discriminators resolveField =
      .ok (some (pieceInfo 0 (offset, bytes))) := by
  rw [extractDiscriminatorKey.eq_def] at h
  rw [extractDiscriminatorInfo.eq_def]
  split at h
  · cases h
  · cases h
  · next discriminator _ _ =>
      obtain ⟨found, hfound, hkey⟩ := Fallible.bind_eq_ok.mp h
      obtain ⟨⟨foundOffset, foundBytes⟩, rfl, hpair⟩ :=
        Option.map_eq_some_iff.mp (Except.ok.inj hkey)
      obtain ⟨rfl, rfl⟩ := DiscriminatorKey.field.inj hpair
      rw [hfound]
      rfl

variable (codecs) in
/-- Every event behind the envelope is matched exactly, and the tag is that of no instruction. -/
structure MatchedExactly (events : List EventNode) (program : ProgramEnvelope) : Prop where
  events : ∃ resolved, program.resolve events = some resolved ∧
    List.Forall₂ (fun event envelope => envelopeOf codecs event = .ok envelope ∧
      ∀ found, envelope = some found → found = program.envelope ∧
        ∃ info, extractEnvelopedDiscriminatorInfo codecs event found = .ok (some info) ∧
          Exact codecs event found info) events resolved
  instructions : ∀ instructions,
    envelopeInstructionCollision codecs program.envelope.discriminator instructions = .ok none →
    ∀ ix ∈ instructions, ∀ bytes, bytes ≠ [] →
      extractIxDiscriminatorKey codecs ix = .ok (some (.field 0 bytes)) →
      ∃ info, extractIxDiscriminatorInfo codecs ix = .ok (some info) ∧
        ∀ data, program.envelope.discriminator <+: data → info.check data = false

end Codecs

/-- An event of a program whose envelope is accepted is tested for all the bytes that it declares,
and for nothing else. -/
theorem programEnvelope_matched_exactly (codecs : BytesCodecs) (events : List EventNode)
    (program : ProgramEnvelope) (hprogram : programEnvelope codecs events = .ok (some program))
    (hbytes : ∀ event ∈ events, ∀ envelope, envelopeOf codecs event = .ok (some envelope) →
      ByteConstants event) : MatchedExactly codecs events program where
  events := by
    obtain ⟨resolved, hresolved, hverdicts⟩ := resolve_eq (programEnvelope_judged hprogram)
    refine ⟨resolved, hresolved, ?_⟩
    have hmem := (List.forall₂_and_left _ _).mpr
      ⟨fun event (hevent : event ∈ events) => hevent, hverdicts⟩
    refine hmem.imp ?_
    rintro event envelope ⟨hevent, hverdict, hsame⟩
    refine ⟨hverdict, fun found hfound => ⟨hsame found hfound, ?_⟩⟩
    obtain rfl := hfound
    obtain ⟨validated⟩ := envelopeOf_validated hverdict
    exact exact_of_validated validated (hbytes event hevent found hverdict)
  instructions := by
    intro instructions hcollision ix hix bytes hnonempty hkey
    refine ⟨_, extractDiscriminatorInfo_of_key hkey, fun data htag => ?_⟩
    have hnot := not_prefix_of_no_collision hcollision hix hnonempty hkey htag
    rw [← getRange_zero_iff] at hnot
    simpa [pieceInfo] using hnot

/-- An event behind the tag `e4`. -/
def taggedEvent : EventNode where
  name := ['e']
  data := .struct []
  discriminators :=
    [.constant 2 ⟨.bytes, .bytes ⟨['4', '0'], .base16⟩⟩,
      .constant 0 ⟨.bytes, .bytes ⟨['e', '4'], .base16⟩⟩]

theorem programEnvelope_matched_exactly_tagged :
    MatchedExactly noCodecs [taggedEvent] ⟨⟨[0xe4], 2⟩, [(['e'], true)]⟩ := by
  refine programEnvelope_matched_exactly noCodecs _ _ rfl fun event hevent _ _ => ?_
  rw [List.mem_singleton.mp hevent]
  exact List.forall_mem_cons.mpr ⟨⟨_, rfl⟩, List.forall_mem_singleton.mpr ⟨_, rfl⟩⟩

end Shipstern.Codegen
