import Shipstern.Token.Accounts

/-!
# Withheld transfer fees

The parsers of the transfer-fee extension and of its confidential variant. Both have an
instruction that withdraws withheld fees from a list of accounts. Token-2022 puts the signers of a
multisig authority before these accounts; only the number of the accounts is in the data.

The first parser takes that number of keys right after the fixed accounts, the second takes all
keys after them. So the roles are kept only where the order of the two runs does not show.
-/

open Shipstern.Core (Pubkey InstructionUpdate)

namespace Shipstern.Token

/-! ## The transfer-fee extension -/

/-- The instructions as the Token-2022 crate unpacks them. -/
inductive SplTransferFeeInstruction
  | initializeTransferFeeConfig (transferFeeConfigAuthority withdrawWithheldAuthority : Option Pubkey)
      (transferFeeBasisPoints : UInt16) (maximumFee : UInt64)
  | transferCheckedWithFee (amount : UInt64) (decimals : UInt8) (fee : UInt64)
  | withdrawWithheldTokensFromMint
  | withdrawWithheldTokensFromAccounts (numTokenAccounts : UInt8)
  | harvestWithheldTokensToMint
  | setTransferFee (transferFeeBasisPoints : UInt16) (maximumFee : UInt64)

inductive TransferFeeIx
  | transferCheckedWithFee (source mint destination owner : Pubkey)
      (multisigSigners : List Pubkey) (amount feeAmount : UInt64) (decimals : UInt32)
  | initializeTransferFeeConfig (mint : Pubkey)
      (transferFeeConfigAuthority withdrawWithheldAuthority : Option Pubkey)
      (transferFeeBasisPoints : UInt32) (maximumFee : UInt64)
  | withdrawWithheldTokensFromMint (mint feeRecipient withdrawWithheldAuthority : Pubkey)
      (multisigSigners : List Pubkey)
  | withdrawWithheldTokensFromAccounts (mint feeRecipient withdrawWithheldAuthority : Pubkey)
      (sourceAccounts multisigSigners : List Pubkey) (numTokenAccounts : UInt32)
  | harvestWithheldTokensToMint (mint mintFeeAccOwner : Pubkey)
  | setTransferFee (mint mintFeeAccOwner : Pubkey) (multisigSigners : List Pubkey)
      (transferFeeBasisPoints : UInt32) (maximumFee : UInt64)
deriving DecidableEq

/-- The message of an unpacked instruction. -/
def transferFeeMessage (accounts : List Pubkey) : SplTransferFeeInstruction → Parse TransferFeeIx
  | .transferCheckedWithFee amount decimals fee => do
      checkMinAccountsReq accounts.length 4
      pure (.transferCheckedWithFee (← index accounts 0) (← index accounts 1) (← index accounts 2)
        (← index accounts 3) (← sliceFrom accounts 4) amount fee decimals.toUInt32)
  | .initializeTransferFeeConfig configAuthority withheldAuthority basisPoints maximumFee => do
      checkMinAccountsReq accounts.length 1
      pure (.initializeTransferFeeConfig (← index accounts 0) configAuthority withheldAuthority
        basisPoints.toUInt32 maximumFee)
  | .withdrawWithheldTokensFromMint => do
      checkMinAccountsReq accounts.length 3
      pure (.withdrawWithheldTokensFromMint (← index accounts 0) (← index accounts 1)
        (← index accounts 2) (← sliceFrom accounts 3))
  | .withdrawWithheldTokensFromAccounts numTokenAccounts => do
      let n := numTokenAccounts.toNat
      checkMinAccountsReq accounts.length (3 + n)
      pure (.withdrawWithheldTokensFromAccounts (← index accounts 0) (← index accounts 1)
        (← index accounts 2) (← slice accounts 3 (3 + n)) (← sliceFrom accounts (3 + n))
        numTokenAccounts.toUInt32)
  | .harvestWithheldTokensToMint => do
      checkMinAccountsReq accounts.length 2
      pure (.harvestWithheldTokensToMint (← index accounts 0) (← index accounts 1))
  | .setTransferFee basisPoints maximumFee => do
      checkMinAccountsReq accounts.length 2
      pure (.setTransferFee (← index accounts 0) (← index accounts 1) (← sliceFrom accounts 2)
        basisPoints.toUInt32 maximumFee)

/-- `TransferFeeIx::try_parse`. The decoder of the Token-2022 crate is a parameter. -/
def TransferFeeIx.tryParse (unpack : List UInt8 → Option SplTransferFeeInstruction)
    (ix : InstructionUpdate) : Parse TransferFeeIx := do
  let data ← sliceFrom ix.data 1
  match unpack data with
  | none => .error (.unpack "Error unpacking transfer fee instruction data".toList)
  | some ixType => transferFeeMessage ix.accounts ixType

/-! ## The confidential variant -/

inductive SplConfidentialTransferFeeInstruction
  | initializeConfidentialTransferFeeConfig
  | withdrawWithheldTokensFromMint
  | withdrawWithheldTokensFromAccounts
  | harvestWithheldTokensToMint
  | enableHarvestToMint
  | disableHarvestToMint

inductive ConfidentialTransferFeeIx
  | initializeConfidentialTransferFeeConfig (mint : Pubkey)
  | withdrawWithheldTokensFromMint (mint feeRecipient sysvar withdrawWithheldAuthority : Pubkey)
      (multisigSigners : List Pubkey)
  | withdrawWithheldTokensFromAccounts
      (mint feeRecipient sysvar withdrawWithheldAuthority : Pubkey)
      (sourceAccounts multisigSigners : List Pubkey)
  | harvestWithheldTokensToMint (mint : Pubkey) (sourceAccounts : List Pubkey)
  | enableHarvestToMint (mint confidentialTransferFeeAuthority : Pubkey)
      (multisigSigners : List Pubkey)
  | disableHarvestToMint (account confidentialTransferFeeAuthority : Pubkey)
      (multisigSigners : List Pubkey)
deriving DecidableEq

def confidentialTransferFeeMessage (accounts : List Pubkey) :
    SplConfidentialTransferFeeInstruction → Parse ConfidentialTransferFeeIx
  | .initializeConfidentialTransferFeeConfig => do
      checkMinAccountsReq accounts.length 1
      pure (.initializeConfidentialTransferFeeConfig (← index accounts 0))
  | .withdrawWithheldTokensFromMint => do
      checkMinAccountsReq accounts.length 4
      pure (.withdrawWithheldTokensFromMint (← index accounts 0) (← index accounts 1)
        (← index accounts 2) (← index accounts 3) (← sliceFrom accounts 4))
  | .withdrawWithheldTokensFromAccounts => do
      checkMinAccountsReq accounts.length 5
      pure (.withdrawWithheldTokensFromAccounts (← index accounts 0) (← index accounts 1)
        (← index accounts 2) (← index accounts 3) (← sliceFrom accounts 4) [])
  | .harvestWithheldTokensToMint => do
      checkMinAccountsReq accounts.length 2
      pure (.harvestWithheldTokensToMint (← index accounts 0) (← sliceFrom accounts 1))
  | .enableHarvestToMint => do
      checkMinAccountsReq accounts.length 2
      pure (.enableHarvestToMint (← index accounts 0) (← index accounts 1) (← sliceFrom accounts 2))
  | .disableHarvestToMint => do
      checkMinAccountsReq accounts.length 2
      pure (.disableHarvestToMint (← index accounts 0) (← index accounts 1)
        (← sliceFrom accounts 2))

/-- Only the first byte of the data is decoded. -/
def decodeExtensionIxType {T : Type} (tryFrom : UInt8 → Option T) : List UInt8 → Parse T
  | [] => .error (.invalidData "Instruction data for token extension is empty".toList)
  | firstByte :: _ =>
      match tryFrom firstByte with
      | some ixType => .ok ixType
      | none => .error (.unpack "Error decoding instruction data for token extension".toList)

def ConfidentialTransferFeeIx.tryParse
    (tryFrom : UInt8 → Option SplConfidentialTransferFeeInstruction) (ix : InstructionUpdate) :
    Parse ConfidentialTransferFeeIx := do
  let data ← sliceFrom ix.data 1
  let ixType ← decodeExtensionIxType tryFrom data
  confidentialTransferFeeMessage ix.accounts ixType

/-! ## The roles -/

/-- A withdrawal from `sources`, signed by `signers`, is read as the message, and no list that is
too short for the fixed accounts and the sources is read at all. -/
structure KeepsRoles {M : Type} (parse : List Pubkey → Parse M)
    (fixed signers sources : List Pubkey) (message : M) : Prop where
  parsed : parse (fixed ++ signers ++ sources) = .ok message
  refused : ∀ accounts, accounts.length < fixed.length + sources.length →
    ∃ failure, failure ≠ .outOfBounds ∧ parse accounts = .error failure

section

variable {unpack : List UInt8 → Option SplTransferFeeInstruction}
variable {tryFrom : UInt8 → Option SplConfidentialTransferFeeInstruction}

theorem TransferFeeIx.tryParse_eq {ix : InstructionUpdate} {tag : UInt8} {data : List UInt8}
    {ixType : SplTransferFeeInstruction} (hdata : ix.data = tag :: data)
    (hunpack : unpack data = some ixType) (accounts : List Pubkey) :
    tryParse unpack { ix with accounts } = transferFeeMessage accounts ixType := by
  have hslice : sliceFrom (tag :: data) 1 = .ok data := if_pos (Nat.le_add_left 1 _)
  rw [tryParse, hdata, hslice]
  show (match unpack data with | none => _ | some ixType => _) = _
  rw [hunpack]

theorem ConfidentialTransferFeeIx.tryParse_eq {ix : InstructionUpdate} {tag kind : UInt8}
    {data : List UInt8} {ixType : SplConfidentialTransferFeeInstruction}
    (hdata : ix.data = tag :: kind :: data) (htry : tryFrom kind = some ixType)
    (accounts : List Pubkey) :
    tryParse tryFrom { ix with accounts } = confidentialTransferFeeMessage accounts ixType := by
  have hslice : sliceFrom (tag :: kind :: data) 1 = .ok (kind :: data) :=
    if_pos (Nat.le_add_left 1 _)
  have hdecode : decodeExtensionIxType tryFrom (kind :: data) = .ok ixType := by
    rw [decodeExtensionIxType, htry]
  rw [tryParse, hdata, hslice]
  show decodeExtensionIxType tryFrom (kind :: data) >>= _ = _
  rw [hdecode]
  rfl

/-- The sources are taken from the front of what follows the fixed accounts. -/
theorem transferFeeMessage_withdraw {mint recipient authority : Pubkey} (keys : List Pubkey)
    {n : UInt8} (h : n.toNat ≤ keys.length) :
    transferFeeMessage (mint :: recipient :: authority :: keys)
        (.withdrawWithheldTokensFromAccounts n) =
      .ok (.withdrawWithheldTokensFromAccounts mint recipient authority (keys.take n.toNat)
        (keys.drop n.toNat) n.toUInt32) := by
  have hlength : 3 + n.toNat ≤ (mint :: recipient :: authority :: keys).length := by
    simp only [List.length_cons]
    omega
  have htake : ((mint :: recipient :: authority :: keys).take (3 + n.toNat)).drop 3 =
      keys.take n.toNat := by
    rw [Nat.add_comm]
    rfl
  have hdrop : (mint :: recipient :: authority :: keys).drop (3 + n.toNat) =
      keys.drop n.toNat := by
    rw [Nat.add_comm]
    rfl
  simp only [transferFeeMessage, checkMinAccountsReq_ok hlength, sliceFrom_ok hlength,
    slice_ok (Nat.le_add_right 3 n.toNat) hlength, htake, hdrop]
  rfl

theorem transferFeeMessage_short {accounts : List Pubkey} {n : UInt8}
    (h : accounts.length < 3 + n.toNat) :
    transferFeeMessage accounts (.withdrawWithheldTokensFromAccounts n) =
      .error (.tooFewAccounts (3 + n.toNat) accounts.length) := by
  simp only [transferFeeMessage, checkMinAccountsReq_error h]
  rfl

/-- All keys behind the fixed accounts become sources. -/
theorem confidentialTransferFeeMessage_withdraw {mint recipient sysvar authority : Pubkey}
    (keys : List Pubkey) (h : 1 ≤ keys.length) :
    confidentialTransferFeeMessage (mint :: recipient :: sysvar :: authority :: keys)
        .withdrawWithheldTokensFromAccounts =
      .ok (.withdrawWithheldTokensFromAccounts mint recipient sysvar authority keys []) := by
  have hlength : 5 ≤ (mint :: recipient :: sysvar :: authority :: keys).length := by
    simp only [List.length_cons]
    omega
  simp only [confidentialTransferFeeMessage, checkMinAccountsReq_ok hlength,
    sliceFrom_ok (Nat.le_trans (by decide : 4 ≤ 5) hlength)]
  rfl

theorem confidentialTransferFeeMessage_short {accounts : List Pubkey} (h : accounts.length < 5) :
    confidentialTransferFeeMessage accounts .withdrawWithheldTokensFromAccounts =
      .error (.tooFewAccounts 5 accounts.length) := by
  simp only [confidentialTransferFeeMessage, checkMinAccountsReq_error h]
  rfl

/-- The first parser keeps the roles exactly where the two runs of keys may change places. -/
theorem transferFee_keepsRoles_iff {ix : InstructionUpdate} {tag n : UInt8} {data : List UInt8}
    (mint recipient authority : Pubkey) {signers sources : List Pubkey}
    (hdata : ix.data = tag :: data)
    (hunpack : unpack data = some (.withdrawWithheldTokensFromAccounts n))
    (hn : n.toNat = sources.length) :
    KeepsRoles (fun accounts => TransferFeeIx.tryParse unpack { ix with accounts })
        [mint, recipient, authority] signers sources
        (.withdrawWithheldTokensFromAccounts mint recipient authority sources signers
          n.toUInt32) ↔
      signers ++ sources = sources ++ signers := by
  have hparse := TransferFeeIx.tryParse_eq hdata hunpack
  have hsplit : TransferFeeIx.tryParse unpack
        { ix with accounts := [mint, recipient, authority] ++ signers ++ sources } =
      .ok (.withdrawWithheldTokensFromAccounts mint recipient authority
        ((signers ++ sources).take sources.length) ((signers ++ sources).drop sources.length)
        n.toUInt32) := by
    rw [hparse, ← hn]
    refine transferFeeMessage_withdraw (signers ++ sources) ?_
    rw [List.length_append]
    omega
  constructor
  · intro h
    have heq := hsplit.symm.trans h.parsed
    simp only [Except.ok.injEq, TransferFeeIx.withdrawWithheldTokensFromAccounts.injEq, true_and,
      and_true] at heq
    calc signers ++ sources
        = (signers ++ sources).take sources.length ++ (signers ++ sources).drop sources.length :=
          (List.take_append_drop _ _).symm
      _ = sources ++ signers := by rw [heq.1, heq.2]
  · intro h
    refine ⟨?_, fun accounts hshort => ?_⟩
    · show TransferFeeIx.tryParse unpack { ix with accounts := _ } = _
      rw [hsplit, h, List.take_left, List.drop_left]
    · have herror := transferFeeMessage_short (n := n) (hn ▸ hshort)
      exact ⟨_, by simp, (hparse accounts).trans herror⟩

/-- The second parser keeps the roles exactly where there are no signers and one source. -/
theorem confidentialTransferFee_keepsRoles_iff {ix : InstructionUpdate} {tag kind : UInt8}
    {data : List UInt8} (mint recipient sysvar authority : Pubkey) {signers sources : List Pubkey}
    (hdata : ix.data = tag :: kind :: data)
    (htry : tryFrom kind = some .withdrawWithheldTokensFromAccounts) (hsources : sources ≠ []) :
    KeepsRoles (fun accounts => ConfidentialTransferFeeIx.tryParse tryFrom { ix with accounts })
        [mint, recipient, sysvar, authority] signers sources
        (.withdrawWithheldTokensFromAccounts mint recipient sysvar authority sources signers) ↔
      signers = [] ∧ sources.length = 1 := by
  have hparse := ConfidentialTransferFeeIx.tryParse_eq hdata htry
  have hpos := List.length_pos_of_ne_nil hsources
  have hall : ConfidentialTransferFeeIx.tryParse tryFrom
        { ix with accounts := [mint, recipient, sysvar, authority] ++ signers ++ sources } =
      .ok (.withdrawWithheldTokensFromAccounts mint recipient sysvar authority
        (signers ++ sources) []) := by
    rw [hparse]
    refine confidentialTransferFeeMessage_withdraw (signers ++ sources) ?_
    rw [List.length_append]
    omega
  constructor
  · intro h
    have heq := hall.symm.trans h.parsed
    simp only [Except.ok.injEq, ConfidentialTransferFeeIx.withdrawWithheldTokensFromAccounts.injEq,
      true_and] at heq
    refine ⟨heq.2.symm, ?_⟩
    -- five keys are enough for the parser, whatever number of sources there is
    by_contra hmany
    obtain ⟨failure, -, herror⟩ := h.refused [mint, mint, mint, mint, mint] (by
      simp only [List.length_cons, List.length_nil]
      omega)
    have hok := (hparse [mint, mint, mint, mint, mint]).trans
      (confidentialTransferFeeMessage_withdraw [mint] le_rfl)
    exact absurd (hok.symm.trans herror) nofun
  · rintro ⟨rfl, hone⟩
    refine ⟨hall, fun accounts hshort => ?_⟩
    have herror := confidentialTransferFeeMessage_short (hone ▸ hshort)
    exact ⟨_, by simp, (hparse accounts).trans herror⟩

end

/-- Withdrawals of withheld fees in the layout of Token-2022, with any signers and any sources:
when the messages of the two parsers have the sources and the signers in their places, and lists
that are too short are refused. -/
theorem withdrawal_roles_iff (unpack : List UInt8 → Option SplTransferFeeInstruction)
    (tryFrom : UInt8 → Option SplConfidentialTransferFeeInstruction)
    (feeIx confidentialIx : InstructionUpdate) (tag confidentialTag kind n : UInt8)
    (data confidentialData : List UInt8) (mint recipient sysvar authority : Pubkey)
    (signers sources : List Pubkey) (hsources : sources ≠ []) (hn : n.toNat = sources.length)
    (hdata : feeIx.data = tag :: data)
    (hunpack : unpack data = some (.withdrawWithheldTokensFromAccounts n))
    (hconfidential : confidentialIx.data = confidentialTag :: kind :: n :: confidentialData)
    (htry : tryFrom kind = some .withdrawWithheldTokensFromAccounts) :
    (KeepsRoles (fun accounts => TransferFeeIx.tryParse unpack { feeIx with accounts })
        [mint, recipient, authority] signers sources
        (.withdrawWithheldTokensFromAccounts mint recipient authority sources signers
          n.toUInt32) ↔
      signers ++ sources = sources ++ signers) ∧
    (KeepsRoles
        (fun accounts => ConfidentialTransferFeeIx.tryParse tryFrom { confidentialIx with accounts })
        [mint, recipient, sysvar, authority] signers sources
        (.withdrawWithheldTokensFromAccounts mint recipient sysvar authority sources signers) ↔
      signers = [] ∧ sources.length = 1) :=
  ⟨transferFee_keepsRoles_iff mint recipient authority hdata hunpack hn,
    confidentialTransferFee_keepsRoles_iff mint recipient sysvar authority hconfidential htry
      hsources⟩

/-! ## One multisig signer -/

/-- The decoders on the data of a withdrawal from accounts, and on no other. -/
def unpackWithdrawal : List UInt8 → Option SplTransferFeeInstruction
  | 3 :: n :: _ => some (.withdrawWithheldTokensFromAccounts n)
  | _ => none

def withdrawalKind (byte : UInt8) : Option SplConfidentialTransferFeeInstruction :=
  if byte = 2 then some .withdrawWithheldTokensFromAccounts else none

def numberedKey (n : UInt8) : Pubkey := .replicate 32 n

/-- The signer of a withdrawal from one account ends up as the source. -/
theorem withdrawal_signer_as_source :
    ¬KeepsRoles
        (fun accounts =>
          TransferFeeIx.tryParse unpackWithdrawal { withData [26, 3, 1] with accounts })
        [numberedKey 1, numberedKey 2, numberedKey 3] [numberedKey 4] [numberedKey 5]
        (.withdrawWithheldTokensFromAccounts (numberedKey 1) (numberedKey 2) (numberedKey 3)
          [numberedKey 5] [numberedKey 4] 1) ∧
      ¬KeepsRoles
        (fun accounts =>
          ConfidentialTransferFeeIx.tryParse withdrawalKind
            { withData [37, 2, 1] with accounts })
        [numberedKey 1, numberedKey 2, numberedKey 9, numberedKey 3] [numberedKey 4]
        [numberedKey 5]
        (.withdrawWithheldTokensFromAccounts (numberedKey 1) (numberedKey 2) (numberedKey 9)
          (numberedKey 3) [numberedKey 5] [numberedKey 4]) := by
  constructor
  · intro h
    have heq := (transferFee_keepsRoles_iff (n := 1) _ _ _ rfl rfl rfl).mp h
    exact absurd heq (by decide)
  · intro h
    have heq := (confidentialTransferFee_keepsRoles_iff _ _ _ _ rfl rfl (by simp)).mp h
    exact absurd heq.1 (by simp)

theorem withdrawal_roles_iff_two_sources :
    (KeepsRoles
        (fun accounts =>
          TransferFeeIx.tryParse unpackWithdrawal { withData [26, 3, 2] with accounts })
        [numberedKey 1, numberedKey 2, numberedKey 3] [numberedKey 4]
        [numberedKey 5, numberedKey 6]
        (.withdrawWithheldTokensFromAccounts (numberedKey 1) (numberedKey 2) (numberedKey 3)
          [numberedKey 5, numberedKey 6] [numberedKey 4] 2) ↔
      [numberedKey 4] ++ [numberedKey 5, numberedKey 6] =
        [numberedKey 5, numberedKey 6] ++ [numberedKey 4]) ∧
    (KeepsRoles
        (fun accounts =>
          ConfidentialTransferFeeIx.tryParse withdrawalKind
            { withData [37, 2, 2] with accounts })
        [numberedKey 1, numberedKey 2, numberedKey 9, numberedKey 3] [numberedKey 4]
        [numberedKey 5, numberedKey 6]
        (.withdrawWithheldTokensFromAccounts (numberedKey 1) (numberedKey 2) (numberedKey 9)
          (numberedKey 3) [numberedKey 5, numberedKey 6] [numberedKey 4]) ↔
      [numberedKey 4] = [] ∧ [numberedKey 5, numberedKey 6].length = 1) :=
  withdrawal_roles_iff unpackWithdrawal withdrawalKind (withData [26, 3, 2])
    (withData [37, 2, 2]) 26 37 2 2 [3, 2] [] (numberedKey 1) (numberedKey 2) (numberedKey 9)
    (numberedKey 3) [numberedKey 4] [numberedKey 5, numberedKey 6] (by simp) rfl rfl rfl rfl rfl

end Shipstern.Token
