import Shipstern.Lib.ByteReader
import Shipstern.Token.Accounts

/-!
# Instructions of the token program

The messages of the token program, and how an unpacked instruction becomes one: the number of
accounts is checked and the accounts are taken by their positions. The decoder of the `spl-token`
crate is not modelled; what it returns is `SplTokenInstruction`.
-/

open Shipstern.Core (Pubkey InstructionUpdate)

namespace Shipstern.Token

inductive AuthorityType
  | mintTokens
  | freezeAccount
  | accountOwner
  | closeAccount
deriving DecidableEq

/-- The instructions as the `spl-token` crate unpacks them. -/
inductive SplTokenInstruction
  | initializeMint (decimals : UInt8) (mintAuthority : Pubkey) (freezeAuthority : Option Pubkey)
  | initializeAccount
  | initializeMultisig (m : UInt8)
  | transfer (amount : UInt64)
  | approve (amount : UInt64)
  | revoke
  | setAuthority (authorityType : AuthorityType) (newAuthority : Option Pubkey)
  | mintTo (amount : UInt64)
  | burn (amount : UInt64)
  | closeAccount
  | freezeAccount
  | thawAccount
  | transferChecked (amount : UInt64) (decimals : UInt8)
  | approveChecked (amount : UInt64) (decimals : UInt8)
  | mintToChecked (amount : UInt64) (decimals : UInt8)
  | burnChecked (amount : UInt64) (decimals : UInt8)
  | initializeAccount2 (owner : Pubkey)
  | syncNative
  | initializeAccount3 (owner : Pubkey)
  | initializeMultisig2 (m : UInt8)
  | initializeMint2 (decimals : UInt8) (mintAuthority : Pubkey) (freezeAuthority : Option Pubkey)
  | getAccountDataSize
  | initializeImmutableOwner
  | amountToUiAmount (amount : UInt64)
  | uiAmountToAmount (uiAmount : List Char)
deriving DecidableEq

/-! ## Messages -/

/-- The message of an instruction of type `I`. -/
structure TokenProgram (I : Type) where
  instruction : Option I

/-- An entry of a batch, whose instruction is missing when it could not be parsed. -/
structure BatchInstruction (I : Type) where
  numberOfAccounts : UInt32
  accounts : List Pubkey
  data : List UInt8
  instruction : Option (TokenProgram I)

/-- The account roles of an instruction, then its arguments. -/
inductive Instruction
  | transfer (source destination owner : Pubkey) (multisigSigners : List Pubkey) (amount : UInt64)
  | initializeMint (mint : Pubkey) (decimals : UInt32) (mintAuthority : Pubkey)
      (freezeAuthority : Option Pubkey)
  | initializeAccount (account mint owner : Pubkey)
  | initializeAccount2 (account mint owner : Pubkey)
  | initializeAccount3 (account mint owner : Pubkey)
  | initializeMultisig (multisig : Pubkey) (signers : List Pubkey) (m : UInt32)
  | approve (source delegate owner : Pubkey) (multisigSigners : List Pubkey) (amount : UInt64)
  | revoke (source owner : Pubkey) (multisigSigners : List Pubkey)
  | setAuthority (account currentAuthority : Pubkey) (multisigSigners : List Pubkey)
      (authorityType : Int32) (newAuthority : Option Pubkey)
  | mintTo (mint account mintAuthority : Pubkey) (multisigSigners : List Pubkey) (amount : UInt64)
  | burn (account mint owner : Pubkey) (multisigSigners : List Pubkey) (amount : UInt64)
  | closeAccount (account destination owner : Pubkey) (multisigSigners : List Pubkey)
  | freezeAccount (account mint mintFreezeAuthority : Pubkey) (multisigSigners : List Pubkey)
  | thawAccount (account mint mintFreezeAuthority : Pubkey) (multisigSigners : List Pubkey)
  | transferChecked (source mint destination owner : Pubkey) (multisigSigners : List Pubkey)
      (amount : UInt64) (decimals : UInt32)
  | approveChecked (source mint delegate owner : Pubkey) (multisigSigners : List Pubkey)
      (amount : UInt64) (decimals : UInt32)
  | mintToChecked (mint account mintAuthority : Pubkey) (multisigSigners : List Pubkey)
      (amount : UInt64) (decimals : UInt32)
  | burnChecked (account mint owner : Pubkey) (multisigSigners : List Pubkey) (amount : UInt64)
      (decimals : UInt32)
  | syncNative (account : Pubkey)
  | getAccountDataSize (mint : Pubkey)
  | initializeImmutableOwner (account : Pubkey)
  | amountToUiAmount (mint : Pubkey) (amount : UInt64)
  | uiAmountToAmount (mint : Pubkey) (uiAmount : List Char)
  | withdrawExcessLamports (source destination authority : Pubkey) (multisigSigners : List Pubkey)
  | unwrapLamports (source destination authority : Pubkey) (multisigSigners : List Pubkey)
      (amount : Option UInt64)
  | batch (instructions : List (BatchInstruction Instruction)) (remainingAccounts : List Pubkey)

def authorityTypeToProto : AuthorityType → Int32
  | .mintTokens => 0
  | .freezeAccount => 1
  | .accountOwner => 2
  | .closeAccount => 3

/-! ## From an unpacked instruction to its message -/

/-- The message of an unpacked instruction. -/
def tokenMessage (accounts : List Pubkey) : SplTokenInstruction → Parse Instruction
  | .transfer amount => do
      checkMinAccountsReq accounts.length 3
      pure (.transfer (← index accounts 0) (← index accounts 1) (← index accounts 2)
        (← sliceFrom accounts 3) amount)
  | .initializeAccount => do
      checkMinAccountsReq accounts.length 3
      pure (.initializeAccount (← index accounts 0) (← index accounts 1) (← index accounts 2))
  | .initializeMint decimals mintAuthority freezeAuthority
  | .initializeMint2 decimals mintAuthority freezeAuthority => do
      checkMinAccountsReq accounts.length 1
      pure (.initializeMint (← index accounts 0) decimals.toUInt32 mintAuthority freezeAuthority)
  | .initializeAccount2 owner => do
      checkMinAccountsReq accounts.length 2
      pure (.initializeAccount2 (← index accounts 0) (← index accounts 1) owner)
  | .initializeAccount3 owner => do
      checkMinAccountsReq accounts.length 2
      pure (.initializeAccount3 (← index accounts 0) (← index accounts 1) owner)
  -- the rent sysvar is between the account and its signers
  | .initializeMultisig m => do
      checkMinAccountsReq accounts.length 3
      pure (.initializeMultisig (← index accounts 0) (← sliceFrom accounts 2) m.toUInt32)
  | .initializeMultisig2 m => do
      checkMinAccountsReq accounts.length 2
      pure (.initializeMultisig (← index accounts 0) (← sliceFrom accounts 1) m.toUInt32)
  | .approve amount => do
      checkMinAccountsReq accounts.length 3
      pure (.approve (← index accounts 0) (← index accounts 1) (← index accounts 2)
        (← sliceFrom accounts 3) amount)
  | .revoke => do
      checkMinAccountsReq accounts.length 2
      pure (.revoke (← index accounts 0) (← index accounts 1) (← sliceFrom accounts 2))
  | .setAuthority authorityType newAuthority => do
      checkMinAccountsReq accounts.length 2
      pure (.setAuthority (← index accounts 0) (← index accounts 1) (← sliceFrom accounts 2)
        (authorityTypeToProto authorityType) newAuthority)
  | .mintTo amount => do
      checkMinAccountsReq accounts.length 3
      pure (.mintTo (← index accounts 0) (← index accounts 1) (← index accounts 2)
        (← sliceFrom accounts 3) amount)
  | .burn amount => do
      checkMinAccountsReq accounts.length 3
      pure (.burn (← index accounts 0) (← index accounts 1) (← index accounts 2)
        (← sliceFrom accounts 3) amount)
  | .closeAccount => do
      checkMinAccountsReq accounts.length 3
      pure (.closeAccount (← index accounts 0) (← index accounts 1) (← index accounts 2)
        (← sliceFrom accounts 3))
  | .freezeAccount => do
      checkMinAccountsReq accounts.length 3
      pure (.freezeAccount (← index accounts 0) (← index accounts 1) (← index accounts 2)
        (← sliceFrom accounts 3))
  | .thawAccount => do
      checkMinAccountsReq accounts.length 3
      pure (.thawAccount (← index accounts 0) (← index accounts 1) (← index accounts 2)
        (← sliceFrom accounts 3))
  | .transferChecked amount decimals => do
      checkMinAccountsReq accounts.length 4
      pure (.transferChecked (← index accounts 0) (← index accounts 1) (← index accounts 2)
        (← index accounts 3) (← sliceFrom accounts 4) amount decimals.toUInt32)
  | .approveChecked amount decimals => do
      checkMinAccountsReq accounts.length 4
      pure (.approveChecked (← index accounts 0) (← index accounts 1) (← index accounts 2)
        (← index accounts 3) (← sliceFrom accounts 4) amount decimals.toUInt32)
  | .mintToChecked amount decimals => do
      checkMinAccountsReq accounts.length 3
      pure (.mintToChecked (← index accounts 0) (← index accounts 1) (← index accounts 2)
        (← sliceFrom accounts 3) amount decimals.toUInt32)
  | .burnChecked amount decimals => do
      checkMinAccountsReq accounts.length 3
      pure (.burnChecked (← index accounts 0) (← index accounts 1) (← index accounts 2)
        (← sliceFrom accounts 3) amount decimals.toUInt32)
  | .syncNative => do
      checkMinAccountsReq accounts.length 1
      pure (.syncNative (← index accounts 0))
  | .getAccountDataSize => do
      checkMinAccountsReq accounts.length 1
      pure (.getAccountDataSize (← index accounts 0))
  | .initializeImmutableOwner => do
      checkMinAccountsReq accounts.length 1
      pure (.initializeImmutableOwner (← index accounts 0))
  | .amountToUiAmount amount => do
      checkMinAccountsReq accounts.length 1
      pure (.amountToUiAmount (← index accounts 0) amount)
  | .uiAmountToAmount uiAmount => do
      checkMinAccountsReq accounts.length 1
      pure (.uiAmountToAmount (← index accounts 0) uiAmount)

def unpackOptionalU64 : List UInt8 → Parse (Option UInt64)
  | [] | [0] => .ok none
  | 1 :: amount =>
      if amount.length = 8 then .ok (some (UInt64.ofNat (Wire.leNat amount)))
      else .error (.invalidData "Invalid optional u64 payload".toList)
  | _ => .error (.invalidData "Invalid optional u64 payload".toList)

def withdrawExcessLamports (accounts : List Pubkey) : Parse Instruction := do
  checkMinAccountsReq accounts.length 3
  pure (.withdrawExcessLamports (← index accounts 0) (← index accounts 1) (← index accounts 2)
    (← sliceFrom accounts 3))

def unwrapLamports (accounts : List Pubkey) (data : List UInt8) : Parse Instruction := do
  checkMinAccountsReq accounts.length 3
  pure (.unwrapLamports (← index accounts 0) (← index accounts 1) (← index accounts 2)
    (← sliceFrom accounts 3) (← unpackOptionalU64 (← sliceFrom data 1)))

/-! ## No index is out of bounds -/

namespace InBounds

variable {α β : Type} {accounts : List Pubkey} {data : List UInt8}

/-- An index that the check allows, and what comes after it. -/
theorem index_bind {i : Nat} {xs : List α} {next : α → Parse β} (h : i < xs.length)
    (hnext : ∀ a, InBounds (next a)) : InBounds (Token.index xs i >>= next) :=
  (InBounds.index h).bind fun a _ => hnext a

theorem sliceFrom_bind {start : Nat} {xs : List α} {next : List α → Parse β}
    (h : start ≤ xs.length) (hnext : ∀ ys, InBounds (next ys)) :
    InBounds (Token.sliceFrom xs start >>= next) :=
  (InBounds.sliceFrom h).bind fun ys _ => hnext ys

theorem tokenMessage (ixType : SplTokenInstruction) :
    InBounds (tokenMessage accounts ixType) := by
  cases ixType <;>
    rw [Token.tokenMessage] <;>
    refine .check fun h => ?_ <;>
    repeat' first
      | refine .index_bind (by omega) fun _ => ?_
      | refine .sliceFrom_bind (by omega) fun _ => ?_
      | exact .ok _

end InBounds

end Shipstern.Token
