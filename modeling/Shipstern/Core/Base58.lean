import Shipstern.Core.Instruction
import Shipstern.Lib.Radix

/-!
# Base58 text of public keys

Keys are printed and parsed with the `bs58` crate, which is a parameter of the model.
`Lawful` is what the crate documents of its default alphabet; `Bs58.bitcoin` is a codec
that has these properties.
-/

namespace Shipstern.Core

/-- The base58 codec of the `bs58` crate. -/
structure Bs58 where
  encode : List UInt8 → List Char
  decode : List Char → Option (List UInt8)

/-- The base58 text of a key (`Display`). -/
def Pubkey.display (bs58 : Bs58) (key : Pubkey) : List Char := bs58.encode key.toList

/-- A key from its base58 text (`FromStr`). -/
def Pubkey.fromStr (bs58 : Bs58) (text : List Char) : Option Pubkey :=
  (bs58.decode text).bind Pubkey.tryFrom

namespace Bs58

/-- Alphanumeric characters without `0`, `O`, `I` and `l`. -/
def alphabet : List Char := "123456789ABCDEFGHJKLMNPQRSTUVWXYZabcdefghijkmnopqrstuvwxyz".toList

/-- Decoding inverts encoding, and the text consists of characters of the alphabet. -/
structure Lawful (bs58 : Bs58) : Prop where
  decode_encode : ∀ bytes, bs58.decode (bs58.encode bytes) = some bytes
  encode_alphabet : ∀ bytes, ∀ c ∈ bs58.encode bytes, c ∈ alphabet

theorem Lawful.fromStr_display {bs58 : Bs58} (h : bs58.Lawful) (key : Pubkey) :
    Pubkey.fromStr bs58 (key.display bs58) = some key := by
  simp [Pubkey.fromStr, Pubkey.display, h.decode_encode]

/-- Base58 with the Bitcoin alphabet. -/
def bitcoin : Bs58 where
  encode bytes :=
    (Radix.convert 256 58 (bytes.map UInt8.toNat)).map fun d => alphabet.getD d '1'
  decode text :=
    if text.all (· ∈ alphabet) then
      some ((Radix.convert 58 256 (text.map alphabet.idxOf)).map UInt8.ofNat)
    else none

theorem idxOf_getD {d : Nat} (hd : d < 58) : alphabet.idxOf (alphabet.getD d '1') = d := by
  have htable : ∀ d < 58, alphabet.idxOf (alphabet.getD d '1') = d := by decide +kernel
  exact htable d hd

theorem getD_mem_alphabet {d : Nat} (hd : d < 58) : alphabet.getD d '1' ∈ alphabet := by
  have htable : ∀ d < 58, alphabet.getD d '1' ∈ alphabet := by decide +kernel
  exact htable d hd

theorem bitcoin_lawful : bitcoin.Lawful := by
  have hdigits : ∀ bytes : List UInt8,
      ∀ d ∈ Radix.convert 256 58 (bytes.map UInt8.toNat), d < 58 :=
    fun _ => Radix.convert_lt (by decide)
  have halphabet : ∀ bytes, ∀ c ∈ bitcoin.encode bytes, c ∈ alphabet := by
    intro bytes c hc
    obtain ⟨d, hd, rfl⟩ := List.mem_map.mp hc
    exact getD_mem_alphabet (hdigits bytes d hd)
  refine ⟨?_, halphabet⟩
  intro bytes
  have hsymbols : (bitcoin.encode bytes).map alphabet.idxOf =
      Radix.convert 256 58 (bytes.map UInt8.toNat) := by
    rw [bitcoin, List.map_map]
    exact (List.map_congr_left fun d hd => idxOf_getD (hdigits bytes d hd)).trans (List.map_id' _)
  have hbytes : ∀ d ∈ bytes.map UInt8.toNat, d < 256 := by
    intro d hd
    obtain ⟨byte, -, rfl⟩ := List.mem_map.mp hd
    exact byte.toNat_lt
  have hvalid : (bitcoin.encode bytes).all (· ∈ alphabet) = true := by
    simpa using halphabet bytes
  change (if (bitcoin.encode bytes).all (· ∈ alphabet) then
    some ((Radix.convert 58 256 ((bitcoin.encode bytes).map alphabet.idxOf)).map UInt8.ofNat)
    else none) = some bytes
  rw [if_pos hvalid, hsymbols, Radix.convert_convert (by decide) hbytes, List.map_map]
  congr 1
  simp [Function.comp_def]

end Bs58

theorem Pubkey.display_injective {bs58 : Bs58} (h58 : bs58.Lawful) :
    Function.Injective (Pubkey.display bs58) := by
  intro key key' h
  have hparsed := congrArg (Pubkey.fromStr bs58) h
  rw [h58.fromStr_display, h58.fromStr_display] at hparsed
  exact Option.some.inj hparsed

end Shipstern.Core
