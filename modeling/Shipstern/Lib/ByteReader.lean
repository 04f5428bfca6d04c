import Shipstern.Lib.Wire

/-!
# Reading numbers from bytes

Numbers of a fixed width in either byte order, with or without a sign, and the compact `u16` of
one to three bytes. A reader gives what it read and the bytes behind it.
-/

namespace Wire

def takeBytes (n : Nat) (bs : Bytes) : Option (Bytes × Bytes) :=
  if n ≤ bs.length then some (bs.take n, bs.drop n) else none

/-- The number that bytes stand for, the least significant first. -/
def leNat : Bytes → Nat
  | [] => 0
  | b :: bs => b.toNat + 256 * leNat bs

def natOf (bigEndian : Bool) (bs : Bytes) : Nat := leNat (if bigEndian then bs.reverse else bs)

/-- A number of `width` bytes. -/
def readNat (width : Nat) (bigEndian : Bool) (bs : Bytes) : Option (Nat × Bytes) := do
  let (front, rest) ← takeBytes width bs
  some (natOf bigEndian front, rest)

theorem takeBytes_append {n : Nat} {front : Bytes} (h : front.length = n) (rest : Bytes) :
    takeBytes n (front ++ rest) = some (front, rest) := by
  have hle : n ≤ (front ++ rest).length := by
    rw [List.length_append]
    omega
  rw [takeBytes, if_pos hle, List.take_left' h, List.drop_left' h]

theorem readNat_append {width : Nat} {bigEndian : Bool} {front rest : Bytes}
    (h : front.length = width) :
    readNat width bigEndian (front ++ rest) = some (natOf bigEndian front, rest) := by
  rw [readNat, takeBytes_append h]
  rfl

/-- The number that `width` bytes stand for in two's complement. -/
def toSigned (width n : Nat) : Int :=
  if n < 2 ^ (8 * width - 1) then n else (n : Int) - 2 ^ (8 * width)

/-- The third byte of a compact `u16`, behind the number read so far. -/
def readCompactThird (low : Nat) : Bytes → Option (Nat × Bytes)
  | [] => none
  | b :: rest => if b.toNat = 0 ∨ 3 < b.toNat then none else some (low + 16384 * b.toNat, rest)

/-- The second byte of a compact `u16`, behind the number read so far. -/
def readCompactSecond (low : Nat) : Bytes → Option (Nat × Bytes)
  | [] => none
  | b :: rest =>
      if b.toNat = 0 then none
      else if b.toNat < 128 then some (low + 128 * b.toNat, rest)
      else readCompactThird (low + 128 * (b.toNat - 128)) rest

/-- A compact `u16`: seven bits a byte, the least significant first, without a byte to spare. -/
def readCompactU16 : Bytes → Option (Nat × Bytes)
  | [] => none
  | b :: rest =>
      if b.toNat < 128 then some (b.toNat, rest) else readCompactSecond (b.toNat - 128) rest

/-- Text of the given number of bytes. -/
def readText (n : Nat) (bs : Bytes) : Option (Bytes × Bytes) := do
  let (front, rest) ← takeBytes n bs
  if ByteArray.validateUTF8 ⟨front.toArray⟩ then some (front, rest) else none

end Wire
