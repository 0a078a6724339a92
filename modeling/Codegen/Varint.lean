/-
Numbers of variable length: seven bits a byte, least significant group first, the
high bit set on every byte but the last.

The numbers are 64 bits wide, so at most ten bytes are read and the tenth has room
for one bit.  Whether a number is too large is decided byte by byte, before looking
at what follows, so an input that is both too large and cut short is too large.
-/

namespace Codegen

/-- Why no number could be read. -/
inductive VarintError where
  /-- The bytes ended before a byte with a clear high bit. -/
  | truncated
  /-- The number needs more than 64 bits. -/
  | overflow
deriving DecidableEq, Repr

namespace Varint

/-- Read groups from position `i` of a number on: their value, and how many bytes they took. -/
def decodeAt : Nat → List UInt8 → Except VarintError (Nat × Nat)
  | _, [] => .error .truncated
  | i, b :: bs =>
    let payload := b.toNat % 128
    if 9 < i ∨ (i = 9 ∧ 1 < payload) then .error .overflow
    else if b.toNat < 128 then .ok (payload, 1)
    else
      match decodeAt (i + 1) bs with
      | .ok (value, used) => .ok (payload + 128 * value, used + 1)
      | .error e => .error e

/-- Read one number from the front: its value, and how many bytes it took. -/
def decode (bs : List UInt8) : Except VarintError (UInt64 × Nat) :=
  match decodeAt 0 bs with
  | .ok (value, used) => .ok (UInt64.ofNat value, used)
  | .error e => .error e

/-- The shortest sequence of groups for a number of any size. -/
def encodeNat (n : Nat) : List UInt8 :=
  if n < 128 then [UInt8.ofNat n]
  else UInt8.ofNat (n % 128 + 128) :: encodeNat (n / 128)

/-- The shortest encoding of a 64-bit number. -/
def encode (v : UInt64) : List UInt8 := encodeNat v.toNat

/-- How many bytes `encode` writes, from the position of the highest bit. -/
def length (v : UInt64) : Nat := v.toNat.log2 / 7 + 1

end Varint

end Codegen
