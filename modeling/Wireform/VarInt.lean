import Wireform.Decoder

/-!
# Variable-length integers

A number is cut into groups of seven bits, least significant group first; every byte but the last
has its highest bit set. A 32-bit number takes one to five bytes and a 64-bit number one to ten.
The reader accepts longer forms than needed, up to the same width, and drops the bits beyond it;
the writer gives the shortest form.
-/

namespace Wireform.VarInt

/-- The largest width of a 32-bit number, in bytes. -/
def maxWidth32 : Nat := 5

/-- The largest width of a 64-bit number, in bytes. -/
def maxWidth64 : Nat := 10

/-- Reads groups while bytes are continued: `width` bytes are still allowed, the next group counts
`scale`-fold, and `sum` is the number read so far. -/
def groups (tooBig : Fault) : (width scale sum : Nat) → Decoder Nat
  | 0, _, _ => throw tooBig
  | width + 1, scale, sum => do
    let b ← Decoder.byte
    let sum := sum + b.toNat % 128 * scale
    if b < 128 then return sum
    groups tooBig width (scale * 128) sum

/-- Reads a 32-bit number. -/
def decode32 : Decoder Int32 := do
  return Int32.ofNat (← groups .malformedVarInt maxWidth32 1 0)

/-- Reads a 64-bit number. -/
def decode64 : Decoder Int64 := do
  return Int64.ofNat (← groups .malformedVarLong maxWidth64 1 0)

/-- The groups of a number, the last one not continued. -/
def ofNat (n : Nat) : Bytes :=
  if n / 128 = 0 then [UInt8.ofNat n]
  else UInt8.ofNat (n % 128 + 128) :: ofNat (n / 128)
termination_by n
decreasing_by omega

/-- The bytes of a 32-bit number, taken without sign. -/
def encode32 (v : Int32) : Bytes := ofNat v.toUInt32.toNat

/-- The bytes of a 64-bit number, taken without sign. -/
def encode64 (v : Int64) : Bytes := ofNat v.toUInt64.toNat

/-- The number of bytes that the groups of a number take. -/
def sizeOfNat (n : Nat) : Nat :=
  if n < 128 then 1 else sizeOfNat (n / 128) + 1
termination_by n
decreasing_by omega

/-- The number of bytes a 32-bit number takes. -/
def size (v : Int32) : Nat := sizeOfNat v.toUInt32.toNat

end Wireform.VarInt
