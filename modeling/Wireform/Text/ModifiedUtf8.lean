import Wireform.Text.Utf16
import Wireform.Decoder

/-!
# Modified UTF-8

The text form of named tags. Each UTF-16 unit is written on its own, in one to three bytes: a
surrogate pair takes six bytes, and the unit zero takes two, so no byte of a text is zero. The
reader accepts any group of the right shape, overlong ones too.
-/

namespace Wireform.ModifiedUtf8

/-- The longest written form, in bytes: its length is a two-byte number. -/
def maxBytes : Nat := 65535

/-- The bytes of a unit. -/
def unitBytes (u : UInt16) : Bytes :=
  if 0x0001 ≤ u ∧ u ≤ 0x007F then [u.toUInt8]
  else if u ≤ 0x07FF then [(u >>> 6).toUInt8 ||| 0xC0, (u &&& 0x3F).toUInt8 ||| 0x80]
  else [(u >>> 12).toUInt8 ||| 0xE0, ((u >>> 6) &&& 0x3F).toUInt8 ||| 0x80,
    (u &&& 0x3F).toUInt8 ||| 0x80]

/-- The bytes of a text, unless they are too many. -/
def encode (s : String) : Except Nbt.WriteFault Bytes :=
  let bytes := (Utf16.units s).flatMap unitBytes
  let size := bytes.length
  if size ≤ maxBytes then .ok bytes else .error (.textTooLong size)

/-- Whether a byte continues a group. -/
def isTail (b : UInt8) : Bool := b &&& 0xC0 == 0x80

/-- The bits a continuation byte carries. -/
def tailBits (b : UInt8) : UInt16 := (b &&& 0x3F).toUInt16

/-- Reads groups: `offset` bytes have been read, `acc` holds their units in reverse. -/
def unitsLoop (offset : Nat) (acc : List UInt16) : Bytes → Except Nbt.ReadFault (List UInt16)
  | [] => .ok acc.reverse
  | b :: rest =>
    if b < 0x80 then unitsLoop (offset + 1) (b.toUInt16 :: acc) rest
    else if b &&& 0xE0 == 0xC0 then
      match rest with
      | b₂ :: rest =>
        if isTail b₂ then
          unitsLoop (offset + 2) (((b &&& 0x1F).toUInt16 <<< 6 ||| tailBits b₂) :: acc) rest
        else .error (.malformedText (offset + 1))
      | [] => .error (.malformedText offset)
    else if b &&& 0xF0 == 0xE0 then
      match rest with
      | b₂ :: b₃ :: rest =>
        if isTail b₂ && isTail b₃ then
          unitsLoop (offset + 3)
            (((b &&& 0x0F).toUInt16 <<< 12 ||| tailBits b₂ <<< 6 ||| tailBits b₃) :: acc) rest
        else .error (.malformedText (offset + 1))
      | _ => .error (.malformedText offset)
    else .error (.malformedText offset)

/-- The units written in a string of bytes. -/
def decodeUnits (bytes : Bytes) : Except Nbt.ReadFault (List UInt16) := unitsLoop 0 [] bytes

/-- The text written in a string of bytes, unpaired surrogates replaced. -/
def decode (bytes : Bytes) : Except Nbt.ReadFault String := do
  return Utf16.lossy (← decodeUnits bytes)

end Wireform.ModifiedUtf8
