import Wireform.VarInt
import Wireform.Value
import Wireform.Limits
import Wireform.Text.Utf8
import Wireform.Nbt.Decode
import Wireform.Nbt.Writer

/-!
# The encodings

How each wire type is written, read and passed over.

A string is its length in bytes, as a variable-length integer, and its UTF-8 form. Its length is
checked twice: before any byte is read, against four bytes per unit allowed, and once decoded,
against the units allowed. A bit set is its number of words and the words. An absent tree is the
end mark, so one byte tells it from a tree. An identifier is two strings, a 128-bit identity two
64-bit numbers; the other types have a fixed width. Numbers are big-endian.
-/

namespace Wireform

/-! ### Writing -/

namespace Encode

/-- A string behind its length. -/
def text (s : String) : Bytes :=
  let bytes := Utf8.encode s
  VarInt.encode32 (Int32.ofNat bytes.length) ++ bytes

/-- The words of a set behind their number. -/
def bitSet (s : BitSet) : Bytes :=
  VarInt.encode32 (Int32.ofNat s.words.length) ++
    s.words.flatMap fun w => Bytes.ofNat 8 w.toNat

/-- A tree, or the end mark in the place of one. -/
def nbt : Option Nbt.Tree → Emission
  | none => .ofBytes [Nbt.endId]
  | some t => t.emit

end Encode

/-- Writes a value as a wire type. -/
def WireType.emit : WireType → Value → Emission
  | .varInt, .int32 v => .ofBytes (VarInt.encode32 v)
  | .int, .int32 v => .ofBytes (Bytes.ofNat 4 v.toUInt32.toNat)
  | .varLong, .int64 v => .ofBytes (VarInt.encode64 v)
  | .long, .int64 v => .ofBytes (Bytes.ofNat 8 v.toUInt64.toNat)
  | .unsignedByte, .uint8 v => .ofBytes [v]
  | .byte, .int8 v => .ofBytes [v.toUInt8]
  | .boolean, .bool v => .ofBytes [if v then 1 else 0]
  | .short, .int16 v => .ofBytes (Bytes.ofNat 2 v.toUInt16.toNat)
  | .float, .float32 v => .ofBytes (Bytes.ofNat 4 v.bits.toNat)
  | .double, .float64 v => .ofBytes (Bytes.ofNat 8 v.bits.toNat)
  | .string, .text s => .ofBytes (Encode.text s)
  | .nbt, .nbt tree => Encode.nbt tree
  | .bitSet, .bitSet s => .ofBytes (Encode.bitSet s)
  | .identifier, .identifier i => .ofBytes (Encode.text i.space ++ Encode.text i.path)
  | .uuid, .uuid u => .ofBytes (Bytes.ofNat 8 u.high.toNat ++ Bytes.ofNat 8 u.low.toNat)
  | t, v => ⟨[], some (.typeMismatch (.native t v.kind))⟩

/-- The bytes of a field. -/
def Field.emit (f : Field) : Emission := f.tag.emit f.value

/-! ### Reading -/

namespace Decode

/-- A string of at most `max` UTF-16 units. -/
def text (max : Nat) : Decoder String := do
  let length ← VarInt.decode32
  let maxBytes := satMul max 4
  if length < 0 ∨ maxBytes < length.toInt.toNat then throw (.stringTooLong length.toInt maxBytes)
  let s := Utf8.lossy (← Decoder.take length.toInt.toNat)
  let units := Utf16.length s
  if max < units then throw (.stringTooLong units max)
  return s

/-- A set, if as many words as it declares can be there. -/
def bitSet : Decoder BitSet := do
  let length ← VarInt.decode32
  let max := (← Decoder.available) / 8
  if length < 0 ∨ max < length.toInt.toNat then throw (.bitSetTooLong length.toInt max)
  return .ofWords (← Decoder.replicate length.toInt.toNat do
    return UInt64.ofNat (← Decoder.number 8))

/-- A tree within the limits, or nothing where the end mark stands. -/
def nbt (limits : Limits) : Decoder (Option Nbt.Tree) := do
  if (← Decoder.peek) = Nbt.endId then
    Decoder.skip 1
    return none
  return some (← Nbt.decodeTree ⟨limits.nbtQuota, limits.nbtDepth⟩)

/-- Two strings. -/
def identifier (max : Nat) : Decoder Identifier := do
  let space ← text max
  let path ← text max
  return ⟨space, path⟩

/-- Passes over what is declared, in units of `unit` bytes. -/
def skipCounted (unit : Nat) : Decoder Unit := do
  let length ← VarInt.decode32
  if length < 0 then throw (.underflow 0 (← Decoder.available))
  Decoder.skip (satMul length.toInt.toNat unit)

end Decode

/-- Reads a value of a wire type. -/
def WireType.decode (limits : Limits) : WireType → Decoder Value
  | .varInt => do return .int32 (← VarInt.decode32)
  | .varLong => do return .int64 (← VarInt.decode64)
  | .unsignedByte => do return .uint8 (← Decoder.byte)
  | .byte => do return .int8 (← Decoder.byte).toInt8
  | .string => do return .text (← Decode.text limits.stringUnits)
  | .nbt => do return .nbt (← Decode.nbt limits)
  | .bitSet => do return .bitSet (← Decode.bitSet)
  | .boolean => do return .bool ((← Decoder.byte) != 0)
  | .short => do return .int16 (Int16.ofNat (← Decoder.number 2))
  | .int => do return .int32 (Int32.ofNat (← Decoder.number 4))
  | .long => do return .int64 (Int64.ofNat (← Decoder.number 8))
  | .float => do return .float32 ⟨UInt32.ofNat (← Decoder.number 4)⟩
  | .double => do return .float64 ⟨UInt64.ofNat (← Decoder.number 8)⟩
  | .identifier => do return .identifier (← Decode.identifier limits.stringUnits)
  | .uuid => do
    let bytes ← Decoder.take 16
    let half (part : Bytes) : UInt64 := UInt64.ofNat part.value
    return .uuid ⟨half (bytes.take 8), half (bytes.drop 8)⟩

/-- Passes over a value of a wire type without keeping it. -/
def WireType.skip (limits : Limits) : WireType → Decoder Unit
  | .varInt => do let _ ← VarInt.decode32
  | .varLong => do let _ ← VarInt.decode64
  | .nbt => do let _ ← Decode.nbt limits
  | .string => Decode.skipCounted 1
  | .bitSet => Decode.skipCounted 8
  | .identifier => do
    Decode.skipCounted 1
    Decode.skipCounted 1
  | t => Decoder.skip (t.width?.getD 0)

end Wireform
