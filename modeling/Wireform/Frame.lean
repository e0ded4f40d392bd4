import Wireform.Buffer
import Wireform.Config.Settings

/-!
# Frames

A stream of packets: each frame is a length of one to three bytes, then the packet's number and its
body, which the length covers. The decoder takes one frame off the front of the bytes received so
far and leaves them alone while the frame is incomplete. A length over the limit is refused before
anything is buffered for it.
-/

namespace Wireform

/-- A packet: its number, and a body read up to the number. -/
structure Frame where
  id : Int32
  body : Buffer
  deriving DecidableEq, Inhabited

namespace Frame

/-- The longest length, in bytes. -/
def maxLengthWidth : Nat := 3

/-- Cuts a stream into frames of at most `limit` bytes and decodes them with `limits`. -/
structure Codec where
  limit : Nat
  limits : Limits
  deriving DecidableEq, Repr

namespace Codec

/-- A codec for frames of at most `limit` bytes, or of as many as a length can declare. -/
def make (limit : Nat) (limits : Limits) : Codec := ⟨min limit maxFrameBytes, limits⟩

/-- The codec of a configuration. -/
def ofSettings (s : Config.CodecSettings) : Codec := make s.maxFrame s.limits

/-- The codec for all frames, with the standard limits. -/
def standard : Codec := make maxFrameBytes .standard

instance : Inhabited Codec := ⟨standard⟩

end Codec

/-- Reads a length without consuming it: `left` more bytes are allowed, `width` have been read, the
next group counts `scale`-fold and `sum` is the length read so far. -/
def lengthGroups : (left width scale sum : Nat) → Bytes → Except Fault (Option (Nat × Nat))
  | 0, _, _, _, _ => .error .malformedVarInt
  | _ + 1, _, _, _, [] => .ok none
  | left + 1, width, scale, sum, b :: rest =>
    let sum := sum + b.toNat % 128 * scale
    if b < 128 then .ok (some (width + 1, sum))
    else lengthGroups left (width + 1) (scale * 128) sum rest

/-- The width of the length at the front and the length itself, nothing while it is incomplete. -/
def header (src : Bytes) : Except Fault (Option (Nat × Nat)) :=
  lengthGroups maxLengthWidth 0 1 0 src

/-- Appends a number in groups of seven bits, lowest first, until one group is left. -/
def putGroups (n : Nat) (dst : Bytes) : Bytes :=
  if n < 128 then dst ++ [UInt8.ofNat n]
  else putGroups (n / 128) (dst ++ [UInt8.ofNat (n % 128 + 128)])
termination_by n
decreasing_by omega

/-- Works on the bytes received so far. -/
abbrev Stream := EStateM Fault Bytes

/-- Takes a frame off the front of a stream, if a whole one is there. A frame whose number cannot
be read is taken off too. -/
def Codec.decode (c : Codec) : Stream (Option Frame) := fun src =>
  match header src with
  | .error e => .error e src
  | .ok none => .ok none src
  | .ok (some (width, length)) =>
    if c.limit < length then .error (.oversizedPacket length) src
    else
      match Decoder.take length (src.drop width) with
      | .error _ _ => .ok none src
      | .ok content rest =>
        match Buffer.readVarInt32 { Buffer.ofBytes content with limits := c.limits } with
        | .ok id body => .ok (some ⟨id, body⟩) rest
        | .error e _ => .error e rest

/-- Takes a frame off a stream that has ended: bytes that make no frame are a fault. The codec has
no such step of its own. This is the one that the library of streams supplies by default to a codec
that only says how to decode: decode once more, and fail if that finds no frame while bytes are
left. -/
def Codec.decodeEnd (c : Codec) : Stream (Option Frame) := do
  match ← c.decode with
  | some frame => return some frame
  | none =>
    if !(← get).isEmpty then throw (.io "bytes remaining on stream")
    return none

/-- The number of bytes that the length of a frame declares. -/
def declaredSize (f : Frame) : Nat := VarInt.size f.id + f.body.unreadSize

/-- Appends a frame to a stream: the number, and what is left to read of the body. -/
def Codec.encode (c : Codec) (f : Frame) : Stream Unit := do
  if c.limit < f.declaredSize then throw (.oversizedPacket f.declaredSize)
  modify fun dst =>
    putGroups f.id.toUInt32.toNat (putGroups f.declaredSize dst) ++ f.body.unread

end Frame

end Wireform
