import Wireform.Buffer
import Wireform.Config.Settings
import Wireform.Pending

/-!
# Synthesis

A packet is built in the shape of another revision of the protocol by writing its fields to a fresh
buffer and letting the reader of that revision read them back. The buffer carries the layout of its
fields, so a reader that disagrees with the list about the order or the types of the fields is
refused, and one that leaves fields behind is reported.
-/

namespace Wireform

/-- A type of packets, with the reader of its revision. -/
class Packet (α : Type) where
  reader : Buffer.Action α

/-- What packets are synthesized with. -/
structure Synthesizer where
  limits : Limits
  target? : Option Version
  deriving DecidableEq

namespace Synthesizer

/-- A synthesizer with given limits, for no version in particular. -/
def ofLimits (limits : Limits) : Synthesizer := ⟨limits, none⟩

/-- The synthesizer with the standard limits. -/
def standard : Synthesizer := ofLimits .standard

instance : Inhabited Synthesizer := ⟨standard⟩

/-- The synthesizer of a configuration. -/
def ofSettings (s : Config.CodecSettings) : Synthesizer := ofLimits s.limits

/-- Notes the version that packets are synthesized for. -/
def targeting (s : Synthesizer) (v : Version) : Synthesizer := { s with target? := some v }

/-- Writes fields behind `b`, noting in `layout` where each of them starts. -/
def writeFields : List Field → Layout → Buffer → Except Fault Buffer
  | [], layout, b => .ok { b with layout? := some layout }
  | f :: rest, layout, b =>
    match Buffer.write f b with
    | .ok _ b' => writeFields rest (layout.push b.size f.tag) b'
    | .error e _ => .error e

/-- The buffer of a list of fields, none of them read. -/
def encode (s : Synthesizer) (p : PendingFields) : Except Fault Buffer :=
  writeFields p.fields .empty (Buffer.ofLimits s.limits)

/-- Writes the fields, lets `build` read them back, and checks that it read all of them. -/
def synthesize (s : Synthesizer) (p : PendingFields) (build : Buffer.Action α) :
    Except Fault α := do
  let b ← s.encode p
  match (do
    let a ← build
    Buffer.checkAllRead
    return a : Buffer.Action α) b with
  | .ok a _ => .ok a
  | .error e _ => .error e

/-- Synthesizes a packet by the reader of its type. -/
def synthesizePacket (s : Synthesizer) (p : PendingFields) (α : Type) [Packet α] :
    Except Fault α :=
  s.synthesize p Packet.reader

end Synthesizer

/-- Synthesizes within the standard limits. -/
def PendingFields.commit (p : PendingFields) (build : Buffer.Action α) : Except Fault α :=
  Synthesizer.standard.synthesize p build

/-- Synthesizes a packet by the reader of its type within the standard limits. -/
def PendingFields.commitPacket (p : PendingFields) (α : Type) [Packet α] : Except Fault α :=
  p.commit Packet.reader

end Wireform
